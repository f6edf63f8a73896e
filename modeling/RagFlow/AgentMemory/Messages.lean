/-
# Saving messages in a memory

The messages of a memory are rows of an index of its tenant, and a counter in Redis has their size.
Where new messages do not fit, messages are picked, first the forgotten ones and then the others by
age, and deleted; the index and the counter are changed one after the other.
-/

import Mathlib.Data.List.Sort
import Mathlib.Order.WithBot
import RagFlow.Math.Cover

namespace RagFlow.AgentMemory

/-! ## Sizes -/

/-- What `sys.getsizeof` says of a text, of an element of a vector as the embedding model returns
it, and of one as the index returns it. -/
structure Sizes where
  text : String → ℕ
  element : ℕ
  storedElement : ℕ
  text_pos : ∀ s, 0 < text s

/-- A message with the length of its vector. -/
structure Message (T : Type*) where
  messageId : ℕ
  content : String
  contentEmbed : ℕ
  validAt : T
  forgetAt : Option T
  contentEmbed_pos : 0 < contentEmbed
deriving DecidableEq

section Size

variable {T : Type*}

def calculateMessageSize (sizes : Sizes) (element : ℕ) (m : Message T) : ℕ :=
  sizes.text m.content + element * m.contentEmbed

/-- The size of a new message. -/
def newSize (sizes : Sizes) : Message T → ℕ := calculateMessageSize sizes sizes.element

/-- The size of a message that is read from the index. -/
def storedSize (sizes : Sizes) : Message T → ℕ := calculateMessageSize sizes sizes.storedElement

end Size

/-! ## The index and the counters -/

/-- The messages by tenant and memory, and the counters in Redis. -/
structure State (T : Type*) where
  messages : String → String → List (Message T)
  redis : String → Option ℤ

section Index

variable {T : Type*} [LinearOrder T]

/-- Messages by time, oldest first; those without a time come last. -/
def sortAsc (time : Message T → WithTop T) (l : List (Message T)) : List (Message T) :=
  l.mergeSort fun a b => decide (time a ≤ time b)

def forgottenTime (m : Message T) : WithTop T := m.forgetAt

def validTime (m : Message T) : WithTop T := m.validAt

def getForgottenMessages (l : List (Message T)) (limit : ℕ) : List (Message T) :=
  (sortAsc forgottenTime (l.filter fun m => m.forgetAt.isSome)).take limit

/-- `search` by `valid_at`, with the forgotten messages hidden. -/
def searchValid (l : List (Message T)) (limit : ℕ) : List (Message T) :=
  (sortAsc validTime (l.filter fun m => m.forgetAt.isNone)).take limit

/-- One loop of `pick_messages_to_delete_by_fifo`. -/
def pickLoop (sizes : Sizes) (sizeToDelete : ℤ) :
    List (Message T) → List ℕ × ℤ → List ℕ × ℤ
  | [], picked => picked
  | m :: ms, (ids, size) =>
    if size < sizeToDelete then
      pickLoop sizes sizeToDelete ms (ids ++ [m.messageId], size + storedSize sizes m)
    else (ids, size)

def pickMessagesToDeleteByFifo (sizes : Sizes) (l : List (Message T)) (sizeToDelete : ℤ) :
    List ℕ × ℤ :=
  let picked := pickLoop sizes sizeToDelete (getForgottenMessages l 512) ([], 0)
  if sizeToDelete ≤ picked.2 then picked
  else pickLoop sizes sizeToDelete (searchValid l 512) picked

/-- `calculate_memory_size` of one memory: the latest 2048 messages count. -/
def calculateMemorySize (sizes : Sizes) (l : List (Message T)) : ℤ :=
  Math.weight (storedSize sizes)
    ((l.mergeSort fun a b => decide (b.validAt ≤ a.validAt)).take 2048)

def redisKey (memoryId : String) : String := "memory_" ++ memoryId

def setRedis (st : State T) (key : String) (size : ℤ) : State T :=
  { st with redis := fun k => if k = key then some size else st.redis k }

/-- `incrby`, for which a key that does not exist is zero. -/
def incrby (st : State T) (key : String) (size : ℤ) : State T :=
  setRedis st key ((st.redis key).getD 0 + size)

def getMemorySizeCache (sizes : Sizes) (st : State T) (memoryId uid : String) : ℤ × State T :=
  match st.redis (redisKey memoryId) with
  | some size => (size, st)
  | none =>
    let size := calculateMemorySize sizes (st.messages uid memoryId)
    (size, setRedis st (redisKey memoryId) size)

/-- The messages of one memory change. -/
def setMessages (st : State T) (uid memoryId : String) (l : List (Message T)) : State T :=
  { st with messages := fun u m => if u = uid ∧ m = memoryId then l else st.messages u m }

end Index

/-! ## Requests -/

/-- How a bulk request ends. -/
inductive BulkAnswer where
  | answered (errors : List String)
  | timeout
  | raised (msg : String)
deriving DecidableEq

/-- What `insert` returns: the last attempt decides, and a timeout leaves no error. -/
def insertErrors : List BulkAnswer → List String → List String
  | [], errors => errors
  | .answered errors :: _, _ => errors
  | .timeout :: rest, _ => insertErrors rest []
  | .raised msg :: rest, _ => insertErrors rest [msg]

/-- What the services do during one call. -/
structure Requests where
  hasIndex : Bool
  created : Bool
  /-- A request to delete takes effect; `delete` reports a timeout as no message deleted. -/
  deletes : Bool
  decreases : Bool
  /-- A message is in the index after the bulk requests. -/
  inserts : ℕ → Bool
  bulk : List BulkAnswer
  increases : Bool

inductive Policy where
  | fifo
  | other
deriving DecidableEq

structure Memory where
  id : String
  tenantId : String
  memorySize : ℕ
  forgettingPolicy : Policy
deriving DecidableEq

/-- How `embed_and_save` ends; before the messages are inserted it is refused or raises. -/
inductive Ending where
  | saved
  | refused (msg : String)
  | raised
  | rejected (msg : String)
  | uncounted
deriving DecidableEq

def Ending.beforeInsert : Ending → Bool
  | refused _ | raised => true
  | saved | rejected _ | uncounted => false

/-- The answer, unless the call raises. -/
def Ending.answer : Ending → Option (Bool × String)
  | saved => some (true, "Message saved successfully.")
  | refused msg | rejected msg => some (false, msg)
  | raised | uncounted => none

def createFailed : String := "Failed to create message index."

def sizeLimitReached : String :=
  "Failed to insert message into memory. " ++
    "Memory size reached limit and cannot decide which to delete."

def insertFailed (failCases : List String) : String :=
  "Failed to insert message into memory. Details: " ++ "; ".intercalate failCases

section EmbedAndSave

variable {T : Type*} [LinearOrder T]

/-- From the insertion on. -/
def insertAndCount (sizes : Sizes) (memory : Memory) (req : Requests) (new : List (Message T))
    (st : State T) : Ending × State T :=
  let stored := st.messages memory.tenantId memory.id ++ new.filter fun m => req.inserts m.messageId
  let st := setMessages st memory.tenantId memory.id stored
  let failCases := insertErrors (req.bulk.take 2) []
  if failCases ≠ [] then (.rejected (insertFailed failCases), st)
  else if !req.increases then (.uncounted, st)
  else (.saved, incrby st (redisKey memory.id) (Math.weight (newSize sizes) new))

/-- `embed_and_save` for messages that have been embedded. The size of the memory is asked for with
the tenant in the place of the memory. -/
def embedAndSave (sizes : Sizes) (memory : Memory) (req : Requests) (new : List (Message T))
    (st : State T) : Ending × State T :=
  if !req.hasIndex && !req.created then (.refused createFailed, st)
  else
    let newMsgSize := Math.weight (newSize sizes) new
    let (currentMemorySize, st) := getMemorySizeCache sizes st memory.tenantId memory.id
    if newMsgSize + currentMemorySize > memory.memorySize then
      let sizeToDelete := currentMemorySize + newMsgSize - memory.memorySize
      if memory.forgettingPolicy = .fifo then
        let stored := st.messages memory.tenantId memory.id
        let (ids, deleteSize) := pickMessagesToDeleteByFifo sizes stored sizeToDelete
        let left := if req.deletes then stored.filter fun m => m.messageId ∉ ids else stored
        let st := setMessages st memory.tenantId memory.id left
        if !req.decreases then (.raised, st)
        else insertAndCount sizes memory req new (incrby st (redisKey memory.id) (-deleteSize))
      else (.refused sizeLimitReached, st)
    else insertAndCount sizes memory req new st

end EmbedAndSave

end RagFlow.AgentMemory
