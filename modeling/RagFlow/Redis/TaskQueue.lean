/-
# The task queues and their executors

Tasks are queued with `XADD` in Redis streams and read by task executors in one consumer
group. An executor first goes through the messages that it has read and not acknowledged,
which `get_unacked_iterator` yields, and takes new ones when there are no more of these. A
message is acknowledged when its task has been handled, or turns out unknown or cancelled.
One step here is one command, so the executors and the producers come between any two
commands of an executor; an executor may stop and start again at any time.
-/

import RagFlow.Math.Sorted
import RagFlow.Math.Threads
import Mathlib.Data.List.Nodup
import Mathlib.Data.Prod.Lex

namespace RagFlow.Redis

open RagFlow.Math Threads

/-- The id of a stream entry, milliseconds before sequence number. -/
abbrev EntryId := ℕ ×ₗ ℕ

/-- The id `0`, below that of every entry. -/
def EntryId.zero : EntryId := toLex (0, 0)

/-- The id for a new entry at the server's time `now`. -/
def EntryId.next (lastId : EntryId) (now : ℕ) : EntryId :=
  if (ofLex lastId).1 < now then
    toLex (now, 0)
  else
    toLex ((ofLex lastId).1, (ofLex lastId).2 + 1)

theorem EntryId.lt_next (lastId : EntryId) (now : ℕ) : lastId < EntryId.next lastId now := by
  rw [Prod.Lex.lt_iff, EntryId.next]
  split <;> simp_all

theorem EntryId.zero_le (id : EntryId) : EntryId.zero ≤ id := by
  rw [Prod.Lex.le_iff]
  simp only [EntryId.zero, ofLex_toLex]
  omega

/-- The queue of a priority, and the queues that executors read, the first one first. -/
def svrQueueName (priority : ℕ) : String :=
  if priority = 0 then
    "rag_flow_svr_queue"
  else
    "rag_flow_svr_queue" ++ "_" ++ Nat.repr priority

def svrQueueNames : List String := [1, 0].map svrQueueName

/-- The consumer group: the last entry given out, and who has got which entry and not
acknowledged it, in the order of the ids. -/
structure Group (C : Type*) where
  lastDelivered : EntryId
  pending : List (EntryId × C)

structure TaskStream (C M : Type*) where
  entries : List (EntryId × M)
  lastId : EntryId
  group : Option (Group C)

namespace TaskStream

variable {C M : Type*} (s : TaskStream C M)

def empty : TaskStream C M where
  entries := []
  lastId := .zero
  group := none

def lastDelivered : EntryId :=
  match s.group with
  | none => .zero
  | some group => group.lastDelivered

def pending : List (EntryId × C) :=
  match s.group with
  | none => []
  | some group => group.pending

def ids : List EntryId := s.entries.map Prod.fst

def xadd (now : ℕ) (message : M) : TaskStream C M :=
  { s with
    entries := s.entries ++ [(EntryId.next s.lastId now, message)]
    lastId := EntryId.next s.lastId now }

/-- `XGROUP CREATE` with id `0`, unless the group is there. -/
def createGroup : TaskStream C M :=
  { s with group := some ⟨s.lastDelivered, s.pending⟩ }

/-- The first entry not given out yet. -/
def firstNew : Option EntryId := s.ids.find? (s.lastDelivered < ·)

/-- An entry is given to a consumer. -/
def deliver (id : EntryId) (consumer : C) : TaskStream C M :=
  { s with group := some ⟨id, s.pending ++ [(id, consumer)]⟩ }

/-- `XREADGROUP` with the id `>`. -/
def readNew (consumer : C) : Option EntryId × TaskStream C M :=
  match s.firstNew with
  | none => (none, s.createGroup)
  | some id => (some id, s.deliver id consumer)

/-- `XREADGROUP` with an id: the consumer's next message that is not acknowledged. -/
def readHistory [DecidableEq C] (consumer : C) (after : EntryId) : Option EntryId :=
  (s.pending.find? fun p => p.2 = consumer ∧ after < p.1).map Prod.fst

def xack (id : EntryId) : TaskStream C M :=
  { s with
    group := s.group.map fun group => { group with pending := group.pending.filter (·.1 ≠ id) } }

end TaskStream

/-- The queues. No variable of the program keeps `settled`, the messages whose task has been
handled to its end, or has been found unknown or cancelled. -/
structure Broker (Q C M : Type*) where
  streams : Q → TaskStream C M
  settled : List (Q × EntryId)

/-- A task executor: `UNACKED_ITERATOR`, with the queues that it has not finished and the
`current_min` for the first of them; the queues that `collect` has yet to ask for new
messages; and the messages that `collect` or `handle_task` is at. No variable of the program
keeps `handed`, the messages that this process has got. -/
structure Executor (Q : Type*) where
  unacked : Option (List Q × EntryId)
  reading : Option (List Q)
  handling : List (Q × EntryId)
  handed : List (Q × EntryId)

namespace Executor

variable {Q : Type*} (e : Executor Q)

/-- A process that has just started. -/
def start : Executor Q where
  unacked := none
  reading := none
  handling := []
  handed := []

/-- `collect` gets a message. -/
def take (entry : Q × EntryId) : Executor Q :=
  { e with handling := e.handling ++ [entry], handed := e.handed ++ [entry] }

end Executor

section Steps

variable {Q C M : Type*} [DecidableEq Q] [DecidableEq C]

/-- A command to one of the queues. -/
def Broker.onQueue (b : Broker Q C M) (q : Q) (f : TaskStream C M → TaskStream C M) :
    Broker Q C M :=
  { b with streams := Function.update b.streams q (f (b.streams q)) }

/-- A producer adds a message, or the executor of a consumer goes on by one command. Commands
fail, and replies get lost, only where there are `Faults`. -/
inductive QueueStep (names : List Q) (Faults : Prop) :
    Option C → Broker Q C M → Executor Q → Broker Q C M → Executor Q → Prop
  /-- `queue_product`; if the reply is lost, it adds the message once more. -/
  | produce {b e} (q : Q) (now : ℕ) (message : M) :
      QueueStep names Faults none b e (b.onQueue q (·.xadd now message)) e
  /-- The process has stopped anywhere, and a new one starts. -/
  | restart {b e} (c : C) : QueueStep names Faults (some c) b e b .start
  /-- `collect` makes the iterator. -/
  | begin {b e} {c : C} (hunacked : e.unacked = none) (hreading : e.reading = none) :
      QueueStep names Faults (some c) b e b { e with unacked := some (names, .zero) }
  /-- The iterator yields a message. -/
  | yield {b e} {c : C} {q qs m id} (hunacked : e.unacked = some (q :: qs, m))
      (hreading : e.reading = none) (hread : (b.streams q).readHistory c m = some id) :
      QueueStep names Faults (some c) b e b
        { e.take (q, id) with unacked := some (q :: qs, id) }
  /-- The iterator goes on to the next queue, as there is nothing more in this one. -/
  | nextQueue {b e} {c : C} {q qs m} (hunacked : e.unacked = some (q :: qs, m))
      (hreading : e.reading = none) (hread : (b.streams q).readHistory c m = none) :
      QueueStep names Faults (some c) b e b { e with unacked := some (qs, .zero) }
  /-- The iterator goes on to the next queue, as no read of this one has succeeded. -/
  | skipQueue {b e} {c : C} {q qs m} (hfaults : Faults)
      (hunacked : e.unacked = some (q :: qs, m)) (hreading : e.reading = none) :
      QueueStep names Faults (some c) b e b { e with unacked := some (qs, .zero) }
  /-- An exception ends the iterator. -/
  | endIterator {b e} {c : C} {q qs m} (hfaults : Faults)
      (hunacked : e.unacked = some (q :: qs, m)) (hreading : e.reading = none) :
      QueueStep names Faults (some c) b e b { e with unacked := some ([], .zero) }
  /-- `StopIteration`: `collect` asks for new messages. -/
  | stopIteration {b e} {c : C} {m} (hunacked : e.unacked = some ([], m))
      (hreading : e.reading = none) :
      QueueStep names Faults (some c) b e b { e with reading := some names }
  /-- A queue has a new message. -/
  | getNew {b e} {c : C} {q qs id} (hreading : e.reading = some (q :: qs))
      (hread : (b.streams q).firstNew = some id) :
      QueueStep names Faults (some c) b e (b.onQueue q fun s => (s.readNew c).2)
        { e.take (q, id) with reading := none }
  /-- A queue has no new message. -/
  | noNew {b e} {c : C} {q qs} (hreading : e.reading = some (q :: qs))
      (hread : (b.streams q).firstNew = none) :
      QueueStep names Faults (some c) b e (b.onQueue q fun s => (s.readNew c).2)
        { e with reading := some qs }
  /-- The reply to a read is lost, and `queue_consumer` tries again. -/
  | loseReply {b e} {c : C} {q qs} (hfaults : Faults) (hreading : e.reading = some (q :: qs)) :
      QueueStep names Faults (some c) b e (b.onQueue q fun s => (s.readNew c).2) e
  /-- A read fails after the group has been created. -/
  | failRead {b e} {c : C} {q qs} (hfaults : Faults) (hreading : e.reading = some (q :: qs)) :
      QueueStep names Faults (some c) b e (b.onQueue q (·.createGroup)) e
  /-- All attempts to read have failed. -/
  | giveUp {b e} {c : C} {q qs} (hfaults : Faults) (hreading : e.reading = some (q :: qs)) :
      QueueStep names Faults (some c) b e b { e with reading := some qs }
  /-- No queue has a new message. -/
  | nothing {b e} {c : C} (hreading : e.reading = some []) :
      QueueStep names Faults (some c) b e b { e with reading := none }
  /-- `redis_msg.ack()`, in `collect` or at the end of `handle_task`. An exception of the
  command is only logged. -/
  | ack {b e} {c : C} {q id} (hentry : (q, id) ∈ e.handling) :
      QueueStep names Faults (some c) b e
        { b.onQueue q (·.xack id) with settled := (q, id) :: b.settled }
        { e with handling := e.handling.erase (q, id) }
  | failAck {b e} {c : C} {q id} (hfaults : Faults) (hentry : (q, id) ∈ e.handling) :
      QueueStep names Faults (some c) b e { b with settled := (q, id) :: b.settled }
        { e with handling := e.handling.erase (q, id) }
  /-- An exception leaves `collect` or `handle_task` before the acknowledgement. -/
  | raise {b e} {c : C} {q id} (hentry : (q, id) ∈ e.handling) :
      QueueStep names Faults (some c) b e b { e with handling := e.handling.erase (q, id) }

end Steps

/-! ## A stream -/

namespace TaskStream

variable {C M : Type*} {s : TaskStream C M} {id : EntryId} {c : C}

@[simp]
theorem ids_xadd (now : ℕ) (message : M) :
    (s.xadd now message).ids = s.ids ++ [EntryId.next s.lastId now] := by
  simp [ids, xadd]

@[simp]
theorem lastDelivered_xadd (now : ℕ) (message : M) :
    (s.xadd now message).lastDelivered = s.lastDelivered := rfl

@[simp]
theorem pending_xadd (now : ℕ) (message : M) : (s.xadd now message).pending = s.pending := rfl

@[simp] theorem ids_createGroup : s.createGroup.ids = s.ids := rfl
@[simp] theorem lastDelivered_createGroup : s.createGroup.lastDelivered = s.lastDelivered := rfl
@[simp] theorem pending_createGroup : s.createGroup.pending = s.pending := rfl

@[simp] theorem ids_deliver : (s.deliver id c).ids = s.ids := rfl
@[simp] theorem lastDelivered_deliver : (s.deliver id c).lastDelivered = id := rfl
@[simp] theorem pending_deliver : (s.deliver id c).pending = s.pending ++ [(id, c)] := rfl

@[simp] theorem ids_xack : (s.xack id).ids = s.ids := rfl

@[simp]
theorem lastDelivered_xack : (s.xack id).lastDelivered = s.lastDelivered := by
  unfold lastDelivered xack
  cases s.group <;> rfl

@[simp]
theorem pending_xack : (s.xack id).pending = s.pending.filter (·.1 ≠ id) := by
  unfold pending xack
  cases s.group <;> rfl

/-- The ids increase, and what is pending has been given out, in their order. -/
structure Sound (s : TaskStream C M) : Prop where
  sorted : s.ids.Pairwise (· < ·)
  positive : ∀ id ∈ s.ids, .zero < id
  le_last : ∀ id ∈ s.ids, id ≤ s.lastId
  delivered_le : s.lastDelivered ≤ s.lastId
  pending_sorted : (s.pending.map Prod.fst).Pairwise (· < ·)
  pending_mem : ∀ p ∈ s.pending, p.1 ∈ s.ids ∧ p.1 ≤ s.lastDelivered

theorem sound_empty : (empty : TaskStream C M).Sound where
  sorted := .nil
  positive := by simp [ids, empty]
  le_last := by simp [ids, empty]
  delivered_le := le_rfl
  pending_sorted := .nil
  pending_mem := by simp [pending, empty]

theorem Sound.xadd (hs : s.Sound) (now : ℕ) (message : M) : (s.xadd now message).Sound where
  sorted := by
    rw [ids_xadd]
    exact pairwise_append_singleton hs.sorted fun id hid =>
      (hs.le_last id hid).trans_lt (EntryId.lt_next _ _)
  positive := by
    simp only [ids_xadd, List.mem_append, List.mem_singleton]
    rintro id (hid | rfl)
    · exact hs.positive id hid
    · exact (EntryId.zero_le _).trans_lt (EntryId.lt_next _ _)
  le_last := by
    simp only [ids_xadd, List.mem_append, List.mem_singleton]
    rintro id (hid | rfl)
    · exact (hs.le_last id hid).trans (EntryId.lt_next _ _).le
    · exact le_rfl
  delivered_le := hs.delivered_le.trans (EntryId.lt_next _ _).le
  pending_sorted := hs.pending_sorted
  pending_mem p hp := by
    obtain ⟨hmem, hle⟩ := hs.pending_mem p hp
    exact ⟨by simp [hmem], hle⟩

theorem Sound.createGroup (hs : s.Sound) : s.createGroup.Sound where
  sorted := hs.sorted
  positive := hs.positive
  le_last := hs.le_last
  delivered_le := hs.delivered_le
  pending_sorted := hs.pending_sorted
  pending_mem := hs.pending_mem

theorem firstNew_spec (hid : s.firstNew = some id) : id ∈ s.ids ∧ s.lastDelivered < id :=
  ⟨List.mem_of_find?_eq_some hid, by simpa using List.find?_some hid⟩

/-- Nothing is passed over: the first new entry comes right after those given out. -/
theorem firstNew_least (hs : s.Sound) (hid : s.firstNew = some id) {x : EntryId} (hx : x ∈ s.ids)
    (hle : x ≤ id) : x ≤ s.lastDelivered ∨ x = id := by
  rcases le_or_gt x s.lastDelivered with h | h
  · exact .inl h
  · have hleast := find?_least (fun y => y) (by simpa using hs.sorted) hid hx
      (by simpa using h)
    exact .inr (le_antisymm hle hleast)

theorem Sound.deliver (hs : s.Sound) (hid : s.firstNew = some id) (c : C) :
    (s.deliver id c).Sound := by
  obtain ⟨hmem, hlt⟩ := firstNew_spec hid
  exact {
    sorted := hs.sorted
    positive := hs.positive
    le_last := hs.le_last
    delivered_le := hs.le_last id hmem
    pending_sorted := by
      rw [pending_deliver, List.map_append]
      refine pairwise_append_singleton hs.pending_sorted fun y hy => ?_
      obtain ⟨p, hp, rfl⟩ := List.mem_map.mp hy
      exact (hs.pending_mem p hp).2.trans_lt hlt
    pending_mem := by
      simp only [pending_deliver, List.mem_append, List.mem_singleton]
      rintro p (hp | rfl)
      · exact ⟨(hs.pending_mem p hp).1, (hs.pending_mem p hp).2.trans hlt.le⟩
      · exact ⟨hmem, le_rfl⟩ }

theorem Sound.xack (hs : s.Sound) (id : EntryId) : (s.xack id).Sound where
  sorted := hs.sorted
  positive := hs.positive
  le_last := hs.le_last
  delivered_le := by
    rw [lastDelivered_xack]
    exact hs.delivered_le
  pending_sorted := by
    rw [pending_xack]
    exact hs.pending_sorted.sublist (List.filter_sublist.map _)
  pending_mem p hp := by
    rw [pending_xack] at hp
    simpa using hs.pending_mem p (List.mem_of_mem_filter hp)

/-- A pending message belongs to one consumer. -/
theorem Sound.consumer_unique (hs : s.Sound) {c' : C} (h : (id, c) ∈ s.pending)
    (h' : (id, c') ∈ s.pending) : c = c' := by
  have hinj := List.inj_on_of_nodup_map (hs.pending_sorted.imp ne_of_lt) h h' rfl
  exact (Prod.mk.inj hinj).2

theorem readHistory_some [DecidableEq C] (hs : s.Sound) {after : EntryId}
    (h : s.readHistory c after = some id) :
    (id, c) ∈ s.pending ∧ after < id ∧ ∀ x, (x, c) ∈ s.pending → after < x → id ≤ x := by
  obtain ⟨p, hfind, rfl⟩ := Option.map_eq_some_iff.mp h
  have hp := List.find?_some hfind
  simp only [decide_eq_true_eq] at hp
  refine ⟨?_, hp.2, fun x hx hlt => ?_⟩
  · rw [← hp.1]
    exact List.mem_of_find?_eq_some hfind
  · exact find?_least Prod.fst (b := (x, c)) hs.pending_sorted hfind hx (by simp [hlt])

theorem readHistory_none [DecidableEq C] {after : EntryId} (h : s.readHistory c after = none)
    {x : EntryId} (hx : (x, c) ∈ s.pending) : x ≤ after := by
  rw [readHistory, Option.map_eq_none_iff, List.find?_eq_none] at h
  simpa using h _ hx

end TaskStream

/-! ## The queues -/

section Queues

variable {Q C M : Type*} {q : Q} {s : TaskStream C M} {settled : List (Q × EntryId)}

/-- A sound stream whose entries are not given out yet, pending or settled. -/
structure QueueSound (settled : List (Q × EntryId)) (q : Q) (s : TaskStream C M) : Prop where
  sound : s.Sound
  accounted : ∀ id ∈ s.ids, id ≤ s.lastDelivered →
    id ∈ s.pending.map Prod.fst ∨ (q, id) ∈ settled

theorem QueueSound.xadd (h : QueueSound settled q s) (now : ℕ) (message : M) :
    QueueSound settled q (s.xadd now message) where
  sound := h.sound.xadd now message
  accounted id hid hle := by
    rw [TaskStream.ids_xadd, List.mem_append, List.mem_singleton] at hid
    rcases hid with hid | rfl
    · exact h.accounted id hid hle
    · have hlt := h.sound.delivered_le.trans_lt (EntryId.lt_next s.lastId now)
      exact absurd hle (not_le_of_gt hlt)

theorem QueueSound.createGroup (h : QueueSound settled q s) :
    QueueSound settled q s.createGroup where
  sound := h.sound.createGroup
  accounted := h.accounted

theorem QueueSound.readNew (h : QueueSound settled q s) (c : C) :
    QueueSound settled q (s.readNew c).2 := by
  unfold TaskStream.readNew
  cases hnew : s.firstNew with
  | none => exact h.createGroup
  | some id =>
      refine ⟨h.sound.deliver hnew c, fun x hx hle => ?_⟩
      rcases TaskStream.firstNew_least h.sound hnew hx hle with hold | rfl
      · exact (h.accounted x hx hold).imp_left fun hpending => by simp [hpending]
      · simp

theorem QueueSound.settle (h : QueueSound settled q s) (entry : Q × EntryId) :
    QueueSound (entry :: settled) q s where
  sound := h.sound
  accounted id hid hle := (h.accounted id hid hle).imp_right (List.mem_cons_of_mem _)

theorem QueueSound.xack (h : QueueSound settled q s) (id : EntryId) :
    QueueSound ((q, id) :: settled) q (s.xack id) where
  sound := h.sound.xack id
  accounted x hx hle := by
    by_cases hxid : x = id
    · exact .inr (by simp [hxid])
    · rw [TaskStream.lastDelivered_xack] at hle
      refine (h.accounted x hx hle).imp (fun hpending => ?_) (List.mem_cons_of_mem _)
      obtain ⟨p, hp, rfl⟩ := List.mem_map.mp hpending
      exact List.mem_map.mpr ⟨p, by simp [hp, hxid], rfl⟩

/-- What a command of somebody else leaves as it is for a consumer. -/
structure Leaves (c : C) (s s' : TaskStream C M) : Prop where
  pending : ∀ id, (id, c) ∈ s'.pending ↔ (id, c) ∈ s.pending
  delivered : s.lastDelivered ≤ s'.lastDelivered

variable {c c' : C}

theorem Leaves.refl : Leaves c s s where
  pending _ := Iff.rfl
  delivered := le_rfl

theorem leaves_readNew (hne : c' ≠ c) : Leaves c s (s.readNew c').2 := by
  unfold TaskStream.readNew
  cases hnew : s.firstNew with
  | none => exact ⟨fun _ => Iff.rfl, le_rfl⟩
  | some id =>
      exact ⟨fun x => by simp [Ne.symm hne], (TaskStream.firstNew_spec hnew).2.le⟩

theorem leaves_xack (hs : s.Sound) (hne : c' ≠ c) {id : EntryId} (hid : (id, c') ∈ s.pending) :
    Leaves c s (s.xack id) where
  pending x := by
    rw [TaskStream.pending_xack, List.mem_filter]
    refine ⟨fun h => h.1, fun h => ⟨h, ?_⟩⟩
    simp only [decide_eq_true_eq]
    rintro rfl
    exact hne (hs.consumer_unique hid h)
  delivered := by rw [TaskStream.lastDelivered_xack]

end Queues

section Agreement

variable {Q C M : Type*} {b b' : Broker Q C M} {e e' : Executor Q} {c : C}

/-- Every queue is sound. -/
def Broker.Sound (b : Broker Q C M) : Prop :=
  ∀ q, QueueSound b.settled q (b.streams q)

/-- The messages that an executor is at are pending for it. -/
def HandlesPending (c : C) (b : Broker Q C M) (e : Executor Q) : Prop :=
  ∀ q id, (q, id) ∈ e.handling → (id, c) ∈ (b.streams q).pending

/-- The iterator is past a message. -/
def Passed (unacked : Option (List Q × EntryId)) (q : Q) (id : EntryId) : Prop :=
  match unacked with
  | none => False
  | some ([], _) => True
  | some (q' :: qs, currentMin) => q ∉ qs ∧ (q = q' → id ≤ currentMin)

theorem Passed.nextQueue {q q' : Q} {qs : List Q} {m m' id : EntryId}
    (h : Passed (some (q' :: qs, m)) q id) : Passed (some (qs, m')) q id := by
  cases qs with
  | nil => trivial
  | cons q'' qs =>
      obtain ⟨hq, -⟩ := h
      rw [List.mem_cons, not_or] at hq
      exact ⟨hq.2, fun heq => absurd heq hq.1⟩

theorem Passed.later {q q' : Q} {qs : List Q} {m m' id : EntryId} (hm : m ≤ m')
    (h : Passed (some (q' :: qs, m)) q id) : Passed (some (q' :: qs, m')) q id :=
  ⟨h.1, fun heq => (h.2 heq).trans hm⟩

/-- An executor and the queues agree: it is at messages that are pending for it, and none of
those the iterator is still to come to has been handed to this process. -/
structure ExecutorSound (c : C) (b : Broker Q C M) (e : Executor Q) : Prop where
  handles : HandlesPending c b e
  handling_nodup : e.handling.Nodup
  handling_handed : ∀ entry ∈ e.handling, entry ∈ e.handed
  handed_nodup : e.handed.Nodup
  handed_delivered : ∀ q id, (q, id) ∈ e.handed → id ≤ (b.streams q).lastDelivered
  handed_passed : ∀ q id, (q, id) ∈ e.handed → Passed e.unacked q id
  queues_nodup : ∀ qs m, e.unacked = some (qs, m) → qs.Nodup
  reading_after : e.reading ≠ none → ∃ m, e.unacked = some ([], m)

theorem executorSound_start : ExecutorSound c b .start where
  handles := by simp [HandlesPending, Executor.start]
  handling_nodup := .nil
  handling_handed := by simp [Executor.start]
  handed_nodup := .nil
  handed_delivered := by simp [Executor.start]
  handed_passed := by simp [Executor.start]
  queues_nodup := by simp [Executor.start]
  reading_after := by simp [Executor.start]

/-- Nothing new is handed over. -/
theorem ExecutorSound.update (h : ExecutorSound c b e) (hhandles : HandlesPending c b' e')
    (hsub : e'.handling.Sublist e.handling) (hhanded : e'.handed = e.handed)
    (hdelivered : ∀ q, (b.streams q).lastDelivered ≤ (b'.streams q).lastDelivered)
    (hpassed : ∀ q id, Passed e.unacked q id → Passed e'.unacked q id)
    (hqueues : ∀ qs m, e'.unacked = some (qs, m) → qs.Nodup)
    (hreading : e'.reading ≠ none → ∃ m, e'.unacked = some ([], m)) :
    ExecutorSound c b' e' where
  handles := hhandles
  handling_nodup := h.handling_nodup.sublist hsub
  handling_handed entry hentry := hhanded ▸ h.handling_handed entry (hsub.subset hentry)
  handed_nodup := hhanded ▸ h.handed_nodup
  handed_delivered q id hid :=
    (h.handed_delivered q id (hhanded ▸ hid)).trans (hdelivered q)
  handed_passed q id hid := hpassed q id (h.handed_passed q id (hhanded ▸ hid))
  queues_nodup := hqueues
  reading_after := hreading

/-- A message is handed over that this process has not had. -/
theorem ExecutorSound.take (h : ExecutorSound c b e) (q : Q) (id : EntryId)
    (hnew : (q, id) ∉ e.handed)
    (hpending : ∀ q id, (id, c) ∈ (b.streams q).pending → (id, c) ∈ (b'.streams q).pending)
    (hid : (id, c) ∈ (b'.streams q).pending ∧ id ≤ (b'.streams q).lastDelivered)
    (hdelivered : ∀ q, (b.streams q).lastDelivered ≤ (b'.streams q).lastDelivered)
    (hhandling : e'.handling = (e.take (q, id)).handling)
    (hhanded : e'.handed = (e.take (q, id)).handed)
    (hpassed : ∀ q id, Passed e.unacked q id → Passed e'.unacked q id)
    (hnow : Passed e'.unacked q id)
    (hqueues : ∀ qs m, e'.unacked = some (qs, m) → qs.Nodup)
    (hreading : e'.reading ≠ none → ∃ m, e'.unacked = some ([], m)) :
    ExecutorSound c b' e' where
  handles q' x hx := by
    rw [hhandling, Executor.take, List.mem_append, List.mem_singleton] at hx
    rcases hx with hx | hx
    · exact hpending _ _ (h.handles q' x hx)
    · obtain ⟨rfl, rfl⟩ := Prod.mk.inj hx
      exact hid.1
  handling_nodup := by
    rw [hhandling]
    exact h.handling_nodup.append (List.nodup_singleton _)
      (by simpa using fun hmem => hnew (h.handling_handed _ hmem))
  handling_handed := by
    rw [hhandling, hhanded]
    simp only [Executor.take, List.mem_append]
    exact fun entry hentry => hentry.imp_left (h.handling_handed entry)
  handed_nodup := by
    rw [hhanded]
    exact h.handed_nodup.append (List.nodup_singleton _) (by simpa using hnew)
  handed_delivered q' x hx := by
    rw [hhanded, Executor.take, List.mem_append, List.mem_singleton] at hx
    rcases hx with hx | hx
    · exact (h.handed_delivered q' x hx).trans (hdelivered q')
    · obtain ⟨rfl, rfl⟩ := Prod.mk.inj hx
      exact hid.2
  handed_passed q' x hx := by
    rw [hhanded, Executor.take, List.mem_append, List.mem_singleton] at hx
    rcases hx with hx | hx
    · exact hpassed q' x (h.handed_passed q' x hx)
    · obtain ⟨rfl, rfl⟩ := Prod.mk.inj hx
      exact hnow
  queues_nodup := hqueues
  reading_after := hreading

/-- Somebody else's step. -/
theorem ExecutorSound.others (h : ExecutorSound c b e)
    (hleaves : ∀ q, Leaves c (b.streams q) (b'.streams q)) : ExecutorSound c b' e :=
  h.update (fun q id hid => ((hleaves q).pending id).mpr (h.handles q id hid))
    (List.Sublist.refl _) rfl (fun q => (hleaves q).delivered) (fun _ _ hp => hp)
    h.queues_nodup h.reading_after

/-- What a read by an executor itself does for it. -/
structure Gains (c : C) (s s' : TaskStream C M) : Prop where
  pending : ∀ id, (id, c) ∈ s.pending → (id, c) ∈ s'.pending
  delivered : s.lastDelivered ≤ s'.lastDelivered

theorem Gains.refl {s : TaskStream C M} : Gains c s s where
  pending _ hid := hid
  delivered := le_rfl

theorem gains_readNew (s : TaskStream C M) : Gains c s (s.readNew c).2 := by
  unfold TaskStream.readNew
  cases hnew : s.firstNew with
  | none => exact ⟨fun _ hid => hid, le_rfl⟩
  | some id => exact ⟨fun x hx => by simp [hx], (TaskStream.firstNew_spec hnew).2.le⟩

/-- The iterator goes on, and yields nothing. -/
theorem ExecutorSound.iterate (h : ExecutorSound c b e) (hreading : e.reading = none)
    {unacked : Option (List Q × EntryId)}
    (hpassed : ∀ q id, Passed e.unacked q id → Passed unacked q id)
    (hqueues : ∀ qs m, unacked = some (qs, m) → qs.Nodup) :
    ExecutorSound c b { e with unacked := unacked } :=
  h.update h.handles (.refl _) rfl (fun _ => le_rfl) hpassed hqueues
    fun hne => absurd hreading hne

theorem ExecutorSound.nextQueue (h : ExecutorSound c b e) {q : Q} {qs : List Q} {m : EntryId}
    (hunacked : e.unacked = some (q :: qs, m)) (hreading : e.reading = none) :
    ExecutorSound c b { e with unacked := some (qs, .zero) } := by
  refine h.iterate hreading ?_ ?_
  · rw [hunacked]
    exact fun _ _ hp => hp.nextQueue
  · rintro _ _ ⟨⟩
    exact (List.nodup_cons.mp (h.queues_nodup _ _ hunacked)).2

/-- `collect` asks for new messages, and gets none. -/
theorem ExecutorSound.ask (h : ExecutorSound c b e) {reading : Option (List Q)}
    (hgains : ∀ q, Gains c (b.streams q) (b'.streams q))
    (hreading : reading ≠ none → ∃ m, e.unacked = some ([], m)) :
    ExecutorSound c b' { e with reading := reading } :=
  h.update (fun q id hid => (hgains q).pending id (h.handles q id hid)) (.refl _) rfl
    (fun q => (hgains q).delivered) (fun _ _ hp => hp) h.queues_nodup hreading

/-- A message is done with and not acknowledged. -/
theorem ExecutorSound.leave [DecidableEq Q] (h : ExecutorSound c b e)
    (hstreams : b'.streams = b.streams) (entry : Q × EntryId) :
    ExecutorSound c b' { e with handling := e.handling.erase entry } := by
  refine h.update (fun q x hx => ?_) List.erase_sublist rfl (fun q => by rw [hstreams])
    (fun _ _ hp => hp) h.queues_nodup h.reading_after
  rw [hstreams]
  exact h.handles q x (List.mem_of_mem_erase hx)

end Agreement

section Runs

variable {Q C M : Type*} [DecidableEq Q] [DecidableEq C] {names : List Q} {Faults : Prop}
  {b b' : Broker Q C M} {e e' : Executor Q} {c : C} {i : Option C}

omit [DecidableEq C] in
theorem Broker.forall_onQueue {P : Q → TaskStream C M → Prop} {q : Q}
    {f : TaskStream C M → TaskStream C M} (h : ∀ q', P q' (b.streams q'))
    (hq : P q (f (b.streams q))) (q' : Q) : P q' ((b.onQueue q f).streams q') := by
  by_cases hqq : q' = q
  · subst hqq
    simpa [onQueue] using hq
  · simpa [onQueue, hqq] using h q'

theorem Broker.Sound.step (hb : b.Sound) (hstep : QueueStep names Faults i b e b' e') :
    b'.Sound := by
  cases hstep with
  | produce q now message => exact Broker.forall_onQueue hb ((hb q).xadd now message)
  | @getNew _ _ c q => exact Broker.forall_onQueue hb ((hb q).readNew c)
  | @noNew _ _ c q => exact Broker.forall_onQueue hb ((hb q).readNew c)
  | @loseReply _ _ c q => exact Broker.forall_onQueue hb ((hb q).readNew c)
  | @failRead _ _ c q => exact Broker.forall_onQueue hb (hb q).createGroup
  | @ack _ _ c q id =>
      exact Broker.forall_onQueue (f := (·.xack id)) (fun q' => (hb q').settle (q, id))
        ((hb q).xack id)
  | @failAck _ _ c q id => exact fun q' => (hb q').settle (q, id)
  | _ => exact hb

/-- A step of somebody else. -/
theorem leaves_step (hb : b.Sound) (hstep : QueueStep names Faults i b e b' e')
    (hi : i ≠ some c) (hhandles : ∀ c', i = some c' → HandlesPending c' b e) (q : Q) :
    Leaves c (b.streams q) (b'.streams q) := by
  have hrefl : ∀ q', Leaves c (b.streams q') (b.streams q') := fun _ => .refl
  cases hstep with
  | produce q' => exact Broker.forall_onQueue hrefl ⟨fun _ => Iff.rfl, le_rfl⟩ q
  | @getNew _ _ c' q' =>
      exact Broker.forall_onQueue hrefl (leaves_readNew (by simpa using hi)) q
  | @noNew _ _ c' q' =>
      exact Broker.forall_onQueue hrefl (leaves_readNew (by simpa using hi)) q
  | @loseReply _ _ c' q' =>
      exact Broker.forall_onQueue hrefl (leaves_readNew (by simpa using hi)) q
  | @failRead _ _ c' q' => exact Broker.forall_onQueue hrefl ⟨fun _ => Iff.rfl, le_rfl⟩ q
  | @ack _ _ c' q' id hentry =>
      exact Broker.forall_onQueue (f := (·.xack id)) hrefl
        (leaves_xack (hb q').sound (by simpa using hi) (hhandles c' rfl q' id hentry)) q
  | _ => exact .refl

omit [DecidableEq C] in
theorem gains_onQueue {q : Q} {f : TaskStream C M → TaskStream C M}
    (hgains : Gains c (b.streams q) (f (b.streams q))) (q' : Q) :
    Gains c (b.streams q') ((b.onQueue q f).streams q') :=
  Broker.forall_onQueue (P := fun q s => Gains c (b.streams q) s)
    (fun _ => .refl) hgains q'

omit [DecidableEq C] in
theorem gains_onQueue_readNew (q q' : Q) :
    Gains c (b.streams q') ((b.onQueue q fun s => (s.readNew c).2).streams q') :=
  gains_onQueue (f := fun s => (s.readNew c).2) (gains_readNew _) q'

theorem ExecutorSound.own (hnames : names.Nodup) (hb : b.Sound) (h : ExecutorSound c b e)
    (hstep : QueueStep names Faults (some c) b e b' e') : ExecutorSound c b' e' := by
  cases hstep with
  | restart => exact executorSound_start
  | begin hunacked hreading =>
      refine h.iterate hreading ?_ ?_
      · rw [hunacked]
        exact fun _ _ hp => hp.elim
      · rintro qs m ⟨⟩
        exact hnames
  | @yield _ _ _ q qs m id hunacked hreading hread =>
      obtain ⟨hmem, hlt, -⟩ := TaskStream.readHistory_some (hb q).sound hread
      have hqueues := h.queues_nodup _ _ hunacked
      refine h.take q id ?_ (fun _ _ hid => hid)
        ⟨hmem, ((hb q).sound.pending_mem _ hmem).2⟩ (fun _ => le_rfl) rfl rfl ?_ ?_ ?_ ?_
      · intro hhanded
        have hpassed := h.handed_passed q id hhanded
        rw [hunacked] at hpassed
        exact absurd (hpassed.2 rfl) (not_le_of_gt hlt)
      · rw [hunacked]
        exact fun _ _ hp => hp.later hlt.le
      · exact ⟨(List.nodup_cons.mp hqueues).1, fun _ => le_rfl⟩
      · rintro _ _ ⟨⟩
        exact hqueues
      · exact fun hne => absurd hreading hne
  | nextQueue hunacked hreading =>
      exact h.nextQueue hunacked hreading
  | skipQueue _ hunacked hreading =>
      exact h.nextQueue hunacked hreading
  | endIterator _ hunacked hreading =>
      refine h.iterate hreading (fun _ _ _ => trivial) ?_
      rintro _ _ ⟨⟩
      exact List.nodup_nil
  | stopIteration hunacked hreading =>
      exact h.ask (fun _ => .refl) fun _ => ⟨_, hunacked⟩
  | @getNew _ _ _ q qs id hreading hread =>
      obtain ⟨m, hm⟩ := h.reading_after (by simp [hreading])
      have hgains := gains_onQueue_readNew (b := b) (c := c) q
      refine h.take q id ?_ (fun q' => (hgains q').pending) ?_
        (fun q' => (hgains q').delivered) rfl rfl (fun _ _ hp => hp) ?_ h.queues_nodup ?_
      · intro hhanded
        exact absurd (h.handed_delivered q id hhanded)
          (not_le_of_gt (TaskStream.firstNew_spec hread).2)
      · simp [Broker.onQueue, TaskStream.readNew, hread]
      · rw [show ({ e.take (q, id) with reading := none } : Executor Q).unacked =
          some ([], m) from hm]
        trivial
      · exact fun hne => absurd rfl hne
  | @noNew _ _ _ q qs hreading hread =>
      exact h.ask (gains_onQueue_readNew q) fun _ => h.reading_after (by simp [hreading])
  | @loseReply _ _ _ q => exact h.ask (gains_onQueue_readNew q) h.reading_after
  | @failRead _ _ _ q =>
      exact h.ask (gains_onQueue (f := (·.createGroup)) (q := q) ⟨fun _ hid => hid, le_rfl⟩)
        h.reading_after
  | giveUp _ hreading =>
      exact h.ask (fun _ => .refl) fun _ => h.reading_after (by simp [hreading])
  | nothing => exact h.ask (fun _ => .refl) fun hne => absurd rfl hne
  | @ack _ _ _ q id hentry =>
      refine h.update (fun q' x hx => ?_) List.erase_sublist rfl ?_ (fun _ _ hp => hp)
        h.queues_nodup h.reading_after
      · obtain ⟨hne, hx⟩ := (h.handling_nodup.mem_erase_iff).mp hx
        refine Broker.forall_onQueue (f := (·.xack id))
          (P := fun q' s => (q', x) ≠ (q, id) → (x, c) ∈ (b.streams q').pending →
            (x, c) ∈ s.pending) (fun _ _ hmem => hmem) ?_ q' hne (h.handles q' x hx)
        intro hne hmem
        simpa [hmem] using hne
      · exact Broker.forall_onQueue (f := (·.xack id))
          (P := fun q s => (b.streams q).lastDelivered ≤ s.lastDelivered) (fun _ => le_rfl)
          (by simp)
  | failAck => exact h.leave (by rfl) _
  | raise => exact h.leave rfl _

/-- The queues are sound, and every executor agrees with them. -/
def Agrees (i : Option C) (b : Broker Q C M) (e : Executor Q) : Prop :=
  b.Sound ∧ ∀ c, i = some c → ExecutorSound c b e

theorem agrees_stable (hnames : names.Nodup) :
    Stable (QueueStep (C := C) (M := M) names Faults) Agrees where
  own hstep h := by
    refine ⟨h.1.step hstep, ?_⟩
    rintro c rfl
    exact (h.2 c rfl).own hnames h.1 hstep
  others hij hstep h hj := by
    refine ⟨h.1.step hstep, ?_⟩
    rintro c rfl
    exact (hj.2 c rfl).others
      (leaves_step h.1 hstep hij fun c' hc' => (h.2 c' hc').handles)

/-- No message has been queued, and every executor has just started. -/
def QueuesEmpty (g : Threads (Option C) (Broker Q C M) (Executor Q)) : Prop :=
  g.shared = ⟨fun _ => .empty, []⟩ ∧ ∀ i, g.locals i = .start

variable {g h : Threads (Option C) (Broker Q C M) (Executor Q)} {n : ℕ}

omit [DecidableEq C] [DecidableEq Q] in
theorem agrees_of_queuesEmpty (hg : QueuesEmpty g) (i : Option C) :
    Agrees i g.shared (g.locals i) := by
  rw [hg.1, hg.2 i]
  exact ⟨fun q => ⟨TaskStream.sound_empty, by simp [TaskStream.ids, TaskStream.empty]⟩,
    fun c _ => executorSound_start⟩

theorem agrees_run (hnames : names.Nodup) (hg : QueuesEmpty g)
    (hrun : Run (Interleave (QueueStep names Faults)) g n h) (i : Option C) :
    Agrees i h.shared (h.locals i) :=
  (agrees_stable hnames).run hrun (agrees_of_queuesEmpty hg) i

/-- Every message is still to be given out, pending for one consumer, or settled; what an
executor is at is pending for it and with no other; and no process gets a message twice. -/
structure NothingLost (g : Threads (Option C) (Broker Q C M) (Executor Q)) : Prop where
  placed : ∀ q, ∀ id ∈ (g.shared.streams q).ids, (g.shared.streams q).lastDelivered < id ∨
    (∃! c, (id, c) ∈ (g.shared.streams q).pending) ∨ (q, id) ∈ g.shared.settled
  held : ∀ c q id, (q, id) ∈ (g.locals (some c)).handling →
    (id, c) ∈ (g.shared.streams q).pending
  apart : ∀ c c' entry, entry ∈ (g.locals (some c)).handling →
    entry ∈ (g.locals (some c')).handling → c = c'
  once : ∀ c, (g.locals (some c)).handed.Nodup

/-- Whatever fails, wherever executors stop, and however the commands of producers and
executors follow on each other, nothing is lost. -/
theorem taskQueues_lose_nothing (hnames : names.Nodup) (hg : QueuesEmpty g)
    (hrun : Run (Interleave (QueueStep names Faults)) g n h) : NothingLost h := by
  have hagrees := agrees_run hnames hg hrun
  have hsound := (hagrees none).1
  have hexecutor : ∀ c, ExecutorSound c h.shared (h.locals (some c)) :=
    fun c => (hagrees (some c)).2 c rfl
  exact {
    placed := by
      intro q id hid
      rcases lt_or_ge (h.shared.streams q).lastDelivered id with hlt | hle
      · exact .inl hlt
      · refine .inr (((hsound q).accounted id hid hle).imp_left fun hpending => ?_)
        obtain ⟨p, hp, rfl⟩ := List.mem_map.mp hpending
        exact ⟨p.2, hp, fun c hc => (hsound q).sound.consumer_unique hc hp⟩
    held := fun c => (hexecutor c).handles
    apart := fun c c' entry hc hc' => (hsound entry.1).sound.consumer_unique
      ((hexecutor c).handles _ _ hc) ((hexecutor c').handles _ _ hc')
    once := fun c => (hexecutor c).handed_nodup }

/-- No message, and one executor. -/
def noMessages : Threads (Option Unit) (Broker String Unit String) (Executor String) where
  shared := ⟨fun _ => .empty, []⟩
  locals := fun _ => .start

/-- A message is given out, and the reply that carries it is lost. -/
theorem taskQueues_lose_nothing_but_reply :
    ∃ g, Run (Interleave (QueueStep svrQueueNames True)) noMessages 8 g ∧
      (g.shared.streams "rag_flow_svr_queue").pending = [(toLex (1, 0), ())] ∧
      NothingLost g := by
  have h1 : Run (Interleave (QueueStep svrQueueNames True)) noMessages 1 _ :=
    thread .refl none (.produce "rag_flow_svr_queue" 1 "task")
  have h2 := thread h1 (some ()) (.begin rfl rfl)
  have h3 := thread h2 (some ()) (.nextQueue rfl rfl rfl)
  have h4 := thread h3 (some ()) (.nextQueue rfl rfl rfl)
  have h5 := thread h4 (some ()) (.stopIteration rfl rfl)
  have h6 := thread h5 (some ()) (.noNew rfl rfl)
  have h7 := thread h6 (some ()) (.loseReply trivial rfl)
  have h8 := thread h7 (some ()) (.noNew rfl rfl)
  exact ⟨_, h8, rfl, taskQueues_lose_nothing (by decide) ⟨rfl, fun _ => rfl⟩ h8⟩

end Runs

/-! ## What an executor finds after a restart

The iterator goes from queue to queue and from id to id, while the other executors and the
producers go on. What it has passed of the messages pending for its own consumer has been
handed over, so nothing that an earlier process left is behind it when it comes to its end. -/

section Recovery

variable {Q C M : Type*} [DecidableEq Q] [DecidableEq C] {names : List Q} {b b' : Broker Q C M}
  {e e' : Executor Q} {c : C} {g h : Threads (Option C) (Broker Q C M) (Executor Q)} {n : ℕ}

/-- What the iterator has passed of the pending messages has been handed over. -/
def HandedOver (names : List Q) (c : C) (b : Broker Q C M) (e : Executor Q) : Prop :=
  ∀ q ∈ names, ∀ id, (id, c) ∈ (b.streams q).pending → Passed e.unacked q id →
    (q, id) ∈ e.handed

omit [DecidableEq Q] [DecidableEq C] in
/-- At the start of a queue the iterator has passed none of its messages. -/
theorem Passed.of_zero {q q' : Q} {qs : List Q} {id : EntryId} (hid : .zero < id)
    (h : Passed (some (q' :: qs, .zero)) q id) : q ∉ q' :: qs := by
  rw [List.mem_cons, not_or]
  exact ⟨fun heq => absurd (h.2 heq) (not_le_of_gt hid), h.1⟩

omit [DecidableEq C] in
/-- A message pending after a command was pending before, or the command has been to its
queue. -/
theorem mem_pending_onQueue {q q' : Q} {id : EntryId} {f : TaskStream C M → TaskStream C M}
    (hid : (id, c) ∈ ((b.onQueue q f).streams q').pending) :
    (id, c) ∈ (b.streams q').pending ∨ q' = q ∧ (id, c) ∈ (f (b.streams q)).pending := by
  by_cases hq : q' = q
  · subst hq
    exact .inr ⟨rfl, by simpa [Broker.onQueue] using hid⟩
  · exact .inl (by simpa [Broker.onQueue, hq] using hid)

theorem HandedOver.own (hb : b.Sound) (h : HandedOver names c b e)
    (hstep : QueueStep names False (some c) b e b' e') : HandedOver names c b' e' := by
  have hpositive : ∀ q id, (id, c) ∈ (b.streams q).pending → EntryId.zero < id := fun q id hid =>
    (hb q).sound.positive id ((hb q).sound.pending_mem _ hid).1
  cases hstep with
  | restart => exact fun _ _ _ _ hpassed => hpassed.elim
  | begin hunacked hreading =>
      intro q hq id hid hpassed
      cases names with
      | nil => simp at hq
      | cons q' qs => exact absurd hq (hpassed.of_zero (hpositive q id hid))
  | @yield _ _ _ q qs m id hunacked hreading hread =>
      obtain ⟨-, -, hleast⟩ := TaskStream.readHistory_some (hb q).sound hread
      intro q' hq' x hx hpassed
      rw [Executor.take, List.mem_append, List.mem_singleton]
      by_cases hnew : q' = q ∧ m < x
      · obtain ⟨rfl, hlt⟩ := hnew
        exact .inr (by rw [le_antisymm (hpassed.2 rfl) (hleast x hx hlt)])
      · refine .inl (h q' hq' x hx ?_)
        rw [hunacked]
        exact ⟨hpassed.1, fun heq => le_of_not_gt fun hlt => hnew ⟨heq, hlt⟩⟩
  | @nextQueue _ _ _ q qs m hunacked hreading hread =>
      intro q' hq' x hx hpassed
      have hrest : q' ∉ qs := by
        cases qs with
        | nil => simp
        | cons q'' qs => exact hpassed.of_zero (hpositive q' x hx)
      refine h q' hq' x hx ?_
      rw [hunacked]
      refine ⟨hrest, ?_⟩
      rintro rfl
      exact TaskStream.readHistory_none hread hx
  | stopIteration => exact h
  | @getNew _ _ _ q qs id hreading hread =>
      intro q' hq' x hx hpassed
      rw [Executor.take, List.mem_append, List.mem_singleton]
      rcases mem_pending_onQueue hx with hold | ⟨rfl, hnew⟩
      · exact .inl (h q' hq' x hold hpassed)
      · rw [TaskStream.readNew, hread, TaskStream.pending_deliver, List.mem_append,
          List.mem_singleton] at hnew
        exact hnew.imp (fun hold => h q' hq' x hold hpassed) fun hsame => by
          rw [(Prod.mk.inj hsame).1]
  | noNew hreading hread =>
      intro q' hq' x hx hpassed
      rcases mem_pending_onQueue hx with hold | ⟨rfl, hnew⟩
      · exact h q' hq' x hold hpassed
      · rw [TaskStream.readNew, hread] at hnew
        exact h q' hq' x hnew hpassed
  | nothing => exact h
  | ack hentry =>
      intro q' hq' x hx hpassed
      rcases mem_pending_onQueue (f := (·.xack _)) hx with hold | ⟨rfl, hnew⟩
      · exact h q' hq' x hold hpassed
      · rw [TaskStream.pending_xack] at hnew
        exact h q' hq' x (List.mem_of_mem_filter hnew) hpassed
  | raise => exact h
  | skipQueue hfaults => exact hfaults.elim
  | endIterator hfaults => exact hfaults.elim
  | loseReply hfaults => exact hfaults.elim
  | failRead hfaults => exact hfaults.elim
  | giveUp hfaults => exact hfaults.elim
  | failAck hfaults => exact hfaults.elim

omit [DecidableEq Q] [DecidableEq C] in
theorem HandedOver.others (h : HandedOver names c b e)
    (hleaves : ∀ q, Leaves c (b.streams q) (b'.streams q)) : HandedOver names c b' e :=
  fun q hq id hid => h q hq id (((hleaves q).pending id).mp hid)

/-- The queues and the executors agree, and what the iterators have passed is handed over. -/
def Recovers (names : List Q) (i : Option C) (b : Broker Q C M) (e : Executor Q) : Prop :=
  Agrees i b e ∧ ∀ c, i = some c → HandedOver names c b e

theorem recovers_stable (hnames : names.Nodup) :
    Stable (QueueStep (C := C) (M := M) names False) (Recovers names) where
  own hstep h := by
    refine ⟨(agrees_stable hnames).own hstep h.1, ?_⟩
    rintro c rfl
    exact (h.2 c rfl).own h.1.1 hstep
  others hij hstep h hj := by
    refine ⟨(agrees_stable hnames).others hij hstep h.1 hj.1, ?_⟩
    rintro c rfl
    exact (hj.2 c rfl).others
      (leaves_step h.1.1 hstep hij fun c' hc' => (h.1.2 c' hc').handles)

/-- Where no command fails, an executor that asks for new messages has been handed every message
that is pending for it, also those that an earlier process has left. -/
theorem pending_handed_over (hnames : names.Nodup) (hg : QueuesEmpty g)
    (hrun : Run (Interleave (QueueStep names False)) g n h) (c : C)
    (hreading : (h.locals (some c)).reading ≠ none) :
    ∀ q ∈ names, ∀ id, (id, c) ∈ (h.shared.streams q).pending →
      (q, id) ∈ (h.locals (some c)).handed := by
  have hstart : ∀ i, Recovers names i g.shared (g.locals i) := fun i =>
    ⟨agrees_of_queuesEmpty hg i, fun c _ => by
      rw [hg.2 i]
      exact fun _ _ _ _ hpassed => hpassed.elim⟩
  obtain ⟨hagrees, hover⟩ := (recovers_stable hnames).run hrun hstart (some c)
  obtain ⟨m, hm⟩ := (hagrees.2 c rfl).reading_after hreading
  intro q hq id hid
  refine hover c rfl q hq id hid ?_
  rw [hm]
  trivial

/-- The executor gets a message and stops. The next process is given it again before it asks for
new messages. -/
theorem pending_handed_over_again :
    ∃ g, Run (Interleave (QueueStep svrQueueNames False)) noMessages 13 g ∧
      (g.locals (some ())).reading ≠ none ∧
      (g.locals (some ())).handed = [("rag_flow_svr_queue", toLex (1, 0))] ∧
      ∀ q ∈ svrQueueNames, ∀ id, (id, ()) ∈ (g.shared.streams q).pending →
        (q, id) ∈ (g.locals (some ())).handed := by
  have h1 : Run (Interleave (QueueStep svrQueueNames False)) noMessages 1 _ :=
    thread .refl none (.produce "rag_flow_svr_queue" 1 "task")
  have h2 := thread h1 (some ()) (.begin rfl rfl)
  have h3 := thread h2 (some ()) (.nextQueue rfl rfl rfl)
  have h4 := thread h3 (some ()) (.nextQueue rfl rfl rfl)
  have h5 := thread h4 (some ()) (.stopIteration rfl rfl)
  have h6 := thread h5 (some ()) (.noNew rfl rfl)
  have h7 := thread h6 (some ()) (.getNew rfl rfl)
  have h8 := thread h7 (some ()) (.restart ())
  have h9 := thread h8 (some ()) (.begin rfl rfl)
  have h10 := thread h9 (some ()) (.nextQueue rfl rfl rfl)
  have h11 := thread h10 (some ()) (.yield rfl rfl rfl)
  have h12 := thread h11 (some ()) (.nextQueue rfl rfl rfl)
  have h13 := thread h12 (some ()) (.stopIteration rfl rfl)
  exact ⟨_, h13, Option.some_ne_none svrQueueNames, rfl,
    pending_handed_over (by decide) ⟨rfl, fun _ => rfl⟩ h13 () (Option.some_ne_none svrQueueNames)⟩

end Recovery

end RagFlow.Redis
