/-
# Queuing a message again

`requeue_msg` copies a pending message to the end of its stream and acknowledges the old
one, in a loop of three attempts whose exceptions are logged. Nothing leaves the loop when
an attempt succeeds, so every attempt that gets through to the server adds a copy.
-/

import Mathlib.Algebra.Order.Group.Nat
import Mathlib.Data.List.Basic
import Mathlib.Data.List.OfFn

namespace RagFlow.Redis

/-- The id of a stream entry: milliseconds and a sequence number. -/
abbrev MsgId := ℕ × ℕ

/-- A stream, and the messages that a consumer group has read and not acknowledged. -/
structure Stream (α : Type*) where
  entries : List (MsgId × α)
  lastId : MsgId
  pending : List MsgId
deriving DecidableEq

variable {α : Type*}

namespace Stream

/-- `XRANGE` from an id to the same id. -/
def xrange (s : Stream α) (msgId : MsgId) : List (MsgId × α) :=
  s.entries.filter (·.1 = msgId)

/-- The id for a new entry at the server's time `now`. -/
def nextId (s : Stream α) (now : ℕ) : MsgId :=
  if s.lastId.1 < now then (now, 0) else (s.lastId.1, s.lastId.2 + 1)

def xadd (s : Stream α) (now : ℕ) (message : α) : Stream α where
  entries := s.entries ++ [(s.nextId now, message)]
  lastId := s.nextId now
  pending := s.pending

def xack (s : Stream α) (msgId : MsgId) : Stream α :=
  { s with pending := s.pending.filter (· ≠ msgId) }

end Stream

/-- What becomes of one command: it is answered, its reply is lost after the server has
executed it, or it does not reach the server. The last two raise. -/
inductive Fate where
  | answered
  | unanswered
  | unsent
deriving DecidableEq

/-- One turn of the loop: the server's time and the fates of its commands. -/
structure Attempt where
  now : ℕ
  xrange : Fate
  xadd : Fate
  xack : Fate

/-- The body of the loop. An exception ends the attempt; what was executed before stays. -/
def requeueAttempt (msgId : MsgId) (s : Stream α) (attempt : Attempt) : Stream α :=
  match attempt.xrange with
  | .unanswered | .unsent => s
  | .answered =>
    match s.xrange msgId with
    | [] => s
    | (_, message) :: _ =>
      match attempt.xadd with
      | .unsent => s
      | .unanswered => s.xadd attempt.now message
      | .answered =>
        match attempt.xack with
        | .unsent => s.xadd attempt.now message
        | .unanswered | .answered => (s.xadd attempt.now message).xack msgId

/-- `requeue_msg`, with the attempts that its three turns make. It always returns. -/
def requeueMsg (msgId : MsgId) (attempts : Fin 3 → Attempt) (s : Stream α) : Stream α :=
  (List.ofFn attempts).foldl (requeueAttempt msgId) s

namespace Attempt

/-- The attempt gets as far as adding the message. -/
def adds (attempt : Attempt) : Bool :=
  attempt.xrange = .answered ∧ attempt.xadd ≠ .unsent

/-- The attempt gets as far as acknowledging the old message. -/
def acks (attempt : Attempt) : Bool :=
  attempt.xrange = .answered ∧ attempt.xadd = .answered ∧ attempt.xack ≠ .unsent

end Attempt

/-- The attempt raises, and has not added the message. -/
def FailsBeforeAdd (msgId : MsgId) (s : Stream α) (attempt : Attempt) : Prop :=
  attempt.xrange ≠ .answered ∨ msgId ∈ s.entries.map Prod.fst ∧ attempt.xadd = .unsent

/-- The stream has gained one message, with the payload of `msgId`, which is
acknowledged. -/
def RequeuedOnce (msgId : MsgId) (s s' : Stream α) : Prop :=
  ∃ message newId, (msgId, message) ∈ s.entries ∧
    s'.entries = s.entries ++ [(newId, message)] ∧ msgId ∉ s'.pending

/-- One new copy, or no copy where every attempt fails before the add. -/
def RequeueCorrect (msgId : MsgId) (attempts : Fin 3 → Attempt) (s s' : Stream α) : Prop :=
  ((∀ i, FailsBeforeAdd msgId s (attempts i)) → s'.entries = s.entries) ∧
    ((¬ ∀ i, FailsBeforeAdd msgId s (attempts i)) → RequeuedOnce msgId s s')

/-! ## What one attempt does, and what the loop does -/

variable {msgId : MsgId} {message : α} {s : Stream α} {rest : List (MsgId × α)}
  {attempt : Attempt}

theorem xrange_eq_nil_iff : s.xrange msgId = [] ↔ msgId ∉ s.entries.map Prod.fst := by
  rw [Stream.xrange, List.filter_eq_nil_iff, List.mem_map]
  simp only [decide_eq_true_eq, not_exists, not_and]

/-- New entries come after the old ones, so `XRANGE` still finds the old message first. -/
theorem xrange_append (h : s.xrange msgId = (msgId, message) :: rest) {s' : Stream α}
    {added : List (MsgId × α)} (hentries : s'.entries = s.entries ++ added) :
    ∃ rest', s'.xrange msgId = (msgId, message) :: rest' := by
  refine ⟨rest ++ added.filter (·.1 = msgId), ?_⟩
  rw [Stream.xrange] at h
  rw [Stream.xrange, hentries, List.filter_append, h, List.cons_append]

theorem exists_message (h : msgId ∈ s.entries.map Prod.fst) :
    ∃ message rest, s.xrange msgId = (msgId, message) :: rest := by
  cases hxrange : s.xrange msgId with
  | nil => exact absurd h (xrange_eq_nil_iff.mp hxrange)
  | cons entry rest =>
      have hmem : entry ∈ s.xrange msgId := by simp [hxrange]
      have hid : entry.1 = msgId := by simpa using (List.mem_filter.mp hmem).2
      exact ⟨entry.2, rest, by rw [← hid]⟩

/-- A message that is no longer in the stream is left alone. -/
theorem requeueAttempt_of_not_mem (h : msgId ∉ s.entries.map Prod.fst) (attempt : Attempt) :
    requeueAttempt msgId s attempt = s := by
  have hnil := xrange_eq_nil_iff.mpr h
  unfold requeueAttempt
  cases attempt.xrange <;> simp [hnil]

/-- An attempt adds one copy if it gets as far as that, and leaves the message pending unless
it gets as far as the acknowledgement. -/
theorem requeueAttempt_spec (h : s.xrange msgId = (msgId, message) :: rest)
    (attempt : Attempt) :
    (∃ added : List (MsgId × α), (requeueAttempt msgId s attempt).entries = s.entries ++ added ∧
      added.map Prod.snd = List.replicate attempt.adds.toNat message) ∧
      (msgId ∈ (requeueAttempt msgId s attempt).pending ↔
        msgId ∈ s.pending ∧ attempt.acks = false) := by
  unfold requeueAttempt Attempt.adds Attempt.acks
  cases attempt.xrange with
  | unanswered => exact ⟨⟨[], by simp, rfl⟩, by simp⟩
  | unsent => exact ⟨⟨[], by simp, rfl⟩, by simp⟩
  | answered =>
      rw [h]
      cases attempt.xadd with
      | unsent => exact ⟨⟨[], by simp, rfl⟩, by simp⟩
      | unanswered => exact ⟨⟨_, rfl, rfl⟩, by simp [Stream.xadd]⟩
      | answered =>
          cases attempt.xack with
          | unsent => exact ⟨⟨_, rfl, rfl⟩, by simp [Stream.xadd]⟩
          | unanswered => exact ⟨⟨_, rfl, rfl⟩, by simp [Stream.xack]⟩
          | answered => exact ⟨⟨_, rfl, rfl⟩, by simp [Stream.xack]⟩

theorem requeueAttempts_of_not_mem (h : msgId ∉ s.entries.map Prod.fst)
    (attempts : List Attempt) : attempts.foldl (requeueAttempt msgId) s = s := by
  induction attempts with
  | nil => rfl
  | cons attempt attempts ih => rw [List.foldl_cons, requeueAttempt_of_not_mem h, ih]

/-- The loop adds a copy for every attempt that gets as far as adding one. -/
theorem requeueAttempts_spec (h : s.xrange msgId = (msgId, message) :: rest)
    (attempts : List Attempt) :
    (∃ added : List (MsgId × α),
      (attempts.foldl (requeueAttempt msgId) s).entries = s.entries ++ added ∧
      added.map Prod.snd = List.replicate (attempts.countP Attempt.adds) message) ∧
      (msgId ∈ (attempts.foldl (requeueAttempt msgId) s).pending ↔
        msgId ∈ s.pending ∧ ∀ attempt ∈ attempts, attempt.acks = false) := by
  induction attempts generalizing s rest with
  | nil => exact ⟨⟨[], by simp, rfl⟩, by simp⟩
  | cons attempt attempts ih =>
      obtain ⟨⟨first, hfirst, hcopy⟩, hpending⟩ := requeueAttempt_spec h attempt
      obtain ⟨rest', hxrange⟩ := xrange_append h hfirst
      obtain ⟨⟨others, hothers, hcopies⟩, hpendings⟩ := ih hxrange
      rw [List.foldl_cons]
      constructor
      · refine ⟨first ++ others, by rw [hothers, hfirst, List.append_assoc], ?_⟩
        rw [List.map_append, hcopy, hcopies, List.replicate_append_replicate, List.countP_cons,
          Nat.add_comm]
        cases attempt.adds <;> rfl
      · rw [hpendings, hpending, List.forall_mem_cons, and_assoc]

/-- With the message in the stream, an attempt that does not add it fails before the add. -/
theorem failsBeforeAdd_iff (h : msgId ∈ s.entries.map Prod.fst) :
    FailsBeforeAdd msgId s attempt ↔ attempt.adds = false := by
  simp only [FailsBeforeAdd, h, true_and, Attempt.adds, decide_eq_false_iff_not, not_and_or,
    not_not]

/-- If every attempt fails before the add, nothing is added. -/
theorem entries_requeueMsg_of_fails {attempts : Fin 3 → Attempt}
    (h : ∀ i, FailsBeforeAdd msgId s (attempts i)) :
    (requeueMsg msgId attempts s).entries = s.entries := by
  by_cases hmem : msgId ∈ s.entries.map Prod.fst
  · obtain ⟨message, rest, hxrange⟩ := exists_message hmem
    obtain ⟨⟨added, hadded, hcopies⟩, -⟩ := requeueAttempts_spec hxrange (List.ofFn attempts)
    have hnone : (List.ofFn attempts).countP Attempt.adds = 0 := by
      rw [List.countP_eq_zero, List.forall_mem_ofFn_iff]
      intro i
      simpa using (failsBeforeAdd_iff hmem).mp (h i)
    rw [hnone, List.replicate_zero, List.map_eq_nil_iff] at hcopies
    rw [requeueMsg, hadded, hcopies, List.append_nil]
  · rw [requeueMsg, requeueAttempts_of_not_mem hmem]

/-- A message in the stream is queued once more exactly if one attempt adds it and one that adds
it acknowledges it. -/
theorem requeuedOnce_iff (hmem : msgId ∈ s.entries.map Prod.fst) (hpending : msgId ∈ s.pending)
    (attempts : Fin 3 → Attempt) :
    RequeuedOnce msgId s (requeueMsg msgId attempts s) ↔
      (List.ofFn attempts).countP Attempt.adds = 1 ∧ ∃ i, (attempts i).acks = true := by
  obtain ⟨message, rest, hxrange⟩ := exists_message hmem
  obtain ⟨⟨added, hadded, hcopies⟩, hacked⟩ :=
    requeueAttempts_spec hxrange (List.ofFn attempts)
  have hcount := congrArg List.length hcopies
  rw [List.length_map, List.length_replicate] at hcount
  have hnot : msgId ∉ (requeueMsg msgId attempts s).pending ↔
      ∃ i, (attempts i).acks = true := by
    rw [requeueMsg, hacked, List.forall_mem_ofFn_iff]
    simp only [hpending, true_and, not_forall, Bool.not_eq_false]
  rw [← hnot]
  constructor
  · rintro ⟨message', newId, -, hentries, hgone⟩
    refine ⟨?_, hgone⟩
    rw [requeueMsg, hadded] at hentries
    rw [← hcount, List.append_cancel_left hentries, List.length_singleton]
  · rintro ⟨hone, hgone⟩
    rw [hone] at hcount hcopies
    obtain ⟨⟨newId, message'⟩, rfl⟩ := List.length_eq_one_iff.mp hcount
    obtain rfl : message' = message := by simpa using hcopies
    have hfound : (msgId, message') ∈ s.xrange msgId := by simp [hxrange]
    exact ⟨message', newId, (List.mem_filter.mp hfound).1, hadded, hgone⟩

/-- Re-queuing keeps to one copy exactly if all attempts fail before the add, or the message is
in the stream, just one attempt gets as far as adding it, and that attempt executes the
acknowledgement too. -/
theorem requeueMsg_correct_iff (msgId : MsgId) (attempts : Fin 3 → Attempt) (s : Stream α)
    (hpending : msgId ∈ s.pending) :
    RequeueCorrect msgId attempts s (requeueMsg msgId attempts s) ↔
      (∀ i, FailsBeforeAdd msgId s (attempts i)) ∨
        msgId ∈ s.entries.map Prod.fst ∧ (List.ofFn attempts).countP Attempt.adds = 1 ∧
          ∃ i, (attempts i).acks = true := by
  by_cases hfails : ∀ i, FailsBeforeAdd msgId s (attempts i)
  · exact iff_of_true ⟨fun _ => entries_requeueMsg_of_fails hfails, fun h => absurd hfails h⟩
      (Or.inl hfails)
  · constructor
    · intro hcorrect
      obtain ⟨message, newId, hfound, -⟩ := hcorrect.2 hfails
      have hmem : msgId ∈ s.entries.map Prod.fst := List.mem_map_of_mem hfound
      exact Or.inr ⟨hmem, (requeuedOnce_iff hmem hpending attempts).mp (hcorrect.2 hfails)⟩
    · rintro (hall | ⟨hmem, hcond⟩)
      · exact absurd hall hfails
      · exact ⟨fun hall => absurd hall hfails,
          fun _ => (requeuedOnce_iff hmem hpending attempts).mpr hcond⟩

/-- An attempt without a failure. -/
def Attempt.smooth (now : ℕ) : Attempt where
  now := now
  xrange := .answered
  xadd := .answered
  xack := .answered

/-- A stream with one message, which is pending. -/
def onePending : Stream String where
  entries := [((1, 0), "task")]
  lastId := (1, 0)
  pending := [(1, 0)]

/-- Two attempts that do not reach the server, and one without a failure. -/
def thirdTime (i : Fin 3) : Attempt where
  now := 2
  xrange := if i = 2 then .answered else .unsent
  xadd := .answered
  xack := .answered

theorem requeueMsg_correct_thirdTime :
    (1, 0) ∈ onePending.pending ∧
      RequeueCorrect (1, 0) thirdTime onePending (requeueMsg (1, 0) thirdTime onePending) :=
  ⟨by decide, (requeueMsg_correct_iff (1, 0) thirdTime onePending (by decide)).mpr
    (Or.inr ⟨by decide, by decide, 2, by decide⟩)⟩

/-- Without any failure the message is added three times. -/
theorem requeueMsg_adds_three_copies :
    (1, 0) ∈ onePending.pending ∧
      (requeueMsg (1, 0) (fun _ => .smooth 2) onePending).entries =
        [((1, 0), "task"), ((2, 0), "task"), ((2, 1), "task"), ((2, 2), "task")] ∧
      ¬ RequeueCorrect (1, 0) (fun _ => .smooth 2) onePending
        (requeueMsg (1, 0) (fun _ => .smooth 2) onePending) := by
  have hentries : (requeueMsg (1, 0) (fun _ => .smooth 2) onePending).entries =
      [((1, 0), "task"), ((2, 0), "task"), ((2, 1), "task"), ((2, 2), "task")] := by decide
  refine ⟨by decide, hentries, fun hcorrect => ?_⟩
  have hsmooth : ¬ ∀ i : Fin 3, FailsBeforeAdd (1, 0) onePending (Attempt.smooth 2) := by
    simp [FailsBeforeAdd, Attempt.smooth]
  obtain ⟨message, newId, -, hone, -⟩ := hcorrect.2 hsmooth
  rw [hentries] at hone
  simpa [onePending] using congrArg List.length hone

end RagFlow.Redis
