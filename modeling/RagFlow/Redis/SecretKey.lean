/-
# The secret key that all servers share

`get_or_create_secret_key` reads the key, sets it if it is missing, and reads it again if
another server was faster. These are separate commands, so the calls of several servers
interleave. The key is set at most once, by the first `SETNX` that finds it missing, and
from then on every command sees this value: the second `GET` never finds the key gone, and
the branch that calls the function again is not reached.
-/

import RagFlow.Math.Threads

namespace RagFlow.Redis

open RagFlow.Math Threads

/-- Where a call of `get_or_create_secret_key` stands, with the number of times that it
has called itself again. -/
inductive SecretCall where
  /-- The first `GET` is next. -/
  | begun (retries : ℕ)
  /-- `SETNX` is next. -/
  | setting (retries : ℕ)
  /-- The second `GET` is next. -/
  | rereading (retries : ℕ)
  | returned (secret : String) (retries : ℕ)
  /-- A command failed, and its exception left the call. -/
  | raised (retries : ℕ)
deriving DecidableEq

namespace SecretCall

def retries : SecretCall → ℕ
  | begun retries | setting retries | rereading retries | returned _ retries | raised retries =>
    retries

/-- How many commands a call has yet to send, unless it starts again. -/
def remaining : SecretCall → ℕ
  | begun _ => 3
  | setting _ => 2
  | rereading _ => 1
  | returned _ _ | raised _ => 0

end SecretCall

/-- The next command of a call with the fallback value `newValue`: the stored key after it,
and where the call stands once it has the reply. -/
def getOrCreateSecretKey (newValue : String) (stored : Option String) :
    SecretCall → Option (Option String × SecretCall)
  | .begun retries =>
    match stored with
    | some existingValue => some (stored, .returned existingValue retries)
    | none => some (stored, .setting retries)
  | .setting retries =>
    match stored with
    | none => some (some newValue, .returned newValue retries)
    | some _ => some (stored, .rereading retries)
  | .rereading retries =>
    match stored with
    | some finalKey => some (stored, .returned finalKey retries)
    | none => some (stored, .begun (retries + 1))
  | .returned _ _ => none
  | .raised _ => none

/-- A call sends its next command. The command is answered, or it raises: with the command
executed and its reply lost, or without the command having reached the server. -/
inductive SecretStep {ι : Type*} (newValue : ι → String) (i : ι) (stored : Option String)
    (call : SecretCall) : Option String → SecretCall → Prop
  | answered {stored' : Option String} {call' : SecretCall}
      (h : getOrCreateSecretKey (newValue i) stored call = some (stored', call')) :
      SecretStep newValue i stored call stored' call'
  | unanswered {stored' : Option String} {call' : SecretCall}
      (h : getOrCreateSecretKey (newValue i) stored call = some (stored', call')) :
      SecretStep newValue i stored call stored' (.raised call.retries)
  | unsent (h : 0 < call.remaining) : SecretStep newValue i stored call stored
      (.raised call.retries)

/-- What a call knows of the stored key: it has not called itself again, before its second
`GET` it knows that the key is set, and what it has returned is the key. -/
structure Knows (stored : Option String) (call : SecretCall) : Prop where
  no_retry : call.retries = 0
  reread : ∀ retries, call = .rereading retries → ∃ secret, stored = some secret
  agreed : ∀ secret retries, call = .returned secret retries → stored = some secret

/-! ## What one command does -/

section Command

variable {newValue : String} {stored stored' : Option String} {call call' : SecretCall}

/-- A command leaves the key alone, or sets a missing key to the call's own value. -/
theorem stored_of_command (h : getOrCreateSecretKey newValue stored call = some (stored', call')) :
    stored' = stored ∨ stored = none ∧ stored' = some newValue := by
  cases call with
  | begun retries =>
      cases stored with
      | none => exact Or.inl (Prod.mk.inj (Option.some.inj h)).1.symm
      | some secret => exact Or.inl (Prod.mk.inj (Option.some.inj h)).1.symm
  | setting retries =>
      cases stored with
      | none => exact Or.inr ⟨rfl, (Prod.mk.inj (Option.some.inj h)).1.symm⟩
      | some secret => exact Or.inl (Prod.mk.inj (Option.some.inj h)).1.symm
  | rereading retries =>
      cases stored with
      | none => exact Or.inl (Prod.mk.inj (Option.some.inj h)).1.symm
      | some secret => exact Or.inl (Prod.mk.inj (Option.some.inj h)).1.symm
  | returned secret retries => cases h
  | raised retries => cases h

/-- The reply keeps what the call knows, and brings it nearer to its end: a call that
rereads a key that is there does not start again. -/
theorem knows_of_command (h : getOrCreateSecretKey newValue stored call = some (stored', call'))
    (hcall : Knows stored call) : Knows stored' call' ∧ call'.remaining < call.remaining := by
  have hretries := hcall.no_retry
  cases call with
  | begun retries =>
      cases stored with
      | none =>
          obtain ⟨rfl, rfl⟩ := Prod.mk.inj (Option.some.inj h)
          exact ⟨⟨hretries, by simp, by simp⟩, by simp [SecretCall.remaining]⟩
      | some secret =>
          obtain ⟨rfl, rfl⟩ := Prod.mk.inj (Option.some.inj h)
          exact ⟨⟨hretries, by simp, by simp⟩, by simp [SecretCall.remaining]⟩
  | setting retries =>
      cases stored with
      | none =>
          obtain ⟨rfl, rfl⟩ := Prod.mk.inj (Option.some.inj h)
          exact ⟨⟨hretries, by simp, by simp⟩, by simp [SecretCall.remaining]⟩
      | some secret =>
          obtain ⟨rfl, rfl⟩ := Prod.mk.inj (Option.some.inj h)
          exact ⟨⟨hretries, by simp, by simp⟩, by simp [SecretCall.remaining]⟩
  | rereading retries =>
      obtain ⟨secret, rfl⟩ := hcall.reread retries rfl
      obtain ⟨rfl, rfl⟩ := Prod.mk.inj (Option.some.inj h)
      exact ⟨⟨hretries, by simp, by simp⟩, by simp [SecretCall.remaining]⟩
  | returned secret retries => cases h
  | raised retries => cases h

/-- A call that has not ended has a next command. -/
theorem exists_command (h : 0 < call.remaining) :
    ∃ stored' call', getOrCreateSecretKey newValue stored call = some (stored', call') := by
  cases call with
  | begun retries => cases stored <;> exact ⟨_, _, rfl⟩
  | setting retries => cases stored <;> exact ⟨_, _, rfl⟩
  | rereading retries => cases stored <;> exact ⟨_, _, rfl⟩
  | returned secret retries => cases h
  | raised retries => cases h

end Command

/-! ## Any number of calls at once -/

variable {ι : Type*} {newValue : ι → String} {i : ι} {stored stored' : Option String}
  {call call' other : SecretCall}

theorem SecretStep.stored_eq (h : SecretStep newValue i stored call stored' call') :
    stored' = stored ∨ stored = none ∧ stored' = some (newValue i) := by
  cases h with
  | answered h => exact stored_of_command h
  | unanswered h => exact stored_of_command h
  | unsent h => exact Or.inl rfl

/-- A stored key is never replaced. -/
theorem SecretStep.keeps (h : SecretStep newValue i stored call stored' call') {secret : String}
    (hsecret : stored = some secret) : stored' = some secret := by
  rcases h.stored_eq with rfl | ⟨hnone, -⟩
  · exact hsecret
  · simp [hsecret] at hnone

theorem Knows.raised (hcall : Knows stored call) (stored' : Option String) :
    Knows stored' (.raised call.retries) where
  no_retry := hcall.no_retry
  reread := by simp
  agreed := by simp

theorem SecretStep.knows (h : SecretStep newValue i stored call stored' call')
    (hcall : Knows stored call) : Knows stored' call' ∧ call'.remaining < call.remaining := by
  cases h with
  | answered h => exact knows_of_command h hcall
  | unanswered h =>
      have hlt := (knows_of_command h hcall).2
      exact ⟨hcall.raised _, (Nat.zero_le _).trans_lt hlt⟩
  | unsent h => exact ⟨hcall.raised _, h⟩

/-- What another call knows stays true. -/
theorem Knows.mono (hother : Knows stored other)
    (h : SecretStep newValue i stored call stored' call') : Knows stored' other where
  no_retry := hother.no_retry
  reread retries heq := by
    obtain ⟨secret, hsecret⟩ := hother.reread retries heq
    exact ⟨secret, h.keeps hsecret⟩
  agreed secret retries heq := h.keeps (hother.agreed secret retries heq)

theorem stable_knows [DecidableEq ι] :
    Stable (SecretStep newValue) (fun _ stored call => Knows stored call) where
  own h hcall := (h.knows hcall).1
  others _ h _ hother := hother.mono h

/-- The servers as they start: every call has yet to send its first command. -/
def servers (ι : Type*) (stored : Option String) : Threads ι (Option String) SecretCall where
  shared := stored
  locals _ := .begun 0

variable [DecidableEq ι] {n : ℕ} {g : Threads ι (Option String) SecretCall}

theorem knows_of_run (h : Run (Interleave (SecretStep newValue)) (servers ι stored) n g) (i : ι) :
    Knows g.shared (g.locals i) := by
  refine stable_knows.run h (fun i => ?_) i
  exact ⟨rfl, by simp [servers], by simp [servers]⟩

/-- The key is the one from the start, or one call's own value. -/
theorem shared_of_run (h : Run (Interleave (SecretStep newValue)) (servers ι stored) n g) :
    g.shared = stored ∨ stored = none ∧ ∃ i, g.shared = some (newValue i) := by
  refine h.invariant
    (P := fun _ g => g.shared = stored ∨ stored = none ∧ ∃ i, g.shared = some (newValue i))
    (Or.inl rfl) ?_
  intro k m t _ hm hstep
  cases hstep with
  | thread i hstep =>
      rw [move_shared]
      rcases hstep.stored_eq with heq | ⟨hnone, heq⟩
      · rwa [heq]
      · refine Or.inr ⟨?_, i, heq⟩
        rcases hm with hsame | ⟨hstored, -⟩
        · exact hsame ▸ hnone
        · exact hstored

/-- In every run the calls that have returned agree on one secret, the key from the start or,
where there was none, one call's own value. No call has called itself again, and a call that
has not ended has a next command and ends with its third at the latest. -/
theorem getOrCreateSecretKey_agrees (newValue : ι → String) (stored : Option String) (n : ℕ)
    (g : Threads ι (Option String) SecretCall)
    (h : Run (Interleave (SecretStep newValue)) (servers ι stored) n g) :
    (∀ i secret retries, g.locals i = .returned secret retries →
        (stored = some secret ∨ stored = none ∧ ∃ j, secret = newValue j) ∧
        ∀ j secret' retries', g.locals j = .returned secret' retries' → secret' = secret) ∧
      (∀ i, (g.locals i).retries = 0) ∧
      ∀ i, (g.locals i).remaining ≤ 3 ∧
        (0 < (g.locals i).remaining → ∃ stored' call',
          getOrCreateSecretKey (newValue i) g.shared (g.locals i) = some (stored', call')) ∧
        ∀ stored' call', SecretStep newValue i g.shared (g.locals i) stored' call' →
          call'.remaining < (g.locals i).remaining := by
  have hknows := knows_of_run h
  refine ⟨?_, fun i => (hknows i).no_retry, ?_⟩
  · intro i secret retries hi
    have hshared := (hknows i).agreed secret retries hi
    constructor
    · rcases shared_of_run h with hsame | ⟨hnone, j, hj⟩
      · exact Or.inl (hsame ▸ hshared)
      · exact Or.inr ⟨hnone, j, Option.some.inj (hshared.symm.trans hj)⟩
    · intro j secret' retries' hj
      exact Option.some.inj (((hknows j).agreed secret' retries' hj).symm.trans hshared)
  · intro i
    refine ⟨?_, exists_command, fun stored' call' hstep => (hstep.knows (hknows i)).2⟩
    cases g.locals i <;> simp [SecretCall.remaining]

/-- Two servers find no key. Both send `SETNX`, the second is told that the key is there and
reads the first one's value. -/
theorem getOrCreateSecretKey_agrees_race :
    ∃ n g, Run (Interleave (SecretStep fun first : Bool => if first then "a" else "b"))
        (servers Bool none) n g ∧
      g.locals true = .returned "a" 0 ∧ g.locals false = .returned "a" 0 ∧
      ∀ i secret retries, g.locals i = .returned secret retries →
        ∀ j secret' retries', g.locals j = .returned secret' retries' → secret' = secret := by
  have hstart : Run (Interleave (SecretStep fun first : Bool => if first then "a" else "b"))
      (servers Bool none) 0 (servers Bool none) := .refl
  have hread := thread (thread hstart true (.answered rfl)) false (.answered rfl)
  have hset := thread (thread hread true (.answered rfl)) false (.answered rfl)
  have hrun := thread hset false (.answered rfl)
  refine ⟨_, _, hrun, rfl, rfl, fun i secret retries hi => ?_⟩
  exact ((getOrCreateSecretKey_agrees _ _ _ _ hrun).1 i secret retries hi).2

end RagFlow.Redis
