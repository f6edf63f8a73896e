/-
# Generated ids

`generate_auto_increment_id` keeps a counter under one key. The increment itself is one
command, but a call that finds the counter missing, or below the minimum it was asked
for, sends a `SET` afterwards, with a value that it worked out before. Increments of
other calls that came in between are overwritten, and their ids are handed out again.
-/

import RagFlow.Math.Threads
import Mathlib.Order.Lattice
import Mathlib.Algebra.Order.Ring.Int

namespace RagFlow.Redis

open RagFlow.Math Threads

/-- The arguments of a call. -/
structure IdRequest where
  increment : ℤ
  ensureMinimum : Option ℤ
  increment_pos : 1 ≤ increment

/-- Where a call of `generate_auto_increment_id` stands. -/
inductive IdCall where
  | idle
  /-- The call has sent nothing yet. -/
  | begun (req : IdRequest)
  /-- `EXISTS` was answered; `GET` is next. -/
  | checked (req : IdRequest) (minimum : ℤ) (present : Bool)
  /-- `INCRBY` is next. -/
  | incrementing (req : IdRequest)
  /-- `SET` is next, and its value will be returned. -/
  | setting (value : ℤ)
  | returned (id : ℤ)

/-- `INCRBY`, which takes a missing key for 0, and the check for the first use. -/
def incrBy (counter : Option ℤ) (req : IdRequest) : Option ℤ × IdCall :=
  let nextId := counter.getD 0 + req.increment
  (some nextId,
    if nextId = req.increment then .setting (1 + req.increment) else .returned nextId)

/-- The next command of a call: the counter after it, and where the call stands then. -/
def command (counter : Option ℤ) : IdCall → Option (Option ℤ × IdCall)
  | .idle => none
  | .begun req =>
    match req.ensureMinimum with
    | none => some (incrBy counter req)
    | some minimum => some (counter, .checked req minimum counter.isSome)
  | .checked _ minimum false => some (counter, .setting (max 1 minimum))
  | .checked req minimum true =>
    match counter with
    -- `int(None)` raises, and the exception is answered with -1.
    | none => some (counter, .returned (-1))
    | some current =>
      some (counter, if current < minimum then .setting minimum else .incrementing req)
  | .incrementing req => some (incrBy counter req)
  | .setting value => some (some value, .returned value)
  | .returned _ => none

/-- A call is made, or sends its next command. -/
inductive IdStep (counter : Option ℤ) : IdCall → Option ℤ → IdCall → Prop
  | call (req : IdRequest) : IdStep counter .idle counter (.begun req)
  | command {call call' : IdCall} {counter' : Option ℤ}
      (h : command counter call = some (counter', call')) : IdStep counter call counter' call'

/-- A `SET` that comes next raises the counter. -/
def RaisesCounter (counter : Option ℤ) (call : IdCall) : Prop :=
  ∀ value, call = .setting value → ∀ current, counter = some current → current < value

/-- A command that, if it is a `SET`, raises the counter. -/
def RaisingStep (counter : Option ℤ) (call : IdCall) (counter' : Option ℤ) (call' : IdCall) :
    Prop :=
  IdStep counter call counter' call' ∧ RaisesCounter counter call

/-- An id that was returned is at most the counter, and a key that was found is there. -/
def IdCall.BelowCounter (counter : Option ℤ) : IdCall → Prop
  | .returned id => ∃ current, counter = some current ∧ id ≤ current
  | .checked _ _ true => counter.isSome
  | _ => True

/-! ## What one command does to the counter -/

variable {counter counter' : Option ℤ} {call call' : IdCall}

/-- `INCRBY` raises the counter, and returns the new value if it returns. -/
theorem incrBy_spec (counter : Option ℤ) (req : IdRequest) :
    ∃ next, (incrBy counter req).1 = some next ∧
      (∀ current, counter = some current → current < next) ∧
      ((incrBy counter req).2 = .setting (1 + req.increment) ∨
        (incrBy counter req).2 = .returned next) := by
  refine ⟨counter.getD 0 + req.increment, rfl, ?_, ?_⟩
  · rintro current rfl
    have := req.increment_pos
    simp only [Option.getD_some]
    omega
  · by_cases h : counter.getD 0 + req.increment = req.increment
    · exact Or.inl (if_pos h)
    · exact Or.inr (if_neg h)

/-- A command leaves the counter alone or raises it; the call returns the raised counter,
or nothing yet. -/
theorem RaisingStep.spec (h : RaisingStep counter call counter' call')
    (hcall : call.BelowCounter counter) :
    (counter' = counter ∧ call'.BelowCounter counter ∧ ∀ id, call' ≠ .returned id) ∨
      ∃ next, counter' = some next ∧ (∀ current, counter = some current → current < next) ∧
        ∀ id, call' = .returned id → id = next := by
  obtain ⟨hstep, hraises⟩ := h
  have hincr : ∀ req, (counter', call') = incrBy counter req →
      ∃ next, counter' = some next ∧ (∀ current, counter = some current → current < next) ∧
        ∀ id, call' = .returned id → id = next := by
    intro req heq
    obtain ⟨next, hnext, hlt, hend⟩ := incrBy_spec counter req
    rw [← heq] at hnext hend
    refine ⟨next, hnext, hlt, ?_⟩
    rintro id rfl
    simpa using hend
  cases hstep with
  | call req => exact Or.inl ⟨rfl, trivial, by simp⟩
  | command h =>
      cases call with
      | idle => cases h
      | begun req =>
          rw [command] at h
          split at h
          · exact Or.inr (hincr req (Option.some.inj h).symm)
          · obtain ⟨rfl, rfl⟩ := Prod.mk.inj (Option.some.inj h)
            refine Or.inl ⟨rfl, ?_, by simp⟩
            cases counter <;> simp [IdCall.BelowCounter]
      | checked req minimum present =>
          cases present with
          | false =>
              obtain ⟨rfl, rfl⟩ := Prod.mk.inj (Option.some.inj h)
              exact Or.inl ⟨rfl, trivial, by simp⟩
          | true =>
              obtain ⟨current, rfl⟩ := Option.isSome_iff_exists.mp hcall
              obtain ⟨rfl, rfl⟩ := Prod.mk.inj (Option.some.inj h)
              by_cases hlt : current < minimum
              · exact Or.inl ⟨rfl, by simp [hlt, IdCall.BelowCounter], by simp [hlt]⟩
              · exact Or.inl ⟨rfl, by simp [hlt, IdCall.BelowCounter], by simp [hlt]⟩
      | incrementing req => exact Or.inr (hincr req (Option.some.inj h).symm)
      | setting value =>
          obtain ⟨rfl, rfl⟩ := Prod.mk.inj (Option.some.inj h)
          exact Or.inr ⟨value, rfl, hraises value rfl, by simp⟩
      | returned id => cases h

/-- A raised counter stays above what was below it. -/
theorem IdCall.BelowCounter.mono (hcall : call.BelowCounter counter) {next : ℤ}
    (hlt : ∀ current, counter = some current → current < next) :
    call.BelowCounter (some next) := by
  cases call with
  | returned id =>
      obtain ⟨current, hcurrent, hle⟩ := hcall
      exact ⟨next, rfl, hle.trans (hlt current hcurrent).le⟩
  | checked req minimum present =>
      cases present with
      | false => trivial
      | true => rfl
  | _ => trivial

/-! ## Runs of any number of calls -/

variable {ι : Type*}

theorem belowCounter_stable :
    Stable (fun _ : ι => RaisingStep) fun _ counter call => call.BelowCounter counter where
  own := by
    intro i counter call counter' call' hstep hcall
    rcases hstep.spec hcall with ⟨rfl, hcall', _⟩ | ⟨next, rfl, _, hid⟩
    · exact hcall'
    · cases call' with
      | returned id => exact ⟨next, rfl, (hid id rfl).le⟩
      | checked req minimum present => cases present <;> trivial
      | _ => trivial
  others := by
    intro i j counter call counter' call' other _ hstep hcall hother
    rcases hstep.spec hcall with ⟨rfl, _, _⟩ | ⟨next, rfl, hlt, _⟩
    · exact hother
    · exact hother.mono hlt

/-- Two calls have not returned the same id. -/
def IdCall.Apart (call other : IdCall) : Prop :=
  ∀ id, call = .returned id → other ≠ .returned id

theorem apart_separates :
    Separates (fun _ : ι => RaisingStep) (fun _ counter call => call.BelowCounter counter)
      IdCall.Apart where
  symm := fun h id hother hcall => h id hcall hother
  own := by
    rintro i j counter call counter' call' other _ hstep hcall hother _ id hid rfl
    rcases hstep.spec hcall with ⟨_, _, hnone⟩ | ⟨next, _, hlt, hnext⟩
    · exact hnone id hid
    · obtain ⟨current, hcurrent, hle⟩ := hother
      have := hlt current hcurrent
      have := hnext id hid
      omega

/-- As long as every `SET` raises the counter, no two calls return the same id. -/
theorem generated_ids_unique [DecidableEq ι] {start g : Threads ι (Option ℤ) IdCall} {n : ℕ}
    (hidle : ∀ i, start.locals i = .idle)
    (hrun : Run (Interleave fun _ => RaisingStep) start n g) {i j : ι} (hij : i ≠ j) {id : ℤ}
    (hid : g.locals i = .returned id) : g.locals j ≠ .returned id := by
  have hbelow : ∀ k, (start.locals k).BelowCounter start.shared := by
    intro k
    rw [hidle k]
    trivial
  have hapart : ∀ k l, k ≠ l → (start.locals k).Apart (start.locals l) := by
    intro k l _ v hv
    rw [hidle k] at hv
    cases hv
  exact Separates.run belowCounter_stable apart_separates hrun hbelow hapart hij id hid

/-- A call that increments by 1 and asks for no minimum. -/
def plainRequest : IdRequest where
  increment := 1
  ensureMinimum := none
  increment_pos := le_rfl

/-- No call was made, and the key is missing. -/
def noCalls : Threads ℕ (Option ℤ) IdCall where
  shared := none
  locals := fun _ => .idle

/-- The first call ends before the second one starts. -/
theorem generated_ids_unique_noCalls : ∃ n g,
    Run (Interleave fun _ => RaisingStep) noCalls n g ∧ g.locals 0 = .returned 2 ∧
      g.locals 1 = .returned 3 ∧ g.locals 1 ≠ .returned 2 := by
  have h₀ : Run (Interleave fun _ => RaisingStep) noCalls 0 noCalls := .refl
  have h₁ := thread h₀ 0 ⟨.call plainRequest, by simp [RaisesCounter, noCalls]⟩
  have h₂ := thread h₁ 0 (s := some 1) (t := .setting 2) ⟨.command rfl, by simp [RaisesCounter]⟩
  have h₃ := thread h₂ 0 (s := some 2) (t := .returned 2) ⟨.command rfl, by simp [RaisesCounter]⟩
  have h₄ := thread h₃ 1 ⟨.call plainRequest, by simp [RaisesCounter, move, noCalls]⟩
  have h₅ := thread h₄ 1 (s := some 3) (t := .returned 3)
    ⟨.command rfl, by simp [RaisesCounter]⟩
  exact ⟨_, _, h₅, rfl, rfl, generated_ids_unique (fun _ => rfl) h₅ (i := 0) (by decide) rfl⟩

/-- Two calls increment the missing key, and the first one sets it back: both return 2. -/
theorem first_use_repeats_id : ∃ n g, Run (Interleave fun _ => IdStep) noCalls n g ∧
    g.locals 0 = .returned 2 ∧ g.locals 1 = .returned 2 := by
  have h₀ : Run (Interleave fun _ => IdStep) noCalls 0 noCalls := .refl
  have h₁ := thread h₀ 0 (.call plainRequest)
  have h₂ := thread h₁ 1 (.call plainRequest)
  have h₃ := thread h₂ 0 (.command rfl)
  have h₄ := thread h₃ 1 (.command rfl)
  have h₅ := thread h₄ 0 (.command rfl)
  exact ⟨_, _, h₅, rfl, rfl⟩

end RagFlow.Redis
