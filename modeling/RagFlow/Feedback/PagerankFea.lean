/-
# Feedback on a chunk

Feedback adds to the weight of a chunk within bounds. With Elasticsearch a script does this in one
request; with Infinity the weight is read, and what comes of it is written to the row by its row
id. Calls take turns at the store, and the store may fail to answer or answer with an exception.
-/

import Mathlib
import RagFlow.Math.Threads

namespace RagFlow.Feedback

open RagFlow.Math

universe u v

section Feedback

variable {W : Type u} [LinearOrder W] [Add W] [Zero W]

/-- What a call adds to the weight, and the bounds, which are not negative. -/
structure Vote (W : Type u) [LinearOrder W] [Zero W] where
  delta : W
  minWeight : W
  maxWeight : W
  nonneg : 0 ≤ minWeight
  bounds : minWeight ≤ maxWeight

/-- The weight after a vote: the sum, within the bounds. -/
def Vote.apply (v : Vote W) (w : W) : W := max v.minWeight (min v.maxWeight (w + v.delta))

/-! ## Infinity -/

structure ChunkRow (W : Type u) where
  rowId : ℕ
  weight : W
deriving DecidableEq

/-- Where a call of `adjust_chunk_pagerank_fea` stands: before it reads, with the row id if there
is one; after it has read; or at the end. -/
inductive InfinityCall (W : Type u) where
  | start (attempt : ℕ) (rowId : Option ℕ)
  | read (attempt : ℕ) (rowId : ℕ) (currentWeight : W)
  | returned (success : Bool)
deriving DecidableEq

inductive Answer where
  | ok
  | infinityException
  | exception
deriving DecidableEq

/-- A request and its answer. A write that takes effect gives the row an id, which may be a new
one. -/
inductive InfinityRequest where
  | read (answer : Answer)
  | write (takesEffect : Option ℕ) (answer : Answer)

/-- After an `InfinityException` the row id is given up, until there are no attempts left. -/
def retry (maxRetries attempt : ℕ) : InfinityCall W :=
  if attempt < maxRetries then .start (attempt + 1) none else .returned false

/-- A write by row id takes effect only on the row with that id. -/
def ChunkRow.write (row : Option (ChunkRow W)) (rowId : ℕ) (weight : W) :
    Option ℕ → Option (Option (ChunkRow W))
  | none => some row
  | some newId => row.bind fun r =>
    if r.rowId = rowId then some (some ⟨newId, weight⟩) else none

/-- One request of a call; `none` where the call does not send it. -/
def infinityStep (v : Vote W) (maxRetries : ℕ) (row : Option (ChunkRow W)) :
    InfinityCall W → InfinityRequest → Option (Option (ChunkRow W) × InfinityCall W)
  | .start attempt rowId, .read .ok =>
    match row with
    | none => some (row, .returned false)
    | some r => some (row, .read attempt (rowId.getD r.rowId) r.weight)
  | .start attempt _, .read .infinityException => some (row, retry maxRetries attempt)
  | .start _ _, .read .exception => some (row, .returned false)
  | .read attempt rowId currentWeight, .write takesEffect answer =>
    (ChunkRow.write row rowId (v.apply currentWeight) takesEffect).map fun row' =>
      match answer with
      | .ok => (row', .returned true)
      | .infinityException => (row', retry maxRetries attempt)
      | .exception => (row', .returned false)
  | _, _ => none

/-- The weight of a chunk; where there is none it counts as zero. -/
def rowWeight (row : Option (ChunkRow W)) : W := (row.map ChunkRow.weight).getD 0

/-! ## Elasticsearch -/

inductive ElasticCall where
  | start (attempt : ℕ)
  | returned (success : Bool)
deriving DecidableEq

inductive ElasticAnswer where
  | ok
  | connectionTimeout
  | exception
deriving DecidableEq

/-- The script, on the field `pagerank_fea`. Null and what is no number count as no field. -/
def script (v : Vote W) (field : Option W) : Option W :=
  let cur := field.getD 0
  let nw := cur + v.delta
  let nw := if nw < v.minWeight then v.minWeight else nw
  let nw := if nw > v.maxWeight then v.maxWeight else nw
  if nw ≤ 0 then none else some nw

def attemptTime : ℕ := 2

/-- One request of a call. After a timeout it is sent once more. -/
def elasticStep (v : Vote W) (field : Option W) (takesEffect : Bool) :
    ElasticAnswer → ElasticCall → Option (Option W × ElasticCall)
  | answer, .start attempt =>
    let field' := if takesEffect then script v field else field
    match answer with
    | .ok => some (field', .returned true)
    | .connectionTimeout =>
      some (field', if attempt + 1 < attemptTime then .start (attempt + 1) else .returned false)
    | .exception => some (field', .returned false)
  | _, .returned _ => none

theorem getD_script (v : Vote W) (field : Option W) :
    (script v field).getD 0 = v.apply (field.getD 0) := by
  have hclamp : ∀ nw : W, (if (if nw < v.minWeight then v.minWeight else nw) > v.maxWeight then
      v.maxWeight else if nw < v.minWeight then v.minWeight else nw) =
        max v.minWeight (min v.maxWeight nw) := by
    intro nw
    have hbounds := v.bounds
    split_ifs with hmin hmax hmax
    · exact absurd hmax hbounds.not_gt
    · rw [min_eq_right (hmin.le.trans hbounds), max_eq_left hmin.le]
    · rw [min_eq_left hmax.le, max_eq_right hbounds]
    · rw [min_eq_right (not_lt.mp hmax), max_eq_right (not_lt.mp hmin)]
  have hnonneg : 0 ≤ v.apply (field.getD 0) := v.nonneg.trans (le_max_left _ _)
  have hscript : script v field =
      if v.apply (field.getD 0) ≤ 0 then none else some (v.apply (field.getD 0)) := by
    unfold script
    dsimp only
    rw [hclamp]
    rfl
  rw [hscript]
  split_ifs with hzero
  · exact le_antisymm hnonneg hzero
  · rfl

/-! ## Runs -/

/-- A write answers `ok` exactly if it takes effect, and then on the weight that was read. -/
def Orderly (row : Option (ChunkRow W)) : InfinityCall W → InfinityRequest → Prop
  | .read _ _ currentWeight, .write takesEffect answer =>
    (answer = .ok ↔ takesEffect.isSome) ∧
      (takesEffect.isSome → rowWeight row = currentWeight)
  | _, _ => True

/-- What the connection expects of the store: a write takes effect or raises, and an update gives
the row a new id. -/
def Expected (row : Option (ChunkRow W)) : InfinityCall W → InfinityRequest → Prop
  | .read _ _ _, .write takesEffect answer =>
    (answer = .ok ↔ takesEffect.isSome) ∧
      ∀ newId, takesEffect = some newId → ∀ r, row = some r → r.rowId < newId
  | _, _ => True

/-- The steps of the calls whose requests have a property. -/
def InfinityStep {ι : Type v} (votes : ι → Vote W) (maxRetries : ι → ℕ)
    (P : Option (ChunkRow W) → InfinityCall W → InfinityRequest → Prop) (i : ι)
    (row : Option (ChunkRow W)) (c : InfinityCall W) (row' : Option (ChunkRow W))
    (c' : InfinityCall W) : Prop :=
  ∃ request, infinityStep (votes i) (maxRetries i) row c request = some (row', c') ∧ P row c request

def ElasticStep {ι : Type v} (votes : ι → Vote W) (P : Bool → ElasticAnswer → Prop) (i : ι)
    (field : Option W) (c : ElasticCall) (field' : Option W) (c' : ElasticCall) : Prop :=
  ∃ takesEffect answer, elasticStep (votes i) field takesEffect answer c = some (field', c') ∧
    P takesEffect answer

variable {ι : Type v} {votes : ι → Vote W} {maxRetries : ι → ℕ}

omit [LinearOrder W] [Add W] [Zero W] in
theorem retry_ne_returned (maxRetries attempt : ℕ) :
    (retry maxRetries attempt : InfinityCall W) ≠ .returned true := by
  unfold retry
  split_ifs <;> simp

/-- With orderly requests a call has its effect in the step by which it succeeds. -/
theorem infinity_atomic :
    Threads.Atomic (InfinityStep votes maxRetries Orderly) rowWeight (· = .returned true)
      (fun i => (votes i).apply) := by
  rintro i row c row' c' ⟨request, hstep, hP⟩
  cases c with
  | returned success => cases request <;> cases hstep
  | start attempt rowId =>
      refine Or.inl ?_
      cases request with
      | write takesEffect answer => cases hstep
      | read answer =>
          cases answer with
          | ok =>
              cases row with
              | none =>
                  cases hstep
                  exact ⟨rfl, by simp⟩
              | some r =>
                  cases hstep
                  exact ⟨rfl, by simp⟩
          | infinityException =>
              cases hstep
              exact ⟨rfl, by simp [retry_ne_returned]⟩
          | exception =>
              cases hstep
              exact ⟨rfl, by simp⟩
  | read attempt rowId currentWeight =>
      cases request with
      | read answer => cases answer <;> cases hstep
      | write takesEffect answer =>
          obtain ⟨hok, hweight⟩ := hP
          obtain ⟨written, hwrite, heq⟩ := Option.map_eq_some_iff.mp hstep
          cases takesEffect with
          | none =>
              cases hwrite
              refine Or.inl ?_
              cases answer with
              | ok => exact absurd (hok.mp rfl) (by simp)
              | infinityException =>
                  cases heq
                  exact ⟨rfl, by simp [retry_ne_returned]⟩
              | exception =>
                  cases heq
                  exact ⟨rfl, by simp⟩
          | some newId =>
              obtain rfl := hok.mpr rfl
              obtain ⟨r, hr, hwritten⟩ := Option.bind_eq_some_iff.mp hwrite
              split_ifs at hwritten
              cases hwritten
              cases heq
              refine Or.inr ⟨by simp, rfl, ?_⟩
              rw [hweight rfl]
              rfl

/-- A call that has read knows a row id that the row had, and the weight if the row has it still. -/
def Knows (row : Option (ChunkRow W)) : InfinityCall W → Prop
  | .start _ rowId => ∀ r ∈ rowId, ∀ s ∈ row, r ≤ s.rowId
  | .read _ rowId currentWeight =>
    ∀ s ∈ row, rowId ≤ s.rowId ∧ (s.rowId = rowId → s.weight = currentWeight)
  | .returned _ => True

omit [LinearOrder W] [Add W] [Zero W] in
theorem knows_retry (row : Option (ChunkRow W)) (maxRetries attempt : ℕ) :
    Knows row (retry maxRetries attempt) := by
  unfold retry
  split_ifs
  · exact fun r hr => absurd hr (Option.not_mem_none r)
  · trivial

omit [LinearOrder W] [Add W] [Zero W] in
/-- A write moves the row away from the ids that are known. -/
theorem Knows.write {row row' : Option (ChunkRow W)} {rowId : ℕ} {weight : W}
    {takesEffect : Option ℕ} {c : InfinityCall W}
    (hwrite : ChunkRow.write row rowId weight takesEffect = some row')
    (hnew : ∀ newId, takesEffect = some newId → ∀ r, row = some r → r.rowId < newId)
    (h : Knows row c) : Knows row' c := by
  cases takesEffect with
  | none =>
      cases hwrite
      exact h
  | some newId =>
      obtain ⟨r, rfl, hwritten⟩ := Option.bind_eq_some_iff.mp hwrite
      split_ifs at hwritten
      cases hwritten
      have hlt := hnew newId rfl r rfl
      cases c with
      | start attempt known =>
          rintro k hk s ⟨rfl⟩
          exact (h k hk r rfl).trans hlt.le
      | read attempt known currentWeight =>
          rintro s ⟨rfl⟩
          have hle := (h r rfl).1
          have hne : newId ≠ known := fun heq => absurd (heq.trans_le hle) hlt.not_ge
          exact ⟨hle.trans hlt.le, fun heq => absurd heq hne⟩
      | returned success => trivial

/-- With a store as it is expected, a call knows what it has read. -/
theorem knows_stable :
    Threads.Stable (InfinityStep votes maxRetries Expected) fun _ row c => Knows row c where
  own := by
    rintro i row c row' c' ⟨request, hstep, hP⟩ h
    cases c with
    | returned success => cases request <;> cases hstep
    | start attempt rowId =>
        cases request with
        | write takesEffect answer => cases hstep
        | read answer =>
            cases answer with
            | ok =>
                cases row with
                | none =>
                    cases hstep
                    trivial
                | some r =>
                    cases hstep
                    rintro s ⟨rfl⟩
                    refine ⟨?_, fun _ => rfl⟩
                    cases rowId with
                    | none => exact le_rfl
                    | some known => exact h known rfl r rfl
            | infinityException =>
                cases hstep
                exact knows_retry _ _ _
            | exception =>
                cases hstep
                trivial
    | read attempt rowId currentWeight =>
        cases request with
        | read answer => cases answer <;> cases hstep
        | write takesEffect answer =>
            obtain ⟨written, -, heq⟩ := Option.map_eq_some_iff.mp hstep
            cases answer with
            | ok =>
                cases heq
                trivial
            | infinityException =>
                cases heq
                exact knows_retry _ _ _
            | exception =>
                cases heq
                trivial
  others := by
    rintro i j row c row' c' u - ⟨request, hstep, hP⟩ - h
    cases c with
    | returned success => cases request <;> cases hstep
    | start attempt rowId =>
        have hsame : row' = row := by
          cases request with
          | write takesEffect answer => cases hstep
          | read answer =>
              cases answer with
              | ok => cases row <;> cases hstep <;> rfl
              | infinityException =>
                  cases hstep
                  rfl
              | exception =>
                  cases hstep
                  rfl
        exact hsame ▸ h
    | read attempt rowId currentWeight =>
        cases request with
        | read answer => cases answer <;> cases hstep
        | write takesEffect answer =>
            obtain ⟨written, hwrite, heq⟩ := Option.map_eq_some_iff.mp hstep
            have hsame : row' = written := by
              cases answer <;> cases heq <;> rfl
            exact hsame ▸ h.write hwrite hP.2

/-- What a store as it is expected does is orderly for calls that know what they have read. -/
theorem orderly_of_expected {i : ι} {row row' : Option (ChunkRow W)} {c c' : InfinityCall W}
    (hstep : InfinityStep votes maxRetries Expected i row c row' c') (h : Knows row c) :
    InfinityStep votes maxRetries Orderly i row c row' c' := by
  obtain ⟨request, hstep, hP⟩ := hstep
  refine ⟨request, hstep, ?_⟩
  cases c with
  | returned success => trivial
  | start attempt rowId => trivial
  | read attempt rowId currentWeight =>
      cases request with
      | read answer => trivial
      | write takesEffect answer =>
          refine ⟨hP.1, fun heffect => ?_⟩
          obtain ⟨newId, rfl⟩ := Option.isSome_iff_exists.mp heffect
          obtain ⟨written, hwrite, -⟩ := Option.map_eq_some_iff.mp hstep
          obtain ⟨r, rfl, hwritten⟩ := Option.bind_eq_some_iff.mp hwrite
          split_ifs at hwritten with hid
          exact (h r rfl).2 hid

theorem elastic_atomic :
    Threads.Atomic (ElasticStep votes fun takesEffect answer => answer = .ok ↔ takesEffect = true)
      (fun field => field.getD 0) (· = .returned true) (fun i => (votes i).apply) := by
  rintro i field c field' c' ⟨takesEffect, answer, hstep, hok⟩
  cases c with
  | returned success => cases hstep
  | start attempt =>
      cases takesEffect with
      | false =>
          refine Or.inl ?_
          cases answer with
          | ok => exact absurd (hok.mp rfl) Bool.false_ne_true
          | connectionTimeout =>
              cases hstep
              refine ⟨rfl, ?_⟩
              split_ifs <;> simp
          | exception =>
              cases hstep
              exact ⟨rfl, by simp⟩
      | true =>
          obtain rfl := hok.mpr rfl
          cases hstep
          exact Or.inr ⟨by simp, rfl, getD_script (votes i) field⟩

/-- No feedback is lost in a run in which a write that takes effect finds the weight that was read
and answers `ok`, and no other request takes effect or answers `ok`; a script needs the latter
only. With Infinity this is so where updates give new row ids and fail for old ones. -/
theorem feedback_serial [DecidableEq ι] (votes : ι → Vote W) (maxRetries : ι → ℕ) :
    (∀ (g h : Threads ι (Option (ChunkRow W)) (InfinityCall W)) (n : ℕ),
      (∀ i, ∃ rowId, g.locals i = .start 0 rowId) →
      Run (Threads.Interleave (InfinityStep votes maxRetries Orderly)) g n h →
      Serial (fun i => (votes i).apply) (fun i => h.locals i = .returned true)
        (rowWeight g.shared) (rowWeight h.shared)) ∧
      (∀ (g h : Threads ι (Option (ChunkRow W)) (InfinityCall W)) (n : ℕ),
        (∀ i, ∃ rowId, g.locals i = .start 0 rowId ∧
          ∀ r ∈ rowId, ∀ s ∈ g.shared, r ≤ s.rowId) →
        Run (Threads.Interleave (InfinityStep votes maxRetries Expected)) g n h →
        Serial (fun i => (votes i).apply) (fun i => h.locals i = .returned true)
          (rowWeight g.shared) (rowWeight h.shared)) ∧
      ∀ (g h : Threads ι (Option W) ElasticCall) (n : ℕ), (∀ i, g.locals i = .start 0) →
        Run (Threads.Interleave (ElasticStep votes fun takesEffect answer =>
          answer = .ok ↔ takesEffect = true)) g n h →
        Serial (fun i => (votes i).apply) (fun i => h.locals i = .returned true)
          (g.shared.getD 0) (h.shared.getD 0) := by
  refine ⟨fun g h n hstart hrun => ?_, fun g h n hstart hrun => ?_, fun g h n hstart hrun => ?_⟩
  · refine infinity_atomic.run (fun i => ?_) hrun
    obtain ⟨rowId, hi⟩ := hstart i
    simp [hi]
  · have hknown : ∀ i, Knows g.shared (g.locals i) := fun i => by
      obtain ⟨rowId, hi, hknown⟩ := hstart i
      rw [hi]
      exact hknown
    have hatomic : Threads.Atomic
        (fun i row c row' c' => InfinityStep votes maxRetries Expected i row c row' c' ∧
          Knows row c) rowWeight (· = .returned true) (fun i => (votes i).apply) :=
      fun ⟨hstep, hknows⟩ => infinity_atomic (orderly_of_expected hstep hknows)
    refine hatomic.run (fun i => ?_) (knows_stable.strengthen hrun hknown)
    obtain ⟨rowId, hi, -⟩ := hstart i
    simp [hi]
  · exact elastic_atomic.run (fun i => by simp [hstart i]) hrun

end Feedback

/-- A vote for a chunk, with weights up to 100. -/
def upvote : Vote ℤ where
  delta := 1
  minWeight := 0
  maxWeight := 100
  nonneg := le_rfl
  bounds := by decide

/-- Two calls before a row of weight 0. -/
def twoVotes : Threads Bool (Option (ChunkRow ℤ)) (InfinityCall ℤ) where
  shared := some ⟨1, 0⟩
  locals _ := .start 0 none

/-- A call before a document without a weight. -/
def oneVote : Threads Unit (Option ℤ) ElasticCall where
  shared := none
  locals _ := .start 0

/-- One vote after the other is counted. -/
theorem feedback_serial_votes :
    Serial (fun _ : Bool => upvote.apply)
        (fun i => ((twoVotes.move true (some ⟨1, 0⟩) (.read 0 1 0)).move true (some ⟨2, 1⟩)
          (.returned true)).locals i = .returned true) 0 1 ∧
      Serial (fun _ : Unit => upvote.apply)
        (fun i => (oneVote.move () (some 1) (.returned true)).locals i = .returned true) 0 1 := by
  constructor
  · refine (feedback_serial (fun _ => upvote) fun _ => 2).2.1 twoVotes _ 2
      (fun _ => ⟨none, rfl, fun r hr => absurd hr (Option.not_mem_none r)⟩) ?_
    refine Threads.thread (Threads.thread .refl true ⟨.read .ok, rfl, trivial⟩) true ?_
    refine ⟨.write (some 2) .ok, by decide, by simp, ?_⟩
    rintro newId ⟨rfl⟩ r ⟨rfl⟩
    decide
  · exact (feedback_serial (fun _ => upvote) fun _ => 2).2.2 oneVote _ 1 (fun _ => rfl)
      (Threads.thread .refl () ⟨true, .ok, by decide, by simp⟩)

/-- Two calls read the same weight and both succeed, where the write of the old row id finds no row;
and a vote whose first request takes effect but is not answered in time counts twice. -/
theorem feedback_not_serial :
    (∃ h n, Run (Threads.Interleave
        (InfinityStep (fun _ => upvote) (fun _ => 2) fun _ _ _ => True)) twoVotes n h ∧
      ¬ Serial (fun _ : Bool => upvote.apply) (fun i => h.locals i = .returned true)
        (rowWeight twoVotes.shared) (rowWeight h.shared)) ∧
      ∃ h n, Run (Threads.Interleave (ElasticStep (fun _ => upvote) fun _ _ => True)) oneVote n h ∧
        ¬ Serial (fun _ : Unit => upvote.apply) (fun i => h.locals i = .returned true)
          (oneVote.shared.getD 0) (h.shared.getD 0) := by
  constructor
  · refine ⟨(((twoVotes.move true (some ⟨1, 0⟩) (.read 0 1 0)).move false (some ⟨1, 0⟩)
      (.read 0 1 0)).move true (some ⟨2, 1⟩) (.returned true)).move false (some ⟨2, 1⟩)
        (.returned true), 4, ?_, ?_⟩
    · refine Threads.thread (Threads.thread (Threads.thread (Threads.thread .refl true ?_) false ?_)
        true ?_) false ?_
      · exact ⟨.read .ok, rfl, trivial⟩
      · exact ⟨.read .ok, rfl, trivial⟩
      · exact ⟨.write (some 2) .ok, by decide, trivial⟩
      · exact ⟨.write none .ok, by decide, trivial⟩
    · rintro ⟨order, hnodup, hmem, hweight⟩
      have hall : ∀ i : Bool, i ∈ order := by
        intro i
        rw [hmem]
        cases i <;> decide
      have hperm : order.Perm [false, true] :=
        (List.perm_ext_iff_of_nodup hnodup (by decide)).mpr fun i =>
          ⟨fun _ => by cases i <;> decide, fun _ => hall i⟩
      obtain ⟨a, b, rfl⟩ := List.length_eq_two.mp hperm.length_eq
      have hne : (1 : ℤ) ≠ upvote.apply (upvote.apply 0) := by decide
      exact hne hweight
  · refine ⟨(oneVote.move () (some 1) (.start 1)).move () (some 2) (.returned true), 2, ?_, ?_⟩
    · refine Threads.thread (Threads.thread .refl () ?_) () ?_
      · exact ⟨true, .connectionTimeout, by decide, trivial⟩
      · exact ⟨true, .ok, by decide, trivial⟩
    · rintro ⟨order, hnodup, hmem, hweight⟩
      have hall : () ∈ order := by
        rw [hmem]
        decide
      have hperm : order.Perm [()] :=
        (List.perm_ext_iff_of_nodup hnodup (by decide)).mpr fun i =>
          ⟨fun _ => List.mem_singleton.mpr rfl, fun _ => hall⟩
      obtain ⟨a, rfl⟩ := List.length_eq_one_iff.mp hperm.length_eq
      have hne : (2 : ℤ) ≠ upvote.apply 0 := by decide
      exact hne hweight

end RagFlow.Feedback
