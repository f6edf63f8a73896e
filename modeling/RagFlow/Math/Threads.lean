/-
# Threads over a shared state

Threads take turns on a state that they share, one step at a time and in any order. An
invariant of such a system is shown for the thread that moves and, as something that the
move leaves alone, for every other thread; what sets any two threads apart is shown in
the same way.
-/

import RagFlow.Math.Run
import Mathlib.Algebra.BigOperators.Group.Multiset.Basic
import Mathlib.Algebra.Order.Monoid.Defs

namespace RagFlow.Math

universe u v w

/-- A shared state and what each thread keeps for itself. -/
structure Threads (ι : Type u) (σ : Type v) (τ : Type w) where
  shared : σ
  locals : ι → τ

namespace Threads

variable {ι : Type u} {σ : Type v} {τ : Type w} [DecidableEq ι]

/-- Thread `i` has moved to `t`, and the shared state to `s`. -/
def move (g : Threads ι σ τ) (i : ι) (s : σ) (t : τ) : Threads ι σ τ where
  shared := s
  locals := Function.update g.locals i t

@[simp]
theorem move_shared (g : Threads ι σ τ) (i : ι) (s : σ) (t : τ) : (g.move i s t).shared = s :=
  rfl

@[simp]
theorem move_locals_self (g : Threads ι σ τ) (i : ι) (s : σ) (t : τ) :
    (g.move i s t).locals i = t := by
  simp [move]

theorem move_locals_ne (g : Threads ι σ τ) {i j : ι} (h : j ≠ i) (s : σ) (t : τ) :
    (g.move i s t).locals j = g.locals j := by
  simp [move, h]

/-- One thread takes a step, and the others stand still. -/
inductive Interleave (step : ι → σ → τ → σ → τ → Prop) :
    Threads ι σ τ → Threads ι σ τ → Prop
  | thread {g : Threads ι σ τ} (i : ι) {s : σ} {t : τ} (h : step i g.shared (g.locals i) s t) :
      Interleave step g (g.move i s t)

variable {step : ι → σ → τ → σ → τ → Prop} {g h : Threads ι σ τ} {n : ℕ}

/-- A run goes on with a step of thread `i`. -/
theorem thread (hrun : Run (Interleave step) g n h) (i : ι) {s : σ} {t : τ}
    (hstep : step i h.shared (h.locals i) s t) :
    Run (Interleave step) g (n + 1) (h.move i s t) :=
  hrun.tail (.thread i hstep)

/-- A property of every thread that its own steps keep and the steps of others leave
alone. -/
structure Stable (step : ι → σ → τ → σ → τ → Prop) (P : ι → σ → τ → Prop) : Prop where
  own : ∀ {i s t s' t'}, step i s t s' t' → P i s t → P i s' t'
  others : ∀ {i j s t s' t' u}, i ≠ j → step i s t s' t' → P i s t → P j s u → P j s' u

theorem Stable.interleave {P : ι → σ → τ → Prop} (hP : Stable step P)
    (hstep : Interleave step g h) (hg : ∀ i, P i g.shared (g.locals i)) (j : ι) :
    P j h.shared (h.locals j) := by
  cases hstep with
  | @thread i s t hmove =>
      by_cases hij : j = i
      · subst hij
        rw [move_locals_self]
        exact hP.own hmove (hg j)
      · rw [move_locals_ne g hij]
        exact hP.others (Ne.symm hij) hmove (hg i) (hg j)

theorem Stable.run {P : ι → σ → τ → Prop} (hP : Stable step P)
    (hrun : Run (Interleave step) g n h) (hg : ∀ i, P i g.shared (g.locals i)) (j : ι) :
    P j h.shared (h.locals j) := by
  induction hrun generalizing j with
  | refl => exact hg j
  | tail _ hstep ih => exact hP.interleave hstep ih j

/-- What sets two threads apart is kept by the steps of either of them, where every thread
has the property `P`. -/
structure Separates (step : ι → σ → τ → σ → τ → Prop) (P : ι → σ → τ → Prop)
    (R : τ → τ → Prop) : Prop where
  symm : ∀ {t u}, R t u → R u t
  own : ∀ {i j s t s' t' u}, i ≠ j → step i s t s' t' → P i s t → P j s u → R t u → R t' u

theorem Separates.interleave {P : ι → σ → τ → Prop} {R : τ → τ → Prop}
    (hR : Separates step P R) (hstep : Interleave step g h)
    (hP : ∀ i, P i g.shared (g.locals i)) (hg : ∀ i j, i ≠ j → R (g.locals i) (g.locals j))
    {i j : ι} (hij : i ≠ j) : R (h.locals i) (h.locals j) := by
  cases hstep with
  | @thread k s t hmove =>
      by_cases hi : i = k
      · subst hi
        rw [move_locals_self, move_locals_ne g (Ne.symm hij)]
        exact hR.own hij hmove (hP i) (hP j) (hg i j hij)
      · by_cases hj : j = k
        · subst hj
          rw [move_locals_self, move_locals_ne g hij]
          exact hR.symm (hR.own (Ne.symm hij) hmove (hP j) (hP i) (hg j i (Ne.symm hij)))
        · rw [move_locals_ne g hi, move_locals_ne g hj]
          exact hg i j hij

theorem Separates.run {P : ι → σ → τ → Prop} {R : τ → τ → Prop} (hP : Stable step P)
    (hR : Separates step P R) (hrun : Run (Interleave step) g n h)
    (hstart : ∀ i, P i g.shared (g.locals i))
    (hg : ∀ i j, i ≠ j → R (g.locals i) (g.locals j)) {i j : ι} (hij : i ≠ j) :
    R (h.locals i) (h.locals j) := by
  induction hrun generalizing i j with
  | refl => exact hg i j hij
  | tail hrun hstep ih =>
      exact hR.interleave hstep (hP.run hrun hstart) (fun _ _ => ih) hij

end Threads

end RagFlow.Math

/-! ## Serial runs

Threads change a shared value, each at most once and then as if it were alone. Whatever the order
of their steps, the value is what comes of the threads that are done, one after the other. -/

namespace RagFlow.Math

universe u v w

variable {ι : Type u} {W : Type*}

/-- The value `w'` is what some threads make of `w`, one after the other in some order. -/
def Serial (effect : ι → W → W) (done : ι → Prop) (w w' : W) : Prop :=
  ∃ order : List ι, order.Nodup ∧ (∀ i, i ∈ order ↔ done i) ∧
    w' = order.foldl (fun w i => effect i w) w

theorem Serial.refl {effect : ι → W → W} {done : ι → Prop} (h : ∀ i, ¬ done i) (w : W) :
    Serial effect done w w :=
  ⟨[], List.nodup_nil, fun i => ⟨fun hi => absurd hi List.not_mem_nil, fun hi => absurd hi (h i)⟩,
    rfl⟩

/-- One more thread is done. -/
theorem Serial.tail {effect : ι → W → W} {done done' : ι → Prop} {w w' : W} {i : ι}
    (h : Serial effect done w w') (hi : ¬ done i) (hdone : ∀ j, done' j ↔ done j ∨ j = i) :
    Serial effect done' w (effect i w') := by
  obtain ⟨order, hnodup, hmem, rfl⟩ := h
  refine ⟨order ++ [i], ?_, fun j => ?_, ?_⟩
  · rw [List.nodup_append]
    refine ⟨hnodup, List.nodup_singleton i, fun a ha b hb hab => ?_⟩
    rw [hab, List.mem_singleton.mp hb] at ha
    exact hi ((hmem i).mp ha)
  · rw [List.mem_append, List.mem_singleton, hmem, hdone]
  · rw [List.foldl_append, List.foldl_cons, List.foldl_nil]

namespace Threads

variable {σ : Type v} {τ : Type w}

/-- A step leaves the value as it is, or it is the one step by which its thread is done. -/
def Atomic (step : ι → σ → τ → σ → τ → Prop) (value : σ → W) (done : τ → Prop)
    (effect : ι → W → W) : Prop :=
  ∀ {i s t s' t'}, step i s t s' t' →
    (value s' = value s ∧ (done t' ↔ done t)) ∨
      (¬ done t ∧ done t' ∧ value s' = effect i (value s))

variable [DecidableEq ι] {step : ι → σ → τ → σ → τ → Prop} {value : σ → W} {done : τ → Prop}
  {effect : ι → W → W} {g h : Threads ι σ τ} {n : ℕ}

theorem Atomic.interleave (hatomic : Atomic step value done effect) {w : W}
    (hg : Serial effect (fun i => done (g.locals i)) w (value g.shared))
    (hstep : Interleave step g h) :
    Serial effect (fun i => done (h.locals i)) w (value h.shared) := by
  cases hstep with
  | @thread i s t hmove =>
      have hothers : ∀ j, j ≠ i → (done ((g.move i s t).locals j) ↔ done (g.locals j)) :=
        fun j hj => by rw [move_locals_ne g hj]
      rcases hatomic hmove with ⟨hvalue, hsame⟩ | ⟨hbefore, hafter, hvalue⟩
      · have hdone : (fun j => done ((g.move i s t).locals j)) = fun j => done (g.locals j) := by
          funext j
          by_cases hj : j = i
          · rw [hj, move_locals_self, hsame]
          · rw [hothers j hj]
        rw [hdone, move_shared, hvalue]
        exact hg
      · rw [move_shared, hvalue]
        refine hg.tail hbefore fun j => ?_
        by_cases hj : j = i
        · rw [hj, move_locals_self]
          exact ⟨fun _ => Or.inr rfl, fun _ => hafter⟩
        · rw [hothers j hj]
          exact ⟨Or.inl, fun hor => hor.resolve_right hj⟩

/-- Every run of atomic steps is serial. -/
theorem Atomic.run (hatomic : Atomic step value done effect)
    (hstart : ∀ i, ¬ done (g.locals i)) (hrun : Run (Interleave step) g n h) :
    Serial effect (fun i => done (h.locals i)) (value g.shared) (value h.shared) := by
  induction hrun with
  | refl => exact Serial.refl hstart _
  | tail _ hstep ih => exact hatomic.interleave ih hstep

/-- The steps of a run are taken by threads with the invariant. -/
theorem Stable.strengthen {P : ι → σ → τ → Prop} (hP : Stable step P)
    (hrun : Run (Interleave step) g n h) (hg : ∀ i, P i g.shared (g.locals i)) :
    Run (Interleave fun i s t s' t' => step i s t s' t' ∧ P i s t) g n h := by
  induction hrun with
  | refl => exact .refl
  | @tail n m h hrun hstep ih =>
      have hm := hP.run hrun hg
      cases hstep with
      | @thread i s t hmove => exact ih.tail (.thread i ⟨hmove, hm i⟩)

end Threads

end RagFlow.Math

/-! ## A crowd of tasks over a shared state

Tasks come to a shared state and take turns on it in any order. Nothing tells two tasks
apart but what they are at, so the crowd of them is a multiset. What the shared state and
the tasks own together is a balance that no step changes, whatever the order of the steps. -/

namespace RagFlow.Math

universe u v w

/-- A shared state and the tasks at work on it. -/
structure Crowd (σ : Type u) (τ : Type v) where
  shared : σ
  tasks : Multiset τ

namespace Crowd

/-- How a task starts, what befalls the shared state from outside, and what a task does to
the shared state and to itself in one turn. -/
structure Rules (σ : Type u) (τ : Type v) where
  arrives : τ → Prop
  outside : σ → σ → Prop
  turn : σ → τ → σ → τ → Prop

variable {σ : Type u} {τ : Type v} {M : Type w}

/-- A task comes, the shared state is changed from outside, or a task takes its turn. -/
inductive Step (rules : Rules σ τ) : Crowd σ τ → Crowd σ τ → Prop
  | arrive {s : σ} {t : τ} (ts : Multiset τ) (h : rules.arrives t) :
      Step rules ⟨s, ts⟩ ⟨s, t ::ₘ ts⟩
  | outside {s s' : σ} (ts : Multiset τ) (h : rules.outside s s') :
      Step rules ⟨s, ts⟩ ⟨s', ts⟩
  | turn {s s' : σ} {t t' : τ} (ts : Multiset τ) (h : rules.turn s t s' t') :
      Step rules ⟨s, t ::ₘ ts⟩ ⟨s', t' ::ₘ ts⟩

variable {rules : Rules σ τ} {g h : Crowd σ τ} {n : ℕ}

section Balance

variable [AddCommMonoid M] {own : σ → M} {part : τ → M}

/-- What the shared state and the tasks own together. -/
def total (own : σ → M) (part : τ → M) (g : Crowd σ τ) : M :=
  own g.shared + (g.tasks.map part).sum

/-- A task brings nothing with it, nothing is added or taken from outside, and a turn moves
what there is between the shared state and the task. -/
structure Balanced (rules : Rules σ τ) (own : σ → M) (part : τ → M) : Prop where
  arrive : ∀ {t}, rules.arrives t → part t = 0
  outside : ∀ {s s'}, rules.outside s s' → own s' = own s
  turn : ∀ {s t s' t'}, rules.turn s t s' t' → own s' + part t' = own s + part t

theorem Balanced.step (hb : Balanced rules own part) (hstep : Step rules g h) :
    h.total own part = g.total own part := by
  cases hstep with
  | arrive ts harrive => simp [total, hb.arrive harrive]
  | outside ts houtside => simp [total, hb.outside houtside]
  | turn ts hturn =>
      simp only [total, Multiset.map_cons, Multiset.sum_cons, ← add_assoc, hb.turn hturn]

/-- A run keeps the balance. -/
theorem Balanced.run (hb : Balanced rules own part) (hrun : Run (Step rules) g n h) :
    h.total own part = g.total own part := by
  induction hrun with
  | refl => rfl
  | tail _ hstep ih => rw [hb.step hstep, ih]

/-- Between them the shared state and the tasks never own more than they did. -/
structure Bounded [PartialOrder M] (rules : Rules σ τ) (own : σ → M) (part : τ → M) :
    Prop where
  arrive : ∀ {t}, rules.arrives t → part t = 0
  outside : ∀ {s s'}, rules.outside s s' → own s' ≤ own s
  turn : ∀ {s t s' t'}, rules.turn s t s' t' → own s' + part t' ≤ own s + part t

variable [PartialOrder M] [IsOrderedAddMonoid M]

theorem Bounded.step (hb : Bounded rules own part) (hstep : Step rules g h) :
    h.total own part ≤ g.total own part := by
  cases hstep with
  | arrive ts harrive => simp [total, hb.arrive harrive]
  | outside ts houtside => exact add_le_add_left (hb.outside houtside) _
  | turn ts hturn =>
      simp only [total, Multiset.map_cons, Multiset.sum_cons, ← add_assoc]
      exact add_le_add_left (hb.turn hturn) _

/-- A run keeps the bound. -/
theorem Bounded.run (hb : Bounded rules own part) (hrun : Run (Step rules) g n h) :
    h.total own part ≤ g.total own part := by
  induction hrun with
  | refl => exact le_rfl
  | tail _ hstep ih => exact (hb.step hstep).trans ih

end Balance

end Crowd

end RagFlow.Math
