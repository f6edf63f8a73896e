/-
# Counted runs of a step relation

`Run step n s t` holds when `t` is reached from `s` by exactly `n` steps. The
same notion serves a machine taking step after step and a walk along the edges
of a graph, so invariants of runs and bounds on walks are both stated here.
-/

import Mathlib.Data.Finset.Card
import Mathlib.Data.Fintype.Basic
import Mathlib.Logic.Relation

namespace RagFlow.Math

variable {σ : Type*} {step : σ → σ → Prop}

/-- `t` is reached from `s` by exactly `n` steps. -/
inductive Run (step : σ → σ → Prop) (s : σ) : ℕ → σ → Prop
  | refl : Run step s 0 s
  | tail {n : ℕ} {m t : σ} : Run step s n m → step m t → Run step s (n + 1) t

namespace Run

variable {s m t : σ} {n k : ℕ}

@[simp]
theorem zero_iff : Run step s 0 t ↔ t = s := by
  constructor
  · intro h
    cases h
    rfl
  · rintro rfl
    exact .refl

theorem succ_iff : Run step s (n + 1) t ↔ ∃ m, Run step s n m ∧ step m t := by
  constructor
  · intro h
    cases h with
    | tail hrun hstep => exact ⟨_, hrun, hstep⟩
  · rintro ⟨m, hrun, hstep⟩
    exact .tail hrun hstep

theorem single (h : step s t) : Run step s 1 t := .tail .refl h

theorem trans (h₁ : Run step s n m) (h₂ : Run step m k t) : Run step s (n + k) t := by
  induction h₂ with
  | refl => exact h₁
  | tail _ hstep ih => exact .tail ih hstep

theorem head (h : step s m) (hrun : Run step m n t) : Run step s (n + 1) t := by
  rw [Nat.add_comm]
  exact (single h).trans hrun

/-- A run splits after any number of its steps. -/
theorem split (h : Run step s (n + k) t) : ∃ m, Run step s n m ∧ Run step m k t := by
  induction k generalizing t with
  | zero => exact ⟨t, h, .refl⟩
  | succ k ih =>
      obtain ⟨u, hrun, hstep⟩ := succ_iff.mp h
      obtain ⟨m, hfirst, hsecond⟩ := ih hrun
      exact ⟨m, hfirst, .tail hsecond hstep⟩

/-- A shorter run to an intermediate state, and the rest. -/
theorem splitAt (h : Run step s n t) (hk : k ≤ n) :
    ∃ m, Run step s k m ∧ Run step m (n - k) t := by
  obtain ⟨l, rfl⟩ := Nat.exists_eq_add_of_le hk
  simpa using h.split

/-- What holds at the start and is kept by every step holds at the end; the
property may depend on the number of steps taken. -/
theorem invariant {P : ℕ → σ → Prop} (h : Run step s n t) (start : P 0 s)
    (keep : ∀ k m t, Run step s k m → P k m → step m t → P (k + 1) t) : P n t := by
  induction h with
  | refl => exact start
  | tail hrun hstep ih => exact keep _ _ _ hrun ih hstep

theorem reflTransGen (h : Run step s n t) : Relation.ReflTransGen step s t := by
  induction h with
  | refl => exact .refl
  | tail _ hstep ih => exact ih.tail hstep

theorem transGen (h : Run step s (n + 1) t) : Relation.TransGen step s t := by
  obtain ⟨m, hrun, hstep⟩ := succ_iff.mp h
  exact .tail' hrun.reflTransGen hstep

/-- A reachable state is reached by a run of some length. -/
theorem exists_of_reflTransGen (h : Relation.ReflTransGen step s t) :
    ∃ n, Run step s n t := by
  induction h with
  | refl => exact ⟨0, .refl⟩
  | tail _ hstep ih =>
      obtain ⟨n, hrun⟩ := ih
      exact ⟨n + 1, .tail hrun hstep⟩

theorem exists_succ_of_transGen (h : Relation.TransGen step s t) :
    ∃ n, Run step s (n + 1) t := by
  obtain ⟨m, hm, hstep⟩ := Relation.TransGen.tail'_iff.mp h
  obtain ⟨n, hrun⟩ := exists_of_reflTransGen hm
  exact ⟨n, .tail hrun hstep⟩

/-- A deterministic step makes runs of one length end in one state. -/
theorem unique (det : ∀ {a b c}, step a b → step a c → b = c)
    (h₁ : Run step s n m) (h₂ : Run step s n t) : m = t := by
  induction h₁ generalizing t with
  | refl => exact (zero_iff.mp h₂).symm
  | tail _ hstep ih =>
      obtain ⟨u, hrun, hstep'⟩ := succ_iff.mp h₂
      obtain rfl := ih hrun
      exact det hstep hstep'

/-- The states a run passes through. -/
theorem exists_states (h : Run step s n t) :
    ∃ f : ℕ → σ, f 0 = s ∧ f n = t ∧ ∀ k < n, step (f k) (f (k + 1)) := by
  induction h with
  | refl => exact ⟨fun _ => s, rfl, rfl, fun k hk => absurd hk (Nat.not_lt_zero k)⟩
  | @tail n m t _ hstep ih =>
      obtain ⟨f, hstart, hend, hsteps⟩ := ih
      refine ⟨fun k => if k ≤ n then f k else t, by simpa using hstart, by simp, ?_⟩
      intro k hk
      rcases Nat.lt_succ_iff_lt_or_eq.mp hk with hlt | rfl
      · simpa [hlt.le, Nat.succ_le_iff.mpr hlt] using hsteps k hlt
      · simpa [hend, Nat.not_succ_le_self k] using hstep

theorem of_states {f : ℕ → σ} (hsteps : ∀ k < n, step (f k) (f (k + 1)))
    {i j : ℕ} (hij : i + j ≤ n) : Run step (f i) j (f (i + j)) := by
  induction j with
  | zero => exact .refl
  | succ j ih => exact .tail (ih (by omega)) (hsteps (i + j) (by omega))

/-- In an acyclic relation a run cannot take more steps than there are states
to step from. -/
theorem length_le_of_acyclic [DecidableEq σ] (acyclic : ∀ a, ¬ Relation.TransGen step a a)
    (sources : List σ) (hsources : ∀ a b, step a b → a ∈ sources)
    (h : Run step s n t) : n ≤ sources.length := by
  obtain ⟨f, _, _, hsteps⟩ := h.exists_states
  have hmaps : ∀ k ∈ Finset.range n, f k ∈ sources.toFinset := fun k hk =>
    List.mem_toFinset.mpr (hsources _ _ (hsteps k (Finset.mem_range.mp hk)))
  have hne : ∀ i j, i < j → j < n → f i ≠ f j := by
    intro i j hij hj heq
    obtain ⟨d, rfl⟩ := Nat.exists_eq_add_of_lt hij
    have hwalk : Run step (f i) (d + 1) (f (i + (d + 1))) := of_states hsteps (by omega)
    rw [← Nat.add_assoc, ← heq] at hwalk
    exact acyclic _ hwalk.transGen
  have hinj : Set.InjOn f (Finset.range n) := by
    intro i hi j hj heq
    have hi' : i < n := by simpa using hi
    have hj' : j < n := by simpa using hj
    rcases lt_trichotomy i j with hlt | rfl | hgt
    · exact absurd heq (hne i j hlt hj')
    · rfl
    · exact absurd heq.symm (hne j i hgt hi')
  calc
    n = (Finset.range n).card := (Finset.card_range n).symm
    _ ≤ sources.toFinset.card := Finset.card_le_card_of_injOn f hmaps hinj
    _ ≤ sources.length := sources.toFinset_card_le

theorem iterate {a : σ} (h : Run step a n a) (k : ℕ) : Run step a (k * n) a := by
  induction k with
  | zero =>
      rw [Nat.zero_mul]
      exact .refl
  | succ k ih =>
      rw [Nat.succ_mul]
      exact ih.trans h

/-- Where no cycle can be reached from a state, no run from it takes more steps than there are
states to step from. -/
theorem length_le_of_acyclicFrom [DecidableEq σ] (sources : List σ)
    (hsources : ∀ a b, step a b → a ∈ sources)
    (acyclic : ∀ a, Relation.ReflTransGen step s a → ¬ Relation.TransGen step a a)
    (h : Run step s n t) : n ≤ sources.length := by
  let onward : σ → σ → Prop := fun a b => Relation.ReflTransGen step s a ∧ step a b
  have hacyclic : ∀ a, ¬ Relation.TransGen onward a a := by
    intro a hcycle
    obtain ⟨b, hab, -⟩ := Relation.TransGen.head'_iff.mp hcycle
    exact acyclic a hab.1 (Relation.TransGen.mono (fun _ _ hab => hab.2) _ _ hcycle)
  have hrun : Run onward s n t := by
    induction h with
    | refl => exact .refl
    | tail hrun hstep ih => exact .tail ih ⟨hrun.reflTransGen, hstep⟩
  exact hrun.length_le_of_acyclic hacyclic sources fun a b hab => hsources a b hab.2

/-- Where the runs from a state are bounded at all, none of them takes more steps than there
are states to step from: a longer one would go round a cycle, and so there would be runs of any
length. -/
theorem length_le_of_bounded [DecidableEq σ] (sources : List σ)
    (hsources : ∀ a b, step a b → a ∈ sources) {k : ℕ}
    (hbound : ∀ n t, Run step s n t → n < k) (h : Run step s n t) : n ≤ sources.length := by
  refine h.length_le_of_acyclicFrom sources hsources fun a hreach hcycle => ?_
  obtain ⟨m, hstart⟩ := exists_of_reflTransGen hreach
  obtain ⟨l, hloop⟩ := exists_succ_of_transGen hcycle
  have hlong := hbound _ _ (hstart.trans (hloop.iterate k))
  have hle : k ≤ k * (l + 1) := Nat.le_mul_of_pos_right k (Nat.succ_pos l)
  omega

/-! ### Trees

A state that no step leads to is the root of a tree if no two states step to the same one.
-/

section Tree

variable (single : ∀ a b c, step a c → step b c → a = b) (root : ∀ a, ¬ step a s)
include single root

/-- All the runs from the root to a state are of one length. -/
theorem length_unique (h₁ : Run step s n t) (h₂ : Run step s k t) : n = k := by
  induction h₁ generalizing k with
  | refl =>
      cases h₂ with
      | refl => rfl
      | tail _ hstep => exact absurd hstep (root _)
  | tail _ hstep ih =>
      cases h₂ with
      | refl => exact absurd hstep (root _)
      | tail hrun hstep' =>
          obtain rfl := single _ _ _ hstep hstep'
          rw [ih hrun]

theorem acyclic_of_tree (hreach : Relation.ReflTransGen step s t) :
    ¬ Relation.TransGen step t t := by
  intro hcycle
  obtain ⟨n, hrun⟩ := exists_of_reflTransGen hreach
  obtain ⟨k, hloop⟩ := exists_succ_of_transGen hcycle
  have := hrun.length_unique single root (hrun.trans hloop)
  omega

/-- The subtrees of two states that have one parent have no state in common. -/
theorem disjoint_of_tree {a b x : σ} (hreach : Relation.ReflTransGen step s t) (ha : step t a)
    (hb : step t b) (hne : a ≠ b) (hax : Relation.ReflTransGen step a x) :
    ¬ Relation.ReflTransGen step b x := by
  intro hbx
  obtain ⟨n, hstart⟩ := exists_of_reflTransGen hreach
  obtain ⟨k, hak⟩ := exists_of_reflTransGen hax
  obtain ⟨l, hbl⟩ := exists_of_reflTransGen hbx
  obtain rfl : k = l := by
    have := length_unique single root (hstart.trans (hak.head ha)) (hstart.trans (hbl.head hb))
    omega
  clear hax hbx
  -- Both ways down are as long, so they meet step by step from their end.
  induction hak with
  | refl => exact hne (zero_iff.mp hbl)
  | tail _ hstep ih =>
      obtain ⟨y, hrun, hstep'⟩ := succ_iff.mp hbl
      obtain rfl := single _ _ _ hstep hstep'
      exact ih hrun

end Tree

/-- Induction along an acyclic relation with finitely many sources: a property
holds everywhere if it holds at a state as soon as it holds at all the states
that lead to it. -/
theorem acyclic_induction [DecidableEq σ] (acyclic : ∀ a, ¬ Relation.TransGen step a a)
    (sources : List σ) (hsources : ∀ a b, step a b → a ∈ sources) {P : σ → Prop}
    (ind : ∀ t, (∀ s, Relation.TransGen step s t → P s) → P t) (t : σ) : P t := by
  have bounded : ∀ bound t, (∀ s n, Run step s n t → n ≤ bound) → P t := by
    intro bound
    induction bound with
    | zero =>
        intro t hbound
        refine ind t fun s hs => ?_
        obtain ⟨n, hrun⟩ := exists_succ_of_transGen hs
        exact absurd (hbound s (n + 1) hrun) (by omega)
    | succ bound ih =>
        intro t hbound
        refine ind t fun s hs => ih s fun r n hrun => ?_
        obtain ⟨k, hmore⟩ := exists_succ_of_transGen hs
        have := hbound r (n + (k + 1)) (hrun.trans hmore)
        omega
  exact bounded sources.length t fun s n hrun => hrun.length_le_of_acyclic acyclic sources hsources

end Run

end RagFlow.Math
