/-
# Rewriting in place

A list is rewritten place by place, and each step may look at all of the list. If every step makes
of its place what it would make of it at the start, all places are rewritten as if at once.
-/

import Mathlib.Data.List.Basic
import Mathlib.Data.List.Induction
import Mathlib.Data.List.Nodup

namespace RagFlow.Math

universe u

variable {α : Type u} {xs : List α} {final : ℕ → α → α}

/-- The places in `done` are rewritten. -/
def rewritten (xs : List α) (final : ℕ → α → α) (done : List ℕ) : List α :=
  xs.mapIdx fun k a => if k ∈ done then final k a else a

theorem getElem?_rewritten (done : List ℕ) (k : ℕ) :
    (rewritten xs final done)[k]? = xs[k]?.map fun a => if k ∈ done then final k a else a := by
  rw [rewritten, List.getElem?_mapIdx]

theorem getElem?_rewritten_of_notMem {done : List ℕ} {k : ℕ} (h : k ∉ done) :
    (rewritten xs final done)[k]? = xs[k]? := by
  rw [getElem?_rewritten]
  simp [h]

@[simp] theorem rewritten_nil : rewritten xs final [] = xs := by
  apply List.ext_getElem?
  intro k
  exact getElem?_rewritten_of_notMem List.not_mem_nil

/-- One step of the loop. -/
theorem modify_rewritten {step : ℕ → α → α} {done : List ℕ} {i : ℕ} (hi : i ∉ done)
    (h : ∀ a, xs[i]? = some a → step i a = final i a) :
    (rewritten xs final done).modify i (step i) = rewritten xs final (done ++ [i]) := by
  apply List.ext_getElem?
  intro k
  rw [List.getElem?_modify, getElem?_rewritten, getElem?_rewritten]
  cases ha : xs[k]? with
  | none => rfl
  | some a =>
      by_cases hk : i = k
      · subst hk
        simp [hi, h a ha]
      · have hmem : k ∈ done ++ [i] ↔ k ∈ done := by
          simp [Ne.symm hk]
        simp [hk, hmem]

/-- Rewrite one place after the other. -/
def rewriteAll (step : List α → ℕ → α → α) (places : List ℕ) (xs : List α) : List α :=
  places.foldl (fun s i => s.modify i (step s i)) xs

/-- Every step has to do so only with what the steps before it have left. -/
theorem rewriteAll_eq (step : List α → ℕ → α → α) (done : List ℕ) (hnodup : done.Nodup)
    (h : ∀ before i behind a, done = before ++ i :: behind → xs[i]? = some a →
      rewriteAll step before xs = rewritten xs final before →
        step (rewritten xs final before) i a = final i a) :
    rewriteAll step done xs = rewritten xs final done := by
  induction done using List.reverseRecOn with
  | nil => rw [rewriteAll, List.foldl_nil, rewritten_nil]
  | append_singleton done i ih =>
      obtain ⟨hdone, -, hdisjoint⟩ := List.nodup_append'.1 hnodup
      have hi : i ∉ done := fun hmem => hdisjoint hmem (List.mem_singleton_self i)
      have hbefore := ih hdone fun before j behind a hsplit => h before j (behind ++ [i]) a
        (by rw [hsplit, List.append_assoc, List.cons_append])
      rw [rewriteAll] at hbefore ⊢
      rw [List.foldl_append, hbefore]
      exact modify_rewritten hi fun a ha => h done i [] a rfl ha hbefore

/-! ## All places -/

/-- The elements at all places are the list. -/
theorem filterMap_range (l : List α) :
    (List.range l.length).filterMap (l[·]?) = l := by
  induction l using List.reverseRecOn with
  | nil => rfl
  | append_singleton l a ih =>
      have hsame : (List.range l.length).filterMap ((l ++ [a])[·]?) =
          (List.range l.length).filterMap (l[·]?) := by
        apply List.filterMap_congr
        intro i hi
        exact List.getElem?_append_left (List.mem_range.1 hi)
      rw [List.length_append, List.length_singleton, List.range_succ, List.filterMap_append, hsame,
        ih]
      simp

/-! ## Searching -/

variable {p q : α → Bool} {l : List α}

/-- A search finds the same if elements that have come to count are behind one that counted. -/
theorem find?_eq_of_hidden (hpq : ∀ a ∈ l, p a = true → q a = true)
    (hnew : ∀ before a behind, l = before ++ a :: behind → q a = true → p a = false →
      ∃ b ∈ before, p b = true) :
    l.find? q = l.find? p := by
  induction l with
  | nil => rfl
  | cons a l ih =>
      cases hp : p a with
      | true => rw [List.find?_cons_of_pos (hpq a List.mem_cons_self hp), List.find?_cons_of_pos hp]
      | false =>
          have hq : q a = false := by
            rw [← Bool.not_eq_true]
            intro hq
            obtain ⟨b, hb, _⟩ := hnew [] a l rfl hq hp
            exact List.not_mem_nil hb
          rw [List.find?_cons_of_neg (by simp [hq]), List.find?_cons_of_neg (by simp [hp])]
          apply ih (fun b hb => hpq b (List.mem_cons_of_mem a hb))
          intro before b behind hl hqb hpb
          obtain ⟨c, hc, hpc⟩ := hnew (a :: before) b behind (by rw [hl]; rfl) hqb hpb
          rcases List.mem_cons.1 hc with rfl | hc
          · rw [hp] at hpc
            cases hpc
          · exact ⟨c, hc, hpc⟩

/-- What is found is the same if it counted before. -/
theorem find?_eq_of_found (hpq : ∀ a ∈ l, p a = true → q a = true)
    (hfound : ∀ a, l.find? q = some a → p a = true) : l.find? q = l.find? p := by
  cases hq : l.find? q with
  | none =>
      rw [eq_comm, List.find?_eq_none]
      rw [List.find?_eq_none] at hq
      exact fun a ha hp => hq a ha (hpq a ha hp)
  | some a =>
      obtain ⟨hqa, before, behind, rfl, hbefore⟩ := List.find?_eq_some_iff_append.1 hq
      rw [eq_comm, List.find?_eq_some_iff_append]
      refine ⟨hfound a hq, before, behind, rfl, fun b hb => ?_⟩
      have hqb := hbefore b hb
      rw [Bool.not_eq_true'] at hqb ⊢
      rw [← Bool.not_eq_true]
      intro hpb
      rw [hpq b (List.mem_append_left _ hb) hpb] at hqb
      cases hqb

end RagFlow.Math
