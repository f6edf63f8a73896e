/-
# Sorting by exchange

Each element is compared with all later ones and exchanged with those that should come before it.
-/

import Mathlib.Data.List.Perm.Basic

namespace RagFlow.Math

universe u

variable {α : Type u} (before : α → α → Bool)

/-- The element that stays in the first place, and the later ones. -/
def sweep (a : α) : List α → α × List α
  | [] => (a, [])
  | x :: xs =>
    if before x a then ((sweep x xs).1, a :: (sweep x xs).2)
    else ((sweep a xs).1, x :: (sweep a xs).2)

theorem sweep_perm (a : α) (xs : List α) :
    ((sweep before a xs).1 :: (sweep before a xs).2).Perm (a :: xs) := by
  induction xs generalizing a with
  | nil => exact .refl _
  | cons x xs ih =>
      rw [sweep]
      split_ifs
      · exact (List.Perm.swap a _ _).trans ((ih x).cons a)
      · exact (List.Perm.swap x _ _).trans (((ih a).cons x).trans (List.Perm.swap a x xs))

theorem length_sweep (a : α) (xs : List α) : (sweep before a xs).2.length = xs.length :=
  Nat.succ.inj (sweep_perm before a xs).length_eq

def exchangeSort : List α → List α
  | [] => []
  | a :: xs => (sweep before a xs).1 :: exchangeSort (sweep before a xs).2
termination_by xs => xs.length
decreasing_by
  rw [length_sweep]
  exact Nat.lt_succ_self _

section Order

variable {before} {r : α → α → Prop}

end Order

end RagFlow.Math
