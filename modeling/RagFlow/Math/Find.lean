/-
# Finding lists within a list

The first occurrence of a list from an offset on, where entries have sizes and offsets are sums of
sizes, as in a text that is searched by bytes. Lists that occur one after another are found one
after another by searching from the end of the last one.
-/

import RagFlow.Math.Join
import Mathlib.Algebra.GroupWithZero.Nat
import Mathlib.Data.List.Infix

namespace RagFlow.Math

variable {α : Type*} (size : α → ℕ)

/-- The size of a list. -/
def totalSize (l : List α) : ℕ := (l.map size).sum

theorem totalSize_append (l₁ l₂ : List α) :
    totalSize size (l₁ ++ l₂) = totalSize size l₁ + totalSize size l₂ := by
  rw [totalSize, List.map_append, List.sum_append]
  rfl

theorem totalSize_cons (a : α) (l : List α) :
    totalSize size (a :: l) = size a + totalSize size l := by
  rw [totalSize, List.map_cons, List.sum_cons]
  rfl

/-- The lists of lists that occur in a list in their order, without overlap. -/
inductive InOrder : List (List α) → List α → Prop
  | nil (l : List α) : InOrder [] l
  | cons {needles : List (List α)} {rest : List α} (gap needle : List α) :
      InOrder needles rest → InOrder (needle :: needles) (gap ++ needle ++ rest)

theorem InOrder.append_left {needles : List (List α)} {l : List α} (h : InOrder needles l)
    (l' : List α) : InOrder needles (l' ++ l) := by
  cases h with
  | nil => exact .nil _
  | cons gap needle h =>
      rw [← List.append_assoc, ← List.append_assoc]
      exact .cons (l' ++ gap) needle h

theorem inOrder_cutFrom {p : α → Bool} (cur l : List α) : InOrder (cutFrom p cur l) (cur ++ l) := by
  induction l generalizing cur with
  | nil =>
      rw [cutFrom]
      split_ifs
      · exact .nil _
      · exact .cons [] cur (.nil [])
  | cons a l ih =>
      have hrest : InOrder (cutFrom p [] l) (a :: l) := (ih []).append_left [a]
      rw [cutFrom]
      split_ifs
      · exact hrest.append_left cur
      · exact .cons [] cur hrest
      · have hcur := ih (cur ++ [a])
        rwa [List.append_assoc, List.singleton_append] at hcur

/-- The pieces that a list is cut into occur in it in their order. -/
theorem inOrder_cut {p : α → Bool} (l : List α) : InOrder (cut p l) l := inOrder_cutFrom [] l

variable [DecidableEq α]

/-- The first offset from `start` on where the needle occurs. -/
def findFrom (needle : List α) (start : ℕ) : ℕ → List α → Option ℕ
  | offset, [] => if start ≤ offset ∧ needle = [] then some offset else none
  | offset, a :: l =>
    if start ≤ offset ∧ needle.isPrefixOf (a :: l) = true then some offset
    else findFrom needle start (offset + size a) l

/-- What is found occurs there, from `start` on. -/
theorem findFrom_eq_some {needle l : List α} {start offset found : ℕ}
    (h : findFrom size needle start offset l = some found) :
    ∃ gap rest, l = gap ++ needle ++ rest ∧ found = offset + totalSize size gap ∧
      start ≤ found := by
  induction l generalizing offset with
  | nil =>
      rw [findFrom] at h
      split_ifs at h with hhere
      obtain rfl := Option.some.inj h
      exact ⟨[], [], by rw [hhere.2]; rfl, rfl, hhere.1⟩
  | cons a l ih =>
      rw [findFrom] at h
      split_ifs at h with hhere
      · obtain rfl := Option.some.inj h
        obtain ⟨rest, hrest⟩ := List.isPrefixOf_iff_prefix.mp hhere.2
        exact ⟨[], rest, hrest.symm, rfl, hhere.1⟩
      · obtain ⟨gap, rest, rfl, hfound, hstart⟩ := ih h
        refine ⟨a :: gap, rest, rfl, ?_, hstart⟩
        rw [hfound, totalSize_cons, Nat.add_assoc]

/-- What occurs from `start` on is found, and not behind where it occurs. -/
theorem findFrom_of_occurs {needle gap rest : List α} {start offset : ℕ}
    (hstart : start ≤ offset + totalSize size gap) :
    ∃ found, findFrom size needle start offset (gap ++ needle ++ rest) = some found ∧
      found ≤ offset + totalSize size gap := by
  induction gap generalizing offset with
  | nil =>
      rw [totalSize, List.map_nil, List.sum_nil, Nat.add_zero] at hstart ⊢
      refine ⟨offset, ?_, le_rfl⟩
      rw [List.nil_append]
      cases hl : needle ++ rest with
      | nil => rw [findFrom, if_pos ⟨hstart, (List.append_eq_nil_iff.mp hl).1⟩]
      | cons a l =>
          have hstarts : needle.isPrefixOf (a :: l) = true :=
            List.isPrefixOf_iff_prefix.mpr ⟨rest, hl⟩
          rw [findFrom, if_pos ⟨hstart, hstarts⟩]
  | cons a gap ih =>
      rw [totalSize_cons] at hstart ⊢
      rw [List.cons_append, List.cons_append, findFrom]
      split_ifs
      · exact ⟨offset, rfl, Nat.le_add_right _ _⟩
      · rw [← Nat.add_assoc] at hstart ⊢
        exact ih hstart

end RagFlow.Math
