/-
# Substitution from left to right

At each place of a list a matcher says how much of what follows is replaced and by what. A
replacement is not looked at again.
-/

import Mathlib.Data.List.Infix

namespace RagFlow.Math

universe u

variable {α : Type u}

/-- What a matcher finds at the start of a list: how long it is, less one, and what it becomes. -/
abbrev Matcher (α : Type u) := List α → Option (ℕ × List α)

/-- The first argument counts what is left of a match. -/
def substituteFrom (m : Matcher α) : ℕ → List α → List α
  | _, [] => []
  | n + 1, _ :: l => substituteFrom m n l
  | 0, a :: l => match m (a :: l) with
    | some (n, r) => r ++ substituteFrom m n l
    | none => a :: substituteFrom m 0 l

def substitute (m : Matcher α) (l : List α) : List α := substituteFrom m 0 l

section Substitute

variable {m : Matcher α} {l u v r : List α} {a : α} {n : ℕ}

theorem substituteFrom_eq_drop (m : Matcher α) (n : ℕ) (l : List α) :
    substituteFrom m n l = substitute m (l.drop n) := by
  induction l generalizing n with
  | nil => cases n <;> rfl
  | cons a l ih =>
      cases n with
      | zero => rfl
      | succ n => exact ih n

@[simp]
theorem substitute_nil : substitute m [] = [] := rfl

theorem substitute_cons_of_none (h : m (a :: l) = none) :
    substitute m (a :: l) = a :: substitute m l := by
  rw [substitute, substituteFrom, h]
  rfl

theorem substitute_cons_of_some (h : m (a :: l) = some (n, r)) :
    substitute m (a :: l) = r ++ substitute m (l.drop n) := by
  rw [substitute, substituteFrom, h, ← substituteFrom_eq_drop]

/-- Where nothing matches up to a place, the part before it stays. -/
theorem substitute_append (h : ∀ t, t <:+ u → t ≠ [] → m (t ++ v) = none) :
    substitute m (u ++ v) = u ++ substitute m v := by
  induction u with
  | nil => rfl
  | cons a u ih =>
      have hhead : m (a :: (u ++ v)) = none := h (a :: u) List.suffix_rfl (List.cons_ne_nil a u)
      rw [List.cons_append, substitute_cons_of_none hhead,
        ih fun t ht => h t (ht.trans (List.suffix_cons a u)), List.cons_append]

theorem substitute_of_none (h : ∀ t, t <:+ l → t ≠ [] → m t = none) : substitute m l = l := by
  have hall := substitute_append (m := m) (u := l) (v := []) fun t ht hne => by
    rw [List.append_nil]
    exact h t ht hne
  simpa using hall

/-- What is there afterwards was not matched, or it has been put there. -/
theorem mem_substitute (h : a ∈ substitute m l) :
    (∃ t, a :: t <:+ l ∧ m (a :: t) = none) ∨
      ∃ t n r, t <:+ l ∧ m t = some (n, r) ∧ a ∈ r := by
  induction hlen : l.length using Nat.strong_induction_on generalizing l with
  | _ k ih =>
      cases l with
      | nil => cases h
      | cons b l =>
          rw [List.length_cons] at hlen
          have hstep : ∀ l', l' <:+ l → a ∈ substitute m l' →
              (∃ t, a :: t <:+ b :: l ∧ m (a :: t) = none) ∨
                ∃ t n r, t <:+ b :: l ∧ m t = some (n, r) ∧ a ∈ r := by
            intro l' hl' hmem
            have hsuf : l' <:+ b :: l := hl'.trans (List.suffix_cons b l)
            have hlt : l'.length < k := by
              have := hl'.length_le
              omega
            rcases ih _ hlt hmem rfl with ⟨t, ht, hm⟩ | ⟨t, n, r, ht, hm, hr⟩
            · exact .inl ⟨t, ht.trans hsuf, hm⟩
            · exact .inr ⟨t, n, r, ht.trans hsuf, hm, hr⟩
          cases hm : m (b :: l) with
          | none =>
              rw [substitute_cons_of_none hm] at h
              rcases List.mem_cons.mp h with rfl | h
              · exact .inl ⟨l, List.suffix_rfl, hm⟩
              · exact hstep l List.suffix_rfl h
          | some x =>
              obtain ⟨n, r⟩ := x
              rw [substitute_cons_of_some hm] at h
              rcases List.mem_append.mp h with h | h
              · exact .inr ⟨b :: l, n, r, List.suffix_rfl, hm, h⟩
              · exact hstep _ (List.drop_suffix n l) h

/-- Replacing each match by itself changes nothing. -/
theorem substitute_of_same
    (h : ∀ t n r, t <:+ l → m t = some (n, r) → r = t.take (n + 1)) : substitute m l = l := by
  induction hlen : l.length using Nat.strong_induction_on generalizing l with
  | _ len ih =>
      subst hlen
      cases l with
      | nil => rfl
      | cons a l =>
          have hshort : ∀ k, (l.drop k).length < (a :: l).length := fun k => by
            rw [List.length_drop, List.length_cons]
            omega
          cases hm : m (a :: l) with
          | none =>
              rw [substitute_cons_of_none hm, ih l.length (by simp)
                (fun t n r ht => h t n r (ht.trans (List.suffix_cons a l))) rfl]
          | some found =>
              obtain ⟨n, r⟩ := found
              have hr := h (a :: l) n r List.suffix_rfl hm
              rw [substitute_cons_of_some hm, ih _ (hshort n) (fun t k r' ht => h t k r'
                (ht.trans ((List.drop_suffix n l).trans (List.suffix_cons a l)))) rfl, hr,
                List.take_succ_cons, List.cons_append, List.take_append_drop]

end Substitute

end RagFlow.Math
