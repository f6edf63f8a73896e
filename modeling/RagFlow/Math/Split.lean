/-
# Splitting a list at the leftmost matches

A matcher says how long a match at the head of a list is, with zero for none. The
list is scanned from the left, matches do not overlap, and the result alternates
between the stretches without a match and the matches themselves, as a regular
expression split does whose whole pattern is captured.
-/

import RagFlow.Math.Chars
import Mathlib.Data.List.Infix

namespace RagFlow.Math

variable {α : Type*}

/-- Split from inside a match of which `skip` entries are left; `cur` is the stretch
collected so far. -/
@[grind =] def splitFrom (m : List α → ℕ) : ℕ → List α → List α → List (List α)
  | _, cur, [] => [cur]
  | skip + 1, cur, _ :: l => splitFrom m skip cur l
  | 0, cur, a :: l =>
    match m (a :: l) with
    | 0 => splitFrom m 0 (cur ++ [a]) l
    | n + 1 => cur :: (a :: l).take (n + 1) :: splitFrom m n [] l

/-- The stretches without a match and the matches between them. -/
def splitMatches (m : List α → ℕ) (l : List α) : List (List α) := splitFrom m 0 [] l

section Split

variable {m : List α → ℕ}

theorem splitFrom_of_no_match {cur l : List α} {a : α} (h : m (a :: l) = 0) :
    splitFrom m 0 cur (a :: l) = splitFrom m 0 (cur ++ [a]) l := by
  simp [splitFrom, h]

theorem splitFrom_of_match {cur l : List α} {a : α} {n : ℕ} (h : m (a :: l) = n + 1) :
    splitFrom m 0 cur (a :: l) = cur :: (a :: l).take (n + 1) :: splitFrom m n [] l := by
  simp [splitFrom, h]

/-- Nothing is lost: what was skipped belongs to a match that was returned before. -/
theorem flatten_splitFrom (m : List α → ℕ) (skip : ℕ) (cur l : List α) :
    (splitFrom m skip cur l).flatten = cur ++ l.drop skip := by
  induction l generalizing skip cur with
  | nil => simp [splitFrom]
  | cons a l ih =>
      cases skip with
      | succ skip => rw [splitFrom, ih, List.drop_succ_cons]
      | zero =>
          cases hm : m (a :: l) with
          | zero => rw [splitFrom_of_no_match hm, ih, List.drop_zero, List.drop_zero,
              List.append_assoc, List.singleton_append]
          | succ n =>
              rw [splitFrom_of_match hm, List.flatten_cons, List.flatten_cons, ih,
                List.nil_append, List.take_succ_cons, List.cons_append, List.take_append_drop,
                List.drop_zero]

theorem flatten_splitMatches (m : List α → ℕ) (l : List α) :
    (splitMatches m l).flatten = l :=
  flatten_splitFrom m 0 [] l

/-- Where nothing matches, the list is one piece. -/
theorem splitFrom_eq_singleton {cur l : List α} (h : ∀ a s, a :: s <:+ l → m (a :: s) = 0) :
    splitFrom m 0 cur l = [cur ++ l] := by
  induction l generalizing cur with
  | nil => simp [splitFrom]
  | cons a l ih =>
      rw [splitFrom_of_no_match (h a l (List.suffix_refl _)),
        ih fun b s hs => h b s (hs.trans (List.suffix_cons a l)), List.append_assoc,
        List.singleton_append]

theorem splitMatches_eq_singleton {l : List α} (h : ∀ a s, a :: s <:+ l → m (a :: s) = 0) :
    splitMatches m l = [l] :=
  splitFrom_eq_singleton h

theorem splitFrom_ne_nil (m : List α → ℕ) (skip : ℕ) (cur l : List α) :
    splitFrom m skip cur l ≠ [] := by
  induction l generalizing skip cur with
  | nil => exact List.cons_ne_nil cur []
  | cons a l ih =>
      cases skip with
      | succ skip => exact ih skip cur
      | zero =>
          cases hm : m (a :: l) with
          | zero => rw [splitFrom_of_no_match hm]; exact ih 0 _
          | succ n => rw [splitFrom_of_match hm]; exact List.cons_ne_nil _ _

/-- There are fewer than three pieces only where nothing matches. -/
theorem splitFrom_length_lt_iff {cur l : List α} :
    (splitFrom m 0 cur l).length < 3 ↔ ∀ a s, a :: s <:+ l → m (a :: s) = 0 := by
  induction l generalizing cur with
  | nil => simp [splitFrom]
  | cons a l ih =>
      cases hm : m (a :: l) with
      | zero =>
          rw [splitFrom_of_no_match hm, ih]
          constructor
          · intro h b s hs
            rcases List.suffix_cons_iff.mp hs with heq | hs
            · rw [heq, hm]
            · exact h b s hs
          · intro h b s hs
            exact h b s (hs.trans (List.suffix_cons a l))
      | succ n =>
          rw [splitFrom_of_match hm]
          have hrest : 0 < (splitFrom m n [] l).length :=
            List.length_pos_of_ne_nil (splitFrom_ne_nil m n [] l)
          constructor
          · intro h
            simp only [List.length_cons] at h
            omega
          · intro h
            rw [h a l List.suffix_rfl] at hm
            exact absurd hm.symm (Nat.succ_ne_zero n)

/-- Stretches and matches in turn; a match is never empty. -/
inductive Alternating : List (List α) → Prop
  | last (s : List α) : Alternating [s]
  | cons (s : List α) {sep : List α} {ps : List (List α)} (hsep : sep ≠ [])
      (h : Alternating ps) : Alternating (s :: sep :: ps)

theorem alternating_splitFrom (m : List α → ℕ) (skip : ℕ) (cur l : List α) :
    Alternating (splitFrom m skip cur l) := by
  induction l generalizing skip cur with
  | nil => exact .last cur
  | cons a l ih =>
      cases skip with
      | succ skip => exact ih skip cur
      | zero =>
          cases hm : m (a :: l) with
          | zero => rw [splitFrom_of_no_match hm]; exact ih 0 _
          | succ n =>
              rw [splitFrom_of_match hm, List.take_succ_cons]
              exact .cons cur (List.cons_ne_nil _ _) (ih n [])

theorem alternating_splitMatches (m : List α → ℕ) (l : List α) : Alternating (splitMatches m l) :=
  alternating_splitFrom m 0 [] l

theorem Alternating.snoc {ps : List (List α)} (h : Alternating ps) {sep : List α}
    (hsep : sep ≠ []) (s : List α) : Alternating (ps ++ [sep, s]) := by
  induction h with
  | last t => exact .cons t hsep (.last s)
  | cons t hsep' _ ih => exact .cons t hsep' ih

theorem Alternating.reverse {ps : List (List α)} (h : Alternating ps) :
    Alternating ps.reverse := by
  induction h with
  | last s => exact .last s
  | cons s hsep _ ih =>
      rw [List.reverse_cons, List.reverse_cons, List.append_assoc]
      exact ih.snoc hsep s

end Split

/-! ## Literals -/

variable [DecidableEq α]

/-- The matcher of one literal. -/
def literal (d l : List α) : ℕ := if d <+: l then d.length else 0

/-- A literal splits a list exactly where it occurs. -/
theorem splitMatches_literal_length_lt_iff {d : List α} (hd : d ≠ []) (l : List α) :
    (splitMatches (literal d) l).length < 3 ↔ ¬ d <:+: l := by
  rw [splitMatches, splitFrom_length_lt_iff, List.infix_iff_prefix_suffix]
  have hpos : d.length ≠ 0 := fun h => hd (List.eq_nil_of_length_eq_zero h)
  constructor
  · rintro h ⟨t, hdt, hs⟩
    cases t with
    | nil => exact hd (List.prefix_nil.mp hdt)
    | cons a t =>
        have hzero := h a t hs
        rw [literal, if_pos hdt] at hzero
        exact hpos hzero
  · intro h a s hs
    rw [literal, if_neg]
    intro hd'
    exact h ⟨a :: s, hd', hs⟩

/-- The pieces between occurrences are the occurrences themselves. -/
theorem mem_splitFrom_literal {d cur l : List α}
    (h : 3 ≤ (splitFrom (literal d) 0 cur l).length) : d ∈ splitFrom (literal d) 0 cur l := by
  induction l generalizing cur with
  | nil => simp [splitFrom] at h
  | cons a l ih =>
      cases hm : literal d (a :: l) with
      | zero =>
          rw [splitFrom_of_no_match hm] at h ⊢
          exact ih h
      | succ n =>
          have hhead : d <+: a :: l := by
            by_contra hno
            rw [literal, if_neg hno] at hm
            exact absurd hm.symm (Nat.succ_ne_zero n)
          have hlen : d.length = n + 1 := by rwa [literal, if_pos hhead] at hm
          have htake : (a :: l).take (n + 1) = d := by
            rw [← hlen]
            exact List.prefix_iff_eq_take.mp hhead |>.symm
          rw [splitFrom_of_match hm, htake]
          simp

end RagFlow.Math
