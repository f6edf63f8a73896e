/-
# Joining and cutting lists

What a join keeps of its parts: everything without a separator, and everything but the separators
with one. A list is cut at separators into pieces that are not empty, and cutting undoes joining.
-/

import RagFlow.Math.Chars
import Mathlib.Data.List.Basic

namespace RagFlow.Math

variable {α : Type*}

/-- What a list of lists adds up to is one of them just when the others are empty. -/
theorem flatMap_range_eq_iff (f : ℕ → List α) {n i : ℕ} (hi : i ≤ n) :
    (List.range (n + 1)).flatMap f = f i ↔ ∀ k ≤ n, k ≠ i → f k = [] := by
  have hsplit : List.range (n + 1) = List.range i ++ i :: List.range' (i + 1) (n - i) := by
    have happend := List.range'_append_1 (s := 0) (m := i) (n := n - i + 1)
    rw [Nat.zero_add, List.range'_succ] at happend
    rw [List.range_eq_range', List.range_eq_range', happend]
    congr 1
    omega
  rw [hsplit, List.flatMap_append, List.flatMap_cons]
  constructor
  · intro heq k hk hne
    have hlength := congrArg List.length heq
    simp only [List.length_append] at hlength
    rcases Nat.lt_or_gt_of_ne hne with hlt | hgt
    · have hnil : (List.range i).flatMap f = [] := List.eq_nil_of_length_eq_zero (by omega)
      exact List.flatMap_eq_nil_iff.mp hnil k (List.mem_range.mpr hlt)
    · have hnil : (List.range' (i + 1) (n - i)).flatMap f = [] :=
        List.eq_nil_of_length_eq_zero (by omega)
      exact List.flatMap_eq_nil_iff.mp hnil k (List.mem_range'_1.mpr ⟨hgt, by omega⟩)
  · intro h
    have hbefore : (List.range i).flatMap f = [] := by
      refine List.flatMap_eq_nil_iff.mpr fun k hk => ?_
      have hlt := List.mem_range.mp hk
      exact h k (by omega) (by omega)
    have hafter : (List.range' (i + 1) (n - i)).flatMap f = [] := by
      refine List.flatMap_eq_nil_iff.mpr fun k hk => ?_
      have hmem := List.mem_range'_1.mp hk
      exact h k (by omega) (by omega)
    rw [hbefore, hafter, List.append_nil, List.nil_append]

theorem intercalate_nil_left (ps : List (List α)) : ([] : List α).intercalate ps = ps.flatten := by
  induction ps with
  | nil => rfl
  | cons p ps ih =>
      cases ps with
      | nil => simp
      | cons q ps =>
          rw [List.intercalate_cons_cons, ih, List.append_nil, List.flatten_cons (l := p)]

/-- A join without its separator is of one list at most. -/
theorem intercalate_eq_flatten {s : α} {ps : List (List α)} (h : s ∉ [s].intercalate ps) :
    [s].intercalate ps = ps.flatten := by
  rcases ps with _ | ⟨p, _ | ⟨q, ps⟩⟩
  · rfl
  · simp [List.intercalate]
  · exact absurd (by simp [List.intercalate]) h

/-- What is not in the separator is kept. -/
theorem filter_intercalate {f : α → Bool} {sep : List α} (hsep : ∀ a ∈ sep, f a = false)
    (ps : List (List α)) : (sep.intercalate ps).filter f = ps.flatten.filter f := by
  induction ps with
  | nil => rfl
  | cons p ps ih =>
      cases ps with
      | nil => simp
      | cons q ps =>
          have hnil : sep.filter f = [] := by
            rw [List.filter_eq_nil_iff]
            intro a ha
            rw [hsep a ha]
            exact Bool.false_ne_true
          rw [List.intercalate_cons_cons, List.filter_append, List.filter_append, hnil, ih,
            List.append_nil, List.flatten_cons (l := p), List.filter_append]

/-! ## Cutting -/

variable (p : α → Bool)

/-- Cut from inside a piece of which `cur` has been read. -/
def cutFrom : List α → List α → List (List α)
  | cur, [] => if cur.isEmpty then [] else [cur]
  | cur, a :: l =>
    if p a then if cur.isEmpty then cutFrom [] l else cur :: cutFrom [] l
    else cutFrom (cur ++ [a]) l

/-- The pieces between separators that are not empty. -/
def cut (l : List α) : List (List α) := cutFrom p [] l

variable {p}

/-- What is read inside a piece belongs to it. -/
theorem cutFrom_append {cur u l : List α} (h : ∀ a ∈ u, p a = false) :
    cutFrom p cur (u ++ l) = cutFrom p (cur ++ u) l := by
  induction u generalizing cur with
  | nil => rw [List.nil_append, List.append_nil]
  | cons a u ih =>
      rw [List.cons_append, cutFrom, h a List.mem_cons_self, if_neg Bool.false_ne_true,
        ih fun b hb => h b (List.mem_cons_of_mem _ hb), List.append_assoc, List.singleton_append]

/-- The pieces before a separator and those after it. -/
theorem cutFrom_append_cons {cur l₁ l₂ : List α} {s : α} (hs : p s = true) :
    cutFrom p cur (l₁ ++ s :: l₂) = cutFrom p cur l₁ ++ cutFrom p [] l₂ := by
  induction l₁ generalizing cur with
  | nil =>
      simp only [List.nil_append, cutFrom, hs, if_true]
      split_ifs <;> rfl
  | cons a l₁ ih =>
      rw [List.cons_append, cutFrom, cutFrom]
      split_ifs
      · exact ih
      · rw [ih, List.cons_append]
      · exact ih

/-- Cutting a join cuts its parts. -/
theorem cut_intercalate {s : α} (hs : p s = true) (ps : List (List α)) :
    cut p ([s].intercalate ps) = ps.flatMap (cut p) := by
  induction ps with
  | nil => rfl
  | cons q ps ih =>
      cases ps with
      | nil => simp
      | cons r ps =>
          rw [List.intercalate_cons_cons, List.append_assoc, List.singleton_append, cut,
            cutFrom_append_cons hs, List.flatMap_cons (x := q), ← ih]
          rfl

theorem mem_cutFrom {cur l t : List α} (hcur : ∀ a ∈ cur, p a = false)
    (h : t ∈ cutFrom p cur l) : t ≠ [] ∧ ∀ a ∈ t, p a = false := by
  induction l generalizing cur with
  | nil =>
      rw [cutFrom] at h
      split_ifs at h with hnil
      · exact absurd h List.not_mem_nil
      · obtain rfl := List.mem_singleton.mp h
        exact ⟨fun ht => hnil (List.isEmpty_iff.mpr ht), hcur⟩
  | cons a l ih =>
      have hnone : ∀ b ∈ ([] : List α), p b = false := fun b hb => absurd hb List.not_mem_nil
      rw [cutFrom] at h
      split_ifs at h with hsep hnil
      · exact ih hnone h
      · rcases List.mem_cons.mp h with rfl | h
        · exact ⟨fun ht => hnil (List.isEmpty_iff.mpr ht), hcur⟩
        · exact ih hnone h
      · refine ih (fun b hb => ?_) h
        rcases List.mem_append.mp hb with hb | hb
        · exact hcur b hb
        · rw [List.mem_singleton.mp hb]
          exact Bool.not_eq_true _ ▸ hsep

/-- The pieces are not empty and have no separators. -/
theorem mem_cut {l t : List α} (h : t ∈ cut p l) : t ≠ [] ∧ ∀ a ∈ t, p a = false :=
  mem_cutFrom (fun _ ha => absurd ha List.not_mem_nil) h

theorem mem_of_mem_cutFrom {cur l t : List α} (h : t ∈ cutFrom p cur l) {a : α} (ha : a ∈ t) :
    a ∈ cur ++ l := by
  induction l generalizing cur with
  | nil =>
      rw [cutFrom] at h
      split_ifs at h
      · exact absurd h List.not_mem_nil
      · rw [List.mem_singleton.mp h] at ha
        exact List.mem_append_left _ ha
  | cons b l ih =>
      rw [cutFrom] at h
      split_ifs at h
      · exact List.mem_append_right _ (List.mem_cons_of_mem _ (ih h))
      · rcases List.mem_cons.mp h with rfl | h
        · exact List.mem_append_left _ ha
        · exact List.mem_append_right _ (List.mem_cons_of_mem _ (ih h))
      · have hmem := ih h
        rwa [List.append_assoc, List.singleton_append] at hmem

/-- The pieces have entries of the list. -/
theorem mem_of_mem_cut {l t : List α} (h : t ∈ cut p l) {a : α} (ha : a ∈ t) : a ∈ l :=
  mem_of_mem_cutFrom h ha

/-- A list without separators is one piece. -/
theorem cut_eq_singleton {l : List α} (hne : l ≠ []) (h : ∀ a ∈ l, p a = false) :
    cut p l = [l] := by
  have hcut : cutFrom p [] (l ++ []) = cutFrom p ([] ++ l) [] := cutFrom_append h
  rw [List.append_nil, List.nil_append] at hcut
  rw [cut, hcut, cutFrom, if_neg]
  exact fun hnil => hne (List.isEmpty_iff.mp hnil)

/-- Pieces are not cut again. -/
theorem cut_intercalate_of_pieces {s : α} (hs : p s = true) {ps : List (List α)}
    (h : ∀ t ∈ ps, t ≠ [] ∧ ∀ a ∈ t, p a = false) : cut p ([s].intercalate ps) = ps := by
  rw [cut_intercalate hs]
  have hsingle : ps.flatMap (cut p) = ps.flatMap fun t => [t] :=
    List.flatMap_congr fun t ht => cut_eq_singleton (h t ht).1 (h t ht).2
  rw [hsingle, List.flatMap_singleton']

end RagFlow.Math
