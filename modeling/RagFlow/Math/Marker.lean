/-
# Words that begin with a mark

A marked word has its first entry nowhere else. Its occurrences do not overlap those of other words
with the same mark, and so they are found piece by piece in a list that is put together from such
words and what stands between them.
-/

import Mathlib.Data.List.Infix

namespace RagFlow.Math

variable {α : Type*} {mark : α} {d d' u v w l : List α}

/-- The word begins with the mark, which does not come again. -/
def Marked (mark : α) (d : List α) : Prop := ∃ w, d = mark :: w ∧ mark ∉ w

theorem Marked.ne_nil (h : Marked mark d) : d ≠ [] := by
  obtain ⟨w, rfl, -⟩ := h
  exact List.cons_ne_nil mark w

/-- A word that begins before a mark ends before it. -/
theorem Marked.prefix_of_append (h : Marked mark d) (hu : u ≠ []) (hd : d <+: u ++ mark :: v) :
    d <+: u := by
  obtain ⟨w, rfl, hw⟩ := h
  cases u with
  | nil => exact absurd rfl hu
  | cons a u =>
      rw [List.cons_append, List.cons_prefix_cons] at hd
      rw [List.cons_prefix_cons]
      refine ⟨hd.1, ?_⟩
      rcases Nat.lt_or_ge u.length w.length with hlt | hle
      · have hu : u ++ [mark] <+: w :=
          List.prefix_of_prefix_length_le ((List.prefix_append_right_inj u).mpr ⟨v, rfl⟩) hd.2
            (by
              rw [List.length_append, List.length_singleton]
              exact hlt)
        exact absurd (hu.subset (List.mem_append_right u (List.mem_singleton_self mark))) hw
      · exact List.prefix_of_prefix_length_le hd.2 (List.prefix_append u _) hle

/-- A word occurs before a mark or from it on. -/
theorem Marked.infix_append_iff (h : Marked mark d) :
    d <:+: u ++ mark :: v ↔ d <:+: u ∨ d <:+: mark :: v := by
  constructor
  · intro hd
    induction u with
    | nil => exact Or.inr hd
    | cons a u ih =>
        rw [List.cons_append, List.infix_cons_iff] at hd
        rcases hd with hhere | hlater
        · exact Or.inl (h.prefix_of_append (List.cons_ne_nil a u) hhere).isInfix
        · exact (ih hlater).imp_left fun hu => hu.trans (List.suffix_cons a u).isInfix
  · rintro (hd | hd)
    · exact hd.trans (List.prefix_append u _).isInfix
    · exact hd.trans (List.suffix_append u _).isInfix

/-- A word does not begin where there is no mark. -/
theorem Marked.infix_of_append (h : Marked mark d) (hw : mark ∉ w) (hd : d <:+: w ++ v) :
    d <:+: v := by
  obtain ⟨t, rfl, -⟩ := h
  induction w with
  | nil => exact hd
  | cons a w ih =>
      rw [List.cons_append, List.infix_cons_iff] at hd
      rcases hd with hhere | hlater
      · rw [List.cons_prefix_cons] at hhere
        exact absurd (hhere.1 ▸ List.mem_cons_self) hw
      · exact ih (fun hmem => hw (List.mem_cons_of_mem a hmem)) hlater

/-- A word occurs from another one on, there or behind it. -/
theorem Marked.infix_of_append_marked (h : Marked mark d) (h' : Marked mark d')
    (hd : d <:+: d' ++ v) : d <+: d' ++ v ∨ d <:+: v := by
  obtain ⟨w, rfl, hw⟩ := h'
  rw [List.cons_append, List.infix_cons_iff] at hd
  exact hd.imp_right (h.infix_of_append hw)

/-- A word at the end of a list that begins with it is at the end of what follows. -/
theorem Marked.suffix_of_append (h : Marked mark d) (hv : v ≠ []) (hd : d <:+ d ++ v) :
    d <:+ v := by
  rcases List.suffix_or_suffix_of_suffix hd (List.suffix_append d v) with hsuffix | ⟨t, ht⟩
  · exact hsuffix
  · cases t with
    | nil => exact List.nil_append v ▸ ht ▸ List.suffix_rfl
    | cons a t =>
        obtain ⟨w, rfl, hw⟩ := h
        obtain ⟨rfl, rfl⟩ := List.cons.inj ht
        -- The word would begin within itself, behind its mark.
        have hinside : a :: t <:+ a :: (t ++ v) := by
          have hsplit : (a :: t) ++ v <:+ (a :: (t ++ v)) ++ v := hd
          exact (List.suffix_append_self_iff).mp hsplit
        rcases List.suffix_cons_iff.mp hinside with heq | hlater
        · exact absurd (List.append_right_eq_self.mp (List.cons.inj heq).2.symm) hv
        · exact absurd (hlater.subset List.mem_cons_self) hw

section Occurrence

variable [DecidableEq α]

/-- Where a list occurs first. -/
def occurrence? (needle : List α) : List α → Option ℕ
  | [] => if needle = [] then some 0 else none
  | a :: l => if needle <+: a :: l then some 0 else (occurrence? needle l).map (· + 1)

theorem occurrence?_eq_none (h : ¬ d <:+: l) : occurrence? d l = none := by
  induction l with
  | nil =>
      rw [occurrence?, if_neg]
      rintro rfl
      exact h (List.infix_refl [])
  | cons a l ih =>
      rw [List.infix_cons_iff, not_or] at h
      rw [occurrence?, if_neg h.1, ih h.2, Option.map_none]

/-- A word is found behind what it does not occur in. -/
theorem Marked.occurrence?_append (h : Marked mark d) (hu : ¬ d <:+: u) :
    occurrence? d (u ++ (d ++ v)) = some u.length := by
  induction u with
  | nil =>
      obtain ⟨w, rfl, -⟩ := h
      have hhere : mark :: w <+: mark :: (w ++ v) := List.prefix_append (mark :: w) v
      rw [List.nil_append, List.cons_append, occurrence?, if_pos hhere]
      rfl
  | cons a u ih =>
      rw [List.infix_cons_iff, not_or] at hu
      have hhere : ¬ d <+: a :: (u ++ (d ++ v)) := by
        intro hd
        obtain ⟨w, rfl, hw⟩ := h
        exact hu.1 (Marked.prefix_of_append ⟨w, rfl, hw⟩ (List.cons_ne_nil a u) hd)
      rw [List.cons_append, occurrence?, if_neg hhere, ih hu.2]
      rfl

end Occurrence

end RagFlow.Math
