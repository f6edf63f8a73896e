/-
# The shortest prefix that covers a weight

A prefix is taken from a list of weighted elements until it weighs at least what is asked for, or
until the list ends. It is the shortest such prefix, and the only one.
-/

import Mathlib

namespace RagFlow.Math

universe u

variable {α : Type u} (w : α → ℕ)

def weight (l : List α) : ℤ := (l.map fun a => (w a : ℤ)).sum

def cover : ℤ → List α → List α
  | _, [] => []
  | s, a :: l => if 0 < s then a :: cover (s - w a) l else []

section Cover

variable {w} {s : ℤ} {l l' p : List α} {a : α}

@[simp]
theorem weight_nil : weight w [] = 0 := rfl

@[simp]
theorem weight_cons : weight w (a :: l) = w a + weight w l := by
  rw [weight, List.map_cons, List.sum_cons]
  rfl

@[simp]
theorem weight_append : weight w (l ++ l') = weight w l + weight w l' := by
  rw [weight, List.map_append, List.sum_append]
  rfl

theorem weight_nonneg : 0 ≤ weight w l := by
  induction l with
  | nil => rfl
  | cons a l ih =>
      rw [weight_cons]
      omega

theorem weight_perm (h : l.Perm l') : weight w l = weight w l' :=
  (h.map _).sum_eq

theorem cover_of_nonpos (h : s ≤ 0) : cover w s l = [] := by
  cases l with
  | nil => rfl
  | cons a l => rw [cover, if_neg (by omega)]

theorem cover_cons_of_pos (h : 0 < s) : cover w s (a :: l) = a :: cover w (s - w a) l := by
  rw [cover, if_pos h]

theorem cover_prefix : cover w s l <+: l := by
  induction l generalizing s with
  | nil => exact List.prefix_rfl
  | cons a l ih =>
      by_cases h : 0 < s
      · rw [cover_cons_of_pos h]
        exact (List.prefix_cons_inj a).mpr ih
      · rw [cover_of_nonpos (by omega)]
        exact List.nil_prefix

/-- What is asked for is covered if the list weighs that much. -/
theorem le_weight_cover (h : s ≤ weight w l) : s ≤ weight w (cover w s l) := by
  induction l generalizing s with
  | nil => exact h
  | cons a l ih =>
      by_cases hs : 0 < s
      · rw [weight_cons] at h
        rw [cover_cons_of_pos hs, weight_cons]
        have hrest := ih (s := s - w a) (by omega)
        omega
      · rw [cover_of_nonpos (by omega)]
        exact not_lt.mp hs

/-- Going on with a second list asks there for what the first has left. -/
theorem cover_append :
    cover w s (l ++ l') = cover w s l ++ cover w (s - weight w (cover w s l)) l' := by
  induction l generalizing s with
  | nil =>
      rw [List.nil_append, cover, weight_nil, sub_zero, List.nil_append]
  | cons a l ih =>
      by_cases hs : 0 < s
      · rw [List.cons_append, cover_cons_of_pos hs, cover_cons_of_pos hs, ih, weight_cons,
          List.cons_append, sub_sub]
      · rw [cover_of_nonpos (by omega), cover_of_nonpos (by omega), weight_nil, sub_zero,
          cover_of_nonpos (by omega), List.append_nil]

/-- It is the prefix such that no shorter one covers and, unless the list ends, it does itself. -/
theorem cover_eq_iff : cover w s l = p ↔
    p <+: l ∧ (∀ p', p' <+: p → p' ≠ p → weight w p' < s) ∧ (s ≤ weight w p ∨ p = l) := by
  induction l generalizing s p with
  | nil =>
      rw [cover, List.prefix_nil]
      constructor
      · rintro rfl
        exact ⟨rfl, fun p' hp' hne => absurd (List.prefix_nil.mp hp') hne, .inr rfl⟩
      · rintro ⟨rfl, _⟩
        rfl
  | cons a l ih =>
      by_cases hs : 0 < s
      · rw [cover_cons_of_pos hs]
        cases p with
        | nil =>
            constructor
            · intro h
              cases h
            · rintro ⟨_, _, hcovers | hall⟩
              · rw [weight_nil] at hcovers
                omega
              · cases hall
        | cons b p =>
            rw [List.cons.injEq, ih, List.cons_prefix_cons, weight_cons]
            constructor
            · rintro ⟨rfl, hbegins, hshortest, hcovers⟩
              refine ⟨⟨rfl, hbegins⟩, fun p' hp' hne => ?_, ?_⟩
              · cases p' with
                | nil => exact hs
                | cons c p' =>
                    obtain ⟨rfl, hrest⟩ := List.cons_prefix_cons.mp hp'
                    have hlt := hshortest p' hrest fun h => hne (h ▸ rfl)
                    rw [weight_cons]
                    omega
              · rcases hcovers with hcovers | rfl
                · exact .inl (by omega)
                · exact .inr rfl
            · rintro ⟨⟨rfl, hbegins⟩, hshortest, hcovers⟩
              refine ⟨rfl, hbegins, fun p' hp' hne => ?_, ?_⟩
              · have hlt := hshortest (b :: p') ((List.prefix_cons_inj b).mpr hp')
                  fun h => hne (List.cons.inj h).2
                rw [weight_cons] at hlt
                omega
              · rcases hcovers with hcovers | hall
                · exact .inl (by omega)
                · exact .inr (List.cons.inj hall).2
      · rw [cover_of_nonpos (by omega)]
        constructor
        · rintro rfl
          exact ⟨List.nil_prefix, fun p' hp' hne => absurd (List.prefix_nil.mp hp') hne,
            .inl (not_lt.mp hs)⟩
        · rintro ⟨_, hshortest, _⟩
          by_contra hne
          have hlt := hshortest [] List.nil_prefix hne
          exact hs hlt

theorem cover_nil_iff : cover w s l = [] ↔ s ≤ 0 ∨ l = [] := by
  cases l with
  | nil => simp [cover]
  | cons a l =>
      rw [cover]
      split
      · next h => simp [h]
      · next h => simp [not_lt.mp h]

end Cover

section Sublist

variable [DecidableEq α] {l l' : List α}

/-- A sublist of a list without duplicates is decided by its members. -/
theorem filter_mem_of_sublist (h : l'.Sublist l) (hl : l.Nodup) :
    (l.filter fun a => a ∈ l') = l' := by
  induction h with
  | slnil => rfl
  | @cons l₁ l₂ a hsub ih =>
      obtain ⟨ha, hl⟩ := List.nodup_cons.mp hl
      have hnot : a ∉ l₁ := fun hmem => ha (hsub.subset hmem)
      rw [List.filter_cons_of_neg (by simpa using hnot), ih hl]
  | @cons_cons l₁ l₂ a hsub ih =>
      obtain ⟨ha, hl⟩ := List.nodup_cons.mp hl
      have hrest : (l₂.filter fun b => b ∈ a :: l₁) = l₂.filter fun b => b ∈ l₁ := by
        refine List.filter_congr fun b hb => ?_
        have hne : b ≠ a := fun hba => ha (hba ▸ hb)
        simp [hne]
      rw [List.filter_cons_of_pos (by simp), hrest, ih hl]

theorem eq_of_sublist_of_mem_iff {l₁ l₂ : List α} (h₁ : l₁.Sublist l) (h₂ : l₂.Sublist l)
    (hl : l.Nodup) (h : ∀ a ∈ l, a ∈ l₁ ↔ a ∈ l₂) : l₁ = l₂ := by
  rw [← filter_mem_of_sublist h₁ hl, ← filter_mem_of_sublist h₂ hl]
  exact List.filter_congr fun a ha => by simp [h a ha]

variable {w : α → ℕ}

/-- Without the elements of a sublist, its weight goes. -/
theorem weight_filter_not_mem (h : l'.Sublist l) (hl : l.Nodup) :
    weight w (l.filter fun a => a ∉ l') = weight w l - weight w l' := by
  have hperm := weight_perm (w := w) (List.filter_append_perm (fun a => decide (a ∈ l')) l)
  rw [weight_append, filter_mem_of_sublist h hl] at hperm
  have hnot : (l.filter fun a => a ∉ l') = l.filter fun a => !decide (a ∈ l') :=
    List.filter_congr fun a _ => by simp
  rw [hnot]
  omega

end Sublist

end RagFlow.Math
