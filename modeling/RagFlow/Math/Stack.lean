/-
# Stacks in descending order

A stack holds a descending list when every new entry first takes away all smaller ones from its end.
One that takes away at most one entry leaves the others below the new one for good: it agrees with
the descending stack exactly as long as no entry would have to take away two.
-/

import Mathlib

namespace RagFlow.Math

universe u

variable {α : Type u} [LinearOrder α]

/-- A new entry takes away all smaller ones. -/
def pushDown (stack : List α) (q : α) : List α := stack.filter (q < ·) ++ [q]

/-- A new entry takes away the last one if that is smaller. -/
def pushOne (stack : List α) (q : α) : List α :=
  (if stack.getLast?.any (· < q) then stack.dropLast else stack) ++ [q]

/-- No entry finds two smaller ones on the descending stack. -/
def TakesOne (stack qs : List α) : Prop :=
  ∀ before q, before ++ [q] <+: qs → ((before.foldl pushDown stack).filter (· < q)).length ≤ 1

section Stack

variable {stack qs : List α} {q x : α}

theorem pushOne_concat (stack : List α) (x q : α) :
    pushOne (stack ++ [x]) q = if x < q then stack ++ [q] else stack ++ [x] ++ [q] := by
  rw [pushOne, List.getLast?_concat, Option.any_some, List.dropLast_concat]
  by_cases h : x < q <;> simp [h]

theorem descending_pushDown (h : stack.Pairwise (· > ·)) : (pushDown stack q).Pairwise (· > ·) := by
  refine List.pairwise_append.mpr ⟨h.filter _, List.pairwise_singleton _ _, ?_⟩
  intro x hx y hy
  obtain rfl := List.mem_singleton.mp hy
  exact of_decide_eq_true (List.mem_filter.mp hx).2

/-- Entries above the last one of a descending stack are no smaller than what it is not smaller
than. -/
theorem filter_lt_eq_nil (h : (stack ++ [x]).Pairwise (· > ·)) (hx : ¬ x < q) :
    stack.filter (· < q) = [] := by
  rw [List.filter_eq_nil_iff]
  intro y hy hlt
  have hyx := (List.pairwise_append.mp h).2.2 y hy x List.mem_cons_self
  exact hx (hyx.trans (of_decide_eq_true hlt))

/-- An entry that finds at most one smaller one does the same on both stacks. -/
theorem pushOne_eq_pushDown (h : stack.Pairwise (· > ·)) (hq : q ∉ stack)
    (hone : (stack.filter (· < q)).length ≤ 1) : pushOne stack q = pushDown stack q := by
  induction stack using List.reverseRecOn with
  | nil => rfl
  | append_singleton stack x _ =>
      rw [List.mem_append, not_or, List.mem_singleton] at hq
      rw [pushOne_concat, pushDown, List.filter_append]
      by_cases hx : x < q
      · have hall : stack.filter (q < ·) = stack := by
          rw [List.filter_eq_self]
          intro y hy
          have hge : ¬ y < q := by
            intro hlt
            have hmem : y ∈ stack.filter (· < q) :=
              List.mem_filter.mpr ⟨hy, decide_eq_true hlt⟩
            rw [List.filter_append, List.length_append] at hone
            have hpos := List.length_pos_of_mem hmem
            have hlast : ([x].filter (· < q)).length = 1 := by simp [hx]
            omega
          have hne : y ≠ q := fun heq => hq.1 (heq ▸ hy)
          exact decide_eq_true (lt_of_le_of_ne (not_lt.mp hge) hne.symm)
        rw [if_pos hx, hall]
        simp [hx.le]
      · have hqx : q < x := lt_of_le_of_ne (not_lt.mp hx) hq.2
        have hall : stack.filter (q < ·) = stack := by
          rw [List.filter_eq_self]
          intro y hy
          have hyx := (List.pairwise_append.mp h).2.2 y hy x List.mem_cons_self
          exact decide_eq_true (hqx.trans hyx)
        rw [if_neg hx, hall]
        simp [hqx]

/-- An entry that finds two smaller ones leaves one of them before itself. -/
theorem not_descending_pushOne (h : stack.Pairwise (· > ·))
    (htwo : 1 < (stack.filter (· < q)).length) : ¬ (pushOne stack q).Pairwise (· > ·) := by
  induction stack using List.reverseRecOn with
  | nil => cases htwo
  | append_singleton stack x _ =>
      rw [pushOne_concat]
      rw [List.filter_append, List.length_append] at htwo
      by_cases hx : x < q
      · have hlast : ([x].filter (· < q)).length = 1 := by simp [hx]
        obtain ⟨y, hy⟩ := List.exists_mem_of_length_pos (by omega :
          0 < (stack.filter (· < q)).length)
        rw [List.mem_filter] at hy
        rw [if_pos hx]
        intro hdesc
        have hyq := (List.pairwise_append.mp hdesc).2.2 y hy.1 q List.mem_cons_self
        exact lt_asymm hyq (of_decide_eq_true hy.2)
      · have hlast : [x].filter (· < q) = [] := by simp [not_lt.mp hx]
        rw [filter_lt_eq_nil h hx, hlast] at htwo
        exact absurd htwo (Nat.not_lt_zero _)

/-- What is out of order stays so. -/
theorem descending_of_pushOne (h : (pushOne stack q).Pairwise (· > ·)) :
    stack.Pairwise (· > ·) := by
  induction stack using List.reverseRecOn with
  | nil => exact List.Pairwise.nil
  | append_singleton stack x _ =>
      rw [pushOne_concat] at h
      by_cases hx : x < q
      · rw [if_pos hx, List.pairwise_append] at h
        refine List.pairwise_append.mpr ⟨h.1, List.pairwise_singleton _ _, ?_⟩
        intro y hy z hz
        obtain rfl := List.mem_singleton.mp hz
        exact hx.trans (h.2.2 y hy q List.mem_cons_self)
      · rw [if_neg hx] at h
        exact (List.pairwise_append.mp h).1

theorem takesOne_concat :
    TakesOne stack (qs ++ [q]) ↔
      TakesOne stack qs ∧ ((qs.foldl pushDown stack).filter (· < q)).length ≤ 1 := by
  constructor
  · intro h
    exact ⟨fun before r hr => h before r (hr.trans (List.prefix_append _ _)),
      h qs q List.prefix_rfl⟩
  · rintro ⟨h, hlast⟩ before r hr
    rcases List.prefix_concat_iff.mp hr with heq | hr
    · obtain ⟨rfl, hrq⟩ := List.append_inj' heq rfl
      obtain rfl := List.singleton_injective hrq
      exact hlast
    · exact h before r hr

/-- Nothing is on the stack that has not been there or come, and nothing is moved. -/
theorem foldl_pushOne_sublist (stack qs : List α) :
    (qs.foldl pushOne stack).Sublist (stack ++ qs) := by
  induction qs generalizing stack with
  | nil => rw [List.append_nil]; exact List.Sublist.refl stack
  | cons q qs ih =>
      have hpush : (pushOne stack q).Sublist (stack ++ [q]) := by
        rw [pushOne]
        split
        · exact (List.dropLast_sublist stack).append_right [q]
        · exact List.Sublist.refl _
      rw [List.append_cons]
      exact (ih (pushOne stack q)).trans (hpush.append_right qs)

/-- An entry that nothing exceeds stays at the bottom. -/
theorem exists_cons_foldl_pushOne (h : ∀ q ∈ qs, ¬ x < q) (above : List α) :
    ∃ above', qs.foldl pushOne (x :: above) = x :: above' := by
  induction qs generalizing above with
  | nil => exact ⟨above, rfl⟩
  | cons q qs ih =>
      have hq := h q List.mem_cons_self
      obtain ⟨above', habove⟩ : ∃ above', pushOne (x :: above) q = x :: above' := by
        rcases List.eq_nil_or_concat above with rfl | ⟨rest, y, rfl⟩
        · exact ⟨[q], (pushOne_concat [] x q).trans (if_neg hq)⟩
        · rw [List.concat_eq_append, ← List.cons_append, pushOne_concat]
          split
          · exact ⟨rest ++ [q], rfl⟩
          · exact ⟨rest ++ [y] ++ [q], rfl⟩
      rw [List.foldl_cons, habove]
      exact ih (fun r hr => h r (List.mem_cons_of_mem q hr)) above'

/-- What is on the descending stack has been there or has come. -/
theorem mem_foldl_pushDown_imp (h : x ∈ qs.foldl pushDown stack) : x ∈ stack ∨ x ∈ qs := by
  induction qs using List.reverseRecOn with
  | nil => exact .inl h
  | append_singleton qs q ih =>
      rw [List.foldl_append, List.foldl_cons, List.foldl_nil, pushDown, List.mem_append,
        List.mem_filter] at h
      rw [List.mem_append]
      rcases h with h | h
      · exact (ih h.1).imp_right .inl
      · exact .inr (.inr h)

/-- The stacks agree, in descending order, or the one that takes at most one is out of order. -/
theorem foldl_pushOne (h : stack.Pairwise (· > ·)) (hnodup : (stack ++ qs).Nodup) :
    (TakesOne stack qs → qs.foldl pushOne stack = qs.foldl pushDown stack) ∧
      ((qs.foldl pushOne stack).Pairwise (· > ·) ↔ TakesOne stack qs) ∧
      (qs.foldl pushDown stack).Pairwise (· > ·) := by
  induction qs using List.reverseRecOn with
  | nil =>
      have hnone : TakesOne stack [] := by
        intro before q hq
        rw [List.prefix_nil] at hq
        exact absurd hq (List.append_ne_nil_of_right_ne_nil _ (List.cons_ne_nil _ _))
      exact ⟨fun _ => rfl, iff_of_true h hnone, h⟩
  | append_singleton qs q ih =>
      rw [← List.append_assoc] at hnodup
      obtain ⟨hagree, hiff, hdesc⟩ := ih (List.nodup_append.mp hnodup).1
      have hfresh : q ∉ qs.foldl pushDown stack := by
        intro hmem
        have hin : q ∈ stack ++ qs := List.mem_append.mpr (mem_foldl_pushDown_imp hmem)
        exact (List.nodup_append.mp hnodup).2.2 q hin q List.mem_cons_self rfl
      rw [List.foldl_append, List.foldl_cons, List.foldl_nil, List.foldl_append, List.foldl_cons,
        List.foldl_nil, takesOne_concat]
      have hstep : TakesOne stack qs ∧
            ((qs.foldl pushDown stack).filter (· < q)).length ≤ 1 →
          pushOne (qs.foldl pushOne stack) q = pushDown (qs.foldl pushDown stack) q := by
        rintro ⟨hqs, hone⟩
        rw [hagree hqs, pushOne_eq_pushDown hdesc hfresh hone]
      refine ⟨hstep, ⟨?_, ?_⟩, descending_pushDown hdesc⟩
      · intro hfinal
        have hqs := hiff.mp (descending_of_pushOne hfinal)
        rw [hagree hqs] at hfinal
        exact ⟨hqs, not_lt.mp fun htwo => not_descending_pushOne hdesc htwo hfinal⟩
      · intro htakes
        rw [hstep htakes]
        exact descending_pushDown hdesc

omit [LinearOrder α] in
/-- A list without repetition has at most one entry when any two of its entries are equal. -/
theorem length_le_one_iff {l : List α} (hl : l.Nodup) :
    l.length ≤ 1 ↔ ∀ x ∈ l, ∀ y ∈ l, x = y := by
  match l with
  | [] => simp
  | [a] => simp
  | a :: b :: l =>
      have hne : a ≠ b := fun h => (List.nodup_cons.mp hl).1 (h ▸ List.mem_cons_self)
      refine iff_of_false (by simp) fun h => hne (h a List.mem_cons_self b ?_)
      exact List.mem_cons_of_mem a List.mem_cons_self

end Stack

end RagFlow.Math
