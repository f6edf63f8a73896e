/-
# The best of each class

A list is cut to the `n` elements of each class with the greatest values. What is kept is described
by counting: of the elements of a class above a bound there are as many as before, or `n`. So
cutting can be done in between, when lists are joined or all values are shifted.
-/

import Mathlib.Data.List.Perm.Basic
import Mathlib.Order.Monotone.Basic
import Mathlib.Order.BooleanAlgebra.Basic

namespace RagFlow.Math

universe u v w x

variable {α : Type u} {κ : Type v} {β : Type w} [DecidableEq κ]

/-- The number of elements of a class above a bound. -/
def countUp (k : α → κ) (v : α → β) (c : κ) (U : β → Bool) (l : List α) : ℕ :=
  l.countP fun a => k a = c && U (v a)

section Count

variable {k : α → κ} {v : α → β} {c : κ} {U : β → Bool} {a : α} {l l' : List α}

theorem countUp_append : countUp k v c U (l ++ l') = countUp k v c U l + countUp k v c U l' :=
  List.countP_append

theorem countUp_cons_of_pos (hc : k a = c) (hU : U (v a) = true) :
    countUp k v c U (a :: l) = countUp k v c U l + 1 :=
  List.countP_cons_of_pos (by rw [hc, hU]; simp)

theorem countUp_cons_of_ne (hc : k a ≠ c) : countUp k v c U (a :: l) = countUp k v c U l :=
  List.countP_cons_of_neg (by simp [hc])

theorem countUp_cons_of_not (hU : ¬ U (v a) = true) :
    countUp k v c U (a :: l) = countUp k v c U l :=
  List.countP_cons_of_neg (by simp [hU])

theorem countUp_perm (h : l.Perm l') : countUp k v c U l = countUp k v c U l' := h.countP_eq _

/-- Above a bound there are no more elements than in all. -/
theorem countUp_le_class : countUp k v c U l ≤ countUp k v c (fun _ => true) l :=
  List.countP_mono_left fun a _ h => by
    rw [Bool.and_eq_true] at h ⊢
    exact ⟨h.1, rfl⟩

theorem countUp_eq_class (h : ∀ a ∈ l, k a = c → U (v a) = true) :
    countUp k v c U l = countUp k v c (fun _ => true) l :=
  List.countP_congr fun a ha => by
    simp only [Bool.and_eq_true, decide_eq_true_eq, and_true, and_iff_left_iff_imp]
    exact h a ha

/-- An element that is not above the bound is missing. -/
theorem countUp_lt_class (ha : a ∈ l) (hc : k a = c) (hU : ¬ U (v a) = true) :
    countUp k v c U l < countUp k v c (fun _ => true) l := by
  obtain ⟨before, after, rfl⟩ := List.append_of_mem ha
  rw [countUp_append, countUp_append, countUp_cons_of_not hU, countUp_cons_of_pos hc rfl]
  have hbefore : countUp k v c U before ≤ _ := countUp_le_class
  have hafter : countUp k v c U after ≤ _ := countUp_le_class
  omega

theorem countUp_pos (ha : a ∈ l) (hc : k a = c) (hU : U (v a) = true) : 0 < countUp k v c U l :=
  List.countP_pos_iff.2 ⟨a, ha, by rw [hc, hU]; simp⟩

theorem countUp_eq_zero (h : ∀ a ∈ l, k a ≠ c) : countUp k v c U l = 0 :=
  List.countP_eq_zero.2 fun a ha => by simp [h a ha]

end Count

variable [LinearOrder β]

/-- Of all elements the best of each class are kept. -/
structure IsTop (k : α → κ) (v : α → β) (n : ℕ) (kept all : List α) : Prop where
  rest : ∃ dropped, (kept ++ dropped).Perm all
  count : ∀ c U, Monotone U → countUp k v c U kept = min n (countUp k v c U all)

namespace IsTop

variable {k : α → κ} {v : α → β} {n : ℕ} {a m : α} {kept kept' all all' others : List α}

theorem nil (n : ℕ) : IsTop k v n [] [] where
  rest := ⟨[], .refl _⟩
  count _ _ _ := (Nat.min_zero n).symm

theorem perm (h : IsTop k v n kept all) (hkept : kept.Perm kept') (hall : all.Perm all') :
    IsTop k v n kept' all' where
  rest := by
    obtain ⟨dropped, hrest⟩ := h.rest
    exact ⟨dropped, (hkept.symm.append_right dropped).trans (hrest.trans hall)⟩
  count c U hU := by rw [← countUp_perm hkept, ← countUp_perm hall, h.count c U hU]

theorem subset (h : IsTop k v n kept all) : kept ⊆ all := by
  obtain ⟨dropped, hrest⟩ := h.rest
  exact fun a ha => hrest.subset (List.mem_append_left _ ha)

theorem class_le (h : IsTop k v n kept all) (c : κ) : countUp k v c (fun _ => true) kept ≤ n := by
  rw [h.count c _ monotone_const]
  exact Nat.min_le_left _ _

/-- What is kept need not be cut again. -/
theorem self (h : IsTop k v n kept all) : IsTop k v n kept kept where
  rest := ⟨[], by rw [List.append_nil]⟩
  count c _ _ := (min_eq_right (countUp_le_class.trans (h.class_le c))).symm

/-- The best of the best of two lists are the best of both. -/
theorem append (h : IsTop k v n others (kept ++ kept')) (hkept : IsTop k v n kept all)
    (hkept' : IsTop k v n kept' all') : IsTop k v n others (all ++ all') where
  rest := by
    obtain ⟨dropped, hrest⟩ := h.rest
    obtain ⟨left, hleft⟩ := hkept.rest
    obtain ⟨right, hright⟩ := hkept'.rest
    refine ⟨dropped ++ (left ++ right), ?_⟩
    have hmiddle : (kept ++ kept' ++ (left ++ right)).Perm (kept ++ left ++ (kept' ++ right)) := by
      rw [List.append_assoc, List.append_assoc]
      refine List.Perm.append_left _ ?_
      rw [← List.append_assoc, ← List.append_assoc]
      exact List.perm_append_comm.append_right _
    rw [← List.append_assoc]
    exact (hrest.append_right _).trans (hmiddle.trans (hleft.append hright))
  count c U hU := by
    rw [h.count c U hU, countUp_append, countUp_append, hkept.count c U hU, hkept'.count c U hU]
    omega

/-- Shifting the values and renaming the classes does not change what is best. -/
theorem map {f : α → α} {g : κ → κ} {s : β → β} (hg : Function.Injective g) (hs : Monotone s)
    (hk : ∀ a, k (f a) = g (k a)) (hv : ∀ a, v (f a) = s (v a)) (h : IsTop k v n kept all) :
    IsTop k v n (kept.map f) (all.map f) where
  rest := by
    obtain ⟨dropped, hrest⟩ := h.rest
    exact ⟨dropped.map f, by rw [← List.map_append]; exact hrest.map f⟩
  count c U hU := by
    by_cases hc : ∃ d, g d = c
    · obtain ⟨d, rfl⟩ := hc
      have hmap (l : List α) : countUp k v (g d) U (l.map f) = countUp k v d (U ∘ s) l := by
        rw [countUp, List.countP_map]
        refine List.countP_congr fun a _ => ?_
        simp only [Function.comp_apply, hk, hv, hg.eq_iff]
      rw [hmap, hmap, h.count d _ (hU.comp hs)]
    · have hnone (l : List α) : countUp k v c U (l.map f) = 0 := by
        refine countUp_eq_zero fun b hb hcb => ?_
        obtain ⟨a, -, rfl⟩ := List.mem_map.1 hb
        exact hc ⟨k a, (hk a).symm.trans hcb⟩
      rw [hnone, hnone, Nat.min_zero]

/-- Where a class has room, an element is taken. -/
theorem insert (h : IsTop k v n kept all)
    (hroom : countUp k v (k a) (fun _ => true) kept < n) : IsTop k v n (a :: kept) (a :: all) where
  rest := by
    obtain ⟨dropped, hrest⟩ := h.rest
    exact ⟨dropped, hrest.cons a⟩
  count c U hU := by
    have hcount := h.count c U hU
    by_cases hc : k a = c
    · subst hc
      have hle : countUp k v (k a) U kept ≤ _ := countUp_le_class
      by_cases hUa : U (v a) = true
      · rw [countUp_cons_of_pos rfl hUa, countUp_cons_of_pos rfl hUa]
        omega
      · rw [countUp_cons_of_not hUa, countUp_cons_of_not hUa, hcount]
    · rw [countUp_cons_of_ne hc, countUp_cons_of_ne hc, hcount]

/-- Where a class is full, an element that is not better than any is left out. -/
theorem reject (h : IsTop k v n kept all)
    (hfull : n ≤ countUp k v (k a) (fun _ => true) kept)
    (hmin : ∀ m ∈ kept, k m = k a → v a ≤ v m) : IsTop k v n kept (a :: all) where
  rest := by
    obtain ⟨dropped, hrest⟩ := h.rest
    exact ⟨a :: dropped, List.perm_middle.trans (hrest.cons a)⟩
  count c U hU := by
    have hcount := h.count c U hU
    by_cases hc : k a = c
    · subst hc
      by_cases hUa : U (v a) = true
      · have hclass : countUp k v (k a) U kept = _ :=
          countUp_eq_class fun m hm hkm => hU (hmin m hm hkm) hUa
        rw [countUp_cons_of_pos rfl hUa]
        omega
      · rw [countUp_cons_of_not hUa, hcount]
    · rw [countUp_cons_of_ne hc, hcount]

/-- Where a class is full, a better element takes the place of the least. -/
theorem replace (h : IsTop k v n kept all) (hkept : kept.Perm (m :: others)) (hkm : k m = k a)
    (hfull : n ≤ countUp k v (k a) (fun _ => true) kept)
    (hmin : ∀ m' ∈ kept, k m' = k a → v m ≤ v m') (hma : v m ≤ v a) :
    IsTop k v n (a :: others) (a :: all) where
  rest := by
    obtain ⟨dropped, hrest⟩ := h.rest
    refine ⟨m :: dropped, List.Perm.cons a ?_⟩
    exact List.perm_middle.trans ((hkept.symm.append_right dropped).trans hrest)
  count c U hU := by
    have hcount := h.count c U hU
    by_cases hc : k a = c
    · subst hc
      have hle := h.class_le (k a)
      rw [countUp_perm hkept] at hcount
      by_cases hUm : U (v m) = true
      · have hclass : countUp k v (k a) U kept = _ :=
          countUp_eq_class fun m' hm' hkm' => hU (hmin m' hm' hkm') hUm
        rw [countUp_perm hkept] at hclass
        rw [countUp_cons_of_pos hkm hUm] at hclass hcount
        have hUa : U (v a) = true := hU hma hUm
        rw [countUp_cons_of_pos rfl hUa, countUp_cons_of_pos rfl hUa]
        omega
      · have hlt := countUp_lt_class (hkept.mem_iff.2 List.mem_cons_self) hkm hUm
        rw [countUp_perm hkept, countUp_cons_of_not hUm] at hlt
        rw [countUp_cons_of_not hUm] at hcount
        by_cases hUa : U (v a) = true
        · rw [countUp_cons_of_pos rfl hUa, countUp_cons_of_pos rfl hUa]
          omega
        · rw [countUp_cons_of_not hUa, countUp_cons_of_not hUa, hcount]
    · have hcm : k m ≠ c := fun hm => hc (hkm.symm.trans hm)
      rw [countUp_perm hkept, countUp_cons_of_ne hcm] at hcount
      rw [countUp_cons_of_ne hc, countUp_cons_of_ne hc, hcount]

/-- What is left out is not better than what is kept in its class. -/
theorem le_of_dropped (h : IsTop k v n kept all) {dropped : List α}
    (hrest : (kept ++ dropped).Perm all) {d r : α} (hd : d ∈ dropped) (hr : r ∈ kept)
    (hk : k d = k r) : v d ≤ v r := by
  by_contra hlt
  rw [not_le] at hlt
  let U : β → Bool := fun b => v r < b
  have hU : Monotone U := fun b b' hb =>
    Bool.le_iff_imp.2 fun hrb => decide_eq_true ((of_decide_eq_true hrb).trans_le hb)
  have hcount := h.count (k r) U hU
  have hclass := h.class_le (k r)
  have hmissing : countUp k v (k r) U kept < countUp k v (k r) (fun _ => true) kept := by
    exact countUp_lt_class hr rfl (by simp [U])
  have hpos : 0 < countUp k v (k r) U dropped := by
    exact countUp_pos hd hk (decide_eq_true hlt)
  rw [← countUp_perm hrest, countUp_append] at hcount
  omega

/-- The best of all classes together are among the best of each, if the classes order their elements
as `w` does. -/
theorem coarse {γ : Type x} [LinearOrder γ] {w : α → γ} {sel : List α}
    (h : IsTop k v n kept all) (hw : ∀ a b, k a = k b → (w a ≤ w b ↔ v a ≤ v b))
    (hsel : IsTop (fun _ => ()) w n sel kept) : IsTop (fun _ => ()) w n sel all where
  rest := by
    obtain ⟨dropped, hrest⟩ := h.rest
    obtain ⟨left, hleft⟩ := hsel.rest
    refine ⟨left ++ dropped, ?_⟩
    rw [← List.append_assoc]
    exact (hleft.append_right dropped).trans hrest
  count u U hU := by
    obtain ⟨dropped, hrest⟩ := h.rest
    rw [hsel.count u U hU, ← countUp_perm hrest, countUp_append]
    by_cases hup : ∃ d ∈ dropped, U (w d) = true
    · obtain ⟨d, hd, hUd⟩ := hup
      have hdall : d ∈ all := hrest.subset (List.mem_append_right _ hd)
      -- the bound that `U` is for the class of `d`
      let V : β → Bool := fun b => decide (∃ a ∈ all, k a = k d ∧ U (w a) = true ∧ v a ≤ b)
      have hV : Monotone V := fun b b' hb => by
        refine Bool.le_iff_imp.2 fun hVb => ?_
        obtain ⟨a, ha, hka, hUa, hab⟩ := of_decide_eq_true hVb
        exact decide_eq_true ⟨a, ha, hka, hUa, hab.trans hb⟩
      have hVU : ∀ a, k a = k d → V (v a) = true → U (w a) = true := by
        intro a hka hVa
        obtain ⟨b, -, hkb, hUb, hba⟩ := of_decide_eq_true hVa
        exact hU ((hw b a (hkb.trans hka.symm)).2 hba) hUb
      have hcount := h.count (k d) V hV
      have hdropped : 0 < countUp k v (k d) V dropped := by
        exact countUp_pos hd rfl (decide_eq_true ⟨d, hdall, rfl, hUd, le_rfl⟩)
      rw [← countUp_perm hrest, countUp_append] at hcount
      have hle : countUp k v (k d) V kept ≤ countUp (fun _ => ()) w u U kept :=
        List.countP_mono_left fun a _ ha => by
          rw [Bool.and_eq_true, decide_eq_true_eq] at ha ⊢
          exact ⟨rfl, hVU a ha.1 ha.2⟩
      omega
    · have hnone : countUp (fun _ : α => ()) w u U dropped = 0 :=
        List.countP_eq_zero.2 fun a ha hpos => hup ⟨a, ha, (Bool.and_eq_true _ _ ▸ hpos).2⟩
      rw [hnone, Nat.add_zero]

end IsTop

end RagFlow.Math
