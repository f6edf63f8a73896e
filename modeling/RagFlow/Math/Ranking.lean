/-
# Pages of several rankings

Lists that are sorted by distinct scores are merged into one ranking. If each list is cut to a page
first, and what is left of them is merged and cut again, this is the page of the merged ranking only
where the page comes from one list, or there is nothing before it or nothing on it.
-/

import Mathlib.Data.List.Pairwise
import Mathlib.Data.List.Sort

namespace RagFlow.Math

variable {α K : Type*} [LinearOrder K] (f : α → K)

/-- The best come first, and no two score the same. -/
def Ranked (l : List α) : Prop := l.Pairwise fun a b => f b < f a

/-- How many are better. -/
def rank (l : List α) (x : α) : ℕ := l.countP fun a => f x < f a

/-- A page of each list. -/
def pages (o n : ℕ) (ls : List (List α)) : List α := ls.flatMap fun l => (l.drop o).take n

section Rank

variable {f} {l l' pre post : List α} {ls : List (List α)} {x y : α} {o n : ℕ}

theorem Ranked.nodup (h : Ranked f l) : l.Nodup :=
  List.Pairwise.imp (fun hlt heq => absurd (heq ▸ hlt) (lt_irrefl _)) h

theorem Ranked.sublist (h : Ranked f l) (hsub : l'.Sublist l) : Ranked f l' :=
  List.Pairwise.sublist hsub h

/-- The rank is the position. -/
theorem Ranked.rank_append (h : Ranked f (pre ++ x :: post)) :
    rank f (pre ++ x :: post) x = pre.length := by
  rw [Ranked, List.pairwise_append, List.pairwise_cons] at h
  obtain ⟨-, ⟨hpost, -⟩, hpre⟩ := h
  have hbetter : pre.countP (fun a => f x < f a) = pre.length :=
    List.countP_eq_length.mpr fun a ha => decide_eq_true (hpre a ha x List.mem_cons_self)
  have hworse : post.countP (fun a => f x < f a) = 0 :=
    List.countP_eq_zero.mpr fun a ha => by
      rw [decide_eq_true_eq]
      exact (hpost a ha).not_gt
  rw [rank, List.countP_append, List.countP_cons, hbetter, hworse]
  simp

theorem Ranked.rank_getElem (h : Ranked f l) {i : ℕ} (hi : i < l.length) :
    rank f l l[i] = i := by
  have hsplit : l = l.take i ++ l[i] :: l.drop (i + 1) := by
    rw [List.getElem_cons_drop, List.take_append_drop]
  have hranked := h
  rw [hsplit] at hranked
  calc rank f l l[i] = rank f (l.take i ++ l[i] :: l.drop (i + 1)) l[i] := by rw [← hsplit]
    _ = (l.take i).length := hranked.rank_append
    _ = i := List.length_take_of_le hi.le

/-- A page holds what is ranked on it. -/
theorem Ranked.mem_page_iff (h : Ranked f l) :
    x ∈ (l.drop o).take n ↔ x ∈ l ∧ o ≤ rank f l x ∧ rank f l x < o + n := by
  constructor
  · intro hx
    obtain ⟨i, hi, rfl⟩ := List.mem_iff_getElem.mp hx
    rw [List.length_take, List.length_drop] at hi
    rw [List.getElem_take, List.getElem_drop, h.rank_getElem (by omega)]
    exact ⟨List.getElem_mem _, Nat.le_add_right o i, by omega⟩
  · rintro ⟨hx, hle, hlt⟩
    obtain ⟨i, hi, rfl⟩ := List.mem_iff_getElem.mp hx
    rw [h.rank_getElem hi] at hle hlt
    refine List.mem_iff_getElem.mpr ⟨i - o, ?_, ?_⟩
    · rw [List.length_take, List.length_drop]
      omega
    · rw [List.getElem_take, List.getElem_drop]
      congr 1
      omega

theorem Ranked.mem_take_iff (h : Ranked f l) : x ∈ l.take n ↔ x ∈ l ∧ rank f l x < n := by
  have hpage := h.mem_page_iff (x := x) (o := 0) (n := n)
  rw [List.drop_zero, Nat.zero_add] at hpage
  rw [hpage, and_iff_right (Nat.zero_le _)]

theorem Ranked.mem_drop_iff (h : Ranked f l) : x ∈ l.drop o ↔ x ∈ l ∧ o ≤ rank f l x := by
  have hsplit := List.take_append_drop o l
  have hnodup := h.nodup
  rw [← hsplit, List.nodup_append'] at hnodup
  have hmem : x ∈ l ↔ x ∈ l.take o ∨ x ∈ l.drop o := by rw [← List.mem_append, hsplit]
  rw [← not_lt]
  constructor
  · intro hx
    exact ⟨List.mem_of_mem_drop hx, fun hlt =>
      hnodup.2.2 (h.mem_take_iff.mpr ⟨List.mem_of_mem_drop hx, hlt⟩) hx⟩
  · rintro ⟨hx, hnot⟩
    exact (hmem.mp hx).resolve_left fun htake => hnot (h.mem_take_iff.mp htake).2

theorem Ranked.sublist_of_subset (h : Ranked f l) (h' : Ranked f l') (hsub : l' ⊆ l) :
    l'.Sublist l := by
  have : Std.Antisymm fun a b => f b < f a := ⟨fun _ _ hlt hgt => absurd hlt hgt.not_gt⟩
  exact List.sublist_of_subperm_of_pairwise (List.subperm_of_subset h'.nodup hsub) h' h

theorem rank_le_of_le (h : f x ≤ f y) : rank f l y ≤ rank f l x :=
  List.countP_mono_left fun a _ ha => by
    rw [decide_eq_true_eq] at ha ⊢
    exact h.trans_lt ha

theorem rank_le_of_sublist (h : l'.Sublist l) : rank f l' x ≤ rank f l x := h.countP_le

/-- A part of a list that holds its first entries begins with them. -/
theorem take_eq_of_sublist (h : l'.Sublist l) (hnodup : l.Nodup) (hfirst : ∀ x ∈ l.take n, x ∈ l') :
    l'.take n = l.take n := by
  induction h generalizing n with
  | slnil => rfl
  | @cons l₁ l₂ a hsub ih =>
      cases n with
      | zero => rfl
      | succ n =>
          have hmem : a ∈ l₂ := hsub.subset (hfirst a List.mem_cons_self)
          exact absurd hmem (List.nodup_cons.mp hnodup).1
  | @cons_cons l₁ l₂ a hsub ih =>
      cases n with
      | zero => rfl
      | succ n =>
          rw [List.take_succ_cons, List.take_succ_cons, ih (List.nodup_cons.mp hnodup).2]
          intro x hx
          refine (List.mem_cons.mp (hfirst x (List.mem_cons_of_mem a hx))).resolve_left ?_
          rintro rfl
          exact (List.nodup_cons.mp hnodup).1 (List.mem_of_mem_take hx)

/-- Sorting by distinct scores gives a ranking. -/
theorem ranked_mergeSort (hdistinct : (l.map f).Nodup) :
    Ranked f (l.mergeSort fun a b => f b ≤ f a) := by
  have hsorted : (l.mergeSort fun a b => f b ≤ f a).Pairwise fun a b => f b ≤ f a := by
    refine (List.pairwise_mergeSort (fun a b c hab hbc => ?_) (fun a b => ?_) l).imp
      fun h => of_decide_eq_true h
    · rw [decide_eq_true_eq] at hab hbc ⊢
      exact hbc.trans hab
    · rw [Bool.or_eq_true, decide_eq_true_eq, decide_eq_true_eq]
      exact le_total (f b) (f a)
  have hne : (l.mergeSort fun a b => f b ≤ f a).Pairwise fun a b => f a ≠ f b := by
    rw [← List.pairwise_map (f := f) (R := (· ≠ ·))]
    exact (((List.mergeSort_perm l _).map f).nodup_iff).mpr hdistinct
  exact hsorted.and hne |>.imp fun h => lt_of_le_of_ne h.1 h.2.symm

end Rank

theorem pages_sublist (o n : ℕ) (ls : List (List α)) : (pages o n ls).Sublist ls.flatten := by
  induction ls with
  | nil => exact List.Sublist.refl []
  | cons l ls ih =>
      rw [pages, List.flatMap_cons, List.flatten_cons]
      exact ((List.take_sublist _ _).trans (List.drop_sublist _ _)).append ih

section Merge

variable {f} {l l' merged result : List α} {ls : List (List α)} {x y : α} {o n : ℕ}

theorem rank_perm (h : l.Perm l') : rank f l x = rank f l' x := h.countP_eq _

theorem rank_flatten_split {ls₁ ls₂ : List (List α)} :
    rank f (ls₁ ++ l :: ls₂).flatten x =
      rank f ls₁.flatten x + (rank f l x + rank f ls₂.flatten x) := by
  rw [rank, List.flatten_append, List.flatten_cons, List.countP_append, List.countP_append]
  rfl

theorem rank_eq_zero_iff : rank f l x = 0 ↔ ∀ y ∈ l, ¬ f x < f y := by
  rw [rank, List.countP_eq_zero]
  simp only [decide_eq_true_eq]

/-- A list in which an entry has its rank holds all that is better. -/
theorem mem_of_rank_eq (hperm : merged.Perm ls.flatten) (hl : l ∈ ls)
    (hrank : rank f l x = rank f merged x) (hy : y ∈ merged) (hlt : f x < f y) : y ∈ l := by
  obtain ⟨ls₁, ls₂, rfl⟩ := List.append_of_mem hl
  rw [rank_perm hperm, rank_flatten_split] at hrank
  have hfirst := rank_eq_zero_iff.mp (show rank f ls₁.flatten x = 0 by omega)
  have hlast := rank_eq_zero_iff.mp (show rank f ls₂.flatten x = 0 by omega)
  rw [hperm.mem_iff, List.flatten_append, List.flatten_cons, List.mem_append, List.mem_append] at hy
  rcases hy with hy | hy | hy
  · exact absurd hlt (hfirst y hy)
  · exact hy
  · exact absurd hlt (hlast y hy)

/-- The other way round. -/
theorem rank_eq_of_mem (hperm : merged.Perm ls.flatten) (hnodup : merged.Nodup) (hl : l ∈ ls)
    (hbetter : ∀ y ∈ merged, f x < f y → y ∈ l) : rank f l x = rank f merged x := by
  obtain ⟨ls₁, ls₂, rfl⟩ := List.append_of_mem hl
  have hflatten := hperm.nodup_iff.mp hnodup
  rw [List.flatten_append, List.flatten_cons, List.nodup_append', List.nodup_append'] at hflatten
  obtain ⟨-, ⟨-, -, hlast⟩, hfirst⟩ := hflatten
  have hmem : ∀ y, y ∈ merged ↔ y ∈ ls₁.flatten ∨ y ∈ l ∨ y ∈ ls₂.flatten := fun y => by
    rw [hperm.mem_iff, List.flatten_append, List.flatten_cons, List.mem_append, List.mem_append]
  have hzero₁ : rank f ls₁.flatten x = 0 := rank_eq_zero_iff.mpr fun y hy hlt =>
    hfirst hy (List.mem_append_left _ (hbetter y ((hmem y).mpr (Or.inl hy)) hlt))
  have hzero₂ : rank f ls₂.flatten x = 0 := rank_eq_zero_iff.mpr fun y hy hlt =>
    hlast (hbetter y ((hmem y).mpr (Or.inr (Or.inr hy))) hlt) hy
  rw [rank_perm hperm, rank_flatten_split, hzero₁, hzero₂, Nat.zero_add, Nat.add_zero]

/-- Each entry is in one list. -/
theorem eq_of_mem_of_mem (hperm : merged.Perm ls.flatten) (hnodup : merged.Nodup) (hl : l ∈ ls)
    (hl' : l' ∈ ls) (hx : x ∈ l) (hx' : x ∈ l') : l = l' := by
  by_contra hne
  have hdisjoint := (List.nodup_flatten.mp (hperm.nodup_iff.mp hnodup)).2
  have : Std.Symm (α := List α) List.Disjoint := ⟨fun _ _ h _ hx hx' => h hx' hx⟩
  exact hdisjoint.forall hl hl' hne hx hx'

theorem mem_pages_iff (hranked : ∀ l ∈ ls, Ranked f l) :
    x ∈ pages o n ls ↔ ∃ l ∈ ls, x ∈ l ∧ o ≤ rank f l x ∧ rank f l x < o + n := by
  rw [pages, List.mem_flatMap]
  exact exists_congr fun l => and_congr_right fun hl => (hranked l hl).mem_page_iff

/-- Cutting the merged pages gives the page of the ranking exactly if each entry of the page is
ranked as low in its own list. -/
theorem take_eq_page_iff_forall (hranked : ∀ l ∈ ls, Ranked f l) (hmerged : Ranked f merged)
    (hperm : merged.Perm ls.flatten) (hresult : Ranked f result)
    (hpages : result.Perm (pages o n ls)) :
    result.take n = (merged.drop o).take n ↔
      ∀ x ∈ (merged.drop o).take n, ∃ l ∈ ls, x ∈ l ∧ o ≤ rank f l x := by
  have hle : ∀ l ∈ ls, ∀ x, rank f l x ≤ rank f merged x := fun l hl x => by
    rw [rank_perm hperm]
    exact rank_le_of_sublist (List.sublist_flatten_of_mem hl)
  have hsub : result ⊆ merged.drop o := by
    intro x hx
    obtain ⟨l, hl, hxl, hlow, -⟩ := (mem_pages_iff hranked).mp (hpages.mem_iff.mp hx)
    exact hmerged.mem_drop_iff.mpr
      ⟨hperm.mem_iff.mpr (List.mem_flatten_of_mem hl hxl), hlow.trans (hle l hl x)⟩
  constructor
  · intro heq x hx
    rw [← heq] at hx
    obtain ⟨l, hl, hxl, hlow, -⟩ :=
      (mem_pages_iff hranked).mp (hpages.mem_iff.mp (List.mem_of_mem_take hx))
    exact ⟨l, hl, hxl, hlow⟩
  · intro hforall
    have hdrop : Ranked f (merged.drop o) := hmerged.sublist (List.drop_sublist o merged)
    refine take_eq_of_sublist (hdrop.sublist_of_subset hresult hsub) hdrop.nodup fun x hx => ?_
    obtain ⟨l, hl, hxl, hlow⟩ := hforall x hx
    obtain ⟨-, -, hlt⟩ := hmerged.mem_page_iff.mp hx
    exact hpages.mem_iff.mpr ((mem_pages_iff hranked).mpr
      ⟨l, hl, hxl, hlow, (hle l hl x).trans_lt hlt⟩)

/-- Where there is something before the page and on it, it is the page of the ranking exactly if
all up to its end comes from one list. -/
theorem take_eq_page_iff (hranked : ∀ l ∈ ls, Ranked f l) (hmerged : Ranked f merged)
    (hperm : merged.Perm ls.flatten) (hresult : Ranked f result)
    (hpages : result.Perm (pages o n ls)) (hn : 0 < n) :
    result.take n = (merged.drop o).take n ↔
      o = 0 ∨ merged.length ≤ o ∨ ∃ l ∈ ls, ∀ x ∈ merged.take (o + n), x ∈ l := by
  rw [take_eq_page_iff_forall hranked hmerged hperm hresult hpages]
  constructor
  · intro hforall
    by_contra hnot
    obtain ⟨ho, hlength, hone⟩ := not_or.mp hnot |>.imp_right not_or.mp
    have hlt : o < merged.length := Nat.lt_of_not_le hlength
    have hpage : ∀ i (hi : i < merged.length), o ≤ i → i < o + n →
        merged[i] ∈ (merged.drop o).take n := fun i hi hle hend =>
      hmerged.mem_page_iff.mpr ⟨List.getElem_mem hi, by rwa [hmerged.rank_getElem hi],
        by rwa [hmerged.rank_getElem hi]⟩
    -- The list of the first entry of the page holds all that is better.
    obtain ⟨l, hl, hfirst, hlow⟩ := hforall _ (hpage o hlt le_rfl (Nat.lt_add_of_pos_right hn))
    have hrank : rank f l merged[o] = rank f merged merged[o] := by
      refine le_antisymm ?_ (by rwa [hmerged.rank_getElem hlt])
      rw [rank_perm hperm]
      exact rank_le_of_sublist (List.sublist_flatten_of_mem hl)
    have hall : ∀ i (hi : i < merged.length), i < o + n → merged[i] ∈ l := by
      intro i
      induction i using Nat.strong_induction_on with
      | _ i ih =>
        intro hi hend
        rcases Nat.lt_trichotomy i o with hbefore | rfl | hbehind
        · exact mem_of_rank_eq hperm hl hrank (List.getElem_mem hi)
            (List.pairwise_iff_getElem.mp hmerged i o hi hlt hbefore)
        · exact hfirst
        · -- Its list has something better, which is in `l` already.
          obtain ⟨l', hl', hin, hlow'⟩ := hforall _ (hpage i hi hbehind.le hend)
          have hsome : ¬ rank f l' merged[i] = 0 := by omega
          rw [rank_eq_zero_iff] at hsome
          push Not at hsome
          obtain ⟨z, hz, hbetter⟩ := hsome
          obtain ⟨j, hj, rfl⟩ := List.mem_iff_getElem.mp
            (hperm.mem_iff.mpr (List.mem_flatten_of_mem hl' hz))
          have hji : j < i := by
            by_contra hij
            rcases Nat.lt_or_eq_of_le (Nat.le_of_not_lt hij) with hlt' | rfl
            · exact (List.pairwise_iff_getElem.mp hmerged i j hi hj hlt').not_gt hbetter
            · exact lt_irrefl _ hbetter
          obtain rfl := eq_of_mem_of_mem hperm hmerged.nodup hl' hl hz
            (ih j hji hj (hji.trans hend))
          exact hin
    refine hone ⟨l, hl, fun x hx => ?_⟩
    obtain ⟨i, hi, rfl⟩ := List.mem_iff_getElem.mp hx
    rw [List.getElem_take]
    rw [List.length_take] at hi
    exact hall i (by omega) (by omega)
  · rintro (rfl | hlength | ⟨l, hl, hone⟩) x hx
    · obtain ⟨hin, -, -⟩ := hmerged.mem_page_iff.mp hx
      obtain ⟨l, hl, hxl⟩ := List.mem_flatten.mp (hperm.mem_iff.mp hin)
      exact ⟨l, hl, hxl, Nat.zero_le _⟩
    · rw [List.drop_eq_nil_of_le hlength, List.take_nil] at hx
      exact absurd hx List.not_mem_nil
    · obtain ⟨hin, hlow, hend⟩ := hmerged.mem_page_iff.mp hx
      refine ⟨l, hl, hone x (hmerged.mem_take_iff.mpr ⟨hin, hend⟩), ?_⟩
      have hbetter : ∀ y ∈ merged, f x < f y → y ∈ l := fun y hy hlt => by
        exact hone y (hmerged.mem_take_iff.mpr ⟨hy, (rank_le_of_le hlt.le).trans_lt hend⟩)
      rwa [rank_eq_of_mem hperm hmerged.nodup hl hbetter]

end Merge

end RagFlow.Math
