/-
# Body text is merged once

The groups of `hierarchical_merge` share headings, but never a paragraph of body text: that is lower
than anything which is looked up for another paragraph, and it is visited first, once. Packing the
groups neither drops nor repeats anything.
-/

import RagFlow.Chunking.HierarchicalMerge

namespace RagFlow.Chunking

open RagFlow.Math

/-! ## Packing -/

section Packing

variable {α β : Type}

theorem Packing.flatten_add (size : α → ℕ) (p : Packing α) (hne : p.res ≠ []) (ck : List α) :
    (p.add size ck).res.flatten = p.res.flatten ++ ck ∧ (p.add size ck).res ≠ [] := by
  obtain ⟨rs, r, hres⟩ : ∃ rs r, p.res = rs ++ [r] :=
    ⟨_, _, (List.dropLast_append_getLast hne).symm⟩
  rw [Packing.add.eq_def]
  split
  · next t =>
      split
      · rw [hres, List.dropLast_concat, List.getLastD_concat]
        simp
      · simp
  · simp

theorem flatten_pack (size : α → ℕ) (cks : List (List α)) :
    (pack size cks).flatten = cks.flatten := by
  have hrun : ∀ p : Packing α, p.res ≠ [] →
      (cks.foldl (Packing.add size) p).res.flatten = p.res.flatten ++ cks.flatten := by
    intro p hne
    induction cks generalizing p with
    | nil => rw [List.foldl_nil, List.flatten_nil, List.append_nil]
    | cons ck cks ih =>
        obtain ⟨hflatten, hne'⟩ := p.flatten_add size hne ck
        rw [List.foldl_cons, ih _ hne', hflatten, List.flatten_cons, List.append_assoc]
  rw [pack, hrun _ (List.cons_ne_nil _ _)]
  rfl

def Packing.map (f : α → β) (p : Packing α) : Packing β :=
  { res := p.res.map fun ck => ck.map f, num := p.num }

theorem Packing.map_add (size : β → ℕ) (f : α → β) (p : Packing α) (ck : List α) :
    (p.map f).add size (ck.map f) = (p.add (fun a => size (f a)) ck).map f := by
  have hlast : (p.map f).res.getLastD [] = (p.res.getLastD []).map f := by
    rw [Packing.map, List.getLastD_eq_getLast?, List.getLast?_map, List.getLastD_eq_getLast?]
    cases p.res.getLast? <;> rfl
  cases ck with
  | nil => simp [Packing.add, Packing.map]
  | cons a ck =>
      cases ck with
      | nil =>
          by_cases hsize : size (f a) + p.num.getLastD 0 < 218
          · have hsize' : size (f a) + (p.map f).num.getLastD 0 < 218 := hsize
            simp only [List.map_cons, List.map_nil, Packing.add, if_pos hsize, if_pos hsize', hlast]
            simp [Packing.map]
          · have hsize' : ¬ size (f a) + (p.map f).num.getLastD 0 < 218 := hsize
            simp only [List.map_cons, List.map_nil, Packing.add, if_neg hsize, if_neg hsize']
            simp [Packing.map]
      | cons b ck => simp [Packing.add, Packing.map]

/-- Packing looks at the entries only through their sizes. -/
theorem pack_map (size : β → ℕ) (f : α → β) (cks : List (List α)) :
    pack size (cks.map fun ck => ck.map f) =
      (pack (fun a => size (f a)) cks).map fun ck => ck.map f := by
  have hrun : ∀ p : Packing α,
      (cks.map fun ck => ck.map f).foldl (Packing.add size) (p.map f) =
        (cks.foldl (Packing.add fun a => size (f a)) p).map f := by
    intro p
    induction cks generalizing p with
    | nil => rfl
    | cons ck cks ih => rw [List.map_cons, List.foldl_cons, Packing.map_add, ih, List.foldl_cons]
  rw [pack, pack]
  exact congrArg Packing.res (hrun { res := [[]], num := [0] })

end Packing

/-! ## Body text in the groups -/

section Body

variable {hs : List ℕ} {top depth j : ℕ}

/-- Only the group of a body section contains it. -/
theorem count_groupOf (hj : hs[j]? = some 0) (k : ℕ) :
    (groupOf hs top k).count j = if k = j then 1 else 0 := by
  by_cases hk : k = j
  · subst hk
    rw [if_pos rfl]
    exact List.count_eq_one_of_mem (groupOf_nodup hs top k) (mem_groupOf_self hs top k)
  · rw [if_neg hk, List.count_eq_zero]
    intro hmem
    rcases mem_groupOf_imp hmem with rfl | ⟨l, hl, -, hnear⟩
    · exact hk rfl
    · have hat := (nearest_spec hnear).2
      rw [hj, Option.some.injEq] at hat
      omega

/-- Every body section that has been visited is in the groups once. -/
theorem count_foldl_addGroup (hj : hs[j]? = some 0) (order : List ℕ) (horder : order.Nodup) :
    (order.foldl (addGroup hs top) []).flatten.count j = if j ∈ order then 1 else 0 := by
  induction order using List.reverseRecOn with
  | nil => rfl
  | append_singleton order k ih =>
      have hnodup := List.nodup_append.mp horder
      have hold := ih hnodup.1
      rw [List.foldl_append, List.foldl_cons, List.foldl_nil, addGroup]
      by_cases hk : k = j
      · subst hk
        have hnew : k ∉ order := fun hmem => hnodup.2.2 k hmem k List.mem_cons_self rfl
        rw [if_neg hnew] at hold
        rw [if_neg (List.count_eq_zero.mp hold), List.flatten_append, List.count_append, hold,
          List.flatten_singleton, count_groupOf hj, if_pos rfl, if_pos (by simp)]
      · have hiff : j ∈ order ++ [k] ↔ j ∈ order := by simp [Ne.symm hk]
        rw [if_congr hiff rfl rfl]
        split
        · exact hold
        · rw [List.flatten_append, List.count_append, hold, List.flatten_singleton,
            count_groupOf hj, if_neg hk, Nat.add_zero]

theorem atHeight_nodup (hs : List ℕ) (l : ℕ) : (atHeight hs l).Nodup :=
  List.nodup_range.filter _

theorem buildOrder_nodup (hs : List ℕ) (top depth : ℕ) : (buildOrder hs top depth).Nodup := by
  rw [buildOrder, List.nodup_flatMap]
  refine ⟨fun l _ => atHeight_nodup hs l, ?_⟩
  refine (List.nodup_range.sublist (List.take_sublist depth _)).imp ?_
  intro l l' hne k hk hk'
  rw [mem_atHeight] at hk hk'
  exact hne (Option.some.inj (hk.symm.trans hk'))

theorem mem_buildOrder_of_body (hj : hs[j]? = some 0) (hdepth : 1 ≤ depth) (htop : 1 ≤ top) :
    j ∈ buildOrder hs top depth := by
  refine List.mem_flatMap.mpr ⟨0, ?_, mem_atHeight.mpr hj⟩
  rw [List.mem_take_iff_getElem]
  exact ⟨0, by rw [List.length_range]; omega, List.getElem_range _⟩

end Body

/-! ## The returned chunks -/

/-- The sections that the filter keeps. -/
def kept (paragraphs : Paragraphs) : List (Text × Text) :=
  paragraphs.sections.filter fun s => survives s.1

/-- A kept section that is neither a bullet heading nor a title. -/
def IsBody (family : List Pattern) (sections : List (Text × Text)) (j : ℕ) : Prop :=
  ∃ s, sections[j]? = some s ∧ sectionLevel family s = family.length + 1

/-- The merge never fails in its search, and for a family of patterns it returns chunks of texts in
which every body section has exactly one place. -/
theorem hierarchicalMerge_body (numTokens : Text → ℕ) (bull : ℕ) (paragraphs : Paragraphs)
    {depth : ℕ} (hdepth : 1 ≤ depth) :
    hierarchicalMerge numTokens bull paragraphs depth ≠ .error "AssertionError" ∧
      ∀ family, bulletPattern[bull]? = some family →
        ∃ chunks : List (List ℕ),
          hierarchicalMerge numTokens bull paragraphs depth =
            .ok (chunks.map fun ck => ck.map (textAt (kept paragraphs))) ∧
          ∀ j, IsBody family (kept paragraphs) j → chunks.flatten.count j = 1 := by
  have hresult : ∀ family, bulletPattern[bull]? = some family →
      ∃ chunks : List (List ℕ),
        hierarchicalMerge numTokens bull paragraphs depth =
          .ok (chunks.map fun ck => ck.map (textAt (kept paragraphs))) ∧
        ∀ j, IsBody family (kept paragraphs) j → chunks.flatten.count j = 1 := by
    intro family hfamily
    by_cases hnil : paragraphs.sections = []
    · refine ⟨[], by rw [hierarchicalMerge, if_pos (.inl hnil)]; rfl, ?_⟩
      rintro j ⟨s, hs, -⟩
      rw [kept, hnil] at hs
      cases hs
    · have hguard : ¬ (paragraphs.sections = [] ∨ (bull : ℤ) < 0) := by
        rw [not_or]
        exact ⟨hnil, by omega⟩
      obtain ⟨hs, hhs⟩ : ∃ hs, hs = heights family (kept paragraphs) := ⟨_, rfl⟩
      obtain ⟨cks, hcks⟩ : ∃ cks, cks =
        (buildOrder hs (family.length + 2) depth).foldl (addGroup hs (family.length + 2)) [] :=
        ⟨_, rfl⟩
      have hgroups : mergeGroups family depth (kept paragraphs) = .ok cks := by
        rw [mergeGroups_eq, ← hhs, ← hcks]
      have hbody : ∀ j, IsBody family (kept paragraphs) j → cks.flatten.count j = 1 := by
        rintro j ⟨s, hsj, hlevel⟩
        have hj : hs[j]? = some 0 := by
          rw [hhs, heights, List.getElem?_map, hsj, Option.map_some, hlevel, Nat.sub_self]
        rw [hcks, count_foldl_addGroup hj _ (buildOrder_nodup _ _ _),
          if_pos (mem_buildOrder_of_body hj hdepth (by omega))]
      have hmerge : hierarchicalMerge numTokens bull paragraphs depth =
          .ok (if cks = [] then []
            else pack (fun t => numTokens (deleteFrom positionLength 0 t))
              (cks.map fun ck => ck.reverse.map (textAt (kept paragraphs)))) := by
        rw [hierarchicalMerge, if_neg hguard, Int.toNat_natCast, hfamily]
        exact congrArg (Except.map _) hgroups
      rw [hmerge]
      by_cases hempty : cks = []
      · refine ⟨[], by rw [if_pos hempty]; rfl, fun j hj => ?_⟩
        have hone := hbody j hj
        rw [hempty] at hone
        cases hone
      · have hpack := pack_map (fun t => numTokens (deleteFrom positionLength 0 t))
          (textAt (kept paragraphs)) (cks.map List.reverse)
        rw [List.map_map] at hpack
        refine ⟨_, by rw [if_neg hempty]; exact congrArg Except.ok hpack, fun j hj => ?_⟩
        rw [flatten_pack, List.count_flatten, List.map_map]
        have hreverse : (List.count j ∘ List.reverse) = (List.count j : List ℕ → ℕ) :=
          funext fun ck => List.count_reverse
        rw [hreverse, ← List.count_flatten]
        exact hbody j hj
  refine ⟨?_, hresult⟩
  cases hfamily : bulletPattern[bull]? with
  | some family =>
      obtain ⟨chunks, hok, -⟩ := hresult family hfamily
      rw [hok]
      intro h
      cases h
  | none =>
      rw [hierarchicalMerge]
      split
      · intro h
        cases h
      · rw [Int.toNat_natCast, hfamily]
        exact fun h => absurd (Except.error.inj h) (by decide)

theorem hierarchicalMerge_two :
    hierarchicalMerge List.length (0 : ℕ) (.plain [['a', 'b'], ['c', 'd']]) 1 ≠
        .error "AssertionError" ∧
      ∀ family, bulletPattern[0]? = some family →
        ∃ chunks : List (List ℕ),
          hierarchicalMerge List.length (0 : ℕ) (.plain [['a', 'b'], ['c', 'd']]) 1 =
            .ok (chunks.map fun ck => ck.map (textAt (kept (.plain [['a', 'b'], ['c', 'd']])))) ∧
          ∀ j, IsBody family (kept (.plain [['a', 'b'], ['c', 'd']])) j →
            chunks.flatten.count j = 1 :=
  hierarchicalMerge_body List.length 0 (.plain [['a', 'b'], ['c', 'd']]) le_rfl

end RagFlow.Chunking
