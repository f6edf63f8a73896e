/-
# Headings in force

The headings in force at a paragraph are the nearest ones before it at each higher level that no
heading of a still higher level separates from it. `hierarchical_merge` finds them in the order of
their levels, and when a heading comes after the one of the level below it drops that one. It may
have to drop several, and then the others stay in the group for good, out of order. For a heading
just below the highest level it looks up none at all.

So a group is right unless one of these two happens to its section. A section gets a group unless it
has been put into another one before, and as long as the groups are right these are the sections
that are in force somewhere below. The groups are therefore all right exactly when no section that
is free in this sense meets either case.
-/

import RagFlow.Chunking.BodySections

namespace RagFlow.Chunking

open RagFlow.Math

/-! ## Nearest headings -/

/-- A heading in force at `j` as far as the heights below `l` are concerned. -/
def InForceBelow (hs : List ℕ) (l j h : ℕ) : Prop :=
  ∃ m, hs.getD j 0 < m ∧ m < l ∧ nearest hs j m = some h ∧
    ∀ m' k, m < m' → m' < l → h < k → k < j → hs[k]? ≠ some m'

/-- The headings in force at a section, out of `top` heights. -/
def InForce (hs : List ℕ) (top j h : ℕ) : Prop := InForceBelow hs top j h

/-- A group lists its section and the headings in force there, so that it is in the order of the
document when it is written out. -/
def GroupRight (hs : List ℕ) (top j : ℕ) (ck : List ℕ) : Prop :=
  ∃ above, ck = j :: above ∧ (∀ h, h ∈ above ↔ InForce hs top j h) ∧
    ck.reverse.Pairwise (· < ·)

/-- At every level at most one of the headings that lower levels have left in force comes before the
nearest one, and a section just below the highest level has no heading before it. -/
structure Tidy (hs : List ℕ) (top j : ℕ) : Prop where
  one : ∀ l q, hs.getD j 0 < l → l < top → nearest hs j l = some q →
    ∀ h h', InForceBelow hs l j h → InForceBelow hs l j h' → h < q → h' < q → h = h'
  second : hs.getD j 0 + 2 = top → ∀ k, k < j → hs[k]? ≠ some (top - 1)

section Nearest

variable {hs : List ℕ} {top depth j k l h i : ℕ}

theorem nearest_eq_some_iff :
    nearest hs j l = some k ↔
      k < j ∧ hs[k]? = some l ∧ ∀ k', k < k' → k' < j → hs[k']? ≠ some l := by
  have hmem : ∀ x, x ∈ (atHeight hs l).filter (· < j) ↔ x < j ∧ hs[x]? = some l := by
    intro x
    rw [List.mem_filter, mem_atHeight, decide_eq_true_iff, and_comm]
  have hsorted : ((atHeight hs l).filter (· < j)).Pairwise (· < ·) :=
    (atHeight_sorted hs l).filter _
  constructor
  · intro hlast
    obtain ⟨before, hsplit⟩ := List.getLast?_eq_some_iff.mp hlast
    rw [hsplit] at hmem hsorted
    have hk := (hmem k).mp (List.mem_append_right _ List.mem_cons_self)
    refine ⟨hk.1, hk.2, fun k' hlt hj hat => ?_⟩
    rcases List.mem_append.mp ((hmem k').mpr ⟨hj, hat⟩) with hb | hb
    · have hle := (List.pairwise_append.mp hsorted).2.2 k' hb k List.mem_cons_self
      omega
    · have heq := List.mem_singleton.mp hb
      omega
  · rintro ⟨hkj, hat, hnone⟩
    have hk := (hmem k).mpr ⟨hkj, hat⟩
    obtain ⟨before, x, hsplit⟩ : ∃ before x,
        (atHeight hs l).filter (· < j) = before ++ [x] :=
      ⟨_, _, (List.dropLast_append_getLast (List.ne_nil_of_mem hk)).symm⟩
    rw [nearest, lastBefore, hsplit, List.getLast?_concat, Option.some.injEq]
    rw [hsplit] at hk hmem hsorted
    rcases List.mem_append.mp hk with hb | hb
    · have hlt := (List.pairwise_append.mp hsorted).2.2 k hb x List.mem_cons_self
      have hx := (hmem x).mp (List.mem_append_right _ List.mem_cons_self)
      exact absurd hx.2 (hnone x hlt hx.1)
    · exact (List.mem_singleton.mp hb).symm

theorem nearest_eq_none_iff : nearest hs j l = none ↔ ∀ k, k < j → hs[k]? ≠ some l := by
  rw [nearest, lastBefore, List.getLast?_eq_none_iff, List.filter_eq_nil_iff]
  constructor
  · intro hnil k hk hat
    exact hnil k (mem_atHeight.mpr hat) (decide_eq_true hk)
  · intro hnone k hk hlt
    exact hnone k (of_decide_eq_true hlt) (mem_atHeight.mp hk)

theorem InForceBelow.lt (hf : InForceBelow hs l j h) : h < j := by
  obtain ⟨m, -, -, hnear, -⟩ := hf
  exact (nearest_spec hnear).1

/-- One more level: what has been in force stays so unless the new heading comes after it, and the
new heading is in force. -/
theorem inForceBelow_succ (hl : hs.getD j 0 < l) :
    InForceBelow hs (l + 1) j h ↔
      (InForceBelow hs l j h ∧ ∀ q, nearest hs j l = some q → q < h) ∨
        nearest hs j l = some h := by
  constructor
  · rintro ⟨m, hjm, hm, hnear, hclear⟩
    rcases Nat.lt_succ_iff_lt_or_eq.mp hm with hlt | rfl
    · refine .inl ⟨⟨m, hjm, hlt, hnear, ?_⟩, fun q hq => ?_⟩
      · exact fun m' k hm' hm'l => hclear m' k hm' (Nat.lt_succ_of_lt hm'l)
      · obtain ⟨hqj, hq⟩ := nearest_spec hq
        have hh := (nearest_spec hnear).2
        by_contra hle
        rcases Nat.eq_or_lt_of_le (not_lt.mp hle) with rfl | hlt'
        · rw [hq, Option.some.injEq] at hh
          omega
        · exact hclear l q hlt (Nat.lt_succ_self l) hlt' hqj hq
    · exact .inr hnear
  · rintro (⟨⟨m, hjm, hm, hnear, hclear⟩, hafter⟩ | hnear)
    · refine ⟨m, hjm, Nat.lt_succ_of_lt hm, hnear, fun m' k hm' hm'l hhk hkj => ?_⟩
      rcases Nat.lt_succ_iff_lt_or_eq.mp hm'l with hlt | rfl
      · exact hclear m' k hm' hlt hhk hkj
      · intro hk
        cases hq : nearest hs j m' with
        | none => exact nearest_eq_none_iff.mp hq k hkj hk
        | some q =>
            have hqh := hafter q hq
            exact (nearest_eq_some_iff.mp hq).2.2 k (hqh.trans hhk) hkj hk
    · refine ⟨l, hl, Nat.lt_succ_self l, hnear, fun m' k hm' hm'l _ _ => ?_⟩
      omega

end Nearest

/-! ## One group -/

section Group

variable {hs : List ℕ} {top j k l h i : ℕ}

/-- The nearest headings at the heights between that of `j` and `l`. -/
def headingsBelow (hs : List ℕ) (l j : ℕ) : List ℕ := (higherThan hs l j).filterMap (nearest hs j)

theorem headingsBelow_succ (hl : hs.getD j 0 < l) :
    headingsBelow hs (l + 1) j = headingsBelow hs l j ++ (nearest hs j l).toList := by
  have hlen : l + 1 - (hs.getD j 0 + 1) = (l - (hs.getD j 0 + 1)) + 1 := by omega
  have hlast : hs.getD j 0 + 1 + (l - (hs.getD j 0 + 1)) = l := by omega
  rw [headingsBelow, higherThan, hlen, List.range'_1_concat, List.filterMap_append, hlast]
  cases hnear : nearest hs j l <;> simp [headingsBelow, higherThan, hnear]

/-- Below the lowest height above `j` there is nothing. -/
theorem headingsBelow_low (hl : l ≤ hs.getD j 0 + 1) : headingsBelow hs l j = [] := by
  rw [headingsBelow, higherThan, Nat.sub_eq_zero_of_le hl]
  rfl

theorem not_inForceBelow_low (hl : l ≤ hs.getD j 0 + 1) : ¬ InForceBelow hs l j h := by
  rintro ⟨m, hjm, hml, -⟩
  omega

/-- The descending stack holds the section and the headings in force. -/
theorem mem_pushDown_headingsBelow (hs : List ℕ) (l j h : ℕ) :
    h ∈ (headingsBelow hs l j).foldl pushDown [j] ↔ h = j ∨ InForceBelow hs l j h := by
  have hbottom : ∀ l, l ≤ hs.getD j 0 + 1 →
      (h ∈ (headingsBelow hs l j).foldl pushDown [j] ↔ h = j ∨ InForceBelow hs l j h) := by
    intro l hlow
    rw [headingsBelow_low hlow, List.foldl_nil, List.mem_singleton]
    exact (or_iff_left (not_inForceBelow_low hlow)).symm
  induction l with
  | zero => exact hbottom 0 (Nat.zero_le _)
  | succ l ih =>
      by_cases hlow : l + 1 ≤ hs.getD j 0 + 1
      · exact hbottom (l + 1) hlow
      · have hl : hs.getD j 0 < l := by omega
        rw [headingsBelow_succ hl, List.foldl_append, inForceBelow_succ hl]
        cases hnear : nearest hs j l with
        | none => simpa using ih
        | some q =>
            have hqj := (nearest_spec hnear).1
            have hold : h ∈ (headingsBelow hs l j).foldl pushDown [j] ↔
                h = j ∨ InForceBelow hs l j h := ih
            rw [Option.toList_some, List.foldl_cons, List.foldl_nil, pushDown, List.mem_append,
              List.mem_filter, hold, decide_eq_true_iff, List.mem_singleton]
            simp only [Option.some.injEq, forall_eq']
            constructor
            · rintro (⟨rfl | hf, hlt⟩ | rfl)
              · exact .inl rfl
              · exact .inr (.inl ⟨hf, hlt⟩)
              · exact .inr (.inr rfl)
            · rintro (rfl | ⟨hf, hlt⟩ | rfl)
              · exact .inl ⟨.inl rfl, hqj⟩
              · exact .inl ⟨.inr hf, hlt⟩
              · exact .inr rfl

theorem headingsBelow_nodup (hs : List ℕ) (l j : ℕ) : ([j] ++ headingsBelow hs l j).Nodup :=
  nearest_nodup hs l j

/-- No heading finds two smaller ones on the stack exactly when the headings are tidy. -/
theorem takesOne_headingsBelow (hs : List ℕ) (l j : ℕ) :
    TakesOne [j] (headingsBelow hs l j) ↔
      ∀ l' q, hs.getD j 0 < l' → l' < l → nearest hs j l' = some q →
        ∀ h h', InForceBelow hs l' j h → InForceBelow hs l' j h' → h < q → h' < q → h = h' := by
  have hstart : TakesOne [j] ([] : List ℕ) := by
    intro before q hq
    rw [List.prefix_nil] at hq
    exact absurd hq (List.append_ne_nil_of_right_ne_nil _ (List.cons_ne_nil _ _))
  induction l with
  | zero =>
      rw [headingsBelow_low (Nat.zero_le _)]
      exact iff_of_true hstart fun l' q _ hl' => absurd hl' (Nat.not_lt_zero l')
  | succ l ih =>
      by_cases hlow : l + 1 ≤ hs.getD j 0 + 1
      · rw [headingsBelow_low hlow]
        refine iff_of_true hstart fun l' q hj hl' => ?_
        omega
      · have hl : hs.getD j 0 < l := by omega
        have hdesc := (foldl_pushOne (List.pairwise_singleton _ j)
          (headingsBelow_nodup hs l j)).2.2
        have hone : ∀ q, nearest hs j l = some q →
            ((((headingsBelow hs l j).foldl pushDown [j]).filter (· < q)).length ≤ 1 ↔
              ∀ h h', InForceBelow hs l j h → InForceBelow hs l j h' → h < q → h' < q →
                h = h') := by
          intro q hq
          have hqj := (nearest_spec hq).1
          have hmem : ∀ h, h ∈ ((headingsBelow hs l j).foldl pushDown [j]).filter (· < q) ↔
              InForceBelow hs l j h ∧ h < q := by
            intro h
            rw [List.mem_filter, mem_pushDown_headingsBelow, decide_eq_true_iff, or_and_right,
              or_iff_right]
            rintro ⟨rfl, hlt⟩
            omega
          rw [length_le_one_iff ((hdesc.imp fun hlt => ne_of_gt hlt).filter _)]
          constructor
          · intro hall h h' hf hf' hlt hlt'
            exact hall h ((hmem h).mpr ⟨hf, hlt⟩) h' ((hmem h').mpr ⟨hf', hlt'⟩)
          · intro hall h hh h' hh'
            have hf := (hmem h).mp hh
            have hf' := (hmem h').mp hh'
            exact hall h h' hf.1 hf'.1 hf.2 hf'.2
        rw [headingsBelow_succ hl]
        constructor
        · intro htakes l' q hj hl' hq
          rcases Nat.lt_succ_iff_lt_or_eq.mp hl' with hlt | rfl
          · refine ih.mp ?_ l' q hj hlt hq
            exact fun before r hr => htakes before r (hr.trans (List.prefix_append _ _))
          · rw [hq, Option.toList_some, takesOne_concat] at htakes
            exact (hone q hq).mp htakes.2
        · intro hall
          have hold := ih.mpr fun l' q hj hl' => hall l' q hj (Nat.lt_succ_of_lt hl')
          cases hnear : nearest hs j l with
          | none => rwa [Option.toList_none, List.append_nil]
          | some q =>
              rw [Option.toList_some, takesOne_concat]
              exact ⟨hold, (hone q hnear).mpr (hall l q hl (Nat.lt_succ_self l) hnear)⟩

/-- A group is right exactly when its section is tidy. -/
theorem groupRight_iff (hs : List ℕ) (top j : ℕ) :
    GroupRight hs top j (groupOf hs top j) ↔ Tidy hs top j := by
  by_cases htop : (higherThan hs top j).length = 1
  · have hheight : hs.getD j 0 + 2 = top := by
      rw [higherThan, List.length_range'] at htop
      omega
    have hforce : ∀ h, InForce hs top j h ↔ nearest hs j (top - 1) = some h := by
      intro h
      have hlast : top = (top - 1) + 1 := by omega
      have hlow : ¬ InForceBelow hs (top - 1) j h := not_inForceBelow_low (by omega)
      rw [InForce]
      conv_lhs => rw [hlast]
      rw [inForceBelow_succ (by omega)]
      exact or_iff_right fun hf => hlow hf.1
    rw [groupOf, if_pos htop]
    constructor
    · rintro ⟨above, heq, habove, -⟩
      obtain rfl : [] = above := (List.cons.inj heq).2
      refine ⟨fun l q hj hl _ h h' hf => absurd hf (not_inForceBelow_low (by omega)), fun _ => ?_⟩
      refine nearest_eq_none_iff.mp (Option.eq_none_iff_forall_ne_some.mpr fun h hnear => ?_)
      exact absurd ((habove h).mpr ((hforce h).mpr hnear)) List.not_mem_nil
    · intro htidy
      have hnone := nearest_eq_none_iff.mpr (htidy.second hheight)
      refine ⟨[], rfl, fun h => ?_, List.pairwise_singleton _ j⟩
      rw [hforce, hnone]
      exact iff_of_false List.not_mem_nil (Option.some_ne_none h).symm
  · have hgroup : groupOf hs top j = (headingsBelow hs top j).foldl pushOne [j] := by
      rw [groupOf, if_neg htop]
      rfl
    obtain ⟨hagree, hiff, hdesc⟩ :=
      foldl_pushOne (List.pairwise_singleton _ j) (headingsBelow_nodup hs top j)
    rw [← hgroup] at hagree hiff
    constructor
    · rintro ⟨above, -, -, hsorted⟩
      have htakes := hiff.mp (List.pairwise_reverse.mp hsorted)
      refine ⟨(takesOne_headingsBelow hs top j).mp htakes, fun hheight => ?_⟩
      rw [higherThan, List.length_range'] at htop
      omega
    · intro htidy
      have htakes := (takesOne_headingsBelow hs top j).mpr htidy.one
      obtain ⟨above, habove⟩ := exists_groupOf_eq_cons hs top j
      refine ⟨above, habove, fun h => ?_, List.pairwise_reverse.mpr (hiff.mpr htakes)⟩
      have hmem := mem_pushDown_headingsBelow hs top j h
      rw [← hagree htakes, habove, List.mem_cons] at hmem
      have hself : j ∉ above := (List.nodup_cons.mp (habove ▸ groupOf_nodup hs top j)).1
      constructor
      · intro hin
        refine (hmem.mp (.inr hin)).resolve_left fun heq => hself (heq ▸ hin)
      · intro hf
        have hlt : h < j := InForceBelow.lt hf
        exact (hmem.mpr (.inr hf)).resolve_left (Nat.ne_of_lt hlt)

end Group

/-! ## All groups -/

/-- A section that is in force at no lower section. -/
def IsFree (hs : List ℕ) (top j : ℕ) : Prop :=
  ∀ k i, hs[k]? = some i → i < hs.getD j 0 → ¬ InForce hs top k j

/-- Every group belongs to a section and lists the headings in force there. -/
def Attaches (hs : List ℕ) (top : ℕ) (cks : List (List ℕ)) : Prop :=
  ∀ ck ∈ cks, ∃ j, GroupRight hs top j ck

/-- The free sections of the heights that are merged are tidy. -/
def FreeTidy (hs : List ℕ) (top depth : ℕ) : Prop :=
  ∀ j i, hs[j]? = some i → i < top → i < depth → IsFree hs top j → Tidy hs top j

section All

variable {hs : List ℕ} {top depth i j k m : ℕ}

theorem getD_of_getElem? (h : hs[j]? = some i) : hs.getD j 0 = i := by
  rw [List.getD_eq_getElem?_getD, h, Option.getD_some]

/-- What is in force at a section that is itself in force somewhere is in force there too. -/
theorem InForce.trans (hj : InForce hs top k j) (hk : InForce hs top j m) :
    InForce hs top k m := by
  obtain ⟨l, hkl, -, hnear, hclear⟩ := hj
  obtain ⟨l', hjl, hl', hnear', hclear'⟩ := hk
  obtain ⟨hjk, hatj, -⟩ := nearest_eq_some_iff.mp hnear
  obtain ⟨hmj, hatm, hnone'⟩ := nearest_eq_some_iff.mp hnear'
  rw [getD_of_getElem? hatj] at hjl
  refine ⟨l', hkl.trans hjl, hl', nearest_eq_some_iff.mpr ⟨hmj.trans hjk, hatm, ?_⟩, ?_⟩
  · intro x hmx hxk
    rcases Nat.lt_trichotomy x j with hx | rfl | hx
    · exact hnone' x hmx hx
    · rw [hatj, ne_eq, Option.some.injEq]
      omega
    · exact hclear l' x hjl hl' hx hxk
  · intro l'' x hl'' htop hmx hxk
    rcases Nat.lt_trichotomy x j with hx | rfl | hx
    · exact hclear' l'' x hl'' htop hmx hx
    · rw [hatj, ne_eq, Option.some.injEq]
      omega
    · exact hclear l'' x (hjl.trans hl'') htop hx hxk

theorem InForce.height_lt (h : InForce hs top k j) : hs.getD k 0 < hs.getD j 0 := by
  obtain ⟨l, hkl, -, hnear, -⟩ := h
  rwa [getD_of_getElem? (nearest_spec hnear).2]

/-- Whatever is in force below is in force at a free section of no greater height. -/
theorem exists_free (hk : hs[k]? = some i) (h : InForce hs top k j) :
    ∃ k' i', hs[k']? = some i' ∧ i' ≤ i ∧ IsFree hs top k' ∧ InForce hs top k' j := by
  induction i using Nat.strong_induction_on generalizing k with
  | _ i ih =>
      by_cases hfree : IsFree hs top k
      · exact ⟨k, i, hk, le_rfl, hfree, h⟩
      · simp only [IsFree, not_forall, not_not] at hfree
        obtain ⟨k', i', hk', hlt, hforce⟩ := hfree
        rw [getD_of_getElem? hk] at hlt
        obtain ⟨k'', i'', hk'', hle, hrest⟩ := ih i' hlt hk' (hforce.trans h)
        exact ⟨k'', i'', hk'', hle.trans hlt.le, hrest⟩

theorem mem_buildOrder : j ∈ buildOrder hs top depth ↔
    ∃ i, hs[j]? = some i ∧ i < top ∧ i < depth := by
  rw [buildOrder, List.mem_flatMap]
  constructor
  · rintro ⟨l, hl, hj⟩
    obtain ⟨n, hn, rfl⟩ := List.mem_take_iff_getElem.mp hl
    rw [List.length_range] at hn
    rw [List.getElem_range, mem_atHeight] at hj
    exact ⟨n, hj, by omega, by omega⟩
  · rintro ⟨i, hj, htop, hdepth⟩
    refine ⟨i, List.mem_take_iff_getElem.mpr ⟨i, ?_, List.getElem_range _⟩, mem_atHeight.mpr hj⟩
    rw [List.length_range]
    omega

/-- The lower sections come first. -/
theorem buildOrder_sorted (hs : List ℕ) (top depth : ℕ) :
    (buildOrder hs top depth).Pairwise fun a b => hs.getD a 0 ≤ hs.getD b 0 := by
  rw [buildOrder, List.flatMap_def, List.pairwise_flatten]
  constructor
  · intro js hjs
    obtain ⟨l, -, rfl⟩ := List.mem_map.mp hjs
    refine List.Pairwise.imp_of_mem ?_ (atHeight_sorted hs l)
    intro a b ha hb _
    rw [getD_of_getElem? (mem_atHeight.mp ha), getD_of_getElem? (mem_atHeight.mp hb)]
  · rw [List.pairwise_map]
    refine (List.pairwise_lt_range.sublist (List.take_sublist depth _)).imp ?_
    intro l l' hlt a ha b hb
    rw [getD_of_getElem? (mem_atHeight.mp ha), getD_of_getElem? (mem_atHeight.mp hb)]
    exact hlt.le

/-- The groups after some visits: each is that of a visited section, and every visited section is in
one. -/
theorem groups_foldl (hs : List ℕ) (top : ℕ) (order : List ℕ) :
    (∀ ck ∈ order.foldl (addGroup hs top) [], ∃ k ∈ order, ck = groupOf hs top k) ∧
      ∀ j ∈ order, j ∈ (order.foldl (addGroup hs top) []).flatten := by
  induction order using List.reverseRecOn with
  | nil => exact ⟨nofun, nofun⟩
  | append_singleton order j ih =>
      rw [List.foldl_append, List.foldl_cons, List.foldl_nil, addGroup]
      split
      · next hin =>
          refine ⟨fun ck hck => ?_, fun k hk => ?_⟩
          · obtain ⟨k, hk, hgroup⟩ := ih.1 ck hck
            exact ⟨k, List.mem_append_left _ hk, hgroup⟩
          · rcases List.mem_append.mp hk with hk | hk
            · exact ih.2 k hk
            · exact List.mem_singleton.mp hk ▸ hin
      · refine ⟨fun ck hck => ?_, fun k hk => ?_⟩
        · rcases List.mem_append.mp hck with hck | hck
          · obtain ⟨k, hk, hgroup⟩ := ih.1 ck hck
            exact ⟨k, List.mem_append_left _ hk, hgroup⟩
          · exact ⟨j, List.mem_append_right _ List.mem_cons_self, List.mem_singleton.mp hck⟩
        · rw [List.flatten_append, List.flatten_singleton, List.mem_append]
          rcases List.mem_append.mp hk with hk | hk
          · exact .inl (ih.2 k hk)
          · exact .inr (List.mem_singleton.mp hk ▸ mem_groupOf_self hs top j)

theorem GroupRight.eq {ck : List ℕ} (h : GroupRight hs top k ck) (hck : ck = groupOf hs top j) :
    k = j := by
  obtain ⟨above, heq, -⟩ := h
  obtain ⟨above', heq'⟩ := exists_groupOf_eq_cons hs top j
  exact (List.cons.inj (heq.symm.trans (hck.trans heq'))).1

/-- Another member of a right group is in force at its section. -/
theorem GroupRight.inForce {ck : List ℕ} (h : GroupRight hs top k ck) (hj : j ∈ ck) :
    j = k ∨ InForce hs top k j := by
  obtain ⟨above, rfl, habove, -⟩ := h
  exact (List.mem_cons.mp hj).imp_right (habove j).mp

/-- Where every group that has been built is right, a section that is in no group is free. -/
theorem free_of_notMem {done rest : List ℕ}
    (horder : buildOrder hs top depth = done ++ j :: rest)
    (hright : ∀ k ∈ done, groupOf hs top k ∈ done.foldl (addGroup hs top) [] →
      GroupRight hs top k (groupOf hs top k))
    (hj : j ∉ (done.foldl (addGroup hs top) []).flatten) : IsFree hs top j := by
  intro k₀ i₀ hk₀ hlt₀ hforce₀
  obtain ⟨k, i, hk, hi, hfree, hforce⟩ := exists_free hk₀ hforce₀
  obtain ⟨ij, hatj, htop, hdepth⟩ := mem_buildOrder.mp
    (horder ▸ List.mem_append_right done List.mem_cons_self)
  have hkj : hs.getD k 0 < hs.getD j 0 := hforce.height_lt
  rw [getD_of_getElem? hk, getD_of_getElem? hatj] at hkj
  -- the free section below has been visited before, and its own group holds `j`
  have hdone : k ∈ done := by
    have hin : k ∈ buildOrder hs top depth :=
      mem_buildOrder.mpr ⟨i, hk, hkj.trans htop, hkj.trans hdepth⟩
    have hsorted := buildOrder_sorted hs top depth
    rw [horder] at hin hsorted
    rcases List.mem_append.mp hin with hin | hin
    · exact hin
    · rcases List.mem_cons.mp hin with rfl | hin
      · rw [hk, Option.some.injEq] at hatj
        omega
      · have hle := (List.pairwise_cons.mp (List.pairwise_append.mp hsorted).2.1).1 k hin
        rw [getD_of_getElem? hk, getD_of_getElem? hatj] at hle
        omega
  obtain ⟨hgroups, hvisited⟩ := groups_foldl hs top done
  obtain ⟨ck, hck, hkck⟩ := List.mem_flatten.mp (hvisited k hdone)
  obtain ⟨m, hm, rfl⟩ := hgroups ck hck
  have hrightm := hright m hm hck
  obtain rfl : k = m := by
    refine (hrightm.inForce hkck).resolve_right fun hmk => ?_
    obtain ⟨im, hatm, -⟩ := mem_buildOrder.mp (horder ▸ List.mem_append_left _ hm)
    have hlt := hmk.height_lt
    rw [getD_of_getElem? hatm] at hlt
    exact hfree m im hatm hlt hmk
  obtain ⟨above, heq, habove, -⟩ := hrightm
  refine hj (List.mem_flatten.mpr ⟨_, hck, ?_⟩)
  rw [heq]
  exact List.mem_cons_of_mem _ ((habove j).mpr hforce)

/-- All groups are right exactly when the free sections are tidy. -/
theorem attaches_iff (hs : List ℕ) (top depth : ℕ) :
    Attaches hs top ((buildOrder hs top depth).foldl (addGroup hs top) []) ↔
      FreeTidy hs top depth := by
  constructor
  · intro hattaches j i hj htop hdepth hfree
    obtain ⟨hgroups, hvisited⟩ := groups_foldl hs top (buildOrder hs top depth)
    obtain ⟨ck, hck, hjck⟩ := List.mem_flatten.mp
      (hvisited j (mem_buildOrder.mpr ⟨i, hj, htop, hdepth⟩))
    obtain ⟨m, hm, hgroup⟩ := hgroups ck hck
    obtain ⟨k, hright⟩ := hattaches ck hck
    obtain rfl := hright.eq hgroup
    rcases hright.inForce hjck with rfl | hforce
    · exact (groupRight_iff hs top j).mp (hgroup ▸ hright)
    · obtain ⟨ik, hk, -⟩ := mem_buildOrder.mp hm
      have hlt := hforce.height_lt
      rw [getD_of_getElem? hk] at hlt
      exact absurd hforce (hfree k ik hk hlt)
  · intro htidy
    have hrun : ∀ done rest, buildOrder hs top depth = done ++ rest →
        ∀ ck ∈ done.foldl (addGroup hs top) [],
          ∃ k ∈ done, ck = groupOf hs top k ∧ GroupRight hs top k ck := by
      intro done
      induction done using List.reverseRecOn with
      | nil => exact fun _ _ => nofun
      | append_singleton done j ih =>
          intro rest horder ck hck
          rw [List.append_assoc, List.singleton_append] at horder
          have hold := ih (j :: rest) horder
          rw [List.foldl_append, List.foldl_cons, List.foldl_nil, addGroup] at hck
          have hkeep : ck ∈ done.foldl (addGroup hs top) [] →
              ∃ k ∈ done ++ [j], ck = groupOf hs top k ∧ GroupRight hs top k ck := by
            intro hin
            obtain ⟨k, hk, hck⟩ := hold ck hin
            exact ⟨k, List.mem_append_left _ hk, hck⟩
          by_cases hin : j ∈ (done.foldl (addGroup hs top) []).flatten
          · exact hkeep (by rwa [if_pos hin] at hck)
          · rw [if_neg hin] at hck
            rcases List.mem_append.mp hck with hck | hck
            · exact hkeep hck
            · obtain rfl := List.mem_singleton.mp hck
              obtain ⟨i, hj, htop, hdepth⟩ := mem_buildOrder.mp
                (horder ▸ List.mem_append_right done List.mem_cons_self)
              have hfree : IsFree hs top j := by
                refine free_of_notMem horder ?_ hin
                intro k _ hgroup
                obtain ⟨k', -, heq, hright⟩ := hold _ hgroup
                exact hright.eq rfl ▸ hright
              have hright := (groupRight_iff hs top j).mpr (htidy j i hj htop hdepth hfree)
              exact ⟨j, List.mem_append_right _ List.mem_cons_self, rfl, hright⟩
    intro ck hck
    obtain ⟨k, -, -, hright⟩ := hrun _ [] (List.append_nil _).symm ck hck
    exact ⟨k, hright⟩

end All

/-- The groups of the merge, for any family of patterns and any sections, list the headings in force
exactly when the free sections are tidy. -/
theorem mergeGroups_attaches_iff (family : List Pattern) (depth : ℕ)
    (sections : List (Text × Text)) :
    (∃ cks, mergeGroups family depth sections = .ok cks ∧
        Attaches (heights family sections) (family.length + 2) cks) ↔
      FreeTidy (heights family sections) (family.length + 2) depth := by
  rw [← attaches_iff, mergeGroups_eq]
  constructor
  · rintro ⟨cks, hcks, hattaches⟩
    exact Except.ok.inj hcks ▸ hattaches
  · exact fun hattaches => ⟨_, rfl, hattaches⟩

/-- Under a heading of the second level, one of the third, and then one of the first: the first
drops the second, which was put last, but not the third, and the text is written out behind `# a`
and `### c`, in this order. -/
theorem not_attaches : ¬ ∀ family ∈ bulletPattern, ∀ depth, 1 ≤ depth →
    ∀ sections : List (Text × Text), (∀ s ∈ sections, survives s.1 = true) →
      ∃ cks, mergeGroups family depth sections = .ok cks ∧
        Attaches (heights family sections) (family.length + 2) cks := by
  intro h
  obtain ⟨family, hfamily⟩ : ∃ family, bulletPattern[4]? = some family := ⟨_, rfl⟩
  obtain ⟨sections, hsections⟩ : ∃ sections : List (Text × Text), sections =
      [("## b".toList, []), ("### c".toList, []), ("# a".toList, []), ("text".toList, [])] :=
    ⟨_, rfl⟩
  have hheights : heights family sections = [6, 5, 7, 0] := by
    subst hsections
    obtain rfl : _ = family := Option.some.inj hfamily
    decide +kernel
  obtain ⟨cks, hcks, hattaches⟩ := h family (List.mem_of_getElem? hfamily) 1 le_rfl sections
    (by subst hsections; decide +kernel)
  have hlen : family.length = 6 := by
    obtain rfl : _ = family := Option.some.inj hfamily
    rfl
  rw [mergeGroups_eq, hheights, hlen] at hcks
  have hgroups : [[3, 1, 2]] = cks := by
    rw [← Except.ok.inj hcks]
    decide +kernel
  subst hgroups
  obtain ⟨j, above, -, -, hsorted⟩ := hattaches [3, 1, 2] List.mem_cons_self
  revert hsorted
  decide

end RagFlow.Chunking
