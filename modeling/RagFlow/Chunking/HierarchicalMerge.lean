/-
# Merging along a hierarchy of headings

`hierarchical_merge` collects for every paragraph the headings it stands under. It sorts the indices
of the paragraphs by level and goes from body text up: for a paragraph that is in no group yet it
looks up the nearest heading before it at each higher level, by binary search, and puts these into a
group with it. A heading that comes after the one found at the level below drops that one again, and
no other. Groups of one paragraph are packed into larger chunks at the end.

The binary searches never come upon the paragraph itself, since each index is on one level only. The
groups are therefore built by a plain rule, and every paragraph of body text is in exactly one.
-/

import RagFlow.Chunking.Headings
import RagFlow.Math.Except
import RagFlow.Math.Stack
import Mathlib.Data.List.GetD

namespace RagFlow.Chunking

open RagFlow.Math
open RagFlow.Query (strip)

/-! ## The source -/

/-- The loop of `binary_search`. -/
def searchBetween (arr : List ℕ) (target s e : ℕ) : Except String ℕ :=
  if _h : 1 < e - s then
    match arr[(e + s) / 2]? with
    | none => .error "IndexError"
    | some v =>
        if v < target then searchBetween arr target ((e + s) / 2) e
        else if target < v then searchBetween arr target s ((e + s) / 2)
        else .error "AssertionError"
  else .ok s
termination_by e - s

/-- The position of the last entry below the target, or -1. -/
def binarySearch (arr : List ℕ) (target : ℕ) : Except String ℤ :=
  if arr = [] then .ok (-1)
  else if arr.getLastD 0 < target then .ok (arr.length - 1)
  else if target < arr.headD 0 then .ok (-1)
  else (searchBetween arr target 0 arr.length).map fun s => s

/-- The indices of the sections by level, the highest level first and body text last. -/
def collectLevels (family : List Pattern) (sections : List (Text × Text)) : List (List ℕ) :=
  sections.zipIdx.foldl
    (fun levels s =>
      levels.modify (levelOf family (strip s.1.1) s.1.1 s.1.2) (· ++ [s.2]))
    (List.replicate (family.length + 2) [])

/-- The loop over the higher levels that adds to the group of `j`. -/
def attach (j : ℕ) : List (List ℕ) → List ℕ → Except String (List ℕ)
  | [], ck => .ok ck
  | arr :: higher, ck => do
      let jj ← binarySearch arr j
      if jj < 0 then attach j higher ck
      else
        let heading := arr.getD jj.toNat 0
        let ck := if ck.getLast?.any (· < heading) then ck.dropLast else ck
        attach j higher (ck ++ [heading])

/-- The local variables of the loops. -/
structure Grouping where
  readed : ℕ → Bool
  cks : List (List ℕ)

def Grouping.start : Grouping := { readed := fun _ => false, cks := [] }

def Grouping.read (g : Grouping) (ck : List ℕ) : Grouping :=
  { g with readed := fun k => k ∈ ck || g.readed k }

/-- The body of the loop over one level; `higher` are the levels above it. -/
def Grouping.visit (higher : List (List ℕ)) (g : Grouping) (j : ℕ) : Except String Grouping :=
  if g.readed j then .ok g
  else
    let g := g.read [j]
    if higher.length = 1 then .ok { g with cks := g.cks ++ [[j]] }
    else do
      let ck ← attach j higher [j]
      .ok { g.read ck with cks := g.cks ++ [ck] }

/-- The loop over the first `depth` levels from body text up. -/
def Grouping.visitLevels : ℕ → List (List ℕ) → Grouping → Except String Grouping
  | 0, _, g => .ok g
  | _, [], g => .ok g
  | depth + 1, arr :: higher, g => do
      let g ← arr.foldlM (Grouping.visit higher) g
      Grouping.visitLevels depth higher g

/-- The groups of indices, each with its headings behind it. -/
def mergeGroups (family : List Pattern) (depth : ℕ) (sections : List (Text × Text)) :
    Except String (List (List ℕ)) :=
  (Grouping.visitLevels depth (collectLevels family sections).reverse Grouping.start).map
    fun g => g.cks

/-- The match `@@[0-9]+.*` at the head of a text. -/
def positionLength : Text → ℕ
  | '@' :: '@' :: cs =>
      if cs.takeWhile Char.isDigit = [] then 0 else 2 + (cs.takeWhile (· ≠ '\n')).length
  | _ => 0

/-- `res` and `num`. -/
structure Packing (α : Type) where
  res : List (List α)
  num : List ℕ

/-- Groups of one text are gathered up to 218 tokens; `size` counts the tokens of a text. -/
def Packing.add {α : Type} (size : α → ℕ) (p : Packing α) (ck : List α) : Packing α :=
  match ck with
  | [t] =>
      if size t + p.num.getLastD 0 < 218 then
        { res := p.res.dropLast ++ [p.res.getLastD [] ++ [t]]
          num := p.num.dropLast ++ [p.num.getLastD 0 + size t] }
      else { res := p.res ++ [ck], num := p.num ++ [size t] }
  | _ => { res := p.res ++ [ck], num := p.num ++ [218] }

def pack {α : Type} (size : α → ℕ) (cks : List (List α)) : List (List α) :=
  (cks.foldl (Packing.add size) { res := [[]], num := [0] }).res

/-- `sections[j]`, after the layouts have been dropped. -/
def textAt (sections : List (Text × Text)) (j : ℕ) : Text :=
  (sections[j]?.map Prod.fst).getD []

def hierarchicalMerge (numTokens : Text → ℕ) (bull : ℤ) (paragraphs : Paragraphs) (depth : ℕ) :
    Except String (List (List Text)) :=
  if paragraphs.sections = [] ∨ bull < 0 then .ok []
  else
    let sections := paragraphs.sections.filter fun s => survives s.1
    match bulletPattern[bull.toNat]? with
    | none => .error "IndexError"
    | some family =>
        (mergeGroups family depth sections).map fun cks =>
          if cks = [] then []
          else pack (fun t => numTokens (deleteFrom positionLength 0 t))
            (cks.map fun ck => ck.reverse.map (textAt sections))

/-! ## The search -/

/-- The last entry below a target. -/
def lastBefore (arr : List ℕ) (target : ℕ) : Option ℕ := (arr.filter (· < target)).getLast?

section Search

variable {arr : List ℕ} {target s e : ℕ}

/-- Behind the entry that is found there are larger ones only. -/
structure FoundAt (arr : List ℕ) (target s : ℕ) : Prop where
  lt : s < arr.length
  below : arr.getD s 0 < target
  above : ∀ k, s < k → k < arr.length → target < arr.getD k 0

theorem FoundAt.lastBefore_eq (h : FoundAt arr target s) :
    lastBefore arr target = some (arr.getD s 0) := by
  have hsplit : arr = arr.take s ++ arr.getD s 0 :: arr.drop (s + 1) := by
    rw [List.getD_eq_getElem _ _ h.lt, ← List.drop_eq_getElem_cons h.lt, List.take_append_drop]
  have hrest : (arr.drop (s + 1)).filter (· < target) = [] := by
    rw [List.filter_eq_nil_iff]
    intro v hv
    obtain ⟨k, hk, rfl⟩ := List.mem_iff_getElem.mp hv
    rw [List.length_drop] at hk
    have habove := h.above (s + 1 + k) (by omega) (by omega)
    rw [List.getD_eq_getElem _ _ (by omega)] at habove
    rw [List.getElem_drop, decide_eq_true_iff]
    exact not_lt.mpr habove.le
  conv_lhs => rw [lastBefore, hsplit]
  rw [List.filter_append, List.filter_cons_of_pos (by simpa using h.below), hrest,
    List.getLast?_concat]

theorem getD_lt_of_lt (hsorted : arr.Pairwise (· < ·)) {i k : ℕ} (hik : i < k)
    (hk : k < arr.length) : arr.getD i 0 < arr.getD k 0 := by
  rw [List.getD_eq_getElem _ _ (hik.trans hk), List.getD_eq_getElem _ _ hk]
  exact List.pairwise_iff_getElem.mp hsorted i k (hik.trans hk) hk hik

theorem getD_mem {i : ℕ} (hi : i < arr.length) : arr.getD i 0 ∈ arr := by
  rw [List.getD_eq_getElem _ _ hi]
  exact List.getElem_mem hi

/-- The loop keeps a smaller entry at its lower end and larger ones from its upper end on. -/
theorem exists_searchBetween (hsorted : arr.Pairwise (· < ·)) (hmem : target ∉ arr)
    (hse : s < e) (he : e ≤ arr.length) (hbelow : arr.getD s 0 < target)
    (habove : ∀ k, e ≤ k → k < arr.length → target < arr.getD k 0) :
    ∃ i, searchBetween arr target s e = .ok i ∧ FoundAt arr target i := by
  induction hn : e - s using Nat.strong_induction_on generalizing s e with
  | _ n ih =>
      rw [searchBetween]
      by_cases hlong : 1 < e - s
      · have hmid : (e + s) / 2 < arr.length := by omega
        have hget : arr[(e + s) / 2]? = some (arr.getD ((e + s) / 2) 0) := by
          rw [List.getD_eq_getElem _ _ hmid, List.getElem?_eq_getElem hmid]
        rw [dif_pos hlong, hget]
        by_cases hlt : arr.getD ((e + s) / 2) 0 < target
        · simp only [if_pos hlt]
          exact ih (e - (e + s) / 2) (by omega) (by omega) he hlt habove rfl
        · have hne : arr.getD ((e + s) / 2) 0 ≠ target := fun heq => hmem (heq ▸ getD_mem hmid)
          have hgt : target < arr.getD ((e + s) / 2) 0 := by omega
          simp only [if_neg hlt, if_pos hgt]
          refine ih ((e + s) / 2 - s) (by omega) (by omega) hmid.le hbelow ?_ rfl
          intro k hk hkl
          rcases Nat.eq_or_lt_of_le hk with rfl | hk
          · exact hgt
          · exact hgt.trans (getD_lt_of_lt hsorted hk hkl)
      · rw [dif_neg hlong]
        exact ⟨s, rfl, by omega, hbelow, fun k hk hkl => habove k (by omega) hkl⟩

/-- The search succeeds for a number that is not in the list. -/
theorem exists_binarySearch (hsorted : arr.Pairwise (· < ·)) (hmem : target ∉ arr) :
    ∃ jj, binarySearch arr target = .ok jj ∧ (jj < 0 → lastBefore arr target = none) ∧
      (0 ≤ jj → lastBefore arr target = some (arr.getD jj.toNat 0)) := by
  rw [binarySearch]
  by_cases hnil : arr = []
  · subst hnil
    exact ⟨-1, rfl, fun _ => rfl, by omega⟩
  · have hpos := List.length_pos_of_ne_nil hnil
    have hlast : arr.getLastD 0 = arr.getD (arr.length - 1) 0 := by
      rw [List.getLastD_eq_getLast?, List.getLast?_eq_getElem?, List.getD_eq_getElem?_getD]
    have hhead : arr.headD 0 = arr.getD 0 0 := by
      rw [List.headD_eq_head?_getD, List.head?_eq_getElem?, List.getD_eq_getElem?_getD]
    rw [if_neg hnil]
    by_cases hend : arr.getLastD 0 < target
    · rw [if_pos hend]
      have hfound : FoundAt arr target (arr.length - 1) :=
        ⟨by omega, hlast ▸ hend, fun k hk hkl => by omega⟩
      refine ⟨arr.length - 1, rfl, by omega, fun _ => ?_⟩
      rw [hfound.lastBefore_eq]
      congr 2
      omega
    · rw [if_neg hend]
      by_cases hstart : target < arr.headD 0
      · rw [if_pos hstart]
        refine ⟨-1, rfl, fun _ => ?_, by omega⟩
        have hnone : arr.filter (· < target) = [] := by
          rw [List.filter_eq_nil_iff]
          intro v hv
          obtain ⟨k, hk, rfl⟩ := List.mem_iff_getElem.mp hv
          rw [hhead] at hstart
          rw [decide_eq_true_iff, ← List.getD_eq_getElem _ 0 hk]
          rcases Nat.eq_zero_or_pos k with rfl | hkpos
          · exact not_lt.mpr hstart.le
          · exact not_lt.mpr (hstart.trans (getD_lt_of_lt hsorted hkpos hk)).le
        rw [lastBefore, hnone]
        rfl
      · rw [if_neg hstart]
        have hne : arr.getD 0 0 ≠ target := fun heq => hmem (heq ▸ getD_mem hpos)
        rw [hhead] at hstart
        obtain ⟨i, hi, hfound⟩ := exists_searchBetween hsorted hmem hpos le_rfl (by omega)
          fun k hk hkl => absurd hkl (not_lt.mpr hk)
        exact ⟨i, by rw [hi]; rfl, by omega, fun _ => hfound.lastBefore_eq⟩

end Search

/-! ## Levels by height

Seen from body text the levels have heights: body text is at the bottom, at height zero. -/

/-- The indices at a height, in order. -/
def atHeight (hs : List ℕ) (l : ℕ) : List ℕ :=
  (List.range hs.length).filter fun k => hs[k]? = some l

section Heights

variable {hs : List ℕ} {j k l : ℕ}

theorem mem_atHeight : k ∈ atHeight hs l ↔ hs[k]? = some l := by
  rw [atHeight, List.mem_filter, List.mem_range, decide_eq_true_iff]
  refine and_iff_right_of_imp fun h => ?_
  obtain ⟨hk, -⟩ := List.getElem?_eq_some_iff.mp h
  exact hk

theorem atHeight_sorted (hs : List ℕ) (l : ℕ) : (atHeight hs l).Pairwise (· < ·) :=
  List.pairwise_lt_range.filter _

theorem atHeight_snoc (hs : List ℕ) (a l : ℕ) :
    atHeight (hs ++ [a]) l = atHeight hs l ++ if a = l then [hs.length] else [] := by
  have hold : ∀ k ∈ List.range hs.length,
      (decide ((hs ++ [a])[k]? = some l)) = decide (hs[k]? = some l) := by
    intro k hk
    rw [List.getElem?_append_left (List.mem_range.mp hk)]
  have hnew : [hs.length].filter (fun k => (hs ++ [a])[k]? = some l) =
      if a = l then [hs.length] else [] := by
    by_cases h : a = l <;> simp [h]
  rw [atHeight, List.length_append, List.length_singleton, List.range_succ, List.filter_append,
    List.filter_congr hold, hnew]
  rfl

end Heights

section Levels

variable {family : List Pattern}

/-- The level of a section. -/
def sectionLevel (family : List Pattern) (s : Text × Text) : ℕ :=
  levelOf family (strip s.1) s.1 s.2

/-- The height of every section. -/
def heights (family : List Pattern) (sections : List (Text × Text)) : List ℕ :=
  sections.map fun s => family.length + 1 - sectionLevel family s

theorem collectLevels_eq (family : List Pattern) (sections : List (Text × Text)) :
    collectLevels family sections =
      (List.range (family.length + 2)).map (atHeight (sections.map (sectionLevel family))) := by
  induction sections using List.reverseRecOn with
  | nil =>
      apply List.ext_getElem
      · simp [collectLevels]
      · intro l hl _
        simp [collectLevels, atHeight]
  | append_singleton sections s ih =>
      have hsnoc : collectLevels family (sections ++ [s]) =
          (collectLevels family sections).modify (sectionLevel family s)
            (· ++ [sections.length]) := by
        rw [collectLevels, List.zipIdx_append, List.foldl_append]
        simp [collectLevels, sectionLevel]
      rw [hsnoc, ih]
      apply List.ext_getElem
      · simp
      · intro l hl _
        rw [List.getElem_modify, List.getElem_map, List.getElem_map, List.getElem_range,
          List.map_append, List.map_singleton, atHeight_snoc, List.length_map]
        split
        · rfl
        · rw [List.append_nil]

/-- From body text up, the levels are the heights. -/
theorem collectLevels_reverse (family : List Pattern) (sections : List (Text × Text)) :
    (collectLevels family sections).reverse =
      (List.range (family.length + 2)).map (atHeight (heights family sections)) := by
  rw [collectLevels_eq]
  apply List.ext_getElem
  · simp
  · intro l hl hl'
    rw [List.length_map, List.length_range] at hl'
    rw [List.getElem_reverse, List.getElem_map, List.getElem_range, List.getElem_map,
      List.getElem_range, List.length_map, List.length_range, atHeight, atHeight, heights,
      List.length_map, List.length_map]
    apply List.filter_congr
    intro k hk
    rw [List.getElem?_map, List.getElem?_map]
    cases sections[k]? with
    | none => rfl
    | some s =>
        have hle : sectionLevel family s ≤ family.length + 1 := levelOf_le _ _ _ _
        simp only [Option.map_some, Option.some.injEq]
        congr 1
        apply propext
        omega

end Levels

/-! ## The groups -/

/-- The nearest section before `j` at a height. -/
def nearest (hs : List ℕ) (j l : ℕ) : Option ℕ := lastBefore (atHeight hs l) j

/-- The heights above that of `j`, out of `top` heights. -/
def higherThan (hs : List ℕ) (top j : ℕ) : List ℕ :=
  List.range' (hs.getD j 0 + 1) (top - (hs.getD j 0 + 1))

/-- The group that is built for `j`: none but itself below the highest level, and else what is left
of the nearest headings. -/
def groupOf (hs : List ℕ) (top j : ℕ) : List ℕ :=
  if (higherThan hs top j).length = 1 then [j]
  else ((higherThan hs top j).filterMap (nearest hs j)).foldl pushOne [j]

/-- A section that is in no group gets its own. -/
def addGroup (hs : List ℕ) (top : ℕ) (cks : List (List ℕ)) (j : ℕ) : List (List ℕ) :=
  if j ∈ cks.flatten then cks else cks ++ [groupOf hs top j]

/-- The sections of the lowest heights, from body text up. -/
def buildOrder (hs : List ℕ) (top depth : ℕ) : List ℕ :=
  ((List.range top).take depth).flatMap (atHeight hs)

section Groups

variable {hs : List ℕ} {top i j k l : ℕ} {ck : List ℕ}

theorem attach_eq {rows : List (List ℕ)} (h : ∀ arr ∈ rows, arr.Pairwise (· < ·) ∧ j ∉ arr) :
    attach j rows ck = .ok ((rows.filterMap (lastBefore · j)).foldl pushOne ck) := by
  induction rows generalizing ck with
  | nil => rfl
  | cons arr rows ih =>
      have hrows := fun arr' harr' => h arr' (List.mem_cons_of_mem arr harr')
      obtain ⟨hsorted, hmem⟩ := h arr List.mem_cons_self
      obtain ⟨jj, hjj, hnone, hsome⟩ := exists_binarySearch hsorted hmem
      rw [attach, hjj]
      by_cases hneg : jj < 0
      · simp only [List.filterMap_cons, hnone hneg]
        rw [← ih hrows]
        exact if_pos hneg
      · simp only [List.filterMap_cons, hsome (not_lt.mp hneg), List.foldl_cons]
        rw [← ih hrows]
        exact if_neg hneg

theorem nearest_spec (h : nearest hs j l = some k) : k < j ∧ hs[k]? = some l := by
  have hmem := List.mem_of_getLast? h
  rw [List.mem_filter, mem_atHeight, decide_eq_true_iff] at hmem
  exact hmem.symm

theorem mem_higherThan : l ∈ higherThan hs top j ↔ hs.getD j 0 < l ∧ l < top := by
  rw [higherThan, List.mem_range'_1]
  omega

/-- The nearest headings are different sections, all before `j`. -/
theorem nearest_nodup (hs : List ℕ) (top j : ℕ) :
    ([j] ++ (higherThan hs top j).filterMap (nearest hs j)).Nodup := by
  rw [List.singleton_append, List.nodup_cons]
  constructor
  · intro hmem
    obtain ⟨l, -, hl⟩ := List.mem_filterMap.mp hmem
    exact lt_irrefl j (nearest_spec hl).1
  · refine List.Nodup.filterMap ?_ List.nodup_range'
    intro l l' k hk hk'
    exact Option.some.inj ((nearest_spec hk).2.symm.trans (nearest_spec hk').2)

/-- A group begins with its section. -/
theorem exists_groupOf_eq_cons (hs : List ℕ) (top j : ℕ) :
    ∃ above, groupOf hs top j = j :: above := by
  rw [groupOf]
  split
  · exact ⟨[], rfl⟩
  · refine exists_cons_foldl_pushOne ?_ []
    intro q hq
    obtain ⟨l, -, hl⟩ := List.mem_filterMap.mp hq
    exact not_lt.mpr (nearest_spec hl).1.le

theorem mem_groupOf_self (hs : List ℕ) (top j : ℕ) : j ∈ groupOf hs top j := by
  obtain ⟨above, heq⟩ := exists_groupOf_eq_cons hs top j
  exact heq ▸ List.mem_cons_self

theorem groupOf_nodup (hs : List ℕ) (top j : ℕ) : (groupOf hs top j).Nodup := by
  rw [groupOf]
  split
  · exact List.nodup_singleton j
  · exact (nearest_nodup hs top j).sublist (foldl_pushOne_sublist _ _)

/-- Behind the section stand nearest headings only. -/
theorem mem_groupOf_imp (h : k ∈ groupOf hs top j) :
    k = j ∨ ∃ l, hs.getD j 0 < l ∧ l < top ∧ nearest hs j l = some k := by
  rw [groupOf] at h
  split at h
  · exact .inl (List.mem_singleton.mp h)
  · have hmem := (foldl_pushOne_sublist _ _).subset h
    rcases List.mem_append.mp hmem with hmem | hmem
    · exact .inl (List.mem_singleton.mp hmem)
    · obtain ⟨l, hl, hk⟩ := List.mem_filterMap.mp hmem
      exact .inr ⟨l, (mem_higherThan.mp hl).1, (mem_higherThan.mp hl).2, hk⟩

/-- The sections that have been read are those in the groups. -/
structure Grouping.Reads (g : Grouping) : Prop where
  iff : ∀ k, g.readed k = true ↔ k ∈ g.cks.flatten

theorem Grouping.Reads.visit {g : Grouping} (h : g.Reads) (hj : hs[j]? = some i) :
    ∃ g', g.visit ((List.range' (i + 1) (top - (i + 1))).map (atHeight hs)) j = .ok g' ∧
      g'.Reads ∧ g'.cks = addGroup hs top g.cks j := by
  have hi : hs.getD j 0 = i := by rw [List.getD_eq_getElem?_getD, hj, Option.getD_some]
  have hhigher : List.range' (i + 1) (top - (i + 1)) = higherThan hs top j := by
    rw [higherThan, hi]
  rw [Grouping.visit, hhigher, addGroup]
  by_cases hread : g.readed j = true
  · rw [if_pos hread, if_pos ((h.iff j).mp hread)]
    exact ⟨g, rfl, h, rfl⟩
  · rw [if_neg hread, if_neg (mt (h.iff j).mpr hread), List.length_map]
    by_cases htop : (higherThan hs top j).length = 1
    · rw [if_pos htop]
      refine ⟨_, rfl, ⟨fun k => ?_⟩, by rw [groupOf, if_pos htop]; rfl⟩
      simp only [Grouping.read, List.flatten_append, List.flatten_singleton, List.mem_append,
        Bool.or_eq_true, decide_eq_true_iff, h.iff k]
      exact or_comm
    · have hrows : ∀ arr ∈ (higherThan hs top j).map (atHeight hs),
          arr.Pairwise (· < ·) ∧ j ∉ arr := by
        intro arr harr
        obtain ⟨l, hl, rfl⟩ := List.mem_map.mp harr
        refine ⟨atHeight_sorted hs l, fun hmem => ?_⟩
        rw [mem_atHeight, hj, Option.some.injEq] at hmem
        have hlt := (mem_higherThan.mp hl).1
        omega
      have hgroup : attach j ((higherThan hs top j).map (atHeight hs)) [j] =
          .ok (groupOf hs top j) := by
        rw [attach_eq hrows, groupOf, if_neg htop, List.filterMap_map]
        rfl
      rw [if_neg htop, hgroup]
      refine ⟨_, rfl, ⟨fun k => ?_⟩, rfl⟩
      have hself := mem_groupOf_self hs top j
      simp only [Grouping.read, List.flatten_append, List.flatten_singleton, List.mem_append,
        Bool.or_eq_true, decide_eq_true_iff, h.iff k, List.mem_singleton]
      constructor
      · rintro (hk | rfl | hk)
        · exact .inr hk
        · exact .inr hself
        · exact .inl hk
      · rintro (hk | hk)
        · exact .inr (.inr hk)
        · exact .inl hk

/-- The loop over one level. -/
theorem Grouping.Reads.visit_foldlM {g : Grouping} (h : g.Reads) {js : List ℕ}
    (hjs : ∀ j ∈ js, hs[j]? = some i) :
    ∃ g', js.foldlM (Grouping.visit ((List.range' (i + 1) (top - (i + 1))).map (atHeight hs))) g =
        .ok g' ∧ g'.Reads ∧ g'.cks = js.foldl (addGroup hs top) g.cks := by
  induction js generalizing g with
  | nil => exact ⟨g, rfl, h, rfl⟩
  | cons j js ih =>
      obtain ⟨g₁, hg₁, hreads, hcks⟩ :=
        @Grouping.Reads.visit hs top i j g h (hjs j List.mem_cons_self)
      obtain ⟨g₂, hg₂, hreads', hcks'⟩ := ih hreads fun k hk => hjs k (List.mem_cons_of_mem j hk)
      refine ⟨g₂, ?_, hreads', ?_⟩
      · rw [List.foldlM_cons, hg₁]
        exact hg₂
      · rw [hcks', hcks, List.foldl_cons]

theorem Grouping.Reads.visitLevels {g : Grouping} (h : g.Reads) (depth i n : ℕ)
    (htop : i + n = top) :
    ∃ g', Grouping.visitLevels depth ((List.range' i n).map (atHeight hs)) g = .ok g' ∧
      g'.Reads ∧
      g'.cks = (((List.range' i n).take depth).flatMap (atHeight hs)).foldl (addGroup hs top)
        g.cks := by
  induction depth generalizing i n g with
  | zero => exact ⟨g, by rw [Grouping.visitLevels], h, rfl⟩
  | succ depth ih =>
      cases n with
      | zero =>
          exact ⟨g, rfl, h, rfl⟩
      | succ n =>
          have hn : n = top - (i + 1) := by omega
          obtain ⟨g₁, hg₁, hreads, hcks⟩ :=
            @Grouping.Reads.visit_foldlM hs top i g h (atHeight hs i) fun j hj => mem_atHeight.mp hj
          obtain ⟨g₂, hg₂, hreads', hcks'⟩ := ih hreads (i + 1) n (by omega)
          rw [List.range'_succ, List.map_cons, Grouping.visitLevels, hn, hg₁]
          refine ⟨g₂, hn ▸ hg₂, hreads', ?_⟩
          rw [hcks', hcks, ← hn, List.take_succ_cons, List.flatMap_cons, List.foldl_append]

/-- The groups, by the plain rule. -/
theorem mergeGroups_eq (family : List Pattern) (depth : ℕ) (sections : List (Text × Text)) :
    mergeGroups family depth sections =
      .ok ((buildOrder (heights family sections) (family.length + 2) depth).foldl
        (addGroup (heights family sections) (family.length + 2)) []) := by
  have hstart : Grouping.start.Reads := ⟨fun k => by simp [Grouping.start]⟩
  obtain ⟨g, hg, -, hcks⟩ :=
    @Grouping.Reads.visitLevels (heights family sections) _ _ hstart depth 0
    (family.length + 2) (Nat.zero_add _)
  rw [← List.range_eq_range'] at hg hcks
  rw [mergeGroups, collectLevels_reverse, hg]
  exact congrArg Except.ok hcks

end Groups

end RagFlow.Chunking
