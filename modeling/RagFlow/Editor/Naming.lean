/-
# Names of new nodes and tools

A new node is named after its kind, with the first index that is not in use. The indexes are read
back from the names, which a user can change, and the first gap between them is taken for a free
index. A new tool of an agent takes an index after the one that sorting puts last.
-/

import Mathlib.Data.List.Rotate
import RagFlow.Editor.Dsl
import RagFlow.Math.Gap
import RagFlow.Math.Numeral
import RagFlow.Math.Separator

namespace RagFlow.Editor.Naming

open RagFlow.Math RagFlow.Math.Number

/-! ## Sorting -/

/-- A comparison function that is consistent on a list; what is not a number counts as zero. -/
structure Consistent {α : Type} (comparefn : α → α → Number) (l : List α) : Prop where
  refl : ∀ a ∈ l, sign (comparefn a a) = .eq
  symm : ∀ a ∈ l, ∀ b ∈ l, sign (comparefn a b) = .eq → sign (comparefn b a) = .eq
  trans : ∀ a ∈ l, ∀ b ∈ l, ∀ c ∈ l, ∀ o, sign (comparefn a b) = o → sign (comparefn b c) = o →
    sign (comparefn a c) = o

/-- Stable sorting. -/
def stableSort {α : Type} (comparefn : α → α → Number) (l : List α) : List α :=
  l.mergeSort fun a b => sign (comparefn a b) != .gt

/-- Where the comparison function is not consistent, the order is left to the engine. -/
structure Engine where
  sort : {α : Type} → (α → α → Number) → List α → List α
  perm : ∀ {α : Type} (comparefn : α → α → Number) (l : List α), (sort comparefn l).Perm l
  stable : ∀ {α : Type} (comparefn : α → α → Number) (l : List α),
    Consistent comparefn l → sort comparefn l = stableSort comparefn l

/-! ## Nodes -/

/-- What stands in front of the first underscore, and the number behind the last. -/
def splitName (name : List Char) : List Char × Number :=
  let names := name.splitOn '_'
  (names.headD [], ofText (names.getLastD []))

structure TemplateName where
  idx : Number
  name : List Char

section Nodes

variable {π : Type*}

/-- The names made from `name` and an index, with their indexes. -/
def templateNames (name : List Char) (nodes : List (FlowNode π)) : List TemplateName :=
  (nodes.filter fun x =>
    let (type, index) := splitName x.name.toList
    x.name.toList.count '_' = 1 ∧ type = name ∧ !index.isNaN).map fun x =>
      { idx := (splitName x.name.toList).2, name := x.name.toList }

/-- The index after the first that the next one does not follow. -/
def freeIndex : List TemplateName → Number
  | [] => ofDouble 0
  | [t] => add t.idx (ofDouble 1)
  | t :: next :: rest =>
    if !strictEq (add t.idx (ofDouble 1)) next.idx then add t.idx (ofDouble 1)
    else freeIndex (next :: rest)

def indexed (name : List Char) (index : Number) : List Char := name ++ '_' :: toText index

def generateNodeNamesWithIncreasingIndex (engine : Engine) (name : List Char)
    (nodes : List (FlowNode π)) : List Char :=
  indexed name (freeIndex (engine.sort (fun a b => sub a.idx b.idx) (templateNames name nodes)))

/-! ## Tools -/

/-- The number at the end of the name. Without one, it is `Number(undefined)`. -/
def toolIndex (x : Tool π) : Number :=
  match x.name.toList.rtakeWhile Char.isDigit with
  | [] => none
  | idx => if isNaN (ofText idx) then ofDouble (-1) else ofText idx

def toolsOf (name : List Char) (tools : List (Tool π)) : List (Tool π) :=
  tools.filter fun x => x.componentName.toList = name

def lastIndex (engine : Engine) (tools : List (Tool π)) : Number :=
  if tools.isEmpty then ofDouble (-1)
  else ((engine.sort sub (tools.map toolIndex)).getLast?).getD (ofDouble (-1))

def generateAgentToolName (engine : Engine) (nodes : List (FlowNode π)) (id : String)
    (name : List Char) : List Char :=
  match nodes.find? fun x => x.id = id with
  | none => []
  | some node => indexed name (add (lastIndex engine (toolsOf name node.tools)) (ofDouble 1))

end Nodes

/-! ## Sorted indexes -/

theorem consistent_sub {α : Type} {index : α → Number} {l : List α} (h : ∀ a ∈ l, index a ≠ none) :
    Consistent (fun a b => sub (index a) (index b)) l := by
  have hsome : ∀ a ∈ l, ∃ x, index a = some x := fun a ha => Option.ne_none_iff_exists'.1 (h a ha)
  refine ⟨fun a ha => ?_, fun a ha b hb heq => ?_, fun a ha b hb c hc o hab hbc => ?_⟩
  · obtain ⟨x, hx⟩ := hsome a ha
    rw [hx, sign_sub, compare_eq_iff_eq]
  · obtain ⟨x, hx⟩ := hsome a ha
    obtain ⟨y, hy⟩ := hsome b hb
    rw [hx, hy, sign_sub, compare_eq_iff_eq] at heq
    rw [hx, hy, sign_sub, compare_eq_iff_eq, heq]
  · obtain ⟨x, hx⟩ := hsome a ha
    obtain ⟨y, hy⟩ := hsome b hb
    obtain ⟨z, hz⟩ := hsome c hc
    rw [hx, hy, sign_sub] at hab
    rw [hy, hz, sign_sub] at hbc
    rw [hx, hz, sign_sub]
    cases o with
    | lt => exact compare_lt_iff_lt.2 ((compare_lt_iff_lt.1 hab).trans (compare_lt_iff_lt.1 hbc))
    | eq => exact compare_eq_iff_eq.2 ((compare_eq_iff_eq.1 hab).trans (compare_eq_iff_eq.1 hbc))
    | gt => exact compare_gt_iff_gt.2 ((compare_gt_iff_gt.1 hbc).trans (compare_gt_iff_gt.1 hab))

/-- Numbers are sorted by what they are. -/
theorem sort_eq (engine : Engine) {α : Type} {index : α → Number} {l : List α} {xs : List Extended}
    (h : l.map index = xs.map some) :
    ∃ ys : List Extended,
      (engine.sort (fun a b => sub (index a) (index b)) l).map index = ys.map some ∧
        ys.Perm xs ∧ ys.Pairwise (· ≤ ·) := by
  have hnum : ∀ a ∈ l, index a ≠ none := by
    intro a ha hnone
    have hmem : none ∈ xs.map some := h ▸ hnone ▸ List.mem_map_of_mem ha
    obtain ⟨x, _, hx⟩ := List.mem_map.1 hmem
    cases hx
  refine ⟨xs.mergeSort fun a b => compare a b != .gt, ?_, List.mergeSort_perm _ _, ?_⟩
  · rw [engine.stable _ _ (consistent_sub hnum), stableSort,
      List.map_mergeSort (s := fun a b => sign (sub a b) != .gt) (fun _ _ _ _ => rfl), h,
      List.map_mergeSort (s := fun a b => sign (sub a b) != .gt)
        (fun a _ b _ => by rw [sign_sub])]
  · have hle : ∀ a b : Extended, (compare a b != .gt) = true ↔ a ≤ b := by
      intro a b
      rw [bne_iff_ne, ← compare_le_iff_le]
    refine (List.pairwise_mergeSort (fun a b c hab hbc => ?_) (fun a b => ?_) xs).imp
      fun hab => (hle _ _).1 hab
    · exact (hle a c).2 (((hle a b).1 hab).trans ((hle b c).1 hbc))
    · rw [Bool.or_eq_true, hle, hle]
      exact le_total a b

/-! ## Names of nodes -/

section NodeNames

variable {π : Type*} {name : List Char} {nodes : List (FlowNode π)}

/-- The indexes in use. -/
def indexes (name : List Char) (nodes : List (FlowNode π)) : List Extended :=
  (templateNames name nodes).filterMap TemplateName.idx

theorem mem_templateNames {t : TemplateName} :
    t ∈ templateNames name nodes ↔ ∃ x ∈ nodes, x.name.toList.count '_' = 1 ∧
      (splitName x.name.toList).1 = name ∧ t.idx ≠ none ∧
        t = { idx := (splitName x.name.toList).2, name := x.name.toList } := by
  simp only [templateNames, List.mem_map, List.mem_filter, decide_eq_true_eq]
  refine ⟨?_, ?_⟩
  · rintro ⟨x, ⟨hx, hcount, htype, hnum⟩, rfl⟩
    refine ⟨x, hx, hcount, htype, ?_, rfl⟩
    simpa [isNaN, Option.isSome_iff_ne_none] using hnum
  · rintro ⟨x, hx, hcount, htype, hnum, rfl⟩
    refine ⟨x, ⟨hx, hcount, htype, ?_⟩, rfl⟩
    simpa [isNaN, Option.isSome_iff_ne_none] using hnum

theorem mem_indexes {i : Extended} :
    i ∈ indexes name nodes ↔ ∃ x ∈ nodes, x.name.toList.count '_' = 1 ∧
      splitName x.name.toList = (name, some i) := by
  rw [indexes, List.mem_filterMap]
  refine ⟨?_, ?_⟩
  · rintro ⟨t, ht, hidx⟩
    obtain ⟨x, hx, hcount, htype, _, rfl⟩ := mem_templateNames.1 ht
    exact ⟨x, hx, hcount, Prod.ext htype hidx⟩
  · rintro ⟨x, hx, hcount, hsplit⟩
    refine ⟨⟨some i, x.name.toList⟩, mem_templateNames.2 ⟨x, hx, hcount, ?_, ?_, ?_⟩, rfl⟩
    · rw [hsplit]
    · exact Option.some_ne_none i
    · rw [hsplit]

theorem map_idx_templateNames (name : List Char) (nodes : List (FlowNode π)) :
    (templateNames name nodes).map TemplateName.idx = (indexes name nodes).map some := by
  rw [indexes, List.map_filterMap_some_eq_filter_map_isSome, eq_comm, List.filter_eq_self]
  intro a ha
  obtain ⟨t, ht, rfl⟩ := List.mem_map.1 ha
  obtain ⟨_, _, _, _, hnum, _⟩ := mem_templateNames.1 ht
  exact Option.isSome_iff_ne_none.2 hnum

/-- The loop looks for the first gap. -/
theorem freeIndex_eq {ts : List TemplateName} {xs : List Extended}
    (h : ts.map TemplateName.idx = xs.map some) :
    freeIndex ts = match firstGap Extended.addOne xs with
      | none => ofDouble 0
      | some x => some x.addOne := by
  induction ts generalizing xs with
  | nil =>
      rw [List.map_nil, eq_comm, List.map_eq_nil_iff] at h
      rw [h]
      rfl
  | cons t ts ih =>
      obtain ⟨x, xs', rfl, hx, hxs⟩ := List.map_eq_cons_iff.1 h.symm
      cases ts with
      | nil =>
          rw [List.map_nil, List.map_eq_nil_iff] at hxs
          rw [hxs, freeIndex, ← hx, add_one]
          rfl
      | cons next ts =>
          obtain ⟨y, ys, rfl, hy, hys⟩ := List.map_eq_cons_iff.1 hxs
          have hstrict : strictEq (some x.addOne) (some y) = decide (x.addOne = y) := by
            simp [strictEq, isNaN]
          rw [freeIndex, ← hx, ← hy, add_one, hstrict, firstGap]
          by_cases hnext : x.addOne = y
          · rw [if_pos hnext, if_neg (by simp [hnext])]
            exact ih (by rw [List.map_cons, List.map_cons, hy, hys])
          · rw [if_neg hnext, if_pos (by simp [hnext])]

theorem splitName_indexed {t : List Char} (hname : '_' ∉ name) (ht : '_' ∉ t) :
    splitName (name ++ '_' :: t) = (name, ofText t) := by
  rw [splitName, List.splitOn_append_cons_self_of_not_mem hname, List.splitOn_eq_singleton ht]
  rfl

/-- A name that is taken is read back as one of the indexes. -/
theorem mem_indexes_of_taken {i : Extended} (hname : '_' ∉ name)
    (h : indexed name (some i) ∈ nodes.map fun x => x.name.toList) : i ∈ indexes name nodes := by
  obtain ⟨x, hx, hxname⟩ := List.mem_map.1 h
  have htext := underscore_notMem_toText (some i)
  refine mem_indexes.2 ⟨x, hx, ?_, ?_⟩
  · rw [hxname, indexed, List.count_append, List.count_cons_self, List.count_eq_zero.2 hname,
      List.count_eq_zero.2 htext]
  · rw [hxname, indexed, splitName_indexed hname htext, ofText_toText]

/-- No name with an underscore is in front of one. -/
theorem indexes_eq_nil (hname : '_' ∈ name) : indexes name nodes = [] := by
  rw [List.eq_nil_iff_forall_not_mem]
  intro i hi
  obtain ⟨x, _, _, hsplit⟩ := mem_indexes.1 hi
  have htype : (x.name.toList.splitOn '_').headD [] = name := congrArg Prod.fst hsplit
  obtain ⟨w, ws, hws⟩ := List.exists_cons_of_ne_nil (List.splitOn_ne_nil '_' x.name.toList)
  rw [hws, List.headD_cons] at htype
  have hmem : w ∈ x.name.toList.splitOn '_' := hws ▸ List.mem_cons_self
  exact not_mem_of_mem_splitOn hmem (htype ▸ hname)

/-- With no index in use the name gets the index zero, else the one after the first gap. -/
theorem generateNodeNames_eq (engine : Engine) (name : List Char) (nodes : List (FlowNode π)) :
    (indexes name nodes = [] ∧
      generateNodeNamesWithIncreasingIndex engine name nodes = indexed name (ofDouble 0)) ∨
    ∃ i, FirstGap Extended.addOne (indexes name nodes) i ∧
      generateNodeNamesWithIncreasingIndex engine name nodes = indexed name (some i.addOne) := by
  obtain ⟨ys, hys, hperm, hsorted⟩ := sort_eq engine (map_idx_templateNames name nodes)
  rw [generateNodeNamesWithIncreasingIndex, freeIndex_eq hys]
  rcases eq_or_ne ys [] with rfl | hne
  · exact .inl ⟨hperm.symm.eq_nil, rfl⟩
  · obtain ⟨i, hi⟩ := exists_firstGap (f := Extended.addOne) hne
    refine .inr ⟨i, (firstGap_spec hsorted hi).perm hperm, ?_⟩
    rw [hi]

/-- A node has the name with the index after the first gap, where an index is in use again, another
lies before the next one, or one more is no more. -/
def Collides (name : List Char) (nodes : List (FlowNode π)) : Prop :=
  ∃ i ∈ indexes name nodes, (∀ j ∈ indexes name nodes, j < i →
      Followed Extended.addOne (indexes name nodes) j) ∧
    (1 < (indexes name nodes).count i ∨
      (∃ j ∈ indexes name nodes, i < j ∧ j < i.addOne) ∨ i.addOne = i) ∧
    indexed name (some i.addOne) ∈ nodes.map fun x => x.name.toList

/-- No node has the name with the index zero, if the name has an underscore itself. -/
def NodeNameFree (name : List Char) (nodes : List (FlowNode π)) : Prop :=
  if '_' ∈ name then indexed name (ofDouble 0) ∉ nodes.map fun x => x.name.toList
  else ¬ Collides name nodes

theorem fresh_iff_nodeNameFree (engine : Engine) (name : List Char) (nodes : List (FlowNode π)) :
    (generateNodeNamesWithIncreasingIndex engine name nodes ∉ nodes.map fun x => x.name.toList) ↔
      NodeNameFree name nodes := by
  rw [NodeNameFree]
  rcases generateNodeNames_eq engine name nodes with ⟨hnil, hresult⟩ | ⟨i, hgap, hresult⟩
  · rw [hresult]
    split_ifs with hname
    · rfl
    · refine iff_of_true (fun htaken => ?_) ?_
      · have hmem := mem_indexes_of_taken hname htaken
        rw [hnil] at hmem
        exact List.not_mem_nil hmem
      · rintro ⟨i, hi, _⟩
        rw [hnil] at hi
        exact List.not_mem_nil hi
  · have hname : '_' ∉ name := fun hname => by
      have hmem := hgap.mem
      rw [indexes_eq_nil hname] at hmem
      exact List.not_mem_nil hmem
    rw [if_neg hname, hresult, not_iff_not]
    refine ⟨fun htaken => ⟨i, hgap.mem, hgap.first, ?_, htaken⟩, ?_⟩
    · exact (not_followed_iff Extended.le_addOne hgap.mem (mem_indexes_of_taken hname htaken)).1
        hgap.gap
    · rintro ⟨j, hj, hfirst, hkind, htaken⟩
      have hnot := (not_followed_iff Extended.le_addOne hj (mem_indexes_of_taken hname htaken)).2
        hkind
      rwa [hgap.unique ⟨hj, hnot, hfirst⟩]

end NodeNames

/-! ## Names of tools -/

/-- Every name ends in digits. -/
def AllNumbered (indexes : List Number) : Prop := none ∉ indexes

/-- No two indexes differ, so that every one counts as equal to every other. -/
def AllTied (indexes : List Number) : Prop := ∀ i j, some i ∈ indexes → some j ∈ indexes → i = j

/-- Sorting puts a greatest index last if all are numbers, keeps the list as it is if all count as
equal, and else may put any index last. -/
structure CanBeLast (indexes : List Number) (a : Number) : Prop where
  mem : a ∈ indexes
  greatest : AllNumbered indexes → ∀ i ∈ a, ∀ j, some j ∈ indexes → j ≤ i
  last : AllTied indexes → indexes.getLast? = some a

section Last

variable {indexes : List Number} {a : Number}

theorem sort_of_allTied (engine : Engine) (h : AllTied indexes) :
    engine.sort sub indexes = indexes := by
  have heq : ∀ a ∈ indexes, ∀ b ∈ indexes, sign (sub a b) = .eq := by
    intro a ha b hb
    cases a with
    | none => rw [sub_none_left, sign]
    | some i =>
        cases b with
        | none => rw [sub_none_right, sign]
        | some j => rw [sign_sub, h i j ha hb, compare_eq_iff_eq]
  rw [engine.stable, stableSort]
  · refine List.mergeSort_of_pairwise (List.pairwise_of_forall_mem_list fun a ha b hb => ?_)
    rw [heq a ha b hb]
    rfl
  · refine ⟨fun a ha => heq a ha a ha, fun a ha b hb _ => heq b hb a ha,
      fun a ha b hb c hc o hab _ => ?_⟩
    rw [heq a ha c hc, ← hab, heq a ha b hb]

theorem sort_of_allNumbered (engine : Engine) (h : AllNumbered indexes)
    (hlast : (engine.sort sub indexes).getLast? = some a) :
    ∀ i ∈ a, ∀ j, some j ∈ indexes → j ≤ i := by
  have hsome : indexes.map id = (indexes.filterMap id).map some := by
    rw [List.map_id, List.map_filterMap_some_eq_filter_map_isSome, List.map_id, eq_comm,
      List.filter_eq_self]
    exact fun a ha => Option.isSome_iff_ne_none.2 (ne_of_mem_of_not_mem ha h)
  obtain ⟨ys, hys, hperm, hsorted⟩ := sort_eq engine hsome
  rw [List.map_id] at hys
  change engine.sort sub indexes = _ at hys
  intro i hi j hj
  have hjmem : j ∈ ys := hperm.mem_iff.2 (List.mem_filterMap.2 ⟨some j, hj, rfl⟩)
  rw [hys, List.getLast?_map, Option.mem_def.1 hi, Option.map_eq_some_iff] at hlast
  obtain ⟨i', hi', heq⟩ := hlast
  obtain rfl := Option.some.inj heq
  obtain ⟨before, rfl⟩ := List.getLast?_eq_some_iff.1 hi'
  rcases List.mem_append.1 hjmem with hmem | hmem
  · exact (List.pairwise_append.1 hsorted).2.2 j hmem i' (List.mem_singleton_self i')
  · exact (List.mem_singleton.1 hmem).le

theorem canBeLast_of_sort (engine : Engine)
    (hlast : (engine.sort sub indexes).getLast? = some a) : CanBeLast indexes a where
  mem := (engine.perm sub indexes).mem_iff.1 (List.mem_of_getLast? hlast)
  greatest hnum := sort_of_allNumbered engine hnum hlast
  last htied := by rwa [sort_of_allTied engine htied] at hlast

/-- What is no number counts as equal to two numbers that differ. -/
theorem not_consistent (hnum : ¬ AllNumbered indexes) (htied : ¬ AllTied indexes) :
    ¬ Consistent sub indexes := by
  intro h
  refine htied fun i j hi hj => ?_
  have hnone : none ∈ indexes := not_not.1 hnum
  have heq := h.trans (some i) hi none hnone (some j) hj .eq
    (by rw [sub_none_right, sign]) (by rw [sub_none_left, sign])
  rwa [sign_sub, compare_eq_iff_eq] at heq

def Engine.merging : Engine where
  sort := stableSort
  perm _ l := List.mergeSort_perm l _
  stable _ _ _ := rfl

open Classical in
/-- Moves the first `k` elements to the end where it may. -/
noncomputable def Engine.rotating (k : ℕ) : Engine where
  sort comparefn l := if Consistent comparefn l then stableSort comparefn l else l.rotate k
  perm comparefn l := by
    split_ifs
    · exact List.mergeSort_perm _ _
    · exact List.rotate_perm _ _
  stable comparefn l h := if_pos h

theorem exists_engine (h : CanBeLast indexes a) :
    ∃ engine : Engine, (engine.sort sub indexes).getLast? = some a := by
  by_cases htied : AllTied indexes
  · exact ⟨.merging, by rw [sort_of_allTied _ htied, h.last htied]⟩
  by_cases hnum : AllNumbered indexes
  · have hne : Engine.merging.sort sub indexes ≠ [] := fun hnil =>
      List.ne_nil_of_mem h.mem
        ((Engine.merging.perm sub indexes).symm.trans (hnil ▸ .refl _)).eq_nil
    obtain ⟨b, hb⟩ := Option.isSome_iff_exists.1 (List.getLast?_isSome.2 hne)
    have hbmem := (canBeLast_of_sort _ hb).mem
    have hbmax := sort_of_allNumbered _ hnum hb
    obtain ⟨i, rfl⟩ := Option.ne_none_iff_exists'.1 (ne_of_mem_of_not_mem h.mem hnum)
    obtain ⟨j, rfl⟩ := Option.ne_none_iff_exists'.1 (ne_of_mem_of_not_mem hbmem hnum)
    have heq : j = i := le_antisymm (h.greatest hnum i rfl j hbmem) (hbmax j rfl i h.mem)
    exact ⟨.merging, by rw [hb, heq]⟩
  · obtain ⟨before, behind, hsplit⟩ := List.append_of_mem h.mem
    refine ⟨.rotating (before ++ [a]).length, ?_⟩
    have hrotate : indexes = (before ++ [a]) ++ behind := by
      rw [hsplit, List.append_assoc, List.singleton_append]
    have hsort : (Engine.rotating (before ++ [a]).length).sort sub indexes =
        indexes.rotate (before ++ [a]).length := if_neg (not_consistent hnum htied)
    rw [hsort, hrotate, List.rotate_append_length_eq, ← List.append_assoc, List.getLast?_concat]

end Last

section ToolNames

variable {π : Type*} {nodes : List (FlowNode π)} {id : String} {name : List Char}

/-- No tool of the kind has the new name. -/
def FreshToolName (engine : Engine) (nodes : List (FlowNode π)) (id : String) (name : List Char) :
    Prop :=
  ∀ node ∈ nodes.find? fun x => x.id = id,
    generateAgentToolName engine nodes id name ∉
      (toolsOf name node.tools).map fun x => x.name.toList

/-- No tool of the kind has the name with the index after one that can be put last. -/
def ToolNameFree (nodes : List (FlowNode π)) (id : String) (name : List Char) : Prop :=
  ∀ node ∈ nodes.find? fun x => x.id = id,
    ∀ a, CanBeLast ((toolsOf name node.tools).map toolIndex) a →
      indexed name (add a (ofDouble 1)) ∉ (toolsOf name node.tools).map fun x => x.name.toList

theorem forall_freshToolName_iff (nodes : List (FlowNode π)) (id : String) (name : List Char) :
    (∀ engine, FreshToolName engine nodes id name) ↔ ToolNameFree nodes id name := by
  have hname : ∀ engine : Engine, ∀ node, (nodes.find? fun x => x.id = id) = some node →
      ∀ a, (engine.sort sub ((toolsOf name node.tools).map toolIndex)).getLast? = some a →
        generateAgentToolName engine nodes id name = indexed name (add a (ofDouble 1)) := by
    intro engine node hnode a hlast
    have hne : (toolsOf name node.tools).isEmpty = false := by
      have hmem := List.ne_nil_of_mem (canBeLast_of_sort engine hlast).mem
      rw [List.isEmpty_eq_false_iff]
      exact fun hnil => hmem (by rw [hnil, List.map_nil])
    simp [generateAgentToolName, hnode, lastIndex, hne, hlast]
  refine ⟨fun h node hnode a ha => ?_, fun h engine node hnode => ?_⟩
  · obtain ⟨engine, hlast⟩ := exists_engine ha
    have hfresh := h engine node hnode
    rwa [hname engine node hnode a hlast] at hfresh
  · cases hlast : (engine.sort sub ((toolsOf name node.tools).map toolIndex)).getLast? with
    | some a =>
        rw [hname engine node hnode a hlast]
        exact h node hnode a (canBeLast_of_sort engine hlast)
    | none =>
        have hnil : (toolsOf name node.tools).map toolIndex = [] := by
          have hsorted := List.getLast?_eq_none_iff.1 hlast
          exact ((engine.perm sub _).symm.trans (hsorted ▸ .refl _)).eq_nil
        rw [List.map_eq_nil_iff.1 hnil, List.map_nil]
        exact List.not_mem_nil

end ToolNames

/-! ## Fresh names -/

/-- Generated names are fresh exactly if no name in use stands at the end of the search. -/
theorem namesAreFresh_iff {π : Type*} :
    (∀ (engine : Engine) (name : List Char) (nodes : List (FlowNode π)),
      (generateNodeNamesWithIncreasingIndex engine name nodes ∉
        nodes.map fun x => x.name.toList) ↔ NodeNameFree name nodes) ∧
    ∀ (nodes : List (FlowNode π)) (id : String) (name : List Char),
      (∀ engine, FreshToolName engine nodes id name) ↔ ToolNameFree nodes id name :=
  ⟨fresh_iff_nodeNameFree, forall_freshToolName_iff⟩

/-! ## A copy of a copy, and a tool without a number -/

def agentNode (name : String) (tools : List (Tool Unit)) : FlowNode Unit where
  id := name
  label := some .agent
  parentId := none
  shared := false
  name := name
  tools := tools
  items := []
  form := ()

def retrievalTool (name : String) : Tool Unit where
  componentName := "Retrieval"
  name := name
  id := name
  params := ()

def renamedTools : List (Tool Unit) := [retrievalTool "Docs", retrievalTool "Retrieval_NaN"]

/-- A second copy of `Agent_0` is named like the first, and a third tool like the second. -/
theorem not_namesAreFresh :
    (generateNodeNamesWithIncreasingIndex .merging "Agent_0".toList
        [agentNode "Agent_0" [], agentNode "Agent_0_0" []] ∈
      [agentNode "Agent_0" [], agentNode "Agent_0_0" []].map fun x => x.name.toList) ∧
    ¬ FreshToolName .merging [agentNode "Agent_0" renamedTools] "Agent_0" "Retrieval".toList := by
  have hindexes : (toolsOf "Retrieval".toList renamedTools).map toolIndex = [none, none] := by
    decide +kernel
  have htied : AllTied [none, none] := fun i j hi _ => by simp at hi
  have hlast : lastIndex .merging (toolsOf "Retrieval".toList renamedTools) = none := by
    rw [lastIndex, hindexes, sort_of_allTied _ htied]
    rfl
  refine ⟨by decide +kernel, fun h => h (agentNode "Agent_0" renamedTools) rfl ?_⟩
  have hname : generateAgentToolName .merging [agentNode "Agent_0" renamedTools] "Agent_0"
      "Retrieval".toList = indexed "Retrieval".toList
        (add (lastIndex .merging (toolsOf "Retrieval".toList renamedTools)) (ofDouble 1)) := rfl
  rw [hname, hlast]
  decide +kernel

end RagFlow.Editor.Naming
