/-
# Updates and deletions in Infinity

An update names rows by a condition. What is to be removed from a list of keywords is removed in
each row that has it; the rows are then updated in groups, by what is left. Other values are
written to all rows.
-/

import Mathlib.Logic.Function.Basic
import RagFlow.Infinity.Filter
import RagFlow.Math.Groups

namespace RagFlow.Infinity

open RagFlow.Math

/-- The texts in the columns of a row. -/
abbrev TextRow := Text → Text

/-- Columns are compared as they are and searched by their keywords; the analyzer of the index
splits at `#`. -/
def keywordEngine : Engine TextRow where
  equals row k x := x = .str (row k)
  fulltext row field text := text ∈ (row (field.takeWhile (· ≠ '@'))).splitOn '#'

/-- Keywords as they are stored. -/
def joinKeywords (l : List Text) : Text := ['#', '#', '#'].intercalate l

/-- Keywords as `get_fields` returns them. -/
def keywords (t : Text) : List Text :=
  (splitAtSep ['#', '#', '#'] t).filter fun kwd => !kwd.isEmpty

/-- A keyword that is stored as it is. -/
def IsKeyword (t : Text) : Prop := t ≠ [] ∧ '#' ∉ t

instance (t : Text) : Decidable (IsKeyword t) :=
  inferInstanceAs (Decidable (t ≠ [] ∧ '#' ∉ t))

section Keywords

variable {l : List Text} {t : Text}

theorem keywords_joinKeywords (h : ∀ s ∈ l, IsKeyword s) : keywords (joinKeywords l) = l := by
  have hsep : Separable l := by
    refine ⟨fun s hs => ⟨(h s hs).1, fun hin => ?_⟩, fun s hs hlast => ?_⟩
    · exact (h s hs).2 (hin.subset List.mem_cons_self)
    · exact (h s (List.dropLast_subset l hs)).2 (List.mem_of_getLast? hlast)
  exact filter_splitAtSep_iff.mpr hsep

theorem joinKeywords_eq_nil_iff (h : ∀ s ∈ l, IsKeyword s) : joinKeywords l = [] ↔ l = [] := by
  constructor
  · intro hnil
    have hread := keywords_joinKeywords h
    rw [hnil] at hread
    exact hread.symm
  · rintro rfl
    rfl

/-- The search finds the keywords that are stored. -/
theorem mem_splitOn_joinKeywords_iff (h : ∀ s ∈ l, IsKeyword s) (ht : t ≠ []) :
    t ∈ (joinKeywords l).splitOn '#' ↔ t ∈ l := by
  induction l with
  | nil => simp [joinKeywords, ht]
  | cons s l ih =>
      have hs : s.splitOn '#' = [s] := List.splitOn_eq_singleton (h s List.mem_cons_self).2
      cases l with
      | nil => simp [joinKeywords, hs]
      | cons s' l =>
          -- Between two keywords there are two empty pieces.
          have hsep : ∀ u : Text, ('#' :: u).splitOn '#' = [] :: u.splitOn '#' := fun u => by
            have hsplit := List.splitOn_append_cons_self (a := '#') [] u
            rwa [List.splitOn_nil, List.nil_append] at hsplit
          have hrest := ih fun s hs => h s (List.mem_cons_of_mem _ hs)
          rw [joinKeywords, List.intercalate_cons_cons, List.append_assoc, List.cons_append,
            List.splitOn_append_cons_self, hs, List.cons_append, List.cons_append, hsep,
            List.cons_append, hsep, List.nil_append, List.nil_append]
          rw [joinKeywords] at hrest
          simp [ht, hrest]

end Keywords

section Table

variable (columns : List Column)

/-- The rows that the filter of a condition selects. -/
def selects (condition : List Entry) (row : TextRow) : Bool :=
  condition.all (Entry.holds chunkRules columns keywordEngine row)

/-- The removals of a row: the column with what is left of its keywords, and the id. -/
def removals (removeValue : List (Text × Text)) (row : TextRow) :
    List ((Text × List Text) × Text) :=
  removeValue.filterMap fun e =>
    if e.2 ∈ keywords (row e.1) then
      some ((e.1, (keywords (row e.1)).erase e.2), row "id".toList)
    else none

/-- `remove_opt`: what is left, with the ids of the rows to update. -/
def removeOpt (rows : List TextRow) (condition : List Entry) (removeValue : List (Text × Text)) :
    Dict (Text × List Text) (List Text) :=
  groupByKey ((rows.filter (selects columns condition)).flatMap (removals removeValue))

/-- The update of a group of rows. -/
def updateGroup (condition : List Entry) (opt : (Text × List Text) × List Text)
    (row : TextRow) : TextRow :=
  if selects columns condition row && opt.2.contains (row "id".toList) then
    Function.update row opt.1.1 (joinKeywords opt.1.2)
  else row

/-- `update`. Values to remove stand for columns of keywords, other values are the texts of their
columns. The ids of the rows are different. -/
def update (rows : List TextRow) (condition : List Entry)
    (removeValue newValue : List (Text × Text)) : List TextRow :=
  let remove := removeOpt columns rows condition removeValue
  let rows := remove.entries.foldl (fun rows opt =>
    rows.map (updateGroup columns condition opt)) rows
  rows.map fun row =>
    if selects columns condition row then
      newValue.foldl (fun row e => Function.update row e.1 e.2) row
    else row

def delete (rows : List TextRow) (condition : List Entry) : List TextRow :=
  rows.filter fun row => !selects columns condition row

variable {columns} {rows : List TextRow} {condition : List Entry} {k d : Text}

theorem mem_removals {row : TextRow} {opt : (Text × List Text) × Text} :
    opt ∈ removals [(k, d)] row ↔
      d ∈ keywords (row k) ∧ opt = ((k, (keywords (row k)).erase d), row "id".toList) := by
  by_cases hd : d ∈ keywords (row k) <;> simp [removals, hd, eq_comm]

/-- The groups that a row is in. -/
theorem contains_group_iff (hids : (rows.map fun row => row "id".toList).Nodup) {row : TextRow}
    (hrow : row ∈ rows) {opt : (Text × List Text) × List Text}
    (hopt : opt ∈ (removeOpt columns rows condition [(k, d)]).entries) :
    opt.2.contains (row "id".toList) = true ↔
      selects columns condition row = true ∧ d ∈ keywords (row k) ∧
        opt.1 = (k, (keywords (row k)).erase d) := by
  rw [List.contains_iff_mem, mem_group_iff (k := opt.1) hopt, List.mem_flatMap]
  constructor
  · rintro ⟨row', hrow', hmem⟩
    obtain ⟨hin, hsel⟩ := List.mem_filter.mp hrow'
    obtain ⟨hd, heq⟩ := mem_removals.mp hmem
    obtain ⟨hkey, hid⟩ := Prod.mk.inj heq
    have hsame : row = row' := List.inj_on_of_nodup_map hids hrow hin hid
    subst hsame
    exact ⟨hsel, hd, hkey⟩
  · rintro ⟨hsel, hd, hkey⟩
    exact ⟨row, List.mem_filter.mpr ⟨hrow, hsel⟩, mem_removals.mpr ⟨hd, by rw [hkey]⟩⟩

/-- An update that removes a keyword removes its first occurrence in each row that has it. -/
theorem update_remove (hids : (rows.map fun row => row "id".toList).Nodup)
    (hk : k ≠ "id".toList) :
    update columns rows condition [(k, d)] [] = rows.map fun row =>
      if selects columns condition row && decide (d ∈ keywords (row k)) then
        Function.update row k (joinKeywords ((keywords (row k)).erase d))
      else row := by
  have hnothing : ∀ l : List TextRow, (l.map fun row => if selects columns condition row then
      ([] : List (Text × Text)).foldl (fun row e => Function.update row e.1 e.2) row else row) =
        l := by
    intro l
    simp
  rw [update, hnothing, foldl_map_eq_map]
  refine List.map_congr_left fun row hrow => ?_
  -- The row keeps its id, by which the groups know it.
  have hother : ∀ opt ∈ (removeOpt columns rows condition [(k, d)]).entries,
      opt.2.contains (row "id".toList) = false → ∀ s : TextRow, s "id".toList = row "id".toList →
        updateGroup columns condition opt s = s := by
    intro opt _ hnot s hs
    rw [updateGroup, hs, hnot, Bool.and_false]
    rfl
  by_cases h : selects columns condition row = true ∧ d ∈ keywords (row k)
  · obtain ⟨ids, hentry, hin⟩ := exists_group (k := (k, (keywords (row k)).erase d))
      (x := row "id".toList) (List.mem_flatMap.mpr ⟨row, List.mem_filter.mpr ⟨hrow, h.1⟩,
        mem_removals.mpr ⟨h.2, rfl⟩⟩)
    have hkeeps : ∀ s : TextRow, s "id".toList = row "id".toList →
        updateGroup columns condition ((k, (keywords (row k)).erase d), ids) s "id".toList =
          row "id".toList := by
      intro s hs
      rw [updateGroup]
      split_ifs
      · rw [Function.update_of_ne hk.symm, hs]
      · exact hs
    have hrest : ∀ opt ∈ (removeOpt columns rows condition [(k, d)]).entries,
        opt ≠ ((k, (keywords (row k)).erase d), ids) →
          opt.2.contains (row "id".toList) = false := by
      intro opt hopt hne
      rw [Bool.eq_false_iff]
      intro hcontains
      have hkey := ((contains_group_iff hids hrow hopt).mp hcontains).2.2
      exact hne (Prod.ext hkey (Dict.value_unique _ (hkey ▸ hopt) hentry))
    have hstep := foldl_eq_step (fun row opt => updateGroup columns condition opt row)
      (List.Nodup.of_map _ (removeOpt columns rows condition [(k, d)]).nodup) hentry hkeeps
      (fun opt hopt hne s hs => hother opt hopt (hrest opt hopt hne) s hs) rfl
    rw [hstep, updateGroup, h.1, List.contains_iff_mem.mpr hin]
    simp [h.2]
  · have hno : ¬ (selects columns condition row && decide (d ∈ keywords (row k))) = true := by
      simpa using h
    rw [if_neg hno]
    refine foldl_eq_self (P := fun s : TextRow => s "id".toList = row "id".toList)
      (fun row opt => updateGroup columns condition opt row)
      (fun opt hopt s hs => hother opt hopt ?_ s hs) rfl
    rw [Bool.eq_false_iff]
    intro hcontains
    obtain ⟨hsel, hd, -⟩ := (contains_group_iff hids hrow hopt).mp hcontains
    exact h ⟨hsel, hd⟩

/-- An update that writes a text to a column. -/
theorem update_set {t : Text} :
    update columns rows condition [] [(k, t)] = rows.map fun row =>
      if selects columns condition row then Function.update row k t else row := by
  have hnone : (removeOpt columns rows condition []).entries = [] := by
    have hpairs : (rows.filter (selects columns condition)).flatMap (removals []) = [] :=
      List.flatMap_eq_nil_iff.mpr fun _ _ => rfl
    rw [removeOpt, hpairs]
    rfl
  rw [update, hnone]
  rfl

end Table

end RagFlow.Infinity
