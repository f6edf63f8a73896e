/-
# Pages of a search over several tables

Each dataset has its own table. A search asks every table for the page, puts what they return
together in the order of the scores and cuts it at the limit.
-/

import RagFlow.Math.Ranking
import Mathlib.Algebra.Order.Ring.Nat

namespace RagFlow.Infinity

open RagFlow.Math

/-- A row of a result: the match expressions score it, and its column adds to the score. -/
structure Row (K : Type*) where
  id : String
  SCORE : K
  pagerank_fea : K
deriving DecidableEq

section Search

variable {K : Type*} [LinearOrder K]

/-- A table under the match expressions of a search, as the ranking of the rows that match. -/
structure Table (K : Type*) [LinearOrder K] where
  ranking : List (Row K)
  ranked : Ranked Row.SCORE ranking

/-- `offset`, `limit` and `to_df`, with the count of all hits. -/
def Table.toDf (table : Table K) (offset limit : ℕ) : List (Row K) × ℕ :=
  ((table.ranking.drop offset).take limit, table.ranking.length)

/-- The tables that are searched for one index. -/
def tableNamesToSearch (knowledgebaseIds : List String) (indexName : String) : List String :=
  if "ragflow_doc_meta_".toList <+: indexName.toList then [indexName]
  else knowledgebaseIds.map fun kbId => indexName ++ "_" ++ kbId

/-- The tables of a search that are there. -/
def tableList (getTable : String → Option (Table K)) (indexNames knowledgebaseIds : List String) :
    List (Table K) :=
  (indexNames.flatMap (tableNamesToSearch knowledgebaseIds)).filterMap getTable

/-- `concat_dataframes`, of the rows. -/
def concatDataframes (dfList : List (List (Row K))) : List (Row K) :=
  (dfList.filter fun df => !df.isEmpty).flatten

/-- `_score`. -/
def Row.score [Add K] (row : Row K) : K := row.SCORE + row.pagerank_fea

/-- `InfinityConnection.search` with match expressions that score. -/
def search [Add K] (getTable : String → Option (Table K))
    (indexNames knowledgebaseIds : List String) (offset limit : ℕ) : List (Row K) × ℕ :=
  let limit := if limit = 0 then 10000 else limit
  let results := (tableList getTable indexNames knowledgebaseIds).map (·.toDf offset limit)
  let res := concatDataframes (results.map Prod.fst)
  ((res.mergeSort fun a b => b.score ≤ a.score).take limit, (results.map Prod.snd).sum)

/-- The rows of all tables, the best first. -/
def mergedRanking (tables : List (Table K)) : List (Row K) :=
  (tables.flatMap Table.ranking).mergeSort fun a b => b.SCORE ≤ a.SCORE

/-! ## The page of the merged ranking -/

variable {tables : List (Table K)} {offset limit : ℕ} {rows : List (Row K)}

omit [LinearOrder K] in
theorem concatDataframes_eq (dfList : List (List (Row K))) :
    concatDataframes dfList = dfList.flatten := by
  induction dfList with
  | nil => rfl
  | cons df dfList ih =>
      rw [concatDataframes] at ih
      cases df with
      | nil => exact ih
      | cons row df => exact congrArg (row :: df ++ ·) ih

/-- Without pageranks the sum is the score. -/
theorem mergeSort_score [AddZeroClass K] (hzero : ∀ row ∈ rows, row.pagerank_fea = 0) :
    (rows.mergeSort fun a b => b.score ≤ a.score) =
      rows.mergeSort fun a b => b.SCORE ≤ a.SCORE := by
  have hscore : ∀ row ∈ rows, row.score = row.SCORE := fun row hrow => by
    rw [Row.score, hzero row hrow, add_zero]
  have hmap := List.map_mergeSort (f := id) (l := rows)
    (r := fun a b => b.score ≤ a.score) (s := fun a b => b.SCORE ≤ a.SCORE)
    fun a ha b hb => by rw [hscore a ha, hscore b hb]; rfl
  rwa [List.map_id, List.map_id] at hmap

/-- The rows that the tables return. -/
theorem flatten_toDf (tables : List (Table K)) (offset limit : ℕ) :
    ((tables.map (·.toDf offset limit)).map Prod.fst).flatten =
      pages offset limit (tables.map Table.ranking) := by
  rw [pages, List.flatMap_map, List.map_map]
  rfl

/-- A search returns the page of the merged ranking exactly if there is nothing before the page, or
nothing on it, or all up to its end is from one table. -/
theorem search_page_iff [AddZeroClass K] (getTable : String → Option (Table K))
    (indexNames knowledgebaseIds : List String) (offset limit : ℕ) (hlimit : 1 ≤ limit)
    (hzero : ∀ table ∈ tableList getTable indexNames knowledgebaseIds,
      ∀ row ∈ table.ranking, row.pagerank_fea = 0)
    (hdistinct : (((tableList getTable indexNames knowledgebaseIds).flatMap Table.ranking).map
      Row.SCORE).Nodup) :
    (search getTable indexNames knowledgebaseIds offset limit).1 =
      ((mergedRanking (tableList getTable indexNames knowledgebaseIds)).drop offset).take limit ↔
    offset = 0 ∨
      (mergedRanking (tableList getTable indexNames knowledgebaseIds)).length ≤ offset ∨
      ∃ table ∈ tableList getTable indexNames knowledgebaseIds,
        ∀ row ∈ (mergedRanking (tableList getTable indexNames knowledgebaseIds)).take
          (offset + limit), row ∈ table.ranking := by
  rw [search, if_neg (Nat.one_le_iff_ne_zero.mp hlimit), concatDataframes_eq, flatten_toDf]
  generalize tableList getTable indexNames knowledgebaseIds = tables at hzero hdistinct ⊢
  have hsub : (pages offset limit (tables.map Table.ranking)).Sublist
      (tables.flatMap Table.ranking) := pages_sublist offset limit _
  have hrows : ∀ row ∈ pages offset limit (tables.map Table.ranking), row.pagerank_fea = 0 := by
    intro row hrow
    obtain ⟨table, htable, hin⟩ := List.mem_flatMap.mp (hsub.subset hrow)
    exact hzero table htable row hin
  have hresult := ranked_mergeSort (f := Row.SCORE)
    (hdistinct.sublist (hsub.map Row.SCORE))
  have hranked : ∀ l ∈ tables.map Table.ranking, Ranked Row.SCORE l := by
    intro l hl
    obtain ⟨table, -, rfl⟩ := List.mem_map.mp hl
    exact table.ranked
  have hpage := take_eq_page_iff hranked (ranked_mergeSort hdistinct) (List.mergeSort_perm _ _)
    hresult (List.mergeSort_perm _ _) (Nat.lt_of_lt_of_le Nat.zero_lt_one hlimit)
  rw [mergeSort_score hrows]
  simpa only [mergedRanking, List.mem_map, exists_exists_and_eq_and] using hpage

end Search

/-! ## Two tables -/

/-- A row that only its score matters of. -/
def scored (score : ℕ) : Row ℕ where
  id := toString score
  SCORE := score
  pagerank_fea := 0

def evenTable : Table ℕ where
  ranking := [scored 10, scored 8]
  ranked := by
    unfold Ranked
    decide

def oddTable : Table ℕ where
  ranking := [scored 9, scored 7]
  ranked := by
    unfold Ranked
    decide

def twoTables (name : String) : Option (Table ℕ) :=
  if name = "ragflow_even" then some evenTable
  else if name = "ragflow_odd" then some oddTable
  else none

theorem search_page_first :
    (search twoTables ["ragflow"] ["even", "odd"] 0 1).1 =
      ((mergedRanking (tableList twoTables ["ragflow"] ["even", "odd"])).drop 0).take 1 :=
  (search_page_iff twoTables ["ragflow"] ["even", "odd"] 0 1 (by decide) (by decide)
    (by decide)).mpr (Or.inl rfl)

/-- The second page is the third of the ranking. -/
theorem search_page_second :
    (search twoTables ["ragflow"] ["even", "odd"] 1 1).1 ≠
      ((mergedRanking (tableList twoTables ["ragflow"] ["even", "odd"])).drop 1).take 1 := by
  have htables : tableList twoTables ["ragflow"] ["even", "odd"] = [evenTable, oddTable] := rfl
  have hmerged : mergedRanking [evenTable, oddTable] =
      [scored 10, scored 9, scored 8, scored 7] := by
    simp [mergedRanking, List.mergeSort, evenTable, oddTable, scored]
  have hpage : (search twoTables ["ragflow"] ["even", "odd"] 1 1).1 = [scored 8] := by
    rw [search, htables]
    simp [concatDataframes, Table.toDf, List.mergeSort, Row.score, evenTable, oddTable, scored]
  rw [htables, hmerged, hpage]
  decide

end RagFlow.Infinity
