/-
# Removing a document from the rows of the knowledge graph

Each row of the graph lists the documents it comes from. When a document is removed, its first
entry is taken out of each list, the graph is marked and rows without an entry are deleted. This
removes the document from the graph exactly if no row lists it twice.
-/

import RagFlow.Elastic.TwoPaths
import RagFlow.Infinity.Update

namespace RagFlow.GraphRag

open RagFlow.Math

/-- The rows that make up a graph. -/
def graphKwds : List String := ["entity", "relation", "graph", "subgraph", "community_report"]

section Lists

variable {α : Type*} [DecidableEq α] [BEq α] [LawfulBEq α] {a : α} {l : List α}

/-- The first entry is the only one. -/
theorem erase_eq_filter_of_count (h : l.count a ≤ 1) : l.erase a = l.filter (· ≠ a) := by
  induction l with
  | nil => rfl
  | cons b l ih =>
      by_cases hb : b = a
      · subst hb
        rw [List.count_cons_self] at h
        have hnot : b ∉ l := List.count_eq_zero.mp (by omega)
        rw [List.erase_cons_head, List.filter_cons_of_neg (by simp), List.filter_eq_self.mpr]
        exact fun c hc => by simpa using fun hcb : c = b => hnot (hcb ▸ hc)
      · rw [List.count_cons_of_ne hb] at h
        rw [List.erase_cons_tail (by simpa using hb), List.filter_cons_of_pos (by simpa using hb),
          ih h]

omit [DecidableEq α] in
theorem mem_erase_of_count (h : ¬ l.count a ≤ 1) : a ∈ l.erase a := by
  rw [← List.count_pos_iff, List.count_erase_self]
  omega

omit [BEq α] [LawfulBEq α] in
theorem isEmpty_filter_ne (a : α) (l : List α) :
    (l.filter (· ≠ a)).isEmpty = !l.any (· ≠ a) := by
  induction l with
  | nil => rfl
  | cons b l ih =>
      by_cases hb : b = a
      · simpa [hb] using ih
      · simp [hb]

end Lists

/-- Rows are changed and some dropped. This gives the rows that are to remain exactly if it is right
for each row, where a row that is not all right stays and is found out. -/
theorem filter_map_eq_iff {α β : Type*} (xs : List α) (f purge : α → β) (remains : α → Bool)
    (p : β → Bool) (ok : α → Prop) (lists : β → Prop)
    (hok : ∀ x ∈ xs, ok x → p (f x) = remains x ∧ (remains x = true → f x = purge x))
    (hnot : ∀ x ∈ xs, ¬ ok x → p (f x) = true ∧ lists (f x))
    (hpurge : ∀ x ∈ xs, ¬ lists (purge x)) :
    (xs.map f).filter p = (xs.filter remains).map purge ↔ ∀ x ∈ xs, ok x := by
  constructor
  · intro h x hx
    by_contra hbad
    obtain ⟨hstays, hlists⟩ := hnot x hx hbad
    have hmem : f x ∈ (xs.map f).filter p :=
      List.mem_filter.mpr ⟨List.mem_map_of_mem hx, hstays⟩
    rw [h] at hmem
    obtain ⟨y, hy, heq⟩ := List.mem_map.mp hmem
    exact hpurge y (List.mem_filter.mp hy).1 (heq ▸ hlists)
  · intro h
    have hfilter : xs.filter (p ∘ f) = xs.filter remains :=
      List.filter_congr fun x hx => (hok x hx (h x hx)).1
    rw [List.filter_map, hfilter]
    refine List.map_congr_left fun x hx => ?_
    obtain ⟨hin, hremains⟩ := List.mem_filter.mp hx
    exact (hok x hin (h x hin)).2 hremains

/-! ## With Elasticsearch -/

section Elastic

open RagFlow.Elastic

variable (elements : Elements String)

/-- The rows of the graph of a dataset. -/
def graphCondition (kb : String) (kwds : List String) : Condition where
  entries := [("kb_id", .one (.str kb)), ("knowledge_graph_kwd", .many (kwds.map Value.str))]
  nodup := by simp

def sourceCondition (kb : String) (kwds : List String) (d : String) : Condition where
  entries := [("kb_id", .one (.str kb)), ("knowledge_graph_kwd", .many (kwds.map Value.str)),
    ("source_id", .one (.str d))]
  nodup := by simp

def noSourceCondition (kb : String) (kwds : List String) : Condition where
  entries := [("kb_id", .one (.str kb)), ("knowledge_graph_kwd", .many (kwds.map Value.str)),
    ("must_not", .dict [("exists", "source_id")])]
  nodup := by simp

/-- The documents a row comes from. -/
def sourcesOf (s : Source String) : List String :=
  match s "source_id" with
  | some (.data (.list l)) => l
  | _ => []

/-- The part of `remove_document` that is about the knowledge graph. -/
def removeFromGraphElastic (docs : List (Doc String)) (kb d : String) : List (Doc String) :=
  match searchQuery (graphCondition kb ["graph"]) [kb] with
  | none => docs
  | some q =>
    match docs.find? (q.matches (docIndex elements)) with
    | none => docs
    | some graph =>
      if d ∈ sourcesOf graph.source then
        let docs := update elements docs (sourceCondition kb graphKwds d)
          [.removeValues [("source_id", d)]] kb
        let docs := update elements docs (graphCondition kb ["graph"])
          [.set "removed_kwd" (.str "Y")] kb
        delete elements docs (noSourceCondition kb graphKwds) kb
      else docs

/-- The row is one of the graph of the dataset. -/
def inGraph (kb : String) (kwds : List String) (r : Doc String) : Bool :=
  (docIndex elements).term r "kb_id" (.str kb) &&
    (kwds.map Value.str).any ((docIndex elements).term r "knowledge_graph_kwd")

variable {elements} {kb d : String} {kwds : List String} {docs : List (Doc String)}

theorem searchQuery_graph (hkwds : kwds ≠ []) :
    ∃ q, searchQuery (graphCondition kb kwds) [kb] = some q ∧
      ∀ r, q.matches (docIndex elements) r = inGraph elements kb kwds r := by
  have hentries : ((graphCondition kb kwds).set "kb_id" (.many ([kb].map Value.str))).entries =
      [("kb_id", .many [.str kb]), ("knowledge_graph_kwd", .many (kwds.map Value.str))] := rfl
  have hkwd : searchClause "knowledge_graph_kwd" (.many (kwds.map Value.str)) =
      some [.terms "knowledge_graph_kwd" (kwds.map Value.str)] := by
    obtain ⟨kwd, rest, rfl⟩ := List.exists_cons_of_ne_nil hkwds
    rfl
  refine ⟨_, by
    rw [searchQuery, hentries, List.mapM_cons, List.mapM_cons, hkwd]
    rfl, fun r => ?_⟩
  simp [BoolQuery.matches, Clause.matches, inGraph]

theorem updateClause_kwd (hkwds : kwds ≠ []) :
    updateClause "knowledge_graph_kwd" (.many (kwds.map Value.str)) =
      some [.terms "knowledge_graph_kwd" (kwds.map Value.str)] := by
  obtain ⟨kwd, rest, rfl⟩ := List.exists_cons_of_ne_nil hkwds
  rfl

theorem updateClause_str {k v : String} (hk : k ≠ "exists") (hv : v ≠ "") :
    updateClause k (.one (.str v)) = some [.term k (.str v)] := by
  have hfalsy : (FieldValue.one (.str v)).falsy = false := by
    simpa [FieldValue.falsy] using hv
  rw [updateClause, hfalsy, if_neg Bool.false_ne_true, if_neg hk]

/-- An update of the rows of the graph. -/
theorem update_graph (hkb : kb ≠ "") (hkwds : kwds ≠ []) (new : List (Change String)) :
    update elements docs (graphCondition kb kwds) new kb = docs.map fun r =>
      if inGraph elements kb kwds r then { r with source := updateByQuery elements r.source new }
      else r := by
  have hentries : ((graphCondition kb kwds).set "kb_id" (.one (.str kb))).entries =
      [("kb_id", .one (.str kb)), ("knowledge_graph_kwd", .many (kwds.map Value.str))] := rfl
  have hget : (graphCondition kb kwds).get? "id" = none := rfl
  obtain ⟨q, hq, hmatch⟩ : ∃ q, updateQuery (graphCondition kb kwds) kb = some q ∧
      ∀ r, q.matches (docIndex elements) r = inGraph elements kb kwds r := by
    refine ⟨_, by
      rw [updateQuery, hentries, List.mapM_cons, List.mapM_cons,
        updateClause_str (k := "kb_id") (by decide) hkb, updateClause_kwd hkwds]
      rfl, fun r => ?_⟩
    simp [BoolQuery.matches, Clause.matches, inGraph]
  rw [update, hget, hq]
  exact List.map_congr_left fun r _ => by rw [hmatch]

/-- An update of the rows of the graph that list a document. -/
theorem update_source (hkb : kb ≠ "") (hd : d ≠ "") (hkwds : kwds ≠ [])
    (new : List (Change String)) :
    update elements docs (sourceCondition kb kwds d) new kb = docs.map fun r =>
      if inGraph elements kb kwds r && (docIndex elements).term r "source_id" (.str d) then
        { r with source := updateByQuery elements r.source new }
      else r := by
  have hentries : ((sourceCondition kb kwds d).set "kb_id" (.one (.str kb))).entries =
      [("kb_id", .one (.str kb)), ("knowledge_graph_kwd", .many (kwds.map Value.str)),
        ("source_id", .one (.str d))] := rfl
  have hget : (sourceCondition kb kwds d).get? "id" = none := rfl
  obtain ⟨q, hq, hmatch⟩ : ∃ q, updateQuery (sourceCondition kb kwds d) kb = some q ∧
      ∀ r, q.matches (docIndex elements) r = (inGraph elements kb kwds r &&
        (docIndex elements).term r "source_id" (.str d)) := by
    refine ⟨_, by
      rw [updateQuery, hentries, List.mapM_cons, List.mapM_cons, List.mapM_cons,
        updateClause_str (k := "kb_id") (by decide) hkb, updateClause_kwd hkwds,
        updateClause_str (k := "source_id") (by decide) hd]
      rfl, fun r => ?_⟩
    simp [BoolQuery.matches, Clause.matches, inGraph, Bool.and_assoc]
  rw [update, hget, hq]
  exact List.map_congr_left fun r _ => by rw [hmatch]

/-- The deletion of the rows of the graph that list nothing. -/
theorem delete_noSource :
    delete elements docs (noSourceCondition kb kwds) kb = docs.filter fun r =>
      !(inGraph elements kb kwds r && !(docIndex elements).hasField r "source_id") := by
  have hentries : ((noSourceCondition kb kwds).set "kb_id" (.one (.str kb))).entries =
      [("kb_id", .one (.str kb)), ("knowledge_graph_kwd", .many (kwds.map Value.str)),
        ("must_not", .dict [("exists", "source_id")])] := rfl
  obtain ⟨q, hq, hmatch⟩ : ∃ q, deleteQuery (noSourceCondition kb kwds) kb = some q ∧
      ∀ r, q.matches (docIndex elements) r =
        (inGraph elements kb kwds r && !(docIndex elements).hasField r "source_id") := by
    refine ⟨_, by
      rw [deleteQuery, hentries]
      rfl, fun r => ?_⟩
    simp [BoolQuery.matches, Clause.matches, inGraph]
  rw [delete, hq]
  exact List.filter_congr fun r _ => by rw [hmatch]

theorem updateByQuery_remove {s : Source String} {l : List String}
    (hs : s "source_id" = some (.data (.list l))) (hd : d ∈ l) :
    updateByQuery elements s [.removeValues [("source_id", d)]] =
      s.put "source_id" (.list (l.erase d)) := by
  simp [updateByQuery, statements, compiles, Stmt.declares, Stmt.run, hs, hd]

theorem updateByQuery_mark (s : Source String) :
    updateByQuery elements s [.set "removed_kwd" (.str "Y")] =
      s.put "removed_kwd" (.str "Y") := by
  have hclean : String.ofList (clean ['Y']) = "Y" := by decide
  simp [updateByQuery, statements, compiles, Stmt.declares, Stmt.run, NewData.falsy, hclean]

variable (elements) in
/-- The row with other sources. The graph itself is marked as removed. -/
def withSources (kb : String) (r : Doc String) (l : List String) : Doc String :=
  { r with
    source :=
      if inGraph elements kb ["graph"] r then
        (r.source.put "source_id" (.list l)).put "removed_kwd" (.str "Y")
      else r.source.put "source_id" (.list l) }

variable (elements) in
/-- A row of the graph without a document. -/
def purgeDoc (kb d : String) (r : Doc String) : Doc String :=
  if inGraph elements kb graphKwds r then
    withSources elements kb r ((sourcesOf r.source).filter (· ≠ d))
  else r

variable (elements) in
/-- Rows of the graph remain if they have another source. -/
def remainsDoc (kb d : String) (r : Doc String) : Bool :=
  !inGraph elements kb graphKwds r || (sourcesOf r.source).any (· ≠ d)

theorem inGraph_congr {r r' : Doc String} (h : ∀ k, k = "kb_id" ∨ k = "knowledge_graph_kwd" →
    r'.source k = r.source k) : inGraph elements kb kwds r' = inGraph elements kb kwds r := by
  have hterm : ∀ k v, k = "kb_id" ∨ k = "knowledge_graph_kwd" →
      (docIndex elements).term r' k v = (docIndex elements).term r k v := by
    intro k v hk
    have hid : k ≠ "_id" := by
      rcases hk with rfl | rfl <;> decide
    simp only [docIndex, if_neg hid, h k hk]
  unfold inGraph
  rw [hterm _ _ (Or.inl rfl)]
  congr 2
  funext v
  exact hterm _ _ (Or.inr rfl)

theorem sourcesOf_withSources (r : Doc String) (l : List String) :
    sourcesOf (withSources elements kb r l).source = l := by
  unfold withSources sourcesOf
  split_ifs <;> simp [Source.put]

theorem inGraph_withSources (r : Doc String) (l : List String) :
    inGraph elements kb kwds (withSources elements kb r l) = inGraph elements kb kwds r := by
  refine inGraph_congr fun k hk => ?_
  have hne : k ≠ "source_id" ∧ k ≠ "removed_kwd" := by
    rcases hk with rfl | rfl <;> decide
  unfold withSources
  split_ifs <;> simp [Source.put, Function.update_of_ne, hne]

theorem hasField_withSources (r : Doc String) (l : List String) :
    (docIndex elements).hasField (withSources elements kb r l) "source_id" = !l.isEmpty := by
  unfold withSources
  split_ifs <;> simp [docIndex, Source.put, FieldData.hasValue]

theorem inGraph_graph {r : Doc String} (h : inGraph elements kb ["graph"] r = true) :
    inGraph elements kb graphKwds r = true := by
  rw [inGraph, Bool.and_eq_true, List.any_eq_true] at h ⊢
  obtain ⟨hkb, kwd, hkwd, hterm⟩ := h
  have hin : kwd ∈ graphKwds.map Value.str := by
    rw [List.mem_singleton.mp hkwd]
    decide
  exact ⟨hkb, kwd, hin, hterm⟩

/-- What the two updates make of a row. -/
theorem updates_row (hterm : ∀ v, elements.term v = .str v) {r : Doc String}
    (hsources : inGraph elements kb graphKwds r = true →
      ∃ l, r.source "source_id" = some (.data (.list l))) :
    (let r' := if inGraph elements kb graphKwds r &&
          (docIndex elements).term r "source_id" (.str d) then
        { r with source := updateByQuery elements r.source [.removeValues [("source_id", d)]] }
      else r
    if inGraph elements kb ["graph"] r' then
      { r' with source := updateByQuery elements r'.source [.set "removed_kwd" (.str "Y")] }
    else r') =
      if inGraph elements kb graphKwds r then
        withSources elements kb r ((sourcesOf r.source).erase d)
      else r := by
  by_cases hr : inGraph elements kb graphKwds r = true
  · obtain ⟨l, hl⟩ := hsources hr
    have hlist : sourcesOf r.source = l := by rw [sourcesOf, hl]
    have hlisted : (docIndex elements).term r "source_id" (.str d) = decide (d ∈ l) := by
      simp [docIndex, hl, FieldData.hasTerm, hterm, List.any_eq, eq_comm]
    -- The first update puts what is left, also where nothing is removed.
    have hfirst : (if inGraph elements kb graphKwds r &&
          (docIndex elements).term r "source_id" (.str d) then
        { r with source := updateByQuery elements r.source [.removeValues [("source_id", d)]] }
      else r) = { r with source := r.source.put "source_id" (.list (l.erase d)) } := by
      rw [hr, Bool.true_and, hlisted]
      by_cases hd : d ∈ l
      · rw [if_pos (decide_eq_true hd), updateByQuery_remove hl hd]
      · rw [if_neg (by simpa using hd), List.erase_of_not_mem hd, Source.put, ← hl,
          Function.update_eq_self]
    have hsame : inGraph elements kb ["graph"]
        { r with source := r.source.put "source_id" (.list (l.erase d)) } =
          inGraph elements kb ["graph"] r := by
      refine inGraph_congr fun k hk => Function.update_of_ne ?_ _ _
      rcases hk with rfl | rfl <;> decide
    rw [hfirst, if_pos hr, hlist]
    dsimp only
    rw [hsame, updateByQuery_mark, withSources]
    split_ifs <;> rfl
  · have hnot : ¬ inGraph elements kb ["graph"] r = true := fun h => hr (inGraph_graph h)
    have hfalse : (inGraph elements kb graphKwds r &&
        (docIndex elements).term r "source_id" (.str d)) = false := by
      rw [Bool.eq_false_iff.mpr hr, Bool.false_and]
    rw [hfalse, if_neg hr]
    dsimp only
    rw [if_neg Bool.false_ne_true, if_neg hnot]

/-- With Elasticsearch a document is removed from the graph exactly if no row lists it twice. -/
theorem removeFromGraphElastic_iff (hterm : ∀ v, elements.term v = .str v) (hkb : kb ≠ "")
    (hd : d ≠ "")
    (hsources : ∀ r ∈ docs, inGraph elements kb graphKwds r = true →
      ∃ l, r.source "source_id" = some (.data (.list l)))
    {graph : Doc String} (hgraph : docs.find? (inGraph elements kb ["graph"]) = some graph)
    (hlisted : d ∈ sourcesOf graph.source) :
    removeFromGraphElastic elements docs kb d =
        (docs.filter (remainsDoc elements kb d)).map (purgeDoc elements kb d) ↔
      ∀ r ∈ docs, inGraph elements kb graphKwds r = true → (sourcesOf r.source).count d ≤ 1 := by
  obtain ⟨q, hq, hmatch⟩ := @searchQuery_graph elements kb ["graph"] (List.cons_ne_nil _ _)
  have hfind : docs.find? (q.matches (docIndex elements)) = some graph := by
    rw [funext hmatch, hgraph]
  have hrows : docs.map (fun r => if inGraph elements kb graphKwds r then
        withSources elements kb r ((sourcesOf r.source).erase d)
      else r) = docs.map fun r =>
        (let r' := if inGraph elements kb graphKwds r &&
              (docIndex elements).term r "source_id" (.str d) then
            { r with source := updateByQuery elements r.source [.removeValues [("source_id", d)]] }
          else r
        if inGraph elements kb ["graph"] r' then
          { r' with source := updateByQuery elements r'.source [.set "removed_kwd" (.str "Y")] }
        else r') := List.map_congr_left fun r hr => (updates_row hterm (hsources r hr)).symm
  rw [removeFromGraphElastic, hq]
  dsimp only
  rw [hfind]
  dsimp only
  rw [if_pos hlisted, update_source hkb hd (by decide), update_graph hkb (by decide),
    delete_noSource, List.map_map]
  have hiff := filter_map_eq_iff docs
    (fun r => if inGraph elements kb graphKwds r then
        withSources elements kb r ((sourcesOf r.source).erase d)
      else r)
    (purgeDoc elements kb d) (remainsDoc elements kb d)
    (fun r => !(inGraph elements kb graphKwds r && !(docIndex elements).hasField r "source_id"))
    (fun r => inGraph elements kb graphKwds r = true → (sourcesOf r.source).count d ≤ 1)
    (fun r => inGraph elements kb graphKwds r = true ∧ d ∈ sourcesOf r.source)
    (fun r _ hok => ?_) (fun r _ hnot => ?_) (fun r _ => ?_)
  · rw [hrows] at hiff
    exact hiff
  · by_cases hr : inGraph elements kb graphKwds r = true
    · have hsame : (if inGraph elements kb graphKwds r then
          withSources elements kb r ((sourcesOf r.source).erase d)
        else r) = purgeDoc elements kb d r := by
        rw [purgeDoc, erase_eq_filter_of_count (hok hr)]
      refine ⟨?_, fun _ => hsame⟩
      rw [if_pos hr, erase_eq_filter_of_count (hok hr), inGraph_withSources, hr,
        hasField_withSources, remainsDoc, hr, isEmpty_filter_ne]
      simp
    · rw [if_neg hr, remainsDoc, purgeDoc, if_neg hr, Bool.eq_false_iff.mpr hr]
      simp
  · obtain ⟨hr, hcount⟩ := Classical.not_imp.mp hnot
    have hmem := mem_erase_of_count hcount
    have hne : ((sourcesOf r.source).erase d).isEmpty = false := by
      rw [List.isEmpty_eq_false_iff]
      exact List.ne_nil_of_mem hmem
    rw [if_pos hr, inGraph_withSources, sourcesOf_withSources, hr, hasField_withSources, hne]
    exact ⟨rfl, rfl, hmem⟩
  · rintro ⟨hin, hmem⟩
    rw [purgeDoc] at hin hmem
    by_cases hr : inGraph elements kb graphKwds r = true
    · rw [if_pos hr, sourcesOf_withSources] at hmem
      simp at hmem
    · rw [if_neg hr] at hin
      exact hr hin

end Elastic

/-! ## With Infinity -/

section Infinity

open RagFlow.Infinity

variable (columns : List Column)

def graphEntries (kb : Text) (kwds : List String) : List Entry :=
  [.field "kb_id".toList (.one (.str kb)),
    .field "knowledge_graph_kwd".toList (.many (kwds.map fun kwd => .str kwd.toList))]

/-- The part of `remove_document` that is about the knowledge graph. -/
def removeFromGraphInfinity (rows : List TextRow) (kb d : Text) : List TextRow :=
  match rows.find? (selects columns (graphEntries kb ["graph"])) with
  | none => rows
  | some graph =>
    if d ∈ keywords (graph "source_id".toList) then
      let rows := update columns rows
        (graphEntries kb graphKwds ++ [.field "source_id".toList (.one (.str d))])
        [("source_id".toList, d)] []
      let rows := update columns rows (graphEntries kb ["graph"]) []
        [("removed_kwd".toList, "Y".toList)]
      delete columns rows
        (graphEntries kb graphKwds ++ [.mustNot [("exists".toList, "source_id".toList)]])
    else rows

/-- The row is one of the graph of the dataset. -/
def inGraphRow (kb : Text) (kwds : List String) (row : TextRow) : Bool :=
  row "kb_id".toList = kb &&
    kwds.any fun kwd => row "knowledge_graph_kwd".toList = kwd.toList

variable {columns} {kb d : Text} {kwds : List String} {rows : List TextRow}

theorem holds_one {k v : Text} (hk : k ≠ "available_int".toList)
    (hplain : chunkRules.fieldKeyword k = false) (hv : v ≠ []) (row : TextRow) :
    (Entry.field k (.one (.str v))).holds chunkRules columns keywordEngine row =
      decide (row k = v) := by
  have hfalsy : (Infinity.FieldValue.one (.str v)).falsy = false := by
    simpa [Infinity.FieldValue.falsy] using hv
  rw [Entry.holds, if_neg hk, hfalsy, if_neg Bool.false_ne_true, hplain,
    if_neg Bool.false_ne_true]
  simp [Infinity.FieldValue.items, keywordEngine, eq_comm]

theorem holds_many {k : Text} (hk : k ≠ "available_int".toList)
    (hplain : chunkRules.fieldKeyword k = false) (hkwds : kwds ≠ []) (row : TextRow) :
    (Entry.field k (.many (kwds.map fun kwd => .str kwd.toList))).holds chunkRules columns
        keywordEngine row = kwds.any fun kwd => row k = kwd.toList := by
  have hfalsy : (Infinity.FieldValue.many (kwds.map fun kwd => .str kwd.toList)).falsy =
      false := by
    simpa [Infinity.FieldValue.falsy] using hkwds
  rw [Entry.holds, if_neg hk, hfalsy, if_neg Bool.false_ne_true, hplain,
    if_neg Bool.false_ne_true]
  simp [Infinity.FieldValue.items, keywordEngine, eq_comm, Function.comp_def]

theorem holds_mustNot {k : Text} {c : Column} (hc : column columns k = some c)
    (hdefault : c.default = []) (row : TextRow) :
    (Entry.mustNot [("exists".toList, k)]).holds chunkRules columns keywordEngine row =
      decide (row k = []) := by
  have hfilter : ([("exists".toList, k)].filter fun item => item.1 = "exists".toList) =
      [("exists".toList, k)] := List.filter_cons_of_pos (decide_eq_true rfl)
  rw [Entry.holds, hfilter]
  simp [hc, hdefault, keywordEngine, eq_comm]

theorem selects_graphEntries (hkb : kb ≠ []) (hkwds : kwds ≠ []) (row : TextRow) :
    selects columns (graphEntries kb kwds) row = inGraphRow kb kwds row := by
  have hkey : "kb_id".toList ≠ "available_int".toList ∧
      chunkRules.fieldKeyword "kb_id".toList = false := by decide +kernel
  have hkwd : "knowledge_graph_kwd".toList ≠ "available_int".toList ∧
      chunkRules.fieldKeyword "knowledge_graph_kwd".toList = false := by decide +kernel
  rw [selects, graphEntries, List.all_cons, List.all_cons, List.all_nil, Bool.and_true,
    holds_one hkey.1 hkey.2 hkb, holds_many hkwd.1 hkwd.2 hkwds, inGraphRow]

/-- The rows that the first update selects list the document. -/
theorem selects_source (hkb : kb ≠ []) (hkwds : kwds ≠ []) (hd : IsKeyword d) {row : TextRow}
    (hrow : inGraphRow kb kwds row = true →
      ∃ l, (∀ s ∈ l, IsKeyword s) ∧ row "source_id".toList = joinKeywords l) :
    selects columns (graphEntries kb kwds ++ [.field "source_id".toList (.one (.str d))]) row =
      (inGraphRow kb kwds row && decide (d ∈ keywords (row "source_id".toList))) := by
  have hkey : "source_id".toList ≠ "available_int".toList ∧
      chunkRules.fieldKeyword "source_id".toList = true ∧
      (chunkRules.convertMatchingField "source_id".toList).takeWhile (· ≠ '@') =
        "source_id".toList := by decide +kernel
  have hfalsy : (Infinity.FieldValue.one (.str d)).falsy = false := by
    simpa [Infinity.FieldValue.falsy] using hd.1
  have hholds : (Entry.field "source_id".toList (.one (.str d))).holds chunkRules columns
      keywordEngine row = decide (d ∈ (row "source_id".toList).splitOn '#') := by
    rw [Entry.holds, if_neg hkey.1, hfalsy, if_neg Bool.false_ne_true, if_pos hkey.2.1]
    simp only [Infinity.FieldValue.items, keywordEngine, List.any_cons, List.any_nil,
      Bool.or_false, Item.text, hkey.2.2]
  have hgraph := @selects_graphEntries columns kb kwds hkb hkwds row
  rw [selects] at hgraph ⊢
  rw [List.all_append, hgraph, List.all_cons, List.all_nil, Bool.and_true, hholds]
  by_cases hr : inGraphRow kb kwds row = true
  · obtain ⟨l, hl, hjoin⟩ := hrow hr
    rw [hjoin, keywords_joinKeywords hl]
    simp only [mem_splitOn_joinKeywords_iff hl hd.1]
  · rw [Bool.eq_false_iff.mpr hr, Bool.false_and, Bool.false_and]

/-- The rows that the deletion selects list nothing. -/
theorem selects_noSource (hkb : kb ≠ []) (hkwds : kwds ≠ [])
    (hcolumn : ∃ c, column columns "source_id".toList = some c ∧ c.default = []) (row : TextRow) :
    selects columns
        (graphEntries kb kwds ++ [.mustNot [("exists".toList, "source_id".toList)]]) row =
      (inGraphRow kb kwds row && decide (row "source_id".toList = [])) := by
  obtain ⟨c, hc, hdefault⟩ := hcolumn
  have hgraph := @selects_graphEntries columns kb kwds hkb hkwds row
  rw [selects] at hgraph ⊢
  rw [List.all_append, hgraph, List.all_cons, List.all_nil, Bool.and_true,
    holds_mustNot hc hdefault]

/-- The row with other sources. The graph itself is marked as removed. -/
def withSourcesRow (kb : Text) (row : TextRow) (l : List Text) : TextRow :=
  if inGraphRow kb ["graph"] row then
    Function.update (Function.update row "source_id".toList (joinKeywords l))
      "removed_kwd".toList "Y".toList
  else Function.update row "source_id".toList (joinKeywords l)

/-- A row of the graph without a document. -/
def purgeRow (kb d : Text) (row : TextRow) : TextRow :=
  if inGraphRow kb graphKwds row then
    withSourcesRow kb row ((keywords (row "source_id".toList)).filter (· ≠ d))
  else row

/-- Rows of the graph remain if they have another source. -/
def remainsRow (kb d : Text) (row : TextRow) : Bool :=
  !inGraphRow kb graphKwds row || (keywords (row "source_id".toList)).any (· ≠ d)

theorem inGraphRow_congr {row row' : TextRow}
    (h : ∀ k, k = "kb_id".toList ∨ k = "knowledge_graph_kwd".toList → row' k = row k) :
    inGraphRow kb kwds row' = inGraphRow kb kwds row := by
  rw [inGraphRow, h _ (Or.inl rfl), h _ (Or.inr rfl), inGraphRow]

theorem ne_of_graphColumn {k : Text}
    (hk : k = "kb_id".toList ∨ k = "knowledge_graph_kwd".toList) :
    k ≠ "source_id".toList ∧ k ≠ "removed_kwd".toList := by
  rcases hk with rfl | rfl <;> decide +kernel

theorem source_withSourcesRow (row : TextRow) (l : List Text) :
    withSourcesRow kb row l "source_id".toList = joinKeywords l := by
  have hne : "source_id".toList ≠ "removed_kwd".toList := by decide +kernel
  unfold withSourcesRow
  split_ifs
  · rw [Function.update_of_ne hne, Function.update_self]
  · rw [Function.update_self]

theorem inGraphRow_withSourcesRow (row : TextRow) (l : List Text) :
    inGraphRow kb kwds (withSourcesRow kb row l) = inGraphRow kb kwds row := by
  refine inGraphRow_congr fun k hk => ?_
  obtain ⟨hsource, hremoved⟩ := ne_of_graphColumn hk
  unfold withSourcesRow
  split_ifs
  · rw [Function.update_of_ne hremoved, Function.update_of_ne hsource]
  · rw [Function.update_of_ne hsource]

theorem inGraphRow_graph {row : TextRow} (h : inGraphRow kb ["graph"] row = true) :
    inGraphRow kb graphKwds row = true := by
  rw [inGraphRow, Bool.and_eq_true, List.any_eq_true] at h ⊢
  obtain ⟨hkb, kwd, hkwd, heq⟩ := h
  exact ⟨hkb, kwd, List.mem_singleton.mp hkwd ▸ by decide, heq⟩

/-- What the two updates make of a row. -/
theorem updates_graphRow {row : TextRow} (hrow : inGraphRow kb graphKwds row = true →
      ∃ l, (∀ s ∈ l, IsKeyword s) ∧ row "source_id".toList = joinKeywords l) :
    (let row' := if inGraphRow kb graphKwds row &&
          decide (d ∈ keywords (row "source_id".toList)) then
        Function.update row "source_id".toList
          (joinKeywords ((keywords (row "source_id".toList)).erase d))
      else row
    if inGraphRow kb ["graph"] row' then Function.update row' "removed_kwd".toList "Y".toList
    else row') =
      if inGraphRow kb graphKwds row then
        withSourcesRow kb row ((keywords (row "source_id".toList)).erase d)
      else row := by
  by_cases hr : inGraphRow kb graphKwds row = true
  · obtain ⟨l, hl, hjoin⟩ := hrow hr
    have hread := keywords_joinKeywords hl
    have hfirst : (if inGraphRow kb graphKwds row &&
          decide (d ∈ keywords (row "source_id".toList)) then
        Function.update row "source_id".toList
          (joinKeywords ((keywords (row "source_id".toList)).erase d))
      else row) = Function.update row "source_id".toList (joinKeywords (l.erase d)) := by
      rw [hr, Bool.true_and, hjoin, hread]
      by_cases hd : d ∈ l
      · rw [if_pos (decide_eq_true hd)]
      · rw [if_neg (by simpa using hd), List.erase_of_not_mem hd, ← hjoin, Function.update_eq_self]
    have hsame : inGraphRow kb ["graph"]
        (Function.update row "source_id".toList (joinKeywords (l.erase d))) =
          inGraphRow kb ["graph"] row :=
      inGraphRow_congr fun k hk => Function.update_of_ne (ne_of_graphColumn hk).1 _ _
    rw [hfirst, if_pos hr, hjoin, hread]
    dsimp only
    rw [hsame, withSourcesRow]
  · have hnot : ¬ inGraphRow kb ["graph"] row = true := fun h => hr (inGraphRow_graph h)
    have hfalse : (inGraphRow kb graphKwds row &&
        decide (d ∈ keywords (row "source_id".toList))) = false := by
      rw [Bool.eq_false_iff.mpr hr, Bool.false_and]
    rw [hfalse, if_neg hr]
    dsimp only
    rw [if_neg Bool.false_ne_true, if_neg hnot]

/-- With Infinity, too, a document is removed from the graph exactly if no row lists it twice. -/
theorem removeFromGraphInfinity_iff (hkb : kb ≠ []) (hd : IsKeyword d)
    (hcolumn : ∃ c, column columns "source_id".toList = some c ∧ c.default = [])
    (hids : (rows.map fun row => row "id".toList).Nodup)
    (hrows : ∀ row ∈ rows, inGraphRow kb graphKwds row = true →
      ∃ l, (∀ s ∈ l, IsKeyword s) ∧ row "source_id".toList = joinKeywords l)
    {graph : TextRow} (hgraph : rows.find? (inGraphRow kb ["graph"]) = some graph)
    (hlisted : d ∈ keywords (graph "source_id".toList)) :
    removeFromGraphInfinity columns rows kb d =
        (rows.filter (remainsRow kb d)).map (purgeRow kb d) ↔
      ∀ row ∈ rows, inGraphRow kb graphKwds row = true →
        (keywords (row "source_id".toList)).count d ≤ 1 := by
  have hkwds : graphKwds ≠ [] := by decide
  have hgraphs : ["graph"] ≠ [] := List.cons_ne_nil _ _
  have hfind : rows.find? (selects columns (graphEntries kb ["graph"])) = some graph := by
    rw [funext (selects_graphEntries hkb hgraphs), hgraph]
  have hsource : "source_id".toList ≠ "id".toList := by decide +kernel
  have hmap : rows.map (fun row => if inGraphRow kb graphKwds row then
        withSourcesRow kb row ((keywords (row "source_id".toList)).erase d)
      else row) = rows.map fun row =>
        (let row' := if inGraphRow kb graphKwds row &&
              decide (d ∈ keywords (row "source_id".toList)) then
            Function.update row "source_id".toList
              (joinKeywords ((keywords (row "source_id".toList)).erase d))
          else row
        if inGraphRow kb ["graph"] row' then
          Function.update row' "removed_kwd".toList "Y".toList
        else row') :=
    List.map_congr_left fun row hrow => (updates_graphRow (hrows row hrow)).symm
  have hfirst : update columns rows
      (graphEntries kb graphKwds ++ [.field "source_id".toList (.one (.str d))])
      [("source_id".toList, d)] [] = rows.map fun row =>
        if inGraphRow kb graphKwds row && decide (d ∈ keywords (row "source_id".toList)) then
          Function.update row "source_id".toList
            (joinKeywords ((keywords (row "source_id".toList)).erase d))
        else row := by
    rw [update_remove hids hsource]
    refine List.map_congr_left fun row hrow => ?_
    rw [selects_source hkb hkwds hd (hrows row hrow), Bool.and_assoc, Bool.and_self]
  rw [removeFromGraphInfinity, hfind]
  dsimp only
  rw [if_pos hlisted, hfirst, update_set, delete,
    funext (selects_graphEntries hkb hgraphs),
    funext (selects_noSource hkb hkwds hcolumn), List.map_map]
  have hiff := filter_map_eq_iff rows
    (fun row => if inGraphRow kb graphKwds row then
        withSourcesRow kb row ((keywords (row "source_id".toList)).erase d)
      else row)
    (purgeRow kb d) (remainsRow kb d)
    (fun row => !(inGraphRow kb graphKwds row && decide (row "source_id".toList = [])))
    (fun row => inGraphRow kb graphKwds row = true →
      (keywords (row "source_id".toList)).count d ≤ 1)
    (fun row => inGraphRow kb graphKwds row = true ∧ d ∈ keywords (row "source_id".toList))
    (fun row hrow hok => ?_) (fun row hrow hnot => ?_) (fun row hrow => ?_)
  · rw [hmap] at hiff
    exact hiff
  · by_cases hr : inGraphRow kb graphKwds row = true
    · obtain ⟨l, hl, hjoin⟩ := hrows row hrow hr
      have hread := keywords_joinKeywords hl
      have hcount := hok hr
      rw [hjoin, hread] at hcount
      have hleft : ∀ s ∈ l.filter (· ≠ d), IsKeyword s := fun s hs =>
        hl s (List.mem_of_mem_filter hs)
      rw [if_pos hr, purgeRow, if_pos hr, remainsRow, hr, hjoin, hread,
        erase_eq_filter_of_count hcount, inGraphRow_withSourcesRow, hr, source_withSourcesRow]
      refine ⟨?_, fun _ => rfl⟩
      simp only [joinKeywords_eq_nil_iff hleft, Bool.true_and, Bool.not_true, Bool.false_or]
      rw [← Bool.not_not (List.any _ _), ← isEmpty_filter_ne]
      cases l.filter (· ≠ d) <;> rfl
    · rw [if_neg hr, remainsRow, purgeRow, if_neg hr, Bool.eq_false_iff.mpr hr]
      exact ⟨rfl, fun _ => rfl⟩
  · obtain ⟨hr, hcount⟩ := Classical.not_imp.mp hnot
    obtain ⟨l, hl, hjoin⟩ := hrows row hrow hr
    rw [hjoin, keywords_joinKeywords hl] at hcount ⊢
    have hmem := mem_erase_of_count hcount
    have hleft : ∀ s ∈ l.erase d, IsKeyword s := fun s hs => hl s (List.mem_of_mem_erase hs)
    rw [if_pos hr, inGraphRow_withSourcesRow, source_withSourcesRow,
      keywords_joinKeywords hleft, hr]
    refine ⟨?_, rfl, hmem⟩
    simp [joinKeywords_eq_nil_iff hleft, List.ne_nil_of_mem hmem]
  · rintro ⟨hin, hmem⟩
    rw [purgeRow] at hin hmem
    by_cases hr : inGraphRow kb graphKwds row = true
    · obtain ⟨l, hl, hjoin⟩ := hrows row hrow hr
      have hleft : ∀ s ∈ l.filter (· ≠ d), IsKeyword s := fun s hs =>
        hl s (List.mem_of_mem_filter hs)
      rw [if_pos hr, source_withSourcesRow, hjoin, keywords_joinKeywords hl,
        keywords_joinKeywords hleft] at hmem
      simp at hmem
    · rw [if_neg hr] at hin
      exact hr hin

end Infinity

/-! ## Both connections -/

/-- Where the graph lists a document, removing it leaves the rows with another source, without the
document and with the graph marked, exactly if no row of the graph lists the document twice. -/
theorem document_purged_iff (elements : Elastic.Elements String) (docs : List (Elastic.Doc String))
    (kb d : String) (graph : Elastic.Doc String) (columns : List Infinity.Column)
    (rows : List Infinity.TextRow) (kb₁ d₁ : Infinity.Text) (graph₁ : Infinity.TextRow) :
    ((∀ v, elements.term v = .str v) → kb ≠ "" → d ≠ "" →
      (∀ r ∈ docs, inGraph elements kb graphKwds r = true →
        ∃ l, r.source "source_id" = some (.data (.list l))) →
      docs.find? (inGraph elements kb ["graph"]) = some graph → d ∈ sourcesOf graph.source →
      (removeFromGraphElastic elements docs kb d =
          (docs.filter (remainsDoc elements kb d)).map (purgeDoc elements kb d) ↔
        ∀ r ∈ docs, inGraph elements kb graphKwds r = true →
          (sourcesOf r.source).count d ≤ 1)) ∧
      (kb₁ ≠ [] → Infinity.IsKeyword d₁ →
        (∃ c, Infinity.column columns "source_id".toList = some c ∧ c.default = []) →
        (rows.map fun row => row "id".toList).Nodup →
        (∀ row ∈ rows, inGraphRow kb₁ graphKwds row = true → ∃ l,
          (∀ s ∈ l, Infinity.IsKeyword s) ∧
            row "source_id".toList = Infinity.joinKeywords l) →
        rows.find? (inGraphRow kb₁ ["graph"]) = some graph₁ →
        d₁ ∈ Infinity.keywords (graph₁ "source_id".toList) →
        (removeFromGraphInfinity columns rows kb₁ d₁ =
            (rows.filter (remainsRow kb₁ d₁)).map (purgeRow kb₁ d₁) ↔
          ∀ row ∈ rows, inGraphRow kb₁ graphKwds row = true →
            (Infinity.keywords (row "source_id".toList)).count d₁ ≤ 1)) :=
  ⟨fun hterm hkb hd hsources hgraph hlisted =>
      removeFromGraphElastic_iff hterm hkb hd hsources hgraph hlisted,
    fun hkb hd hcolumn hids hrows hgraph hlisted =>
      removeFromGraphInfinity_iff hkb hd hcolumn hids hrows hgraph hlisted⟩

/-- A row of a graph in Elasticsearch. -/
def graphDoc (id kwd : String) (l : List String) : Elastic.Doc String where
  id := id
  source k :=
    if k = "kb_id" then some (.data (.str "kb"))
    else if k = "knowledge_graph_kwd" then some (.data (.str kwd))
    else if k = "source_id" then some (.data (.list l))
    else none

/-- A row of a graph in Infinity. -/
def graphRow (id kwd : String) (l : List Infinity.Text) : Infinity.TextRow := fun k =>
  if k = "id".toList then id.toList
  else if k = "kb_id".toList then "kb".toList
  else if k = "knowledge_graph_kwd".toList then kwd.toList
  else if k = "source_id".toList then Infinity.joinKeywords l
  else []

def sourceColumns : List Infinity.Column := [⟨"source_id".toList, "Varchar".toList, []⟩]

theorem document_purged_couple :
    removeFromGraphElastic Elastic.textElements
        [graphDoc "1" "graph" ["d", "e"], graphDoc "2" "entity" ["d"]] "kb" "d" =
      ([graphDoc "1" "graph" ["d", "e"], graphDoc "2" "entity" ["d"]].filter
        (remainsDoc Elastic.textElements "kb" "d")).map
          (purgeDoc Elastic.textElements "kb" "d") ∧
      removeFromGraphInfinity sourceColumns
          [graphRow "1" "graph" [['d'], ['e']], graphRow "2" "entity" [['d']]] ['k', 'b'] ['d'] =
        ([graphRow "1" "graph" [['d'], ['e']], graphRow "2" "entity" [['d']]].filter
          (remainsRow ['k', 'b'] ['d'])).map (purgeRow ['k', 'b'] ['d']) := by
  have hpurged := document_purged_iff Elastic.textElements
    [graphDoc "1" "graph" ["d", "e"], graphDoc "2" "entity" ["d"]] "kb" "d"
    (graphDoc "1" "graph" ["d", "e"]) sourceColumns
    [graphRow "1" "graph" [['d'], ['e']], graphRow "2" "entity" [['d']]] ['k', 'b'] ['d']
    (graphRow "1" "graph" [['d'], ['e']])
  constructor
  · refine (hpurged.1 (fun _ => rfl) (by decide) (by decide)
        (fun r hr _ => ?_) ?_ (by decide)).mpr fun r hr _ => ?_
    · simp only [List.mem_cons, List.not_mem_nil, or_false] at hr
      rcases hr with rfl | rfl <;> exact ⟨_, rfl⟩
    · rw [List.find?_cons_of_pos (by decide)]
    · simp only [List.mem_cons, List.not_mem_nil, or_false] at hr
      rcases hr with rfl | rfl <;> decide
  · refine (hpurged.2 (by decide) (by decide)
        ⟨⟨"source_id".toList, "Varchar".toList, []⟩, by decide +kernel, rfl⟩
        (by decide +kernel) (fun row hrow _ => ?_) ?_
        (by decide +kernel)).mpr fun row hrow _ => ?_
    · simp only [List.mem_cons, List.not_mem_nil, or_false] at hrow
      rcases hrow with rfl | rfl
      · exact ⟨[['d'], ['e']], by decide, by decide +kernel⟩
      · exact ⟨[['d']], by decide, by decide +kernel⟩
    · rw [List.find?_cons_of_pos (by decide +kernel)]
    · simp only [List.mem_cons, List.not_mem_nil, or_false] at hrow
      rcases hrow with rfl | rfl <;> decide +kernel

/-- An entity that lists the document twice lists it still. -/
theorem document_listed_twice_stays :
    (removeFromGraphElastic Elastic.textElements
        [graphDoc "1" "graph" ["d", "e"], graphDoc "2" "entity" ["d", "d"]] "kb" "d").any
          (fun r => decide ("d" ∈ sourcesOf r.source)) = true ∧
      (removeFromGraphInfinity sourceColumns
        [graphRow "1" "graph" [['d'], ['e']], graphRow "2" "entity" [['d'], ['d']]]
          ['k', 'b'] ['d']).any
            (fun row => decide (['d'] ∈ Infinity.keywords (row "source_id".toList))) = true := by
  constructor
  · decide +kernel
  · decide +kernel

end RagFlow.GraphRag
