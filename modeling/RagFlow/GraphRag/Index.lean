/-
# What `set_graph` leaves in the store

The store is read through a few views: the graph, the entity rows of a node, the relation
rows of an edge, and the subgraphs of the documents. For each of them one lemma says what
it is after `set_graph`.
-/

import RagFlow.GraphRag.Store

namespace RagFlow.GraphRag

open RagFlow.Math

/-! ## The stored graph -/

/-- The graph that the store holds, unless a document was removed from it. -/
def intactGraph (rows : Rows) : Option KnowledgeGraph :=
  match rows.find? Row.isGraph with
  | some (.graph g sourceId false) => some { g with sourceId := some (g.sourceId.getD sourceId) }
  | _ => none

theorem getGraph_of_intact {rows : Rows} {g : KnowledgeGraph} (h : intactGraph rows = some g)
    (excludeRebuild : List String) : getGraph rows excludeRebuild = some g := by
  rw [intactGraph] at h
  split at h
  · rename_i stored sourceId hfind
    rw [getGraph, hfind]
    exact h
  · contradiction

/-- The graph written last is the one that is read. -/
theorem intactGraph_setGraph {rows rows' : Rows} {graph : KnowledgeGraph}
    {change : GraphChange} (h : setGraph rows graph change = .ok rows') :
    intactGraph rows' = some graph := by
  obtain ⟨sources, hsources, h⟩ := bind_eq_ok.mp h
  obtain ⟨subgraphs, -, h⟩ := bind_eq_ok.mp h
  obtain ⟨entities, -, h⟩ := bind_eq_ok.mp h
  obtain ⟨relations, -, h⟩ := bind_eq_ok.mp h
  have hkept : (rows.filter fun row => !change.deletes row).find? Row.isGraph = none := by
    rw [List.find?_eq_none]
    intro row hrow
    have hstays := (List.mem_filter.mp hrow).2
    cases row <;> simp_all [GraphChange.deletes, Row.isGraph]
  have hfind : rows'.find? Row.isGraph = some (.graph graph sources false) := by
    rw [← pure_eq_ok.mp h, List.append_assoc, List.append_assoc, List.find?_append, hkept]
    rfl
  have hsource : graph.sourceId = some (graph.sourceId.getD sources) := by
    rw [require_eq_ok.mp hsources, Option.getD_some]
  rw [intactGraph, hfind]
  show some { graph with sourceId := some (graph.sourceId.getD sources) } = some graph
  rw [← hsource]

/-! ## The other views -/

def Row.entityOf (n : String) : Row → Option NodeAttr
  | .entity name attrs => if name = n then some attrs else none
  | _ => none

def Row.relationOf (e : Sym2 String) : Row → Option EdgeAttr
  | .relation source target attrs => if s(source, target) = e then some attrs else none
  | _ => none

/-- The attributes in the entity rows of a node. -/
def entityRows (rows : Rows) (n : String) : List NodeAttr := rows.filterMap (Row.entityOf n)

/-- The attributes in the relation rows of an edge. -/
def relationRows (rows : Rows) (e : Sym2 String) : List EdgeAttr :=
  rows.filterMap (Row.relationOf e)

theorem graphNodeToChunk_ok {name : String} {attrs : NodeAttr} {row : Row}
    (h : graphNodeToChunk name attrs = .ok row) : row = .entity name attrs := by
  obtain ⟨_, -, h⟩ := bind_eq_ok.mp h
  obtain ⟨_, -, h⟩ := bind_eq_ok.mp h
  obtain ⟨_, -, h⟩ := bind_eq_ok.mp h
  exact (pure_eq_ok.mp h).symm

theorem graphEdgeToChunk_ok {source target : String} {attrs : EdgeAttr} {row : Row}
    (h : graphEdgeToChunk source target attrs = .ok row) : row = .relation source target attrs := by
  obtain ⟨_, -, h⟩ := bind_eq_ok.mp h
  obtain ⟨_, -, h⟩ := bind_eq_ok.mp h
  obtain ⟨_, -, h⟩ := bind_eq_ok.mp h
  obtain ⟨_, -, h⟩ := bind_eq_ok.mp h
  exact (pure_eq_ok.mp h).symm

/-- The part of a graph that comes from one document. -/
def partOf (graph : KnowledgeGraph) (source : String) : KnowledgeGraph where
  toGraph := (graph.filterNodes fun _ a => source ∈ a.sourceId.getD []).mapNodes
    fun _ a => { a with sourceId := some [source] }
  sourceId := some [source]

theorem subgraphRow_ok {graph : KnowledgeGraph} {source : String} {row : Row}
    (h : subgraphRow graph source = .ok row) :
    row = .subgraph (partOf graph source) [source] false := by
  obtain ⟨_, -, h⟩ := bind_eq_ok.mp h
  exact (pure_eq_ok.mp h).symm

section SetGraph

variable {rows rows' : Rows} {graph : KnowledgeGraph} {change : GraphChange}

/-- The rows in the order in which they are written, as a view sees them that looks neither
at the graph nor at what `set_graph` deletes. -/
theorem setGraph_filterMap {α : Type} (h : setGraph rows graph change = .ok rows')
    (view : Row → Option α)
    (hgraph : ∀ g sourceId removed, view (.graph g sourceId removed) = none) :
    ∃ sources, graph.sourceId = some sources ∧
      rows'.filterMap view =
        (rows.filter fun row => !change.deletes row).filterMap view ++
        (sources.filterMap fun source => view (.subgraph (partOf graph source) [source] false)) ++
        (change.addedUpdatedNodes.filterMap fun n =>
          (graph.nodes.get? n).bind fun a => view (.entity n a)) ++
        (change.addedUpdatedEdges.filterMap fun p =>
          ((graph.edges.get? s(p.1, p.2)).filter fun a => !a.isEmpty).bind fun a =>
            view (.relation p.1 p.2 a)) := by
  obtain ⟨sources, hsources, h⟩ := bind_eq_ok.mp h
  obtain ⟨subgraphs, hsubgraphs, h⟩ := bind_eq_ok.mp h
  obtain ⟨entities, hentities, h⟩ := bind_eq_ok.mp h
  obtain ⟨relations, hrelations, h⟩ := bind_eq_ok.mp h
  have hview_subgraphs : subgraphs.filterMap view =
      sources.filterMap fun source => view (.subgraph (partOf graph source) [source] false) := by
    apply filterMap_of_mapM hsubgraphs
    intro source row hrow
    rw [subgraphRow_ok hrow]
  have hview_entities : entities.filterMap view = change.addedUpdatedNodes.filterMap fun n =>
      (graph.nodes.get? n).bind fun a => view (.entity n a) := by
    apply filterMap_of_mapM hentities
    intro n row hrow
    obtain ⟨a, ha, hrow⟩ := bind_eq_ok.mp hrow
    rw [graphNodeToChunk_ok hrow, require_eq_ok.mp ha]
    rfl
  have hview_relations : relations.filterMap view = change.addedUpdatedEdges.filterMap fun p =>
      ((graph.edges.get? s(p.1, p.2)).filter fun a => !a.isEmpty).bind fun a =>
        view (.relation p.1 p.2 a) := by
    have hmap : relations.filterMap view = _ :=
      filterMap_of_mapM hrelations fun p row hrow => by rw [graphEdgeToChunk_ok hrow]
    rw [hmap, List.filterMap_filterMap]
    apply List.filterMap_congr
    intro p _
    rw [Option.bind_map]
    rfl
  refine ⟨sources, require_eq_ok.mp hsources, ?_⟩
  rw [← pure_eq_ok.mp h, List.filterMap_append, List.filterMap_append, List.filterMap_append,
    List.filterMap_cons, hgraph, hview_subgraphs, hview_entities, hview_relations]

/-- The subgraphs are those of the documents that the graph lists. -/
theorem subgraphs_setGraph (h : setGraph rows graph change = .ok rows') :
    ∃ sources, graph.sourceId = some sources ∧
      rows'.filterMap Row.subgraph? =
        sources.map fun source => (partOf graph source, [source]) := by
  obtain ⟨sources, hsources, hview⟩ := setGraph_filterMap h Row.subgraph? fun _ _ _ => rfl
  have hkept : (rows.filter fun row => !change.deletes row).filterMap Row.subgraph? = [] := by
    rw [List.filterMap_eq_nil_iff]
    intro row hrow
    have hstays := (List.mem_filter.mp hrow).2
    cases row with
    | subgraph g sourceId removed => cases hstays
    | _ => rfl
  refine ⟨sources, hsources, ?_⟩
  rw [hview, hkept]
  simp [Row.subgraph?]

/-- The rows of a removed node are deleted, and no other entity rows. -/
theorem entityOf_of_kept (n : String) (row : Row) :
    (if !change.deletes row then Row.entityOf n row else none) =
      if n ∈ change.removedNodes then none else Row.entityOf n row := by
  cases row with
  | entity name attrs =>
      by_cases hname : name = n
      · simp [GraphChange.deletes, Row.entityOf, hname]
      · simp [Row.entityOf, hname]
  | _ => simp [Row.entityOf]

/-- The entity rows of a node that are kept, and the new ones. -/
theorem entityRows_setGraph (h : setGraph rows graph change = .ok rows') (n : String) :
    entityRows rows' n = (if n ∈ change.removedNodes then [] else entityRows rows n) ++
      change.addedUpdatedNodes.filterMap fun k => if k = n then graph.nodes.get? n else none := by
  obtain ⟨sources, -, hview⟩ := setGraph_filterMap h (Row.entityOf n) fun _ _ _ => rfl
  have hkept : (rows.filter fun row => !change.deletes row).filterMap (Row.entityOf n) =
      if n ∈ change.removedNodes then [] else entityRows rows n := by
    rw [List.filterMap_filter]
    simp only [entityOf_of_kept]
    split_ifs
    · exact List.filterMap_eq_nil_iff.mpr fun _ _ => rfl
    · rfl
  have hnew : (change.addedUpdatedNodes.filterMap fun k =>
      (graph.nodes.get? k).bind fun a => Row.entityOf n (.entity k a)) =
      change.addedUpdatedNodes.filterMap fun k =>
        if k = n then graph.nodes.get? n else none := by
    apply List.filterMap_congr
    intro k _
    by_cases hk : k = n
    · simp [Row.entityOf, hk]
    · simp [Row.entityOf, hk]
  rw [entityRows, hview, hkept, hnew]
  simp [Row.entityOf]

/-- The relation rows of an edge that are kept, and the new ones. -/
theorem relationRows_setGraph (h : setGraph rows graph change = .ok rows')
    (hremoved : change.removedEdges = []) (e : Sym2 String) :
    relationRows rows' e = relationRows rows e ++
      change.addedUpdatedEdges.filterMap fun p =>
        if s(p.1, p.2) = e then (graph.edges.get? e).filter fun a => !a.isEmpty else none := by
  obtain ⟨sources, -, hview⟩ := setGraph_filterMap h (Row.relationOf e) fun _ _ _ => rfl
  have hkept : (rows.filter fun row => !change.deletes row).filterMap (Row.relationOf e) =
      relationRows rows e := by
    rw [List.filterMap_filter]
    apply List.filterMap_congr
    intro row _
    cases row with
    | relation source target attrs => simp [GraphChange.deletes, hremoved]
    | _ => simp [Row.relationOf]
  have hnew : (change.addedUpdatedEdges.filterMap fun p =>
      ((graph.edges.get? s(p.1, p.2)).filter fun a => !a.isEmpty).bind fun a =>
        Row.relationOf e (.relation p.1 p.2 a)) =
      change.addedUpdatedEdges.filterMap fun p =>
        if s(p.1, p.2) = e then (graph.edges.get? e).filter fun a => !a.isEmpty else none := by
    apply List.filterMap_congr
    intro p _
    by_cases hp : s(p.1, p.2) = e
    · simp [Row.relationOf, hp]
    · simp [Row.relationOf, hp]
  rw [relationRows, hview, hkept, hnew]
  simp [Row.relationOf]

end SetGraph

/-- In a list without repeats, a view that sees one member only sees it once or not at
all. -/
theorem filterMap_unique {α β γ : Type} [DecidableEq β] {l : List α} {key : α → β}
    (hl : (l.map key).Nodup) (k : β) (x : Option γ) :
    (l.filterMap fun a => if key a = k then x else none) =
      if k ∈ l.map key then x.toList else [] := by
  induction l with
  | nil => simp
  | cons a l ih =>
      rw [List.map_cons, List.nodup_cons] at hl
      rw [List.filterMap_cons, ih hl.2, List.map_cons]
      by_cases ha : key a = k
      · rw [if_pos ha, if_neg (ha ▸ hl.1), if_pos (by simp [ha])]
        cases x <;> rfl
      · rw [if_neg ha]
        simp [Ne.symm ha]

end RagFlow.GraphRag
