/-
# Building a document a second time

The build takes up a stored subgraph without asking whether the graph contains the
document already, and merging appends descriptions and sources. So a second build of a
document changes the graph, whatever the graph and the subgraph are; without the stored
subgraph the check would have left it alone.
-/

import RagFlow.GraphRag.Index
import Mathlib.Data.List.Count

namespace RagFlow.GraphRag

open RagFlow.Math

/-- Every node noted as changed is complete, or writing it would have failed. -/
theorem isValid_of_setGraph {rows rows' : Rows} {graph : KnowledgeGraph}
    {change : GraphChange} (h : setGraph rows graph change = .ok rows') {n : String}
    (hn : n ∈ change.addedUpdatedNodes) :
    ∃ b, graph.nodes.get? n = some b ∧ b.isValid := by
  obtain ⟨sources, -, h⟩ := bind_eq_ok.mp h
  obtain ⟨subgraphs, -, h⟩ := bind_eq_ok.mp h
  obtain ⟨entities, hentities, -⟩ := bind_eq_ok.mp h
  obtain ⟨row, hrow⟩ := exists_ok_of_mapM hentities hn
  obtain ⟨b, hb, hrow⟩ := bind_eq_ok.mp hrow
  obtain ⟨_, -, hrow⟩ := bind_eq_ok.mp hrow
  obtain ⟨d, hd, hrow⟩ := bind_eq_ok.mp hrow
  obtain ⟨s, hs, -⟩ := bind_eq_ok.mp hrow
  refine ⟨b, require_eq_ok.mp hb, ?_⟩
  simp [NodeAttr.isValid, require_eq_ok.mp hd, require_eq_ok.mp hs]

/-! ## Merging once more -/

/-- Merging a subgraph into the stored graph appends its documents and changes each of
its nodes. -/
theorem mergeSubgraph_changes {env : BuildEnv} {rows rows' : Rows} {g sg : KnowledgeGraph}
    (hg : intactGraph rows = some g) (h : mergeSubgraph env rows sg = .ok rows') :
    ∃ g', intactGraph rows' = some g' ∧
      g'.sourceId = some (g.sourceId.getD [] ++ sg.sourceId.getD []) ∧
      ∀ n ∈ sg.nodes, content g'.toGraph n ≠ content g.toGraph n := by
  obtain ⟨sources, -, h⟩ := bind_eq_ok.mp h
  rw [getGraph_of_intact hg] at h
  obtain ⟨⟨graph, change⟩, hmerge, h⟩ := bind_eq_ok.mp h
  have hsourceId := (graphMerge_ok hmerge).1
  have hcontent := fun n => content_mapNodes (g := graph.toGraph)
    (f := fun n a => { a with pagerank := some (env.pagerank graph n) })
    (fun _ _ => ⟨rfl, rfl⟩) n
  refine ⟨_, intactGraph_setGraph h, hsourceId, ?_⟩
  intro n hn
  have hchanged : n ∈ change.addedUpdatedNodes := by
    obtain ⟨merged, -, hpure⟩ := bind_eq_ok.mp hmerge
    obtain ⟨-, rfl⟩ := Prod.mk.inj (pure_eq_ok.mp hpure)
    exact List.mem_union_iff.mpr (Or.inr hn)
  obtain ⟨b, hb, hvalid⟩ := isValid_of_setGraph h hchanged
  show content (graph.mapNodes _) n ≠ _
  rw [hcontent]
  apply content_graphMerge_ne hmerge hn
  obtain ⟨a, ha, rfl⟩ := Option.map_eq_some_iff.mp
    ((Dict.get?_mapValues _ graph.nodes n).symm.trans hb)
  exact ⟨a, ha, hvalid⟩

/-! ## The second build -/

/-- Two graphs have the same nodes, edges, weights, descriptions, sources and
documents. -/
structure SameContent (g h : KnowledgeGraph) : Prop where
  nodes : ∀ n, n ∈ g.nodes ↔ n ∈ h.nodes
  edges : ∀ e, e ∈ g.edges ↔ e ∈ h.edges
  weight : ∀ e, (g.edges.get? e).map EdgeAttr.weight = (h.edges.get? e).map EdgeAttr.weight
  nodeDescription : ∀ n,
    (g.nodes.get? n).map NodeAttr.description = (h.nodes.get? n).map NodeAttr.description
  edgeDescription : ∀ e,
    (g.edges.get? e).map EdgeAttr.description = (h.edges.get? e).map EdgeAttr.description
  nodeSourceId : ∀ n,
    (g.nodes.get? n).map NodeAttr.sourceId = (h.nodes.get? n).map NodeAttr.sourceId
  edgeSourceId : ∀ e,
    (g.edges.get? e).map EdgeAttr.sourceId = (h.edges.get? e).map EdgeAttr.sourceId
  sourceId : g.sourceId = h.sourceId

/-- A document with chunks, whose subgraph `sg` is stored and has nodes, and which the
stored graph `g` contains. -/
structure AlreadyBuilt (rows : Rows) (docId : String) (chunks : List String)
    (g sg : KnowledgeGraph) : Prop where
  chunks_ne : chunks ≠ []
  stored : loadSubgraphFromStore rows docId = some sg
  has_nodes : sg.nodes.entries ≠ []
  intact : intactGraph rows = some g
  contains : doesGraphContains rows docId = true

/-- A stored subgraph is taken up as it is. -/
theorem buildOne_of_stored {env : BuildEnv} {rows : Rows} {docId : String}
    {chunks : List String} {g sg : KnowledgeGraph} (h : AlreadyBuilt rows docId chunks g sg) :
    buildOne env rows docId chunks = (some sg, rows) := by
  have hfull : (some sg).filter (fun g => !g.nodes.entries.isEmpty) = some sg := by
    simp [h.has_nodes]
  rw [buildOne, if_neg h.chunks_ne, h.stored, hfull]

/-- A stored subgraph lists the one document it was stored for. -/
theorem sourceId_loadSubgraph {rows : Rows} {docId : String} {sg : KnowledgeGraph}
    (h : loadSubgraphFromStore rows docId = some sg) : sg.sourceId = some [docId] := by
  obtain ⟨row, -, hrow⟩ := List.exists_of_findSome?_eq_some h
  split at hrow
  · split_ifs at hrow
    rw [← Option.some.inj hrow]
  · contradiction

/-- Building a document again never leaves the graph as it is: every node of the document
has another description or other sources than before, or is new, and the document is
listed once more. -/
theorem rebuilt_document_changes_graph {env : BuildEnv} {rows rows' : Rows} {docId : String}
    {chunks : List String} {g sg : KnowledgeGraph} (h : AlreadyBuilt rows docId chunks g sg)
    (hrun : buildDocument env rows docId chunks = .ok rows') :
    ∃ g', intactGraph rows' = some g' ∧ ¬ SameContent g g' ∧
      g'.sourceId = some (g.sourceId.getD [] ++ [docId]) ∧
      ∀ n ∈ sg.nodes, content g'.toGraph n ≠ content g.toGraph n := by
  rw [buildDocument, buildOne_of_stored h] at hrun
  obtain ⟨g', hg', hsourceId, hnodes⟩ := mergeSubgraph_changes h.intact hrun
  rw [sourceId_loadSubgraph h.stored, Option.getD_some] at hsourceId
  refine ⟨g', hg', ?_, hsourceId, hnodes⟩
  intro hsame
  have hlen := congrArg (fun s => (s.getD []).length) (hsame.sourceId.trans hsourceId)
  simp at hlen

/-! ## A dataset of one document -/

def annAttr : NodeAttr :=
  { entityType := some "PERSON", description := some "an author", sourceId := some ["d"] }

/-- The graph of a document `d` about one person. -/
def annGraph : KnowledgeGraph where
  nodes := { entries := [("ANN", annAttr)], nodup := List.nodup_singleton _ }
  edges := Dict.empty
  closed := fun _ h => absurd h List.not_mem_nil
  sourceId := some ["d"]

/-- The store after the first build of `d`. -/
def annRows : Rows :=
  [.graph annGraph ["d"] false, .subgraph annGraph ["d"] false, .entity "ANN" annAttr]

def annEnv : BuildEnv := { extract := fun _ _ => none, pagerank := fun _ _ => 1 }

theorem annRows_built : AlreadyBuilt annRows "d" ["Ann is an author."] annGraph annGraph where
  chunks_ne := by decide
  stored := rfl
  has_nodes := by decide
  intact := rfl
  contains := rfl

theorem rebuilt_ann_changes_graph :
    ∃ rows' g', buildDocument annEnv annRows "d" ["Ann is an author."] = .ok rows' ∧
      intactGraph rows' = some g' ∧ ¬ SameContent annGraph g' ∧
      g'.sourceId = some ["d", "d"] ∧
      ∀ n ∈ annGraph.nodes, content g'.toGraph n ≠ content annGraph.toGraph n := by
  have hrun : buildDocument annEnv annRows "d" ["Ann is an author."] = .ok _ := rfl
  obtain ⟨g', hg'⟩ := rebuilt_document_changes_graph annRows_built hrun
  exact ⟨_, g', hrun, hg'⟩

/-- The description is doubled, and `d` is listed twice. -/
theorem ann_is_described_twice :
    ∃ rows' g', AlreadyBuilt annRows "d" ["Ann is an author."] annGraph annGraph ∧
      buildDocument annEnv annRows "d" ["Ann is an author."] = .ok rows' ∧
      intactGraph rows' = some g' ∧
      (g'.nodes.get? "ANN").map NodeAttr.description = some (some "an author<SEP>an author") ∧
      g'.sourceId = some ["d", "d"] ∧ ¬ SameContent annGraph g' := by
  refine ⟨_, _, annRows_built, rfl, rfl, rfl, rfl, ?_⟩
  intro hsame
  have hdescription := hsame.nodeDescription "ANN"
  have hsplit : (some (some "an author") : Option (Option String))
      = some (some "an author<SEP>an author") := hdescription
  exact absurd hsplit (by decide)

end RagFlow.GraphRag
