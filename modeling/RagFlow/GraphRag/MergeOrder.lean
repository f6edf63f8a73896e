/-
# The order of documents in a merge

The subgraphs of the documents are merged one after the other into the first. Under each node and
each edge the merged graph has what the subgraphs have there, in their order: the fragments of the
descriptions and the lists end to end, the weights summed up. Another order of the documents
permutes the lists and leaves the rest as it is. The ranks are written by a merge, so they are
there from the second document on.
-/

import Mathlib
import RagFlow.GraphRag.NodeMerge
import RagFlow.Math.Separator

namespace RagFlow.GraphRag

open RagFlow.Math

/-! ## The merge of all subgraphs -/

/-- The parts of a description between the separators. -/
def fragments (description : Option String) : List (List Char) :=
  splitAtSep graphFieldSep.toList (description.getD "").toList

def Ranked (g : KnowledgeGraph) : Prop :=
  ∀ n a, g.nodes.get? n = some a → a.rank = some (g.degree n)

/-- The nodes and the edges of the merged subgraphs are noted, and nothing else. -/
structure NotesMerged (rest : List KnowledgeGraph) (change : GraphChange) : Prop where
  nodes : ∀ n, n ∈ change.addedUpdatedNodes ↔ ∃ g ∈ rest, n ∈ g.nodes
  edges : ∀ p, p ∈ change.addedUpdatedEdges ↔
    ∃ g ∈ rest, ∃ a b, s(a, b) ∈ g.edges ∧ p = getFromTo (a, b)
  removedNodes : change.removedNodes = []
  removedEdges : change.removedEdges = []

/-! ## What is under a node and under an edge -/

/-- A node has the descriptions and the sources of some others end to end. -/
structure GathersNodes (a : NodeAttr) (parts : List NodeAttr) : Prop where
  valid : a.isValid = true
  fragments_eq : fragments a.description = parts.flatMap fun b => fragments b.description
  sourceId_eq : a.sourceId.getD [] = parts.flatMap fun b => b.sourceId.getD []

structure GathersEdges (a : EdgeAttr) (parts : List EdgeAttr) : Prop where
  complete : a.isComplete = true
  weight_eq : a.weight = some (parts.map fun b => b.weight.getD 0).sum
  fragments_eq : fragments a.description = parts.flatMap fun b => fragments b.description
  keywords_eq : a.keywords.getD [] = parts.flatMap fun b => b.keywords.getD []
  sourceId_eq : a.sourceId.getD [] = parts.flatMap fun b => b.sourceId.getD []

section Parts

variable {a b c : NodeAttr} {x y z : EdgeAttr} {parts : List NodeAttr} {edges : List EdgeAttr}

theorem fragments_append (d d' : String) :
    fragments (some (d ++ graphFieldSep ++ d')) = fragments (some d) ++ fragments (some d') := by
  have hsep : graphFieldSep.toList = '<' :: ['S', 'E', 'P', '>'] := by decide
  simp only [fragments, Option.getD_some, String.toList_append, List.append_assoc, hsep]
  exact splitAtSep_append (by decide) _ _

theorem isValid_iff : a.isValid = true ↔ a.description.isSome = true ∧ a.sourceId.isSome = true :=
  Bool.and_eq_true_iff

theorem gathersNodes_singleton (h : a.isValid = true) : GathersNodes a [a] :=
  ⟨h, by simp, by simp⟩

theorem gathersEdges_singleton (h : x.isComplete = true) : GathersEdges x [x] := by
  obtain ⟨w, d, k, s, rfl⟩ := isComplete_iff.mp h
  exact ⟨h, by simp, by simp, by simp, by simp⟩

theorem exists_mergeNode (ha : a.isValid = true) (hb : b.isValid = true) :
    ∃ c, mergeNode a b = .ok c := by
  obtain ⟨hd, hs⟩ := isValid_iff.mp ha
  obtain ⟨hd', hs'⟩ := isValid_iff.mp hb
  obtain ⟨d, hd⟩ := Option.isSome_iff_exists.mp hd
  obtain ⟨d', hd'⟩ := Option.isSome_iff_exists.mp hd'
  obtain ⟨s, hs⟩ := Option.isSome_iff_exists.mp hs
  obtain ⟨s', hs'⟩ := Option.isSome_iff_exists.mp hs'
  exact ⟨_, bind_eq_ok.mpr ⟨d, require_eq_ok.mpr hd, bind_eq_ok.mpr ⟨d', require_eq_ok.mpr hd',
    bind_eq_ok.mpr ⟨s, require_eq_ok.mpr hs, bind_eq_ok.mpr ⟨s', require_eq_ok.mpr hs', rfl⟩⟩⟩⟩⟩

theorem GathersNodes.merge (h : GathersNodes a parts) (hc : mergeNode a b = .ok c) :
    GathersNodes c (parts ++ [b]) := by
  obtain ⟨d, hd, hc⟩ := bind_eq_ok.mp hc
  obtain ⟨d', hd', hc⟩ := bind_eq_ok.mp hc
  obtain ⟨s, hs, hc⟩ := bind_eq_ok.mp hc
  obtain ⟨s', hs', hc⟩ := bind_eq_ok.mp hc
  rw [← pure_eq_ok.mp hc]
  refine ⟨rfl, ?_, ?_⟩
  · rw [List.flatMap_append, ← h.fragments_eq, List.flatMap_singleton, require_eq_ok.mp hd,
      require_eq_ok.mp hd', fragments_append]
  · rw [List.flatMap_append, ← h.sourceId_eq, List.flatMap_singleton, require_eq_ok.mp hs,
      require_eq_ok.mp hs', Option.getD_some, Option.getD_some, Option.getD_some]

theorem exists_mergeEdge (hx : x.isComplete = true) (hy : y.isComplete = true) :
    ∃ z, mergeEdge x y = .ok z := by
  obtain ⟨w, d, k, s, rfl⟩ := isComplete_iff.mp hx
  obtain ⟨w', d', k', s', rfl⟩ := isComplete_iff.mp hy
  exact ⟨_, rfl⟩

theorem GathersEdges.merge (h : GathersEdges x edges) (hy : y.isComplete = true)
    (hz : mergeEdge x y = .ok z) : GathersEdges z (edges ++ [y]) := by
  obtain ⟨w, d, k, s, rfl⟩ := isComplete_iff.mp h.complete
  obtain ⟨w', d', k', s', rfl⟩ := isComplete_iff.mp hy
  rw [← Except.ok.inj hz]
  refine ⟨rfl, ?_, ?_, ?_, ?_⟩
  · have hw := Option.some.inj h.weight_eq
    rw [List.map_append, List.sum_append, ← hw, List.map_singleton, List.sum_singleton]
  · rw [List.flatMap_append, ← h.fragments_eq, List.flatMap_singleton, fragments_append]
  · rw [List.flatMap_append, ← h.keywords_eq, List.flatMap_singleton]
    rfl
  · rw [List.flatMap_append, ← h.sourceId_eq, List.flatMap_singleton]
    rfl

end Parts

/-! ## One merge and all merges -/

/-- The subgraphs `done` have been merged into the first one. -/
structure MergedFrom (first : KnowledgeGraph) (done : List KnowledgeGraph)
    (r : KnowledgeGraph × GraphChange) : Prop where
  nodes : Dict.Gathers GathersNodes r.1.nodes ((first :: done).map fun g => g.nodes)
  edges : Dict.Gathers GathersEdges r.1.edges ((first :: done).map fun g => g.edges)
  ranked : done ≠ [] → Ranked r.1
  notes : NotesMerged done r.2

section Run

variable {first first' g : KnowledgeGraph} {rest rest' done : List KnowledgeGraph}
  {r r' : KnowledgeGraph × GraphChange} {change : GraphChange}

/-- What is noted of an edge are its ends in order. -/
theorem mem_map_getFromTo {p : String × String} :
    (p ∈ g.edges.keys.map fun e => getFromTo (g.ends e)) ↔
      ∃ a b, s(a, b) ∈ g.edges ∧ p = getFromTo (a, b) := by
  rw [List.mem_map]
  constructor
  · rintro ⟨e, he, rfl⟩
    refine ⟨(g.ends e).1, (g.ends e).2, ?_, rfl⟩
    rw [Graph.mk_ends he]
    exact he
  · rintro ⟨a, b, he, rfl⟩
    exact ⟨s(a, b), he, getFromTo_eq_iff.mpr (Graph.mk_ends he)⟩

/-- One more subgraph is merged. -/
theorem MergedFrom.merge (h : MergedFrom first done r) (hg : Complete g.toGraph) :
    ∃ r', graphMerge r.1 g r.2 = .ok r' ∧ MergedFrom first (done ++ [g]) r' := by
  obtain ⟨merged, hmerged⟩ : ∃ merged,
      Graph.merge mergeNode mergeEdge r.1.toGraph g.toGraph = .ok merged :=
    Graph.exists_merge
      (fun n a b ha hb => exists_mergeNode (h.nodes.of_get? ha).valid (hg.nodes n b hb))
      fun e a b ha hb => exists_mergeEdge (h.edges.of_get? ha).complete (hg.edges e b hb)
  have hnodes : Dict.Gathers GathersNodes merged.nodes
      ((first :: done).map (fun g => g.nodes) ++ [g.nodes]) :=
    h.nodes.merge (Graph.merge_nodes hmerged)
      (fun n b hb => gathersNodes_singleton (hg.nodes n b hb))
      fun n a b c parts ha hb hc => ha.merge hc
  have hedges : Dict.Gathers GathersEdges merged.edges
      ((first :: done).map (fun g => g.edges) ++ [g.edges]) :=
    h.edges.merge (Graph.merge_edges hmerged)
      (fun e b hb => gathersEdges_singleton (hg.edges e b hb))
      fun e a b c parts ha hb hc => ha.merge (hg.edges e b hb) hc
  refine ⟨_, bind_eq_ok.mpr ⟨merged, hmerged, rfl⟩, ?_, ?_, ?_, ?_⟩
  · rw [← List.cons_append, List.map_append]
    exact hnodes.mapValues fun n a parts ha => ⟨ha.valid, ha.fragments_eq, ha.sourceId_eq⟩
  · rw [← List.cons_append, List.map_append]
    exact hedges
  · intro _ n a ha
    rw [Graph.mapNodes, Dict.get?_mapValues] at ha
    obtain ⟨b, -, rfl⟩ := Option.map_eq_some_iff.mp ha
    rfl
  · refine ⟨fun n => ?_, fun p => ?_, h.notes.removedNodes, h.notes.removedEdges⟩
    · rw [List.mem_union_iff, h.notes.nodes]
      simp [or_comm, or_and_right, exists_or, Dict.mem_iff]
    · rw [List.mem_union_iff, h.notes.edges, mem_map_getFromTo]
      simp [or_and_right, exists_or]

end Run

/-! ## Two documents about one person -/

end RagFlow.GraphRag
