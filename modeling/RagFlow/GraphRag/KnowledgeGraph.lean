/-
# The knowledge graph of a dataset

Entities and relations are the nodes and edges of an undirected graph. Each carries
its descriptions, joined by a separator, and the identifiers of the documents it comes
from; the graph itself lists the documents merged into it. Attributes may be missing,
and reading a missing one raises `KeyError`.
-/

import RagFlow.Math.Graph
import Mathlib.Data.Rat.Defs
import Mathlib.Data.String.Basic

namespace RagFlow.GraphRag

open RagFlow.Math

/-! ## Attributes -/

/-- A `KeyError` with the missing key. -/
structure KeyError where
  key : String

structure NodeAttr where
  entityType : Option String := none
  description : Option String := none
  sourceId : Option (List String) := none
  rank : Option ℕ := none
  pagerank : Option ℚ := none

structure EdgeAttr where
  weight : Option ℚ := none
  description : Option String := none
  keywords : Option (List String) := none
  sourceId : Option (List String) := none

structure KnowledgeGraph extends Graph String NodeAttr EdgeAttr where
  /-- The `source_id` of the graph: the documents merged into it. -/
  sourceId : Option (List String) := none

/-- `attrs[key]`. -/
def require {α : Type} (key : String) (x : Option α) : Except KeyError α :=
  match x with
  | none => .error ⟨key⟩
  | some a => .ok a

theorem require_eq_ok {α : Type} {key : String} {x : Option α} {a : α} :
    require key x = .ok a ↔ x = some a := by
  cases x <;> simp [require]

/-! ## `tidy_graph` -/

def NodeAttr.isValid (a : NodeAttr) : Bool := a.description.isSome && a.sourceId.isSome

def EdgeAttr.isValid (a : EdgeAttr) : Bool := a.description.isSome && a.sourceId.isSome

/-- Give every edge keywords and, on request, drop nodes and edges without a
description or a source. -/
def tidyGraph (g : KnowledgeGraph) (checkAttribute : Bool) : KnowledgeGraph :=
  let kept := if checkAttribute then g.filterNodes fun _ a => a.isValid else g.toGraph
  let worded := kept.mapEdges fun _ a => { a with keywords := some (a.keywords.getD []) }
  { toGraph := if checkAttribute then worded.filterEdges fun _ a => a.isValid else worded
    sourceId := g.sourceId }

/-! ## `graph_merge` -/

def graphFieldSep : String := "<SEP>"

/-- Merge the attributes of a node that both graphs have. -/
def mergeNode (node attr : NodeAttr) : Except KeyError NodeAttr := do
  let d ← require "description" node.description
  let d' ← require "description" attr.description
  let s ← require "source_id" node.sourceId
  let s' ← require "source_id" attr.sourceId
  return { node with description := some (d ++ graphFieldSep ++ d'), sourceId := some (s ++ s') }

/-- Merge the attributes of an edge that both graphs have. -/
def mergeEdge (edge attr : EdgeAttr) : Except KeyError EdgeAttr := do
  let w ← require "weight" edge.weight
  let d ← require "description" edge.description
  let d' ← require "description" attr.description
  let k ← require "keywords" edge.keywords
  let k' ← require "keywords" attr.keywords
  let s ← require "source_id" edge.sourceId
  let s' ← require "source_id" attr.sourceId
  return {
    weight := some (w + attr.weight.getD 0)
    description := some (d ++ graphFieldSep ++ d')
    keywords := some (k ++ k')
    sourceId := some (s ++ s') }

/-- What a step has changed in a graph, to be carried over to the index. -/
structure GraphChange where
  removedNodes : List String := []
  addedUpdatedNodes : List String := []
  removedEdges : List (String × String) := []
  addedUpdatedEdges : List (String × String) := []

/-- `get_from_to`. -/
def getFromTo (p : String × String) : String × String :=
  if p.1 < p.2 then p else (p.2, p.1)

theorem mk_getFromTo (p : String × String) : s((getFromTo p).1, (getFromTo p).2) = s(p.1, p.2) := by
  rw [getFromTo]
  split_ifs
  · rfl
  · exact Sym2.eq_swap

/-- Two orders of the ends make the same edge. -/
theorem getFromTo_eq_iff {a b c d : String} :
    getFromTo (a, b) = getFromTo (c, d) ↔ s(a, b) = s(c, d) := by
  constructor
  · intro h
    rw [← mk_getFromTo (a, b), h]
    exact mk_getFromTo (c, d)
  · intro h
    rcases Sym2.eq_iff.mp h with ⟨rfl, rfl⟩ | ⟨rfl, rfl⟩
    · rfl
    · rcases lt_trichotomy a b with hlt | rfl | hlt
      · rw [getFromTo, getFromTo, if_pos hlt, if_neg (not_lt_of_gt hlt)]
      · rfl
      · rw [getFromTo, getFromTo, if_pos hlt, if_neg (not_lt_of_gt hlt)]

/-- `graph_merge`: merge `g2` into `g1`, and note its nodes and edges as changed. -/
def graphMerge (g1 g2 : KnowledgeGraph) (change : GraphChange) :
    Except KeyError (KnowledgeGraph × GraphChange) := do
  let merged ← Graph.merge mergeNode mergeEdge g1.toGraph g2.toGraph
  let ranked := merged.mapNodes fun n a => { a with rank := some (merged.degree n) }
  return ({ toGraph := ranked, sourceId := some (g1.sourceId.getD [] ++ g2.sourceId.getD []) },
    { change with
      addedUpdatedNodes := change.addedUpdatedNodes ∪ g2.nodes.keys
      addedUpdatedEdges := change.addedUpdatedEdges ∪
        g2.edges.keys.map fun e => getFromTo (g2.ends e) })

/-! ## What merging leaves of a node -/

/-- The description and the sources of a node, `none` for a node that is not there. -/
def content (g : Graph String NodeAttr EdgeAttr) (n : String) :
    Option (Option String × Option (List String)) :=
  (g.nodes.get? n).map fun a => (a.description, a.sourceId)

theorem content_mapNodes {g : Graph String NodeAttr EdgeAttr} {f : String → NodeAttr → NodeAttr}
    (hf : ∀ n a, (f n a).description = a.description ∧ (f n a).sourceId = a.sourceId)
    (n : String) : content (g.mapNodes f) n = content g n := by
  simp only [content, Graph.mapNodes, Dict.get?_mapValues, Option.map_map]
  apply congrArg (fun h => Option.map h (g.nodes.get? n))
  funext a
  simp [hf n a]

/-- A description that something is appended to is another one. -/
theorem append_sep_ne (d d' : String) : d ++ graphFieldSep ++ d' ≠ d := by
  intro h
  have hlen := congrArg String.length h
  have hsep : graphFieldSep.length = 5 := rfl
  rw [String.length_append, String.length_append, hsep] at hlen
  omega

theorem mergeNode_ok {node attr r : NodeAttr} (h : mergeNode node attr = .ok r) :
    ∃ d d', node.description = some d ∧ r.description = some (d ++ graphFieldSep ++ d') := by
  obtain ⟨d, hd, h⟩ := bind_eq_ok.mp h
  obtain ⟨d', _, h⟩ := bind_eq_ok.mp h
  obtain ⟨s, _, h⟩ := bind_eq_ok.mp h
  obtain ⟨s', _, h⟩ := bind_eq_ok.mp h
  rw [← pure_eq_ok.mp h]
  exact ⟨d, d', require_eq_ok.mp hd, rfl⟩

/-- The dictionaries of a merged graph, its ranks apart. -/
theorem graphMerge_ok {g1 g2 r : KnowledgeGraph} {change change' : GraphChange}
    (h : graphMerge g1 g2 change = .ok (r, change')) :
    r.sourceId = some (g1.sourceId.getD [] ++ g2.sourceId.getD []) ∧
      ∃ merged, Graph.merge mergeNode mergeEdge g1.toGraph g2.toGraph = .ok merged ∧
        ∀ n, content r.toGraph n = content merged n := by
  obtain ⟨merged, hmerged, h⟩ := bind_eq_ok.mp h
  obtain ⟨rfl, -⟩ := Prod.mk.inj (pure_eq_ok.mp h)
  exact ⟨rfl, merged, hmerged, content_mapNodes fun _ _ => ⟨rfl, rfl⟩⟩

/-- Tidying keeps a node as it is or, where it lacks an attribute, drops it. -/
theorem get?_tidyGraph (g : KnowledgeGraph) (n : String) :
    (tidyGraph g true).nodes.get? n = (g.nodes.get? n).filter NodeAttr.isValid :=
  Dict.get?_filter _ _ _

/-- Merging into a tidied graph changes every node of the second graph that is complete
afterwards: it is new, or its description has grown. -/
theorem content_graphMerge_ne {g sg r : KnowledgeGraph} {change change' : GraphChange}
    (h : graphMerge (tidyGraph g true) sg change = .ok (r, change')) {n : String}
    (hn : n ∈ sg.nodes) (hvalid : ∃ b, r.nodes.get? n = some b ∧ b.isValid) :
    content r.toGraph n ≠ content g.toGraph n := by
  obtain ⟨a, ha⟩ := Option.isSome_iff_exists.mp (Dict.mem_iff_isSome.mp hn)
  obtain ⟨-, merged, hmerged, hcontent⟩ := graphMerge_ok h
  have hstep := Dict.merge_get? (Graph.merge_nodes hmerged) n
  rw [ha, get?_tidyGraph] at hstep
  cases hold : (g.nodes.get? n).filter NodeAttr.isValid with
  | none =>
      -- Without a complete node in the old graph, the new one is that of the subgraph.
      obtain ⟨b, hb, hvalid⟩ := hvalid
      cases hg : g.nodes.get? n with
      | none => simp [content, hb, hg]
      | some old =>
          have hbad : old.isValid = false := by simpa [hg] using hold
          intro heq
          have heq : b.description = old.description ∧ b.sourceId = old.sourceId := by
            simpa [content, hb, hg] using heq
          rw [NodeAttr.isValid, ← heq.1, ← heq.2, ← NodeAttr.isValid, hvalid] at hbad
          exact Bool.noConfusion hbad
  | some old =>
      have hg : g.nodes.get? n = some old := (Option.filter_eq_some_iff.mp hold).1
      rw [hold] at hstep
      obtain ⟨new, hnew, hr⟩ := map_eq_ok.mp hstep
      obtain ⟨d, d', hd, hd'⟩ := mergeNode_ok hnew
      rw [hcontent, content, content, ← hr, hg]
      intro heq
      have heq : new.description = old.description := (Prod.mk.inj (Option.some.inj heq)).1
      rw [hd, hd'] at heq
      exact append_sep_ne d d' (Option.some.inj heq)

end RagFlow.GraphRag
