/-
# Entity resolution

Nodes that the chat model takes for the same entity are merged, group by group: the first
node of a group takes over the descriptions, the sources and the edges of the others, which
are removed. What has changed is noted for the index.
-/

import RagFlow.GraphRag.Store

namespace RagFlow.GraphRag

open RagFlow.Math

/-- The connected components of the pairs that are taken for the same: they are disjoint,
and a pair joins two different nodes. -/
structure Components where
  groups : List (List String)
  nodup : groups.flatten.Nodup
  two_le : ∀ group ∈ groups, 2 ≤ group.length

/-- `summary` shortens the description of a node or an edge, with the chat model where it
has many parts. -/
structure ResolveEnv extends BuildEnv where
  summary : String → String → String

/-- A graph with what has changed in it so far. -/
abbrev Resolving := PlainGraph × GraphChange

/-- `sorted(set(…))`. -/
def sortedSet (l : List String) : List String := l.dedup.mergeSort fun a b => a ≤ b

/-- `add_edge` between two nodes of the graph. -/
def putEdge (g : PlainGraph) (a b : String) (attrs : EdgeAttr) : PlainGraph :=
  if h : ∀ k ∈ s(a, b).toFinset, k ∈ g.nodes then
    g.setEdge s(a, b) (((g.edges.get? s(a, b)).getD {}).update attrs)
      fun k hk => h k (Sym2.mem_toFinset.mpr hk)
  else g

/-- Two edges to one neighbor become one. -/
def mergeParallel (summary : String → String) (edge0 edge1 : EdgeAttr) :
    Except KeyError EdgeAttr := do
  let w ← require "weight" edge0.weight
  let w' ← require "weight" edge1.weight
  let d ← require "description" edge0.description
  let d' ← require "description" edge1.description
  let k ← require "keywords" edge0.keywords
  let k' ← require "keywords" edge1.keywords
  let s ← require "source_id" edge0.sourceId
  let s' ← require "source_id" edge1.sourceId
  return {
    weight := some (w + w')
    description := some (summary (d ++ graphFieldSep ++ d'))
    keywords := some (sortedSet (k ++ k'))
    sourceId := some (sortedSet (s ++ s')) }

/-- One neighbor of a node that is merged into `node0`. `neighbors0` are the neighbors that
`node0` had before the group was merged. -/
def mergeNeighbor (env : ResolveEnv) (node0 : String) (group neighbors0 : List String)
    (node1 : String) (r : Resolving) (neighbor : String) : Except KeyError Resolving := do
  let (g, change) := r
  let change := { change with
    removedEdges := change.removedEdges.insert (getFromTo (node1, neighbor)) }
  if neighbor ∈ group then return (g, change)
  else
    let edge1 ← require neighbor (g.edges.get? s(node1, neighbor))
    if neighbor ∈ neighbors0 then
      let change := { change with
        addedUpdatedEdges := change.addedUpdatedEdges.insert (getFromTo (node0, neighbor)) }
      let edge0 ← require neighbor (g.edges.get? s(node0, neighbor))
      let merged ← mergeParallel (env.summary ("(" ++ node0 ++ ", " ++ neighbor ++ ")")) edge0 edge1
      return (putEdge g node0 neighbor merged, change)
    else
      -- The new edge is not noted as changed.
      return (putEdge g node0 neighbor edge1, change)

/-- One node is merged into `node0` and removed. -/
def mergeInto (env : ResolveEnv) (node0 : String) (group neighbors0 : List String)
    (r : Resolving) (node1 : String) : Except KeyError Resolving := do
  let (g, change) := r
  let a0 ← require node0 (g.nodes.get? node0)
  let a1 ← require node1 (g.nodes.get? node1)
  let d ← require "description" a0.description
  let d' ← require "description" a1.description
  let s ← require "source_id" a0.sourceId
  let s' ← require "source_id" a1.sourceId
  let g := g.setNode node0 { a0 with
    description := some (d ++ graphFieldSep ++ d')
    sourceId := some (sortedSet (s ++ s')) }
  let (g, change) ← (g.neighbors node1).foldlM
    (mergeNeighbor env node0 group neighbors0 node1) (g, change)
  return (g.filterNodes fun k _ => k ≠ node1, change)

/-- `_merge_graph_nodes`. -/
def mergeGraphNodes (env : ResolveEnv) (r : Resolving) (nodes : List String) :
    Except KeyError Resolving :=
  match nodes with
  | node0 :: node1 :: rest => do
    let (g, change) := r
    let change := { change with
      addedUpdatedNodes := change.addedUpdatedNodes.insert node0
      removedNodes := change.removedNodes ∪ (node1 :: rest) }
    let _ ← require node0 (g.nodes.get? node0)
    let (g, change) ← (node1 :: rest).foldlM
      (mergeInto env node0 nodes (g.neighbors node0)) (g, change)
    let a0 ← require node0 (g.nodes.get? node0)
    return (g.setNode node0 { a0 with description := a0.description.map (env.summary node0) },
      change)
  | _ => .ok r

/-- `resolve_entities`, for the stored graph. -/
def resolveEntities (env : ResolveEnv) (rows : Rows) (graph : KnowledgeGraph)
    (components : Components) : Except KeyError Rows := do
  let (g, change) ← components.groups.foldlM (mergeGraphNodes env) (graph.toGraph, {})
  let graph := { graph with toGraph := g }
  let ranked := graph.mapNodes fun n a => { a with pagerank := some (env.pagerank graph n) }
  setGraph rows { graph with toGraph := ranked } change

/-! ## What is noted -/

variable {env : ResolveEnv} {r r' : Resolving}

/-- The nodes that are noted stay the same from `change` to `change'`. -/
def SameNodes (change change' : GraphChange) : Prop :=
  change'.addedUpdatedNodes = change.addedUpdatedNodes ∧ change'.removedNodes = change.removedNodes

theorem mergeNeighbor_sameNodes {node0 node1 neighbor : String} {group neighbors0 : List String}
    (h : mergeNeighbor env node0 group neighbors0 node1 r neighbor = .ok r') :
    SameNodes r.2 r'.2 := by
  obtain ⟨g, change⟩ := r
  simp only [mergeNeighbor] at h
  split_ifs at h with hgroup hneighbor
  · obtain rfl := pure_eq_ok.mp h
    exact ⟨rfl, rfl⟩
  · obtain ⟨edge1, -, h⟩ := bind_eq_ok.mp h
    obtain ⟨edge0, -, h⟩ := bind_eq_ok.mp h
    obtain ⟨merged, -, h⟩ := bind_eq_ok.mp h
    obtain rfl := pure_eq_ok.mp h
    exact ⟨rfl, rfl⟩
  · obtain ⟨edge1, -, h⟩ := bind_eq_ok.mp h
    obtain rfl := pure_eq_ok.mp h
    exact ⟨rfl, rfl⟩

theorem mergeInto_sameNodes {node0 node1 : String} {group neighbors0 : List String}
    (h : mergeInto env node0 group neighbors0 r node1 = .ok r') : SameNodes r.2 r'.2 := by
  obtain ⟨g, change⟩ := r
  simp only [mergeInto] at h
  obtain ⟨a0, -, h⟩ := bind_eq_ok.mp h
  obtain ⟨a1, -, h⟩ := bind_eq_ok.mp h
  obtain ⟨d, -, h⟩ := bind_eq_ok.mp h
  obtain ⟨d', -, h⟩ := bind_eq_ok.mp h
  obtain ⟨s, -, h⟩ := bind_eq_ok.mp h
  obtain ⟨s', -, h⟩ := bind_eq_ok.mp h
  obtain ⟨merged, hfold, h⟩ := bind_eq_ok.mp h
  rw [← pure_eq_ok.mp h]
  show SameNodes change merged.2
  apply foldlM_induction (P := fun _ u => SameNodes change u.2) hfold
  · exact ⟨rfl, rfl⟩
  · intro done neighbor u v _ hu hv
    have hstep := mergeNeighbor_sameNodes hv
    exact ⟨hstep.1.trans hu.1, hstep.2.trans hu.2⟩

/-- Merging a group notes its first node as changed and the others as removed. -/
theorem mergeGraphNodes_noted {group : List String} (h : mergeGraphNodes env r group = .ok r')
    (htwo : 2 ≤ group.length) :
    ∃ node0 rest, group = node0 :: rest ∧ node0 ∈ r.1.nodes ∧
      r'.2.addedUpdatedNodes = r.2.addedUpdatedNodes.insert node0 ∧
      r'.2.removedNodes = r.2.removedNodes ∪ rest := by
  obtain ⟨g, change⟩ := r
  match group, htwo with
  | node0 :: node1 :: rest, _ =>
    simp only [mergeGraphNodes] at h
    obtain ⟨a, ha, h⟩ := bind_eq_ok.mp h
    obtain ⟨merged, hfold, h⟩ := bind_eq_ok.mp h
    obtain ⟨a0, -, h⟩ := bind_eq_ok.mp h
    rw [← pure_eq_ok.mp h]
    refine ⟨node0, node1 :: rest, rfl, Dict.mem_of_get? (require_eq_ok.mp ha), ?_⟩
    show SameNodes { change with
      addedUpdatedNodes := change.addedUpdatedNodes.insert node0
      removedNodes := change.removedNodes ∪ (node1 :: rest) } merged.2
    apply foldlM_induction (P := fun _ u => SameNodes _ u.2) hfold
    · exact ⟨rfl, rfl⟩
    · intro done node u v _ hu hv
      have hstep := mergeInto_sameNodes hv
      exact ⟨hstep.1.trans hu.1, hstep.2.trans hu.2⟩

end RagFlow.GraphRag
