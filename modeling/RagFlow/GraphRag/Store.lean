/-
# Building the graph of a dataset in the document store

The document store holds one row with the graph, one with the subgraph of each
document, and one for every entity and relation. `generate_subgraph` extracts the
subgraph of a document, unless the graph contains the document already;
`load_subgraph_from_store` takes up a subgraph that an earlier run has written;
`merge_subgraph` merges a subgraph into the graph and `set_graph` writes the result.
-/

import RagFlow.GraphRag.KnowledgeGraph
import Mathlib.Order.Basic

namespace RagFlow.GraphRag

open RagFlow.Math

/-! ## Rows -/

/-- A row of the store, by its `knowledge_graph_kwd`. The content of a graph row is the
graph itself; writing it as node-link data and reading it back gives the same graph. -/
inductive Row where
  | graph (g : KnowledgeGraph) (sourceId : List String) (removed : Bool)
  | subgraph (g : KnowledgeGraph) (sourceId : List String) (removed : Bool)
  | entity (name : String) (attrs : NodeAttr)
  | relation (source target : String) (attrs : EdgeAttr)

abbrev Rows := List Row

def Row.isGraph : Row → Bool
  | .graph .. => true
  | _ => false

/-- The subgraph in a row, and the documents it is for. -/
def Row.subgraph? : Row → Option (KnowledgeGraph × List String)
  | .subgraph g sourceId _ => some (g, sourceId)
  | _ => none

/-- `does_graph_contains`. -/
def doesGraphContains (rows : Rows) (docId : String) : Bool :=
  (rows.findSome? fun
    | .graph _ sourceId false => some (decide (docId ∈ sourceId))
    | _ => none).getD false

/-- `load_subgraph_from_store`. -/
def loadSubgraphFromStore (rows : Rows) (docId : String) : Option KnowledgeGraph :=
  rows.findSome? fun
    | .subgraph g sourceId false =>
      if docId ∈ sourceId then some { g with sourceId := some [docId] } else none
    | _ => none

/-! ## Rebuilding and reading the graph -/

/-- `dict.update`. -/
def NodeAttr.update (a b : NodeAttr) : NodeAttr where
  entityType := b.entityType <|> a.entityType
  description := b.description <|> a.description
  sourceId := b.sourceId <|> a.sourceId
  rank := b.rank <|> a.rank
  pagerank := b.pagerank <|> a.pagerank

def EdgeAttr.update (a b : EdgeAttr) : EdgeAttr where
  weight := b.weight <|> a.weight
  description := b.description <|> a.description
  keywords := b.keywords <|> a.keywords
  sourceId := b.sourceId <|> a.sourceId

/-- A node that is in both composed graphs has the sources of both. -/
def composeNode (a b : NodeAttr) : Except KeyError NodeAttr := do
  let s ← require "source_id" a.sourceId
  let s' ← require "source_id" b.sourceId
  return { a.update b with sourceId := some (s ++ s') }

/-- One turn of the loop of `rebuild_graph`. -/
def composeGraph (graph next : KnowledgeGraph) : Except KeyError KnowledgeGraph := do
  let merged ← Graph.merge composeNode (fun a b => .ok (a.update b)) graph.toGraph next.toGraph
  let s' ← require "source_id" next.sourceId
  return { toGraph := merged, sourceId := some (graph.sourceId.getD [] ++ s') }

/-- The number of rows that `rebuild_graph` reads at most, 256 a page. -/
def maxSubgraphs : ℕ := 1024 * 256

/-- `rebuild_graph`: compose the stored subgraphs, except those of the given documents. -/
def rebuildGraph (rows : Rows) (excludeRebuild : List String) :
    Except KeyError (Option KnowledgeGraph) := do
  let found := (rows.filterMap Row.subgraph?).take maxSubgraphs
  let subgraphs := found.filterMap fun r =>
    if excludeRebuild.any (· ∈ r.2) then none else some r.1
  let graph ← subgraphs.foldlM composeGraph { toGraph := Graph.empty }
  if graph.nodes.entries.isEmpty then return none
  else
    let sourceId ← require "source_id" graph.sourceId
    return some { graph with sourceId := some (sourceId.mergeSort fun a b => a ≤ b) }

/-- `get_graph`. An exception while the graph is rebuilt counts as no graph. -/
def getGraph (rows : Rows) (excludeRebuild : List String) : Option KnowledgeGraph :=
  match rows.find? Row.isGraph with
  | some (.graph g sourceId removed) =>
    if removed then
      match rebuildGraph rows excludeRebuild with
      | .ok graph => graph
      | .error _ => none
    else some { g with sourceId := some (g.sourceId.getD sourceId) }
  | _ => none

/-! ## `set_graph` -/

/-- `graph_node_to_chunk`, which reads these attributes. -/
def graphNodeToChunk (name : String) (attrs : NodeAttr) : Except KeyError Row := do
  let _ ← require "entity_type" attrs.entityType
  let _ ← require "description" attrs.description
  let _ ← require "source_id" attrs.sourceId
  return .entity name attrs

/-- `graph_edge_to_chunk`, which reads these attributes. -/
def graphEdgeToChunk (source target : String) (attrs : EdgeAttr) : Except KeyError Row := do
  let _ ← require "description" attrs.description
  let _ ← require "keywords" attrs.keywords
  let _ ← require "source_id" attrs.sourceId
  let _ ← require "weight" attrs.weight
  return .relation source target attrs

/-- The row with the part of the graph that comes from one document. -/
def subgraphRow (graph : KnowledgeGraph) (source : String) : Except KeyError Row := do
  let _ ← graph.nodes.entries.mapM fun n => require "source_id" n.2.sourceId
  let part := graph.filterNodes fun _ a => source ∈ a.sourceId.getD []
  let part := part.mapNodes fun _ a => { a with sourceId := some [source] }
  return .subgraph { toGraph := part, sourceId := some [source] } [source] false

def EdgeAttr.isEmpty (a : EdgeAttr) : Bool :=
  a.weight.isNone && a.description.isNone && a.keywords.isNone && a.sourceId.isNone

/-- The rows that `set_graph` deletes from the index. -/
def GraphChange.deletes (change : GraphChange) : Row → Bool
  | .graph .. | .subgraph .. => true
  | .entity name _ => name ∈ change.removedNodes
  | .relation source target _ => (source, target) ∈ change.removedEdges

/-- `set_graph`. -/
def setGraph (rows : Rows) (graph : KnowledgeGraph) (change : GraphChange) :
    Except KeyError Rows := do
  let kept := rows.filter fun row => !change.deletes row
  let sources ← require "source_id" graph.sourceId
  let subgraphs ← sources.mapM (subgraphRow graph)
  let entities ← change.addedUpdatedNodes.mapM fun n => do
    graphNodeToChunk n (← require n (graph.nodes.get? n))
  let present := change.addedUpdatedEdges.filterMap fun p =>
    ((graph.edges.get? s(p.1, p.2)).filter fun a => !a.isEmpty).map fun a => (p, a)
  let relations ← present.mapM fun e => graphEdgeToChunk e.1.1 e.1.2 e.2
  return kept ++ .graph graph sources false :: subgraphs ++ entities ++ relations

/-! ## The build of one document -/

/-- What an extractor finds in the chunks of a document. -/
structure Extraction where
  ents : List (String × NodeAttr)
  rels : List (String × String × EdgeAttr)

/-- The parts of a build that come from outside: the extraction, which may fail, and
the page rank. -/
structure BuildEnv where
  extract : String → List String → Option Extraction
  pagerank : KnowledgeGraph → String → ℚ

abbrev PlainGraph := Graph String NodeAttr EdgeAttr

/-- Add an entity of a document; the description is asserted. -/
def addEntity (docId : String) (g : PlainGraph) (ent : String × NodeAttr) : Option PlainGraph :=
  if ent.2.description.isNone then none
  else
    let attrs := { ent.2 with sourceId := some [docId] }
    some (g.setNode ent.1 (((g.nodes.get? ent.1).getD {}).update attrs))

/-- Add a relation of a document, unless an entity is missing. -/
def addRelation (docId : String) (g : PlainGraph) (rel : String × String × EdgeAttr) :
    Option PlainGraph :=
  if rel.2.2.description.isNone then none
  else if h : ∀ k ∈ s(rel.1, rel.2.1).toFinset, k ∈ g.nodes then
    let attrs := { rel.2.2 with sourceId := some [docId] }
    some (g.setEdge s(rel.1, rel.2.1)
      (((g.edges.get? s(rel.1, rel.2.1)).getD {}).update attrs)
      fun k hk => h k (Sym2.mem_toFinset.mpr hk))
  else some g

/-- `generate_subgraph`: `none` where the graph contains the document already or the
extraction fails. The subgraph replaces the one stored for the document. -/
def generateSubgraph (env : BuildEnv) (rows : Rows) (docId : String) (chunks : List String) :
    Option KnowledgeGraph × Rows :=
  if doesGraphContains rows docId then (none, rows)
  else
    let built := do
      let found ← env.extract docId chunks
      let g ← found.ents.foldlM (addEntity docId) Graph.empty
      found.rels.foldlM (addRelation docId) g
    match built with
    | none => (none, rows)
    | some g =>
      let subgraph := { tidyGraph { toGraph := g } false with sourceId := some [docId] }
      let kept := rows.filter fun
        | .subgraph _ sourceId _ => docId ∉ sourceId
        | _ => true
      (some subgraph, kept ++ [.subgraph subgraph [docId] false])

/-- `build_one`: take the subgraph of a document from the store or generate it. A graph
without nodes is false. -/
def buildOne (env : BuildEnv) (rows : Rows) (docId : String) (chunks : List String) :
    Option KnowledgeGraph × Rows :=
  if chunks = [] then (none, rows)
  else
    match (loadSubgraphFromStore rows docId).filter fun g => !g.nodes.entries.isEmpty with
    | some existing => (some existing, rows)
    | none =>
      let (generated, rows) := generateSubgraph env rows docId chunks
      (generated.filter fun g => !g.nodes.entries.isEmpty, rows)

/-- `merge_subgraph`. -/
def mergeSubgraph (env : BuildEnv) (rows : Rows) (subgraph : KnowledgeGraph) :
    Except KeyError Rows := do
  let sources ← require "source_id" subgraph.sourceId
  let (graph, change) ← match getGraph rows sources with
    | some old => graphMerge (tidyGraph old true) subgraph {}
    | none => pure (subgraph, ({
        addedUpdatedNodes := subgraph.nodes.keys
        addedUpdatedEdges := subgraph.edges.keys.map fun e => subgraph.ends e } : GraphChange))
  let ranked := graph.mapNodes fun n a => { a with pagerank := some (env.pagerank graph n) }
  setGraph rows { graph with toGraph := ranked } change

/-- The build of one document: its subgraph, if there is one, is merged. -/
def buildDocument (env : BuildEnv) (rows : Rows) (docId : String) (chunks : List String) :
    Except KeyError Rows :=
  match buildOne env rows docId chunks with
  | (none, rows) => .ok rows
  | (some subgraph, rows) => mergeSubgraph env rows subgraph

end RagFlow.GraphRag
