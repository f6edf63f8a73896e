/-
# The graph store of the workflow editor

The store holds the nodes and the edges of the canvas, and the operations by which the editor
changes them. Names, forms, positions and what else a node shows are left out; which nodes
and edges there are does not depend on them. The nodes below an agent are collected by a
recursion along the edges, which does not come back on a cycle.
-/

import RagFlow.Math.Run
import Mathlib.Data.List.Basic

namespace RagFlow.Editor

open RagFlow.Math

/-- The kinds of nodes. -/
inductive Operator where
  | begin | retrieval | categorize | message | rewriteQuestion | duckDuckGo | wikipedia | pubMed
  | arXiv | google | bing | googleScholar | gitHub | exeSQL | switch | wenCai | yahooFinance
  | note | crawler | invoke | email | iteration | iterationStart | code | waitingDialogue | agent
  | tool | tavilySearch | tavilyExtract | userFillUp | stringTransform | searXNG | docGenerator
  | placeholder | dataOperations | listOperations | variableAssigner | variableAggregator | file
  | parser | tokenizer | tokenChunker | titleChunker | extractor | loop | loopStart | exitLoop
  | excelProcessor
deriving DecidableEq

/-- The value of the enumeration. -/
def Operator.value : Operator → String
  | begin => "Begin"
  | retrieval => "Retrieval"
  | categorize => "Categorize"
  | message => "Message"
  | rewriteQuestion => "RewriteQuestion"
  | duckDuckGo => "DuckDuckGo"
  | wikipedia => "Wikipedia"
  | pubMed => "PubMed"
  | arXiv => "ArXiv"
  | google => "Google"
  | bing => "Bing"
  | googleScholar => "GoogleScholar"
  | gitHub => "GitHub"
  | exeSQL => "ExeSQL"
  | switch => "Switch"
  | wenCai => "WenCai"
  | yahooFinance => "YahooFinance"
  | note => "Note"
  | crawler => "Crawler"
  | invoke => "Invoke"
  | email => "Email"
  | iteration => "Iteration"
  | iterationStart => "IterationItem"
  | code => "CodeExec"
  | waitingDialogue => "WaitingDialogue"
  | agent => "Agent"
  | tool => "Tool"
  | tavilySearch => "TavilySearch"
  | tavilyExtract => "TavilyExtract"
  | userFillUp => "UserFillUp"
  | stringTransform => "StringTransform"
  | searXNG => "SearXNG"
  | docGenerator => "DocGenerator"
  | placeholder => "Placeholder"
  | dataOperations => "DataOperations"
  | listOperations => "ListOperations"
  | variableAssigner => "VariableAssigner"
  | variableAggregator => "VariableAggregator"
  | file => "File"
  | parser => "Parser"
  | tokenizer => "Tokenizer"
  | tokenChunker => "TokenChunker"
  | titleChunker => "TitleChunker"
  | extractor => "Extractor"
  | loop => "Loop"
  | loopStart => "LoopItem"
  | exitLoop => "ExitLoop"
  | excelProcessor => "ExcelProcessor"

/-- A node of the canvas. A label is missing from the copy of a node that is not there. -/
structure Node where
  id : String
  label : Option Operator
  parentId : Option String
  /-- This entry is the start node that the module itself holds on to, not an object of its
  own. -/
  shared : Bool
deriving DecidableEq

structure Connection where
  source : String
  target : String
  sourceHandle : Option String
  targetHandle : Option String
deriving DecidableEq

structure Edge extends Connection where
  id : String
deriving DecidableEq

namespace NodeHandleId

def start : String := "start"
def endHandle : String := "end"
def tool : String := "tool"
def agentTop : String := "agentTop"
def agentBottom : String := "agentBottom"
def agentException : String := "agentException"

end NodeHandleId

structure RFState where
  nodes : List Node
  edges : List Edge
deriving DecidableEq

/-! ## The nodes below an agent -/

/-- The targets of the edges that leave a node and satisfy the predicate. -/
def downstreamNodeIds (edges : List Edge) (predicate : Edge → Bool) (nodeId : String) :
    List String :=
  (edges.filter fun x => x.source = nodeId && predicate x).map (·.target)

/-- `pre.every((y) => y !== x)` and `pre.push(x)`, for every `x`. -/
def pushNew (pre ids : List String) : List String :=
  ids.foldl (fun pre x => if x ∈ pre then pre else pre ++ [x]) pre

/-- All node ids downstream. The recursion comes to an end only where the edges do not go round
in a circle; `fuel` bounds its depth. -/
def filterAllDownstreamNodeIds (edges : List Edge) (predicate : Edge → Bool) :
    ℕ → List String → Option (List String)
  | 0, _ => none
  | fuel + 1, nodeIds =>
    nodeIds.foldlM (fun pre nodeId =>
      (filterAllDownstreamNodeIds edges predicate fuel
        (downstreamNodeIds edges predicate nodeId)).map fun below =>
          pushNew pre (downstreamNodeIds edges predicate nodeId ++ below)) []

/-- A handle that leads to a sub-agent or a tool. -/
def isAgentEdge (edge : Edge) : Bool :=
  edge.sourceHandle = some NodeHandleId.agentBottom || edge.sourceHandle = some NodeHandleId.tool

/-- A depth that every recursion which ends at all keeps to. -/
def filterAllDownstreamAgentAndToolNodeIds (edges : List Edge) (nodeIds : List String) :
    Option (List String) :=
  filterAllDownstreamNodeIds edges isAgentEdge (edges.length + 2) nodeIds

/-- The edge has an end at the node. -/
def Edge.touches (x : Edge) (id : String) : Bool := x.source = id || x.target = id

/-- `relatedEdges.forEach`. An edge is pushed unless an edge with another id is there. -/
def pushRelated (pre relatedEdges : List Edge) : List Edge :=
  relatedEdges.foldl (fun pre x => if !pre.any (fun y => y.id ≠ x.id) then pre ++ [x] else pre) pre

/-- The agents and tools downstream of an agent, and the edges to go with them. -/
def deleteAllDownstreamAgentsAndTool (nodeId : String) (edges : List Edge) :
    Option (List String × List Edge) :=
  (filterAllDownstreamAgentAndToolNodeIds edges [nodeId]).map fun ids =>
    (ids, ids.foldl (fun pre cur => pushRelated pre (edges.filter (·.touches cur))) [])

/-! ### What the recursion finds -/

/-- An edge that satisfies the predicate leads from one node to the other. -/
def Downstream (edges : List Edge) (predicate : Edge → Bool) (a b : String) : Prop :=
  ∃ e ∈ edges, e.source = a ∧ predicate e = true ∧ e.target = b

section Recursion

variable {edges : List Edge} {predicate : Edge → Bool} {fuel : ℕ} {nodeIds pre ids : List String}
  {a b x : String}

theorem mem_downstreamNodeIds :
    b ∈ downstreamNodeIds edges predicate a ↔ Downstream edges predicate a b := by
  simp [downstreamNodeIds, Downstream, and_assoc]

theorem mem_pushNew : x ∈ pushNew pre ids ↔ x ∈ pre ∨ x ∈ ids := by
  unfold pushNew
  induction ids generalizing pre with
  | nil => simp
  | cons y ids ih =>
      rw [List.foldl_cons, ih]
      split_ifs with hmem
      · constructor
        · rintro (hx | hx)
          · exact Or.inl hx
          · exact Or.inr (List.mem_cons_of_mem y hx)
        · rintro (hx | hx)
          · exact Or.inl hx
          · rcases List.mem_cons.mp hx with rfl | hx
            · exact Or.inl hmem
            · exact Or.inr hx
      · simp [or_assoc]

theorem prefix_pushNew : pre <+: pushNew pre ids := by
  unfold pushNew
  induction ids generalizing pre with
  | nil => exact List.prefix_refl pre
  | cons y ids ih =>
      rw [List.foldl_cons]
      split_ifs
      · exact ih
      · exact (List.prefix_append pre [y]).trans ih

/-- The loop over the nodes raises where the recursion for one of them does. -/
theorem filterAllDownstreamNodeIds_isSome_succ :
    (filterAllDownstreamNodeIds edges predicate (fuel + 1) nodeIds).isSome ↔
      ∀ a ∈ nodeIds, (filterAllDownstreamNodeIds edges predicate fuel
        (downstreamNodeIds edges predicate a)).isSome := by
  rw [filterAllDownstreamNodeIds]
  generalize ([] : List String) = pre
  induction nodeIds generalizing pre with
  | nil => simp
  | cons a nodeIds ih =>
      rw [List.foldlM_cons, List.forall_mem_cons]
      cases filterAllDownstreamNodeIds edges predicate fuel
          (downstreamNodeIds edges predicate a) with
      | none => simp
      | some below => simpa using ih _

/-- The depth suffices exactly if it exceeds the length of every way down. -/
theorem filterAllDownstreamNodeIds_isSome_iff :
    (filterAllDownstreamNodeIds edges predicate fuel nodeIds).isSome ↔
      0 < fuel ∧ ∀ a ∈ nodeIds, ∀ n b, Run (Downstream edges predicate) a n b → n + 1 < fuel := by
  induction fuel generalizing nodeIds with
  | zero => simp [filterAllDownstreamNodeIds]
  | succ fuel ih =>
      rw [filterAllDownstreamNodeIds_isSome_succ]
      simp only [ih, mem_downstreamNodeIds, Nat.succ_pos, true_and]
      refine forall₂_congr fun a _ => ?_
      constructor
      · rintro ⟨hpos, hbelow⟩ n b hrun
        cases n with
        | zero => omega
        | succ n =>
            obtain ⟨m, hfirst, hrest⟩ := Run.splitAt hrun (Nat.le_add_left 1 n)
            obtain ⟨_, hstart, hstep⟩ := Run.succ_iff.mp hfirst
            obtain rfl := Run.zero_iff.mp hstart
            have := hbelow m hstep _ b hrest
            omega
      · intro hrun
        refine ⟨by have := hrun 0 a .refl; omega, fun m hstep n b hrest => ?_⟩
        have := hrun (n + 1) b (hrest.head hstep)
        omega

/-- What is found does not depend on the depth. -/
theorem filterAllDownstreamNodeIds_succ
    (h : filterAllDownstreamNodeIds edges predicate fuel nodeIds = some ids) :
    filterAllDownstreamNodeIds edges predicate (fuel + 1) nodeIds = some ids := by
  induction fuel generalizing nodeIds ids with
  | zero => cases h
  | succ fuel ih =>
      rw [filterAllDownstreamNodeIds] at h ⊢
      generalize ([] : List String) = pre at h ⊢
      induction nodeIds generalizing pre with
      | nil => exact h
      | cons a nodeIds ihNodes =>
          rw [List.foldlM_cons] at h ⊢
          cases hbelow : filterAllDownstreamNodeIds edges predicate fuel
              (downstreamNodeIds edges predicate a) with
          | none => simp [hbelow] at h
          | some below =>
              rw [hbelow] at h
              rw [ih hbelow]
              exact ihNodes _ h

/-- A recursion that ends at some depth ends at the one that is allowed, with the same result. -/
theorem filterAllDownstreamNodeIds_enough
    (h : filterAllDownstreamNodeIds edges predicate fuel nodeIds = some ids) :
    filterAllDownstreamNodeIds edges predicate (edges.length + 2) nodeIds = some ids := by
  have hmono : ∀ {k l ids}, k ≤ l →
      filterAllDownstreamNodeIds edges predicate k nodeIds = some ids →
      filterAllDownstreamNodeIds edges predicate l nodeIds = some ids := by
    intro k l ids hle hk
    induction hle with
    | refl => exact hk
    | step _ ih => exact filterAllDownstreamNodeIds_succ ih
  have hbound := (filterAllDownstreamNodeIds_isSome_iff.mp (Option.isSome_of_eq_some h)).2
  have hsome : (filterAllDownstreamNodeIds edges predicate (edges.length + 2) nodeIds).isSome := by
    refine filterAllDownstreamNodeIds_isSome_iff.mpr ⟨Nat.succ_pos _, fun a ha n b hrun => ?_⟩
    have hle := Run.length_le_of_bounded (edges.map (·.source))
      (fun a b ⟨e, he, hsource, _⟩ => List.mem_map.mpr ⟨e, he, hsource⟩)
      (fun n b hrun => Nat.lt_of_succ_lt (hbound a ha n b hrun)) hrun
    rw [List.length_map] at hle
    omega
  obtain ⟨ids', hids'⟩ := Option.isSome_iff_exists.mp hsome
  have hmax := hmono (le_max_left fuel (edges.length + 2)) h
  have hmax' := hmono (le_max_right fuel (edges.length + 2)) hids'
  rw [hids', ← hmax', hmax]

/-- The ids found are those of the nodes further down. -/
theorem mem_filterAllDownstreamNodeIds
    (h : filterAllDownstreamNodeIds edges predicate fuel nodeIds = some ids) :
    x ∈ ids ↔ ∃ a ∈ nodeIds, Relation.TransGen (Downstream edges predicate) a x := by
  induction fuel generalizing nodeIds ids x with
  | zero => cases h
  | succ fuel ih =>
      rw [filterAllDownstreamNodeIds] at h
      suffices hgen : ∀ pre, List.foldlM (fun pre nodeId =>
          (filterAllDownstreamNodeIds edges predicate fuel
            (downstreamNodeIds edges predicate nodeId)).map fun below =>
              pushNew pre (downstreamNodeIds edges predicate nodeId ++ below)) pre nodeIds =
            some ids →
          (x ∈ ids ↔ x ∈ pre ∨
            ∃ a ∈ nodeIds, Relation.TransGen (Downstream edges predicate) a x) by
        simpa using hgen [] h
      intro pre hpre
      clear h
      induction nodeIds generalizing pre with
      | nil =>
          obtain rfl := Option.some.inj hpre
          simp
      | cons a nodeIds ihNodes =>
          rw [List.foldlM_cons] at hpre
          cases hbelow : filterAllDownstreamNodeIds edges predicate fuel
              (downstreamNodeIds edges predicate a) with
          | none => simp [hbelow] at hpre
          | some below =>
              rw [hbelow] at hpre
              have hdown : x ∈ downstreamNodeIds edges predicate a ++ below ↔
                  Relation.TransGen (Downstream edges predicate) a x := by
                rw [List.mem_append, ih hbelow, Relation.TransGen.head'_iff,
                  mem_downstreamNodeIds]
                simp only [mem_downstreamNodeIds, Relation.reflTransGen_iff_eq_or_transGen]
                constructor
                · rintro (hstep | ⟨b, hab, hbx⟩)
                  · exact ⟨x, hstep, Or.inl rfl⟩
                  · exact ⟨b, hab, Or.inr hbx⟩
                · rintro ⟨b, hab, rfl | hbx⟩
                  · exact Or.inl hab
                  · exact Or.inr ⟨b, hab, hbx⟩
              rw [ihNodes _ hpre, mem_pushNew, hdown, List.exists_mem_cons_iff, or_assoc]

end Recursion

/-! ## The operations of the store -/

/-- The id of a node with the label that `humanId` gives it. -/
def nodeId (label suffix : String) : String := label ++ ":" ++ suffix

/-- The label as text, which is empty where there is none. -/
def labelText (label : Option Operator) : String := label.elim "" Operator.value

namespace RFState

def getNode (s : RFState) (id : String) : Option Node := s.nodes.find? (·.id = id)

def addNode (s : RFState) (node : Node) : RFState := { s with nodes := s.nodes ++ [node] }

/-- `duplicateIterationNode`: the group and its children. `humanId` lists what the calls of this
operation return. -/
def duplicateIterationNode (s : RFState) (node : Node) (humanId : ℕ → String) : RFState :=
  let iterationNode : Node :=
    { node with id := nodeId (labelText node.label) (humanId 0), shared := false }
  let children := (s.nodes.filter (·.parentId = some node.id)).mapIdx fun i (x : Node) =>
    { x with
      id := nodeId (labelText x.label) (humanId (i + 1))
      parentId := some iterationNode.id
      shared := false }
  { s with nodes := s.nodes ++ iterationNode :: children }

def duplicateNode (s : RFState) (id : String) (humanId : ℕ → String) : RFState :=
  match s.getNode id with
  | none =>
    s.addNode
      { id := nodeId "undefined" (humanId 0), label := none, parentId := none, shared := false }
  | some node =>
    if node.label = some .iteration then s.duplicateIterationNode node humanId
    else s.addNode
      { node with id := nodeId (labelText node.label) (humanId 0), shared := false }

def deleteEdgeById (s : RFState) (id : String) : RFState :=
  { s with edges := s.edges.filter (·.id ≠ id) }

/-- `deleteAgentDownstreamNodesById`. A recursion without end raises, and nothing is set. -/
def deleteAgentDownstreamNodesById (s : RFState) (id : String) : RFState :=
  match deleteAllDownstreamAgentsAndTool id s.edges with
  | none => s
  | some (downstreamAgentAndToolNodeIds, downstreamAgentAndToolEdges) =>
    { nodes := s.nodes.filter fun node =>
        !downstreamAgentAndToolNodeIds.any (· = node.id) && node.id ≠ id
      edges := s.edges.filter fun edge =>
        edge.source ≠ id && edge.target ≠ id &&
          !downstreamAgentAndToolEdges.any (·.id = edge.id) }

def deleteNodeById (s : RFState) (id : String) : RFState :=
  if (s.getNode id).bind Node.label = some .agent then s.deleteAgentDownstreamNodesById id
  else
    { nodes := s.nodes.filter (·.id ≠ id)
      edges := (s.edges.filter (·.source ≠ id)).filter (·.target ≠ id) }

def deleteAgentToolNodeById (s : RFState) (id : String) : RFState :=
  match s.edges.find? fun x => x.source = id && x.sourceHandle = some NodeHandleId.tool with
  | none => s
  | some edge => (s.deleteEdgeById edge.id).deleteNodeById edge.target

def deleteIterationNodeById (s : RFState) (id : String) : RFState :=
  let children := s.nodes.filter (·.parentId = some id)
  { nodes := s.nodes.filter fun node => node.id ≠ id && node.parentId ≠ some id
    edges := s.edges.filter fun edge =>
      edge.source ≠ id && edge.target ≠ id &&
        !children.any fun child => edge.source = child.id && edge.target = child.id }

end RFState

/-- The id of the first node. -/
def beginId : String := "begin"

/-- The canvas to begin with. -/
def initialGraph : RFState where
  nodes := [{ id := beginId, label := some .begin, parentId := none, shared := false }]
  edges := []

end RagFlow.Editor
