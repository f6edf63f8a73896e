/-
# Adding and deleting nodes on the canvas

`addCanvasNode` gives each new node an id of its own. The start node of a group is another
matter: there is one object for iterations and one for loops, made when the module is loaded,
with an id from that time. Every new group puts this object into the store and writes its own
id into the object's `parentId`, which also changes the entries of the store that are this
object.
-/

import RagFlow.Editor.References

namespace RagFlow.Editor

inductive Position where
  | left | right | top | bottom
deriving DecidableEq

/-- The arguments of `addCanvasNode` beside the type. -/
structure AddParams where
  nodeId : Option String
  position : Position
  id : Option String
  isFromConnectionDrag : Bool

/-- The store, the ids of the two start nodes of the module, and what `humanId` has returned so
far. -/
structure EditorState where
  store : RFState
  iterationStartId : String
  loopStartId : String
  drawn : List String

/-- `undefined` and the empty string are false. -/
def truthy (x : Option String) : Option String := x.filter (· ≠ "")

def isBottomSubAgent (type : Operator) (position : Position) : Bool :=
  type = .agent && position = .bottom || type = .tool

/-- The type of the start node of a group. -/
def startOf : Option Operator → Option Operator
  | some .iteration => some .iterationStart
  | some .loop => some .loopStart
  | _ => none

/-- `updateNode` with a copy of the group, which differs in its size. -/
def resizeIterationNode (s : RFState) (parentId : String) : RFState :=
  match s.getNode parentId with
  | none => s
  | some parentNode =>
    { s with nodes := s.nodes.map fun x =>
        if x.id = parentNode.id then { parentNode with shared := false } else x }

/-- `GroupStartNodeMap`: the start node of the module for a type of group. -/
def EditorState.startId (s : EditorState) (operatorType : Operator) : String :=
  if operatorType = .iteration then s.iterationStartId else s.loopStartId

/-- The entries that are the start node of the module get the parent that is written into it. -/
def setSharedParent (nodes : List Node) (startLabel : Option Operator) (parentId : String) :
    List Node :=
  nodes.map fun x =>
    if x.shared && x.label = startLabel then { x with parentId := some parentId } else x

section Add

variable (addEdge : Connection → List Edge → List Edge)

def connectTo (s : RFState) (connection : Connection) : RFState :=
  { s with edges := addEdge connection s.edges }

def addGroupNode (s : EditorState) (operatorType : Operator) (newNode : Node)
    (nodeId : Option String) : RFState :=
  let startNode : Node :=
    { id := s.startId operatorType
      label := startOf (some operatorType)
      parentId := some newNode.id
      shared := true }
  let store : RFState :=
    { s.store with nodes := setSharedParent s.store.nodes startNode.label newNode.id }
  let store := (store.addNode newNode).addNode startNode
  match truthy nodeId with
  | none => store
  | some source => connectTo addEdge store
    { source := source
      target := newNode.id
      sourceHandle := some NodeHandleId.start
      targetHandle := some NodeHandleId.endHandle }

/-- An agent has one tool node. -/
def addToolNode (s : RFState) (newNode : Node) (nodeId : Option String) : RFState :=
  match nodeId.bind s.getNode, nodeId with
  | some _, some source =>
    let childToolNodeIds := (s.edges.filter fun x =>
      x.source = source && x.sourceHandle = some NodeHandleId.tool).map (·.target)
    if childToolNodeIds.head?.any fun first => s.nodes.any (·.id = first) then s
    else
      let store := s.addNode newNode
      match truthy nodeId with
      | none => store
      | some source => connectTo addEdge store
        { source := source
          target := newNode.id
          sourceHandle := some NodeHandleId.tool
          targetHandle := some NodeHandleId.endHandle }
  | _, _ => s

def addChildEdge (s : RFState) (position : Position) (source : Option String) (target : String)
    (sourceHandle : Option String) : RFState :=
  match truthy source, truthy sourceHandle with
  | some source, some sourceHandle =>
    if position = .right then connectTo addEdge s
      { source := source
        target := target
        sourceHandle := some sourceHandle
        targetHandle := some NodeHandleId.endHandle }
    else s
  | _, _ => s

/-- The new node, in the group that the source node is in. -/
def newCanvasNode (s : RFState) (type : Operator) (source : Option String) (suffix : String) :
    Node where
  id := nodeId type.value suffix
  label := some type
  parentId := truthy ((source.bind s.getNode).bind Node.parentId)
  shared := false

/-- The group around a new node grows where it has to, which depends on positions. -/
def resizeParent (s : RFState) (type : Operator) (position : Position) (grows : Bool) :
    Option String → RFState
  | some parentId =>
    if !isBottomSubAgent type position && grows then resizeIterationNode s parentId else s
  | none => s

/-- The new node goes into the store, with the edge that its type and position ask for. -/
def placeNode (s : EditorState) (type : Operator) (params : AddParams) (newNode : Node) : RFState :=
  if type = .iteration ∨ type = .loop then addGroupNode addEdge s type newNode params.nodeId
  else if type = .agent ∧ params.position = .bottom then
    match truthy params.nodeId with
    | none => s.store.addNode newNode
    | some source => connectTo addEdge (s.store.addNode newNode)
      { source := source
        target := newNode.id
        sourceHandle := some NodeHandleId.agentBottom
        targetHandle := some NodeHandleId.agentTop }
  else if type = .tool then addToolNode addEdge s.store newNode params.nodeId
  else addChildEdge addEdge (s.store.addNode newNode) params.position params.nodeId newNode.id
    params.id

def addCanvasNode (s : EditorState) (type : Operator) (params : AddParams) (grows : Bool)
    (humanId : ℕ → String) : EditorState :=
  let newNode := newCanvasNode s.store type params.nodeId (humanId 0)
  let resized : EditorState :=
    { s with store := resizeParent s.store type params.position grows newNode.parentId }
  { s with
    store := placeNode addEdge resized type params newNode
    drawn := s.drawn ++ [humanId 0] }

end Add

/-! ## Deleting what is selected -/

/-- `UndeletableNodes`. -/
def undeletableNodes : List Operator := [.begin, .iterationStart]

/-- `toBeDeletedNodes`, before the agents are seen to. -/
def toBeDeletedNodes (nodes : List Node) : List Node :=
  nodes.filter fun node =>
    node.label ≠ some .begin &&
      !(node.label = some .iterationStart && !nodes.any fun x => some x.id = node.parentId)

def toBeDeletedEdges (s : RFState) (nodes : List Node) (edges : List Edge) : List Edge :=
  edges.filter fun edge =>
    !(((s.getNode edge.source).bind Node.label).any (· ∈ undeletableNodes) &&
        !nodes.any (·.id = edge.target)) || !nodes.any (·.id = edge.source)

/-- The node is added to those to be deleted, unless it is there or not in the store. -/
def pushNode (s : RFState) (pre : List Node) (id : String) : List Node :=
  match s.getNode id with
  | some currentNode => if pre.all (·.id ≠ id) then pre ++ [currentNode] else pre
  | none => pre

def pushEdge (pre : List Edge) (edge : Edge) : List Edge :=
  if pre.all (·.id ≠ edge.id) then pre ++ [edge] else pre

/-- `handleBeforeDelete`, with the nodes and the edges that the flow library is about to delete.
It rejects where the recursion below an agent does not end. -/
def handleBeforeDelete (s : RFState) (nodes : List Node) (edges : List Edge) :
    Option (List Node × List Edge) :=
  (nodes.filter fun node => (s.getNode node.id).bind Node.label = some .agent).foldlM
    (fun acc node =>
      (deleteAllDownstreamAgentsAndTool node.id edges).map fun found =>
        (found.1.foldl (pushNode s) acc.1, found.2.foldl pushEdge acc.2))
    (toBeDeletedNodes nodes, toBeDeletedEdges s nodes edges)

/-- The nodes and edges go, and what stays are copies (`onNodesChange`). -/
def deleteElements (s : RFState) (nodes : List Node) (edges : List Edge) : RFState :=
  match handleBeforeDelete s nodes edges with
  | none => s
  | some (deletedNodes, deletedEdges) =>
    { nodes := (s.nodes.filter fun x => !deletedNodes.any (·.id = x.id)).map
        fun x => { x with shared := false }
      edges := s.edges.filter fun x => !deletedEdges.any (·.id = x.id) }

/-! ## The operations -/

/-- What changes the nodes of the canvas. -/
inductive EditorOp where
  | addCanvasNode (type : Operator) (params : AddParams) (grows : Bool)
  | duplicateNode (id : String)
  | deleteNodeById (id : String)
  | deleteIterationNodeById (id : String)
  | deleteAgentToolNodeById (id : String)
  /-- The selected nodes and edges are deleted with a key. -/
  | deleteElements (ids : List String) (edges : List Edge)
  /-- The flow library reports changes such as the measured size of a node, upon which all nodes
  are copied. -/
  | onNodesChange

/-- How many times `duplicateNode` calls `humanId`. -/
def duplicateDraws (s : RFState) (id : String) : ℕ :=
  match s.getNode id with
  | some node =>
    if node.label = some .iteration then
      (s.nodes.filter (·.parentId = some node.id)).length + 1
    else 1
  | none => 1

def EditorState.withStore (s : EditorState) (store : RFState) : EditorState :=
  { s with store := store }

def EditorOp.apply (addEdge : Connection → List Edge → List Edge) (humanId : ℕ → String)
    (s : EditorState) : EditorOp → EditorState
  | .addCanvasNode type params grows =>
    RagFlow.Editor.addCanvasNode addEdge s type params grows humanId
  | .duplicateNode id =>
    { s with
      store := s.store.duplicateNode id humanId
      drawn := s.drawn ++ (List.range (duplicateDraws s.store id)).map humanId }
  | .deleteNodeById id => s.withStore (s.store.deleteNodeById id)
  | .deleteIterationNodeById id => s.withStore (s.store.deleteIterationNodeById id)
  | .deleteAgentToolNodeById id => s.withStore (s.store.deleteAgentToolNodeById id)
  | .deleteElements ids edges =>
    s.withStore (RagFlow.Editor.deleteElements s.store (ids.filterMap s.store.getNode) edges)
  | .onNodesChange =>
    s.withStore { s.store with nodes := s.store.nodes.map fun x => { x with shared := false } }

/-- The editor when the module is loaded, with the first two names that `humanId` returns. -/
def editorStart (first second : String) : EditorState where
  store := initialGraph
  iterationStartId := nodeId Operator.iterationStart.value first
  loopStartId := nodeId Operator.loopStart.value second
  drawn := [first, second]

end RagFlow.Editor
