/-
# From the graph to the components of the server

`buildDslData` turns the graph of the canvas into the components that the server runs.
Sub-agents and tools are no components of their own: `buildAgentTools` folds the sub-agents into
the parameters of the agent above them, by a recursion along the edges of the handle
`agentBottom`, which does not come back on a cycle. The tools of an agent are in its form, and a
Tool node only shows them.
-/

import RagFlow.Editor.Store
import RagFlow.Math.Dict

namespace RagFlow.Editor

open RagFlow.Math

/-! ## Nodes with their forms -/

/-- A tool in the form of an agent. -/
structure Tool (π : Type*) where
  componentName : String
  name : String
  id : String
  params : π

structure CategorizeItem where
  name : String
  uuid : String
  description : Option String
  index : ℕ
  examples : Option (List String)

/-- A node as the compiler reads it. The fields `tools` of the form of an agent and `items` of
that of a Categorize are kept apart from the others, and a form that is missing is `{}`. -/
structure FlowNode (π : Type*) extends Node where
  name : String
  tools : List (Tool π)
  items : List CategorizeItem
  form : π

/-- An entry of the tools of a component: a tool, or an agent with its own parameters. -/
inductive AgentTool (π : Type*)
  | tool (tool : Tool π)
  | agent (id name : Option String) (tools : List (AgentTool π)) (form : π)

structure CategoryResult where
  description : Option String
  index : ℕ
  examples : List String
  /-- `to`. -/
  toIds : List String

/-- The parameters of a component, of which an operator other than Agent and Categorize has the
form only. -/
structure Params (π : Type*) where
  form : π
  tools : List (AgentTool π)
  exceptionGoto : List String
  categoryDescription : Dict String CategoryResult

/-- The fields of an old component are all assigned anew. -/
structure Component (π : Type*) where
  componentName : Option Operator
  params : Params π
  downstream : List String
  upstream : List String
  parentId : Option String

/-- The functions that rearrange the remaining fields of a form. -/
structure Transforms (π : Type*) where
  parserParams : π → π
  tokenChunkerParams : π → π
  titleChunkerParams : π → π
  extractorParams : π → π
  dataOperationsParams : π → π
  beginParams : π → π
  removeUselessFieldsFromValues : π → π

section Compiler

variable {π : Type*} [EmptyCollection π]

def findNode (nodes : List (FlowNode π)) (nodeId : String) : Option (FlowNode π) :=
  nodes.find? fun x => x.id = nodeId

/-- `node?.data.label` of the node with that id. -/
def labelOf (nodes : List (FlowNode π)) (nodeId : String) : Option Operator :=
  (findNode nodes nodeId).bind (·.label)

def startsWith (text start : String) : Bool := start.toList.isPrefixOf text.toList

/-! ## The links between components -/

def buildAgentExceptionGoto (edges : List Edge) (nodeId : String) : List String :=
  (edges.filter fun x =>
    x.source = nodeId && x.sourceHandle = some NodeHandleId.agentException).map (·.target)

/-- `buildComponentDownstreamOrUpstream(edges, nodeId, true, nodes)`. -/
def buildDownstream (edges : List Edge) (nodeId : String) (nodes : List (FlowNode π)) :
    List String :=
  (edges.filter fun y =>
    y.source = nodeId &&
      (labelOf nodes nodeId ≠ some .agent ||
        -- Neither the tools nor the agents below an agent follow it.
        !startsWith y.target Operator.tool.value &&
        !(startsWith y.target Operator.agent.value &&
          y.targetHandle = some NodeHandleId.agentTop) &&
        y.sourceHandle ≠ some NodeHandleId.agentException)).map (·.target)

/-- `buildComponentDownstreamOrUpstream(edges, nodeId, false, nodes)`. -/
def buildUpstream (edges : List Edge) (nodeId : String) : List String :=
  (edges.filter fun y => y.target = nodeId).map (·.source)

/-! ## Parameters -/

/-- The edges to the sub-agents of an agent. -/
def bottomSubAgentEdges (edges : List Edge) (nodeId : String) : List Edge :=
  edges.filter fun x =>
    x.source = nodeId && x.sourceHandle = some NodeHandleId.agentBottom

/-- The entry of a sub-agent, with its id, its name and its parameters. -/
def subAgentEntry (nodes : List (FlowNode π)) (nodeId : String) (tools : List (AgentTool π)) :
    AgentTool π :=
  .agent ((findNode nodes nodeId).map (·.id)) ((findNode nodes nodeId).map (·.name)) tools
    (((findNode nodes nodeId).map (·.form)).getD {})

/-- The tools of the agent with those of its sub-agents folded in; `fuel` bounds the depth of
the recursion. A node without a form has no tools. -/
def buildAgentTools (edges : List Edge) (nodes : List (FlowNode π)) :
    ℕ → String → Option (List (AgentTool π))
  | 0, _ => none
  | fuel + 1, nodeId =>
    match findNode nodes nodeId with
    | none => some []
    | some node =>
      if node.label = some .agent then
        ((bottomSubAgentEdges edges nodeId).mapM fun x =>
          (buildAgentTools edges nodes fuel x.target).map (subAgentEntry nodes x.target)).map
          fun subAgents => node.tools.map AgentTool.tool ++ subAgents
      else some (node.tools.map AgentTool.tool)

def filterTargetsBySourceHandleId (edges : List Edge) (handleId : String) : List String :=
  (edges.filter fun x => x.sourceHandle = some handleId).map (·.target)

/-- The category of an item, with the nodes that its handle leads to. -/
def buildCategory (edges : List Edge) (nodeId : String) (val : CategorizeItem) :
    CategoryResult where
  description := val.description
  index := val.index
  examples := val.examples.getD []
  toIds := filterTargetsBySourceHandleId (edges.filter fun x => x.source = nodeId) val.uuid

def buildCategorize (edges : List Edge) (node : FlowNode π) : Dict String CategoryResult :=
  node.items.foldl (fun pre val => pre.set val.name (buildCategory edges node.id val)) .empty

/-- The parameters by the kind of the node; the depth is one that every recursion which ends at
all keeps to. -/
def buildParams (T : Transforms π) (nodes : List (FlowNode π)) (edges : List Edge)
    (x : FlowNode π) : Option (Params π) :=
  let params (form : π) : Params π :=
    { form := form, tools := [], exceptionGoto := [], categoryDescription := .empty }
  match x.label with
  | some .agent =>
    (buildAgentTools edges nodes (edges.length + 1) x.id).map fun tools =>
      { params x.form with tools := tools, exceptionGoto := buildAgentExceptionGoto edges x.id }
  | some .categorize =>
    some { params (T.removeUselessFieldsFromValues x.form) with
      categoryDescription := buildCategorize edges x }
  | some .parser => some (params (T.parserParams x.form))
  | some .tokenChunker => some (params (T.tokenChunkerParams x.form))
  | some .titleChunker => some (params (T.titleChunkerParams x.form))
  | some .extractor => some (params (T.extractorParams x.form))
  | some .dataOperations => some (params (T.dataOperationsParams x.form))
  | some .begin => some (params (T.beginParams x.form))
  | _ => some (params x.form)

/-! ## Components -/

/-- `ExcludeOperators.some((y) => y === x.data.label)`. -/
def isExcluded (label : Option Operator) : Bool :=
  label = some .note || label = some .tool || label = some .placeholder

/-- `isBottomSubAgent(edges, nodeId)`. -/
def isBottomSubAgentNode (edges : List Edge) (nodeId : String) : Bool :=
  edges.any fun x => x.target = nodeId && x.targetHandle = some NodeHandleId.agentTop

def buildComponent (T : Transforms π) (nodes : List (FlowNode π)) (edges : List Edge)
    (x : FlowNode π) : Option (Component π) :=
  (buildParams T nodes edges x).map fun params =>
    { componentName := x.label
      params := params
      downstream := buildDownstream edges x.id nodes
      upstream := buildUpstream edges x.id
      parentId := x.parentId }

def buildDslComponentsByGraph (T : Transforms π) (nodes : List (FlowNode π))
    (edges : List Edge) : Option (Dict String (Component π)) :=
  Dict.fill (·.id) (buildComponent T nodes edges)
    (nodes.filter fun x => !isExcluded x.label && !isBottomSubAgentNode edges x.id) .empty

def filteredNodes (nodes : List (FlowNode π)) : List (FlowNode π) :=
  nodes.filter fun node => node.label ≠ some .placeholder

def filteredEdges (nodes : List (FlowNode π)) (edges : List Edge) : List Edge :=
  edges.filter fun edge =>
    labelOf nodes edge.source ≠ some .placeholder &&
      labelOf nodes edge.target ≠ some .placeholder

/-- The components of `buildDslData`, where `none` stands for an endless recursion. -/
def buildDslData (T : Transforms π) (nodes : List (FlowNode π)) (edges : List Edge) :
    Option (Dict String (Component π)) :=
  buildDslComponentsByGraph T (filteredNodes nodes) (filteredEdges nodes edges)

end Compiler

/-! ## What is nested -/

section Nested

variable {π : Type*}

mutual

/-- The ids of an agent and of the agents nested in it. -/
def AgentTool.agentIds : AgentTool π → List String
  | .tool _ => []
  | .agent id _ tools _ => id.toList ++ nestedAgentIds tools

/-- The ids of the agents nested in tools, at any depth. -/
def nestedAgentIds : List (AgentTool π) → List String
  | [] => []
  | t :: tools => t.agentIds ++ nestedAgentIds tools

end

mutual

def AgentTool.ownTools : AgentTool π → List (Tool π)
  | .tool t => [t]
  | .agent _ _ tools _ => nestedTools tools

/-- The tools nested in tools, at any depth. -/
def nestedTools : List (AgentTool π) → List (Tool π)
  | [] => []
  | t :: tools => t.ownTools ++ nestedTools tools

end

@[simp]
theorem nestedAgentIds_append (l₁ l₂ : List (AgentTool π)) :
    nestedAgentIds (l₁ ++ l₂) = nestedAgentIds l₁ ++ nestedAgentIds l₂ := by
  induction l₁ with
  | nil => simp [nestedAgentIds]
  | cons t l₁ ih => simp [nestedAgentIds, ih]

@[simp]
theorem nestedAgentIds_map_tool (l : List (Tool π)) :
    nestedAgentIds (l.map AgentTool.tool) = [] := by
  induction l with
  | nil => simp [nestedAgentIds]
  | cons t l ih => simp [nestedAgentIds, AgentTool.agentIds, ih]

@[simp]
theorem nestedTools_append (l₁ l₂ : List (AgentTool π)) :
    nestedTools (l₁ ++ l₂) = nestedTools l₁ ++ nestedTools l₂ := by
  induction l₁ with
  | nil => simp [nestedTools]
  | cons t l₁ ih => simp [nestedTools, ih]

@[simp]
theorem nestedTools_map_tool (l : List (Tool π)) : nestedTools (l.map AgentTool.tool) = l := by
  induction l with
  | nil => simp [nestedTools]
  | cons t l ih => simp [nestedTools, AgentTool.ownTools, ih]

end Nested

/-! ## The recursion along the sub-agents -/

/-- The recursion goes from the agent to the other node. -/
def SubAgent {π : Type*} (nodes : List (FlowNode π)) (edges : List Edge) (a b : String) : Prop :=
  labelOf nodes a = some .agent ∧ ∃ e ∈ bottomSubAgentEdges edges a, e.target = b

section Recursion

variable {π : Type*} [EmptyCollection π] {nodes : List (FlowNode π)} {edges : List Edge}
  {node : FlowNode π} {fuel : ℕ} {id : String} {tools : List (AgentTool π)}

theorem mem_bottomSubAgentEdges {e : Edge} : e ∈ bottomSubAgentEdges edges id ↔
    e ∈ edges ∧ e.source = id ∧ e.sourceHandle = some NodeHandleId.agentBottom := by
  simp [bottomSubAgentEdges]

omit [EmptyCollection π] in
theorem SubAgent.source_mem {a b : String} (h : SubAgent nodes edges a b) :
    a ∈ edges.map (·.source) := by
  obtain ⟨-, e, he, -⟩ := h
  obtain ⟨hedge, hsource, -⟩ := mem_bottomSubAgentEdges.mp he
  exact List.mem_map.mpr ⟨e, hedge, hsource⟩

/-- The recursion for a node that is no agent does not go on. -/
theorem isSome_buildAgentTools_succ :
    (buildAgentTools edges nodes (fuel + 1) id).isSome ↔
      ∀ b, SubAgent nodes edges id b → (buildAgentTools edges nodes fuel b).isSome := by
  cases hfind : findNode nodes id with
  | none => simp [buildAgentTools, SubAgent, labelOf, hfind]
  | some node =>
      by_cases hlabel : node.label = some .agent
      · simp only [buildAgentTools, SubAgent, labelOf, hfind, hlabel, if_true, Option.isSome_map,
          isSome_mapM, Option.bind_some, true_and]
        constructor
        · rintro h b ⟨e, he, rfl⟩
          exact h e he
        · intro h e he
          exact h e.target ⟨e, he, rfl⟩
      · simp [buildAgentTools, SubAgent, labelOf, hfind, hlabel]

/-- The depth suffices exactly if it exceeds the length of every way down. -/
theorem isSome_buildAgentTools_iff :
    (buildAgentTools edges nodes fuel id).isSome ↔
      ∀ n b, Run (SubAgent nodes edges) id n b → n < fuel := by
  induction fuel generalizing id with
  | zero =>
      simp only [buildAgentTools, Option.isSome_none, Bool.false_eq_true, false_iff]
      intro h
      exact Nat.not_lt_zero 0 (h 0 id .refl)
  | succ fuel ih =>
      rw [isSome_buildAgentTools_succ]
      constructor
      · intro h n b hrun
        cases n with
        | zero => exact Nat.succ_pos fuel
        | succ n =>
            obtain ⟨m, hfirst, hrest⟩ := Run.splitAt hrun (Nat.le_add_left 1 n)
            obtain ⟨a, hstart, hstep⟩ := Run.succ_iff.mp hfirst
            obtain rfl := Run.zero_iff.mp hstart
            exact Nat.succ_lt_succ (ih.mp (h m hstep) _ b hrest)
      · intro h b hstep
        exact ih.mpr fun n c hrun => Nat.lt_of_succ_lt_succ (h (n + 1) c (hrun.head hstep))

/-- A recursion that ends at some depth ends at the one that is allowed. -/
theorem isSome_buildAgentTools_enough (h : (buildAgentTools edges nodes fuel id).isSome) :
    (buildAgentTools edges nodes (edges.length + 1) id).isSome := by
  rw [isSome_buildAgentTools_iff] at h ⊢
  intro n b hrun
  have hle := hrun.length_le_of_bounded (edges.map (·.source)) (fun _ _ => SubAgent.source_mem) h
  rw [List.length_map] at hle
  omega

/-- The entries of the sub-agents carry their ids and what is nested in them. -/
theorem nested_subAgentEntries {l : List Edge} {below : String → List (AgentTool π)}
    (hbelow : ∀ e ∈ l, (findNode nodes e.target).isSome) :
    nestedAgentIds (l.map fun e => subAgentEntry nodes e.target (below e.target)) =
        l.flatMap (fun e => e.target :: nestedAgentIds (below e.target)) ∧
      nestedTools (l.map fun e => subAgentEntry nodes e.target (below e.target)) =
        l.flatMap (fun e => nestedTools (below e.target)) := by
  induction l with
  | nil => simp [nestedAgentIds, nestedTools]
  | cons e l ih =>
      rw [List.forall_mem_cons] at hbelow
      obtain ⟨child, hchild⟩ := Option.isSome_iff_exists.mp hbelow.1
      have hid : child.id = e.target := by simpa using List.find?_some hchild
      obtain ⟨hids, htools⟩ := ih hbelow.2
      constructor
      · simp [nestedAgentIds, AgentTool.agentIds, subAgentEntry, hchild, hid, ← hids]
      · simp [nestedTools, AgentTool.ownTools, subAgentEntry, ← htools]

/-- What the recursion finds below an agent whose sub-agents are nodes: every sub-agent with
what is below it, and the tools of all of them. -/
theorem buildAgentTools_agent (hfind : findNode nodes id = some node)
    (hlabel : node.label = some .agent)
    (hbelow : ∀ e ∈ bottomSubAgentEdges edges id, (findNode nodes e.target).isSome)
    (h : buildAgentTools edges nodes (fuel + 1) id = some tools) :
    ∃ below : String → List (AgentTool π),
      (∀ e ∈ bottomSubAgentEdges edges id,
        buildAgentTools edges nodes fuel e.target = some (below e.target)) ∧
      nestedAgentIds tools = (bottomSubAgentEdges edges id).flatMap
        (fun e => e.target :: nestedAgentIds (below e.target)) ∧
      nestedTools tools = node.tools ++ (bottomSubAgentEdges edges id).flatMap
        (fun e => nestedTools (below e.target)) := by
  have hsome := isSome_buildAgentTools_succ.mp (Option.isSome_of_eq_some h)
  let below (b : String) : List (AgentTool π) := (buildAgentTools edges nodes fuel b).getD []
  have hstep : ∀ e ∈ bottomSubAgentEdges edges id,
      buildAgentTools edges nodes fuel e.target = some (below e.target) := by
    intro e he
    have he' := hsome e.target ⟨by rw [labelOf, hfind]; exact hlabel, e, he, rfl⟩
    obtain ⟨found, hfound⟩ := Option.isSome_iff_exists.mp he'
    simp [below, hfound]
  have hentries : ((bottomSubAgentEdges edges id).mapM fun x =>
      (buildAgentTools edges nodes fuel x.target).map (subAgentEntry nodes x.target)) =
        some ((bottomSubAgentEdges edges id).map fun e =>
          subAgentEntry nodes e.target (below e.target)) :=
    mapM_eq_map fun e he => by rw [hstep e he]; rfl
  obtain ⟨hids, htools⟩ := nested_subAgentEntries hbelow
  have heq : tools = node.tools.map AgentTool.tool ++ (bottomSubAgentEdges edges id).map fun e =>
      subAgentEntry nodes e.target (below e.target) := by
    rw [buildAgentTools, hfind] at h
    simp only [if_pos hlabel] at h
    rw [hentries, Option.map_some] at h
    exact (Option.some.inj h).symm
  refine ⟨below, hstep, ?_, ?_⟩
  · rw [heq, nestedAgentIds_append, nestedAgentIds_map_tool, List.nil_append, hids]
  · rw [heq, nestedTools_append, nestedTools_map_tool, htools]

end Recursion

end RagFlow.Editor
