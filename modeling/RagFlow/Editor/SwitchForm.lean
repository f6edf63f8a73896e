/-
# The form of a Switch node

The form of a Switch lists the targets of each of its cases, which the edges from the handles of
the node say already. Connecting a Switch and deleting an edge write the list of one handle again;
deleting nodes deletes edges as well, but writes no form.
-/

import Mathlib.Data.List.Find
import RagFlow.Editor.References
import RagFlow.Editor.Cycle

namespace RagFlow.Editor

open RagFlow.Math

/-! ## Handles and branches -/

/-- A branch of a Switch: a case, counted from zero, or what is left. -/
inductive Branch where
  | case (k : ℕ)
  | otherwise
deriving DecidableEq

def switchElseTo : List Char :=
  ['e', 'n', 'd', '_', 'c', 'p', 'n', '_', 'i', 'd', 's']

/-- `generateSwitchHandleText`. -/
def generateSwitchHandleText (idx : ℕ) : List Char :=
  ['C', 'a', 's', 'e', ' '] ++ Nat.toDigits 10 (idx + 1)

def Branch.handle : Branch → String
  | case k => String.ofList (generateSwitchHandleText k)
  | otherwise => String.ofList switchElseTo

/-- `getOperatorIndex`: what stands behind the last blank. -/
def getOperatorIndex (handleTitle : List Char) : List Char :=
  ((handleTitle.splitOn ' ').getLast?).getD []

/-- `Number`, of a numeral in decimal digits. -/
def number (t : List Char) : Option ℕ :=
  if !t.isEmpty && t.all Char.isDigit then some (Nat.ofDigitChars 10 t 0) else none

/-- The branch of the form that a handle is written to. With `0`, or with what is not a number, a
property of the list of conditions is set that is no condition. -/
def branchOf (sourceHandle : String) : Option Branch :=
  if sourceHandle.toList = switchElseTo then some .otherwise
  else match number (getOperatorIndex sourceHandle.toList) with
    | some (k + 1) => some (.case k)
    | _ => none

theorem branchOf_handle (b : Branch) : branchOf b.handle = some b := by
  cases b with
  | otherwise =>
      rw [branchOf, if_pos]
      exact String.toList_ofList
  | case k =>
      have hdigits : ∀ c ∈ Nat.toDigits 10 (k + 1), c.isDigit = true := fun c hc =>
        Nat.isDigit_of_mem_toDigits (by decide) (by decide) hc
      have hblank : ' ' ∉ Nat.toDigits 10 (k + 1) := fun h => absurd (hdigits ' ' h) (by decide)
      have hsplit : (generateSwitchHandleText k).splitOn ' ' =
          [['C', 'a', 's', 'e'], Nat.toDigits 10 (k + 1)] := by
        have hfirst := List.splitOn_append_cons_self_of_not_mem (a := ' ')
          (show ' ' ∉ ['C', 'a', 's', 'e'] by decide) (Nat.toDigits 10 (k + 1))
        rw [List.splitOn_eq_singleton hblank] at hfirst
        exact hfirst
      have hall : (!(Nat.toDigits 10 (k + 1)).isEmpty &&
          (Nat.toDigits 10 (k + 1)).all Char.isDigit) = true := by
        rw [Bool.and_eq_true, List.all_eq_true]
        exact ⟨by simp, hdigits⟩
      have hindex : number (getOperatorIndex (generateSwitchHandleText k)) = some (k + 1) := by
        rw [getOperatorIndex, hsplit, number, List.getLast?_cons_cons, List.getLast?_singleton,
          Option.getD_some, if_pos hall, Nat.ofDigitChars_ten_toDigits]
      have hne : generateSwitchHandleText k ≠ switchElseTo := by
        intro h
        exact absurd (List.cons.inj h).1 (by decide)
      rw [branchOf, Branch.handle, String.toList_ofList, if_neg hne, hindex]

/-! ## The store with its forms -/

/-- The lists of targets in a form: `conditions[k].to`, which is empty where it is missing, and
`end_cpn_ids`. -/
abbrev SwitchForm := Branch → List String

structure FormNode extends Node where
  form : SwitchForm

structure FormState where
  nodes : List FormNode
  edges : List Edge

namespace FormState

/-- The store without its forms. -/
def toStore (s : FormState) : RFState where
  nodes := s.nodes.map FormNode.toNode
  edges := s.edges

/-- `getOperatorTypeFromId`. -/
def operatorType (s : FormState) (id : String) : Option Operator :=
  getOperatorTypeFromId s.toStore id

/-- `updateNodeForm`, of one list of targets. -/
def updateNodeForm (s : FormState) (nodeId : String) (values : List String) (path : Branch) :
    FormState :=
  { s with nodes := s.nodes.map fun node =>
      if node.id = nodeId then { node with form := Function.update node.form path values }
      else node }

/-- The targets of the edges from a handle, placeholders left out. -/
def handleTargets (s : FormState) (source sourceHandle : String) : List String :=
  (s.edges.filter fun x => x.source = source && x.sourceHandle = some sourceHandle &&
    s.operatorType x.target ≠ some .placeholder).map (·.target)

def updateSwitchFormData (s : FormState) (source : String) (sourceHandle : Option String)
    (target : String) (isConnecting : Bool) : FormState :=
  match truthy sourceHandle with
  | none => s
  | some sourceHandle =>
    let currentHandleTargets := s.handleTargets source sourceHandle
    let targets := if target ≠ "" && !isConnecting then currentHandleTargets.filter (· ≠ target)
      else currentHandleTargets
    match branchOf sourceHandle with
    | none => s
    | some path => s.updateNodeForm source targets path

def updateFormDataOnConnect (s : FormState) (connection : Connection) : FormState :=
  if connection.source ≠ "" ∧ s.operatorType connection.source = some .switch then
    s.updateSwitchFormData connection.source connection.sourceHandle connection.target true
  else s

section Connect

variable (libAddEdge : Connection → List Edge → List Edge)

def addEdge (s : FormState) (connection : Connection) : FormState :=
  updateFormDataOnConnect { s with edges := libAddEdge connection s.edges } connection

def onConnect (s : FormState) (connection : Connection) : FormState :=
  updateFormDataOnConnect { s with edges := libAddEdge connection s.edges } connection

end Connect

def deleteEdgeById (s : FormState) (id : String) : FormState :=
  let updated : FormState :=
    match s.edges.find? (·.id = id) with
    | none => s
    | some currentEdge =>
      if s.operatorType currentEdge.source = some .switch then
        s.updateSwitchFormData currentEdge.source currentEdge.sourceHandle currentEdge.target false
      else s
  { updated with edges := s.edges.filter (·.id ≠ id) }

def deleteAgentDownstreamNodesById (s : FormState) (id : String) : FormState :=
  match deleteAllDownstreamAgentsAndTool id s.edges with
  | none => s
  | some (downstreamAgentAndToolNodeIds, downstreamAgentAndToolEdges) =>
    { nodes := s.nodes.filter fun node =>
        !downstreamAgentAndToolNodeIds.any (· = node.id) && node.id ≠ id
      edges := s.edges.filter fun edge =>
        edge.source ≠ id && edge.target ≠ id &&
          !downstreamAgentAndToolEdges.any (·.id = edge.id) }

def deleteNodeById (s : FormState) (id : String) : FormState :=
  if s.operatorType id = some .agent then s.deleteAgentDownstreamNodesById id
  else
    { nodes := s.nodes.filter (·.id ≠ id)
      edges := (s.edges.filter (·.source ≠ id)).filter (·.target ≠ id) }

def deleteIterationNodeById (s : FormState) (id : String) : FormState :=
  let children := s.nodes.filter (·.parentId = some id)
  { nodes := s.nodes.filter fun node => node.id ≠ id && node.parentId ≠ some id
    edges := s.edges.filter fun edge =>
      edge.source ≠ id && edge.target ≠ id &&
        !children.any fun child => edge.source = child.id && edge.target = child.id }

end FormState

/-- The operations that change edges. -/
inductive GraphOp where
  | addEdge (connection : Connection)
  | onConnect (connection : Connection)
  | deleteEdgeById (id : String)
  | deleteNodeById (id : String)
  | deleteIterationNodeById (id : String)

def GraphOp.apply (libAddEdge : Connection → List Edge → List Edge) (s : FormState) :
    GraphOp → FormState
  | .addEdge connection => s.addEdge libAddEdge connection
  | .onConnect connection => s.onConnect libAddEdge connection
  | .deleteEdgeById id => s.deleteEdgeById id
  | .deleteNodeById id => s.deleteNodeById id
  | .deleteIterationNodeById id => s.deleteIterationNodeById id

/-- Every Switch lists for each branch the targets of the edges from its handle. -/
def FormsFollow (s : FormState) : Prop :=
  ∀ node ∈ s.nodes, node.label = some .switch → ∀ b : Branch,
    node.form b = s.handleTargets node.id b.handle

/-! ## Operations after which the forms still follow -/

/-- The edge leaves a Switch through a handle that is not read as another one. -/
def OwnHandle (sourceHandle : Option String) : Prop :=
  ∀ handle b, sourceHandle = some handle → branchOf handle = some b → handle = b.handle

/-- An edge that a form has to list, unless it leads to a placeholder. -/
def IsListed (s : FormState) (e : Edge) : Prop :=
  s.operatorType e.source = some .switch ∧ ∃ b : Branch, e.sourceHandle = some b.handle

/-- A deletion takes no edge from a Switch that stays except to a placeholder, and no placeholder
without the edges from a Switch to it. -/
def Spares (s : FormState) (goesNode : String → Prop) (goesEdge : Edge → Prop) : Prop :=
  ∀ e ∈ s.edges, IsListed s e → ¬ goesNode e.source →
    (goesEdge e → s.operatorType e.target = some .placeholder) ∧
      (¬ goesEdge e → goesNode e.target → s.operatorType e.target ≠ some .placeholder)

/-- Which connections and deletions keep forms and edges in step. -/
def GraphOp.Orderly (s : FormState) : GraphOp → Prop
  | addEdge connection | onConnect connection =>
    s.operatorType connection.source = some .switch →
      connection.source ≠ "" ∧ OwnHandle connection.sourceHandle
  | deleteEdgeById id =>
    ∀ currentEdge, s.edges.find? (·.id = id) = some currentEdge →
      OwnHandle currentEdge.sourceHandle ∧ currentEdge.target ≠ "" ∧
        ∀ e ∈ s.edges, IsListed s e → s.operatorType e.target ≠ some .placeholder →
          (e.id = id ↔ e.source = currentEdge.source ∧
            e.sourceHandle = currentEdge.sourceHandle ∧ e.target = currentEdge.target)
  | deleteNodeById id =>
    if s.operatorType id = some .agent then
      ∀ ids collected, deleteAllDownstreamAgentsAndTool id s.edges = some (ids, collected) →
        Spares s (fun x => x ∈ ids ∨ x = id)
          fun e => e.touches id = true ∨ ∃ x ∈ collected, x.id = e.id
    else Spares s (· = id) fun e => e.touches id = true
  | deleteIterationNodeById id =>
    Spares s (fun x => x = id ∨ ∃ child ∈ s.nodes, child.parentId = some id ∧ child.id = x)
      fun e => e.touches id = true ∨
        ∃ child ∈ s.nodes, child.parentId = some id ∧ e.source = child.id ∧ e.target = child.id

/-! ## What the operations keep -/

section Keep

variable {s : FormState} {node : FormNode} {source target id x : String} {values : List String}
  {b path : Branch} {edges : List Edge}

theorem Branch.handle_injective : Function.Injective Branch.handle := fun b c h =>
  Option.some.inj ((branchOf_handle b).symm.trans ((congrArg branchOf h).trans (branchOf_handle c)))

theorem Branch.handle_ne_empty (b : Branch) : b.handle ≠ "" := by
  intro h
  have hbranch := branchOf_handle b
  have hnone : branchOf "" = none := by decide
  rw [h, hnone] at hbranch
  cases hbranch

/-- The type of a node that is there is its label. -/
theorem operatorType_of_mem (hdistinct : (s.nodes.map (·.id)).Nodup) (hnode : node ∈ s.nodes) :
    s.operatorType node.id = node.label := by
  have hfind : s.toStore.getNode node.id = some node.toNode := by
    rw [RFState.getNode, FormState.toStore, List.find?_map]
    cases hfind : s.nodes.find? ((fun n : Node => decide (n.id = node.id)) ∘ FormNode.toNode) with
    | none =>
        have hnot := List.find?_eq_none.mp hfind node hnode
        exact absurd (by simp) hnot
    | some found =>
        have hid : found.id = node.id := by simpa using List.find?_some hfind
        rw [List.inj_on_of_nodup_map hdistinct (List.mem_of_find?_eq_some hfind) hnode hid]
        rfl
  rw [FormState.operatorType, getOperatorTypeFromId, hfind]
  rfl

/-- Forms do not matter for the types. -/
theorem toStore_updateNodeForm : (s.updateNodeForm id values path).toStore = s.toStore := by
  rw [FormState.toStore, FormState.toStore, FormState.updateNodeForm, List.map_map]
  congr 1
  refine List.map_congr_left fun n _ => ?_
  rw [Function.comp_apply]
  split_ifs <;> rfl

theorem operatorType_updateNodeForm :
    (s.updateNodeForm id values path).operatorType x = s.operatorType x := by
  rw [FormState.operatorType, toStore_updateNodeForm, FormState.operatorType]

/-- The store with other edges. -/
def FormState.withEdges (s : FormState) (edges : List Edge) : FormState := { s with edges := edges }

/-- Edges may change while the lists of every Switch stay as they are. -/
theorem FormsFollow.withEdges (hs : FormsFollow s)
    (hsame : ∀ node ∈ s.nodes, node.label = some .switch → ∀ b : Branch,
      (s.withEdges edges).handleTargets node.id b.handle = s.handleTargets node.id b.handle) :
    FormsFollow (s.withEdges edges) := by
  intro node hnode hlabel b
  rw [hs node hnode hlabel b, hsame node hnode hlabel b]

/-- One list changes, and is written. -/
theorem FormsFollow.write (hs : FormsFollow s)
    (hvalues : values = (s.withEdges edges).handleTargets source path.handle)
    (hsame : ∀ node ∈ s.nodes, node.label = some .switch → ∀ b : Branch,
      ¬ (node.id = source ∧ b = path) →
      (s.withEdges edges).handleTargets node.id b.handle = s.handleTargets node.id b.handle) :
    FormsFollow ((s.updateNodeForm source values path).withEdges edges) := by
  have htargets : ∀ id handle,
      ((s.updateNodeForm source values path).withEdges edges).handleTargets id handle =
        (s.withEdges edges).handleTargets id handle := by
    intro id handle
    rw [FormState.handleTargets, FormState.handleTargets]
    congr 1
    refine List.filter_congr fun e _ => ?_
    have htype : ((s.updateNodeForm source values path).withEdges edges).operatorType e.target =
        (s.withEdges edges).operatorType e.target := operatorType_updateNodeForm
    rw [htype]
  intro node hnode hlabel b
  rw [htargets]
  obtain ⟨old, hold, rfl⟩ := List.mem_map.mp hnode
  by_cases hid : old.id = source
  · rw [if_pos hid] at hlabel ⊢
    by_cases hb : b = path
    · subst hb
      refine (Function.update_self b values old.form).trans ?_
      rw [hvalues, hid]
    · refine (Function.update_of_ne hb values old.form).trans ?_
      rw [hs old hold hlabel b]
      exact (hsame old hold hlabel b fun h => hb h.2).symm
  · rw [if_neg hid] at hlabel ⊢
    rw [hs old hold hlabel b]
    exact (hsame old hold hlabel b fun h => hid h.1).symm

/-- An edge that is appended counts for its own handle only. -/
theorem handleTargets_append {e : Edge} {handle : String}
    (he : ¬ (e.source = source ∧ e.sourceHandle = some handle)) :
    (s.withEdges (s.edges ++ [e])).handleTargets source handle = s.handleTargets source handle := by
  have hskip : (decide (e.source = source) && decide (e.sourceHandle = some handle) &&
      decide (s.operatorType e.target ≠ some .placeholder)) = false := by
    rw [← Bool.decide_and, decide_eq_false he, Bool.false_and]
  have htype : ∀ x, (s.withEdges (s.edges ++ [e])).operatorType x = s.operatorType x :=
    fun _ => rfl
  rw [FormState.handleTargets, FormState.handleTargets]
  simp only [htype]
  rw [FormState.withEdges, List.filter_append, List.filter_singleton, hskip]
  simp

/-! ### Connections -/

/-- A handle that is written is the handle of the branch it is read as. -/
theorem updateSwitchFormData_eq (s : FormState) (source : String) {sourceHandle : Option String}
    (h : OwnHandle sourceHandle) (target : String) (isConnecting : Bool) :
    (s.updateSwitchFormData source sourceHandle target isConnecting = s ∧
        ∀ b : Branch, sourceHandle ≠ some b.handle) ∨
      ∃ path : Branch, sourceHandle = some path.handle ∧
        s.updateSwitchFormData source sourceHandle target isConnecting =
          s.updateNodeForm source
            (if target ≠ "" && !isConnecting then
              (s.handleTargets source path.handle).filter (· ≠ target)
            else s.handleTargets source path.handle) path := by
  rw [FormState.updateSwitchFormData]
  cases htruthy : truthy sourceHandle with
  | none =>
      refine Or.inl ⟨rfl, ?_⟩
      rintro b rfl
      rw [truthy, Option.filter_eq_none_iff] at htruthy
      exact htruthy b.handle rfl (by simpa using b.handle_ne_empty)
  | some handle =>
      obtain ⟨rfl, -⟩ := Option.filter_eq_some_iff.mp htruthy
      dsimp only
      cases hbranch : branchOf handle with
      | none =>
          refine Or.inl ⟨rfl, ?_⟩
          rintro b hb
          rw [Option.some.inj hb, branchOf_handle] at hbranch
          cases hbranch
      | some path =>
          have hpath := h handle path rfl hbranch
          subst hpath
          exact Or.inr ⟨path, rfl, rfl⟩

theorem FormsFollow.connect {libAddEdge : Connection → List Edge → List Edge}
    (hadd : AppendsEdge libAddEdge) (hdistinct : (s.nodes.map (·.id)).Nodup) (hs : FormsFollow s)
    {connection : Connection}
    (horderly : s.operatorType connection.source = some .switch →
      connection.source ≠ "" ∧ OwnHandle connection.sourceHandle) :
    FormsFollow (s.addEdge libAddEdge connection) := by
  -- Only the list of the handle of the connection changes with the edges.
  have hsame : ∀ node ∈ s.nodes, ∀ b : Branch,
      ¬ (connection.source = node.id ∧ connection.sourceHandle = some b.handle) →
      (s.withEdges (libAddEdge connection s.edges)).handleTargets node.id b.handle =
        s.handleTargets node.id b.handle := by
    intro node _ b hne
    rcases hadd connection s.edges with heq | ⟨id, heq⟩
    · rw [heq]
      rfl
    · rw [heq]
      exact handleTargets_append hne
  have htype : (s.withEdges (libAddEdge connection s.edges)).operatorType connection.source =
      s.operatorType connection.source := rfl
  rw [FormState.addEdge, FormState.updateFormDataOnConnect]
  split_ifs with hswitch
  · obtain ⟨-, hown⟩ := horderly (htype ▸ hswitch.2)
    rcases updateSwitchFormData_eq (s.withEdges (libAddEdge connection s.edges))
      connection.source hown connection.target true with ⟨heq, hno⟩ | ⟨path, hpath, heq⟩
    · exact heq ▸ hs.withEdges fun node hnode _ b => hsame node hnode b fun h => hno b h.2
    · refine heq ▸ hs.write ?_ fun node hnode _ b hne => hsame node hnode b fun h => ?_
      · rw [Bool.not_true, Bool.and_false, if_neg Bool.false_ne_true]
        rfl
      · have hhandle := Option.some.inj (h.2.symm.trans hpath)
        exact hne ⟨h.1.symm, Branch.handle_injective hhandle⟩
  · refine hs.withEdges fun node hnode hlabel b => hsame node hnode b fun h => hswitch ?_
    have hsource : s.operatorType connection.source = some .switch := by
      rw [h.1, operatorType_of_mem hdistinct hnode, hlabel]
    exact ⟨(horderly hsource).1, hsource⟩

/-! ### Deletions -/

/-- The targets from a handle, when some of the edges are gone. -/
theorem handleTargets_filter {keep : Edge → Bool} {handle : String}
    (h : ∀ e ∈ s.edges, e.source = source → e.sourceHandle = some handle →
      s.operatorType e.target ≠ some .placeholder → keep e = true) :
    (s.withEdges (s.edges.filter keep)).handleTargets source handle =
      s.handleTargets source handle := by
  rw [FormState.handleTargets, FormState.handleTargets, FormState.withEdges, List.filter_filter]
  congr 1
  refine List.filter_congr fun e he => ?_
  by_cases hlist : e.source = source ∧ e.sourceHandle = some handle ∧
      s.operatorType e.target ≠ some .placeholder
  · rw [h e he hlist.1 hlist.2.1 hlist.2.2, Bool.and_true]
    rfl
  · have hfalse : (decide (e.source = source) && decide (e.sourceHandle = some handle) &&
        decide (s.operatorType e.target ≠ some .placeholder)) = false := by
      rw [Bool.eq_false_iff]
      intro htrue
      rw [Bool.and_eq_true, Bool.and_eq_true, decide_eq_true_eq, decide_eq_true_eq,
        decide_eq_true_eq, and_assoc] at htrue
      exact hlist htrue
    exact (congrArg (· && keep e) hfalse).trans ((Bool.false_and _).trans hfalse.symm)

/-- The targets from a handle without one of them, when the edge to it is gone. -/
theorem handleTargets_delete {handle : String}
    (h : ∀ e ∈ s.edges, e.source = source → e.sourceHandle = some handle →
      s.operatorType e.target ≠ some .placeholder → (e.id = id ↔ e.target = target)) :
    (s.handleTargets source handle).filter (· ≠ target) =
      (s.withEdges (s.edges.filter (·.id ≠ id))).handleTargets source handle := by
  rw [FormState.handleTargets, FormState.handleTargets, FormState.withEdges, List.filter_map,
    List.filter_filter, List.filter_filter]
  congr 1
  refine List.filter_congr fun e he => ?_
  rw [Bool.eq_iff_iff]
  simp only [Function.comp_apply, Bool.and_eq_true, decide_eq_true_eq, ne_eq]
  constructor
  · rintro ⟨htarget, ⟨hsource, hhandle⟩, hplaceholder⟩
    exact ⟨⟨⟨hsource, hhandle⟩, hplaceholder⟩,
      fun hid => htarget ((h e he hsource hhandle hplaceholder).mp hid)⟩
  · rintro ⟨⟨⟨hsource, hhandle⟩, hplaceholder⟩, hid⟩
    exact ⟨fun htarget => hid ((h e he hsource hhandle hplaceholder).mpr htarget),
      ⟨hsource, hhandle⟩, hplaceholder⟩

theorem FormsFollow.deleteEdgeById (hdistinct : (s.nodes.map (·.id)).Nodup) (hs : FormsFollow s)
    (horderly : (GraphOp.deleteEdgeById id).Orderly s) : FormsFollow (s.deleteEdgeById id) := by
  rw [FormState.deleteEdgeById]
  cases hfind : s.edges.find? (·.id = id) with
  | none =>
      refine hs.withEdges fun node _ _ b => handleTargets_filter fun e he _ _ _ => ?_
      simpa using List.find?_eq_none.mp hfind e he
  | some currentEdge =>
      obtain ⟨hown, htarget, hids⟩ := horderly currentEdge hfind
      have hlisted : ∀ node ∈ s.nodes, node.label = some .switch → ∀ b : Branch, ∀ e : Edge,
          e.source = node.id → e.sourceHandle = some b.handle → IsListed s e := by
        intro node hnode hlabel b e hsource hhandle
        exact ⟨by rw [hsource, operatorType_of_mem hdistinct hnode, hlabel], b, hhandle⟩
      -- The other handles keep their edges.
      have hsame : ∀ node ∈ s.nodes, node.label = some .switch → ∀ b : Branch,
          ¬ (currentEdge.source = node.id ∧ currentEdge.sourceHandle = some b.handle) →
          (s.withEdges (s.edges.filter (·.id ≠ id))).handleTargets node.id b.handle =
            s.handleTargets node.id b.handle := by
        intro node hnode hlabel b hne
        refine handleTargets_filter fun e he hsource hhandle hplaceholder => ?_
        rw [decide_eq_true_eq]
        intro hid
        obtain ⟨hsource', hhandle', -⟩ :=
          (hids e he (hlisted node hnode hlabel b e hsource hhandle) hplaceholder).mp hid
        exact hne ⟨hsource'.symm.trans hsource, hhandle'.symm.trans hhandle⟩
      dsimp only
      split_ifs with hswitch
      · rcases updateSwitchFormData_eq s currentEdge.source hown currentEdge.target false with
          ⟨heq, hno⟩ | ⟨path, hpath, heq⟩
        · rw [heq]
          exact hs.withEdges fun node hnode hlabel b =>
            hsame node hnode hlabel b fun h => hno b h.2
        · rw [heq]
          refine hs.write ?_ fun node hnode hlabel b hne =>
            hsame node hnode hlabel b fun h => ?_
          · rw [if_pos (by simpa using htarget)]
            exact handleTargets_delete fun e he hsource hhandle hplaceholder => by
              have hmem : IsListed s e := ⟨by rw [hsource, hswitch], path, hhandle⟩
              have hiff := hids e he hmem hplaceholder
              rw [hiff, hpath]
              exact ⟨fun h => h.2.2, fun h => ⟨hsource, hhandle, h⟩⟩
          · have hhandle := Option.some.inj (h.2.symm.trans hpath)
            exact hne ⟨h.1.symm, Branch.handle_injective hhandle⟩
      · refine hs.withEdges fun node hnode hlabel b => hsame node hnode hlabel b fun h => ?_
        rw [h.1, operatorType_of_mem hdistinct hnode, hlabel] at hswitch
        exact hswitch rfl

section Delete

variable {keepNode : FormNode → Bool} {goesNode : String → Prop}

/-- What is found among the nodes that stay. -/
theorem getNode_filter (s : FormState) (x : String) :
    s.toStore.getNode x = (s.nodes.find? (·.id = x)).map FormNode.toNode := by
  rw [RFState.getNode, FormState.toStore, List.find?_map]
  rfl

theorem operatorType_delete_of_stays
    (hnodes : ∀ n ∈ s.nodes, keepNode n = true ↔ ¬ goesNode n.id) (hx : ¬ goesNode x) :
    FormState.operatorType { nodes := s.nodes.filter keepNode, edges := edges } x =
      s.operatorType x := by
  have hfind : (s.nodes.filter keepNode).find? (·.id = x) = s.nodes.find? (·.id = x) := by
    rw [List.find?_filter]
    refine List.find?_congr fun n hn => ?_
    have hkeep : n.id = x → keepNode n = true := fun hid => (hnodes n hn).mpr (hid ▸ hx)
    rw [Bool.eq_iff_iff]
    simp only [decide_eq_true_eq]
    exact ⟨fun h => h.2, fun h => ⟨hkeep h, h⟩⟩
  rw [FormState.operatorType, FormState.operatorType, getOperatorTypeFromId,
    getOperatorTypeFromId, getNode_filter, getNode_filter, hfind]

theorem operatorType_delete_of_goes
    (hnodes : ∀ n ∈ s.nodes, keepNode n = true ↔ ¬ goesNode n.id) (hx : goesNode x) :
    FormState.operatorType { nodes := s.nodes.filter keepNode, edges := edges } x = none := by
  have hfind : (s.nodes.filter keepNode).find? (·.id = x) = none := by
    rw [List.find?_filter, List.find?_eq_none]
    intro n hn h
    simp only [decide_eq_true_eq] at h
    exact (hnodes n hn).mp h.1 (h.2 ▸ hx)
  rw [FormState.operatorType, getOperatorTypeFromId, getNode_filter, hfind]
  rfl

/-- A deletion that spares what the forms list leaves them in step. -/
theorem FormsFollow.delete (hdistinct : (s.nodes.map (·.id)).Nodup) (hs : FormsFollow s)
    {goesEdge : Edge → Prop} (hspares : Spares s goesNode goesEdge) {keepEdge : Edge → Bool}
    (hnodes : ∀ n ∈ s.nodes, keepNode n = true ↔ ¬ goesNode n.id)
    (hedges : ∀ e ∈ s.edges, keepEdge e = true ↔ ¬ goesEdge e) :
    FormsFollow { nodes := s.nodes.filter keepNode, edges := s.edges.filter keepEdge } := by
  intro node hnode hlabel b
  obtain ⟨hmem, hkeep⟩ := List.mem_filter.mp hnode
  have hstays : ¬ goesNode node.id := (hnodes node hmem).mp hkeep
  rw [hs node hmem hlabel b, FormState.handleTargets, FormState.handleTargets, List.filter_filter]
  congr 1
  refine List.filter_congr fun e he => ?_
  rw [Bool.eq_iff_iff]
  simp only [Bool.and_eq_true, decide_eq_true_eq, ne_eq]
  -- Only the edges that the form has to list need the condition.
  have hlisted : e.source = node.id → e.sourceHandle = some b.handle →
      (goesEdge e → s.operatorType e.target = some .placeholder) ∧
        (¬ goesEdge e → goesNode e.target → s.operatorType e.target ≠ some .placeholder) := by
    intro hsource hhandle
    have hswitch : s.operatorType e.source = some .switch := by
      rw [hsource, operatorType_of_mem hdistinct hmem, hlabel]
    exact hspares e he ⟨hswitch, b, hhandle⟩ (hsource ▸ hstays)
  constructor
  · rintro ⟨⟨hsource, hhandle⟩, hplaceholder⟩
    obtain ⟨hgoes, -⟩ := hlisted hsource hhandle
    have hkept : ¬ goesEdge e := fun h => hplaceholder (hgoes h)
    refine ⟨⟨⟨hsource, hhandle⟩, fun h => hplaceholder ?_⟩, (hedges e he).mpr hkept⟩
    by_cases htarget : goesNode e.target
    · rw [operatorType_delete_of_goes hnodes htarget] at h
      cases h
    · rwa [operatorType_delete_of_stays hnodes htarget] at h
  · rintro ⟨⟨⟨hsource, hhandle⟩, hplaceholder⟩, hkept⟩
    obtain ⟨-, hspared⟩ := hlisted hsource hhandle
    refine ⟨⟨hsource, hhandle⟩, ?_⟩
    by_cases htarget : goesNode e.target
    · exact hspared ((hedges e he).mp hkept) htarget
    · rwa [operatorType_delete_of_stays hnodes htarget] at hplaceholder

theorem FormsFollow.deleteAgentDownstreamNodesById (hdistinct : (s.nodes.map (·.id)).Nodup)
    (hs : FormsFollow s)
    (hspares : ∀ ids collected,
      deleteAllDownstreamAgentsAndTool id s.edges = some (ids, collected) →
      Spares s (fun x => x ∈ ids ∨ x = id)
        fun e => e.touches id = true ∨ ∃ x ∈ collected, x.id = e.id) :
    FormsFollow (s.deleteAgentDownstreamNodesById id) := by
  rw [FormState.deleteAgentDownstreamNodesById]
  cases hcollect : deleteAllDownstreamAgentsAndTool id s.edges with
  | none => exact hs
  | some result =>
      obtain ⟨ids, collected⟩ := result
      refine hs.delete hdistinct (hspares ids collected hcollect) (fun n _ => ?_) fun e _ => ?_
      · rw [Bool.and_eq_true, Bool.not_eq_true', decide_eq_true_eq, not_or]
        refine and_congr_left fun _ => ?_
        rw [List.any_eq_false]
        exact ⟨fun h hmem => h n.id hmem (by simp), fun h x hx heq => h (by simp_all)⟩
      · simp [Edge.touches, and_assoc]

theorem FormsFollow.deleteNodeById (hdistinct : (s.nodes.map (·.id)).Nodup) (hs : FormsFollow s)
    (horderly : (GraphOp.deleteNodeById id).Orderly s) : FormsFollow (s.deleteNodeById id) := by
  rw [GraphOp.Orderly] at horderly
  rw [FormState.deleteNodeById]
  split_ifs at horderly ⊢ with hagent
  · exact hs.deleteAgentDownstreamNodesById hdistinct horderly
  · rw [List.filter_filter]
    refine hs.delete hdistinct horderly (fun n _ => ?_) fun e _ => ?_
    · simp
    · simp [Edge.touches, and_comm]

theorem FormsFollow.deleteIterationNodeById (hdistinct : (s.nodes.map (·.id)).Nodup)
    (hs : FormsFollow s) (horderly : (GraphOp.deleteIterationNodeById id).Orderly s) :
    FormsFollow (s.deleteIterationNodeById id) := by
  rw [GraphOp.Orderly] at horderly
  rw [FormState.deleteIterationNodeById]
  refine hs.delete hdistinct horderly (fun n hn => ?_) fun e _ => ?_
  · -- A node whose id is that of a child is the child.
    have hchild : (∃ child ∈ s.nodes, child.parentId = some id ∧ child.id = n.id) ↔
        n.parentId = some id := by
      constructor
      · rintro ⟨child, hmem, hparent, hid⟩
        exact List.inj_on_of_nodup_map hdistinct hmem hn hid ▸ hparent
      · exact fun hparent => ⟨n, hn, hparent, rfl⟩
    rw [hchild]
    simp
  · simp [Edge.touches, and_assoc]

end Delete

/-! ### Runs -/

section Steps

variable {libAddEdge : Connection → List Edge → List Edge}

theorem toStore_updateSwitchFormData {sourceHandle : Option String} {isConnecting : Bool} :
    (s.updateSwitchFormData source sourceHandle target isConnecting).toStore = s.toStore := by
  rw [FormState.updateSwitchFormData]
  split
  · rfl
  · dsimp only
    split
    · rfl
    · exact toStore_updateNodeForm

theorem toStore_updateFormDataOnConnect {connection : Connection} :
    (s.updateFormDataOnConnect connection).toStore = s.toStore := by
  rw [FormState.updateFormDataOnConnect]
  split_ifs
  · exact toStore_updateSwitchFormData
  · rfl

/-- The operation of the store without forms. -/
def GraphOp.toStoreOp : GraphOp → StoreOp
  | addEdge connection | onConnect connection => .addEdge connection
  | deleteEdgeById id => .deleteEdgeById id
  | deleteNodeById id => .deleteNodeById id
  | deleteIterationNodeById id => .deleteIterationNodeById id

theorem toStore_filter {keep : FormNode → Bool} {keep' : Node → Bool}
    (hkeep : ∀ n : FormNode, keep n = keep' n.toNode) :
    FormState.toStore { nodes := s.nodes.filter keep, edges := edges } =
      { nodes := s.toStore.nodes.filter keep', edges := edges } := by
  have hcomp : keep = keep' ∘ FormNode.toNode := funext hkeep
  rw [FormState.toStore, FormState.toStore, List.filter_map, hcomp]

/-- Forms aside, the store does what it does without them. -/
theorem toStore_apply (op : GraphOp) :
    (op.apply libAddEdge s).toStore = op.toStoreOp.apply libAddEdge s.toStore := by
  cases op with
  | addEdge connection => exact toStore_updateFormDataOnConnect
  | onConnect connection => exact toStore_updateFormDataOnConnect
  | deleteEdgeById id =>
    have hnodes : ∀ (t : FormState) (edges : List Edge), t.toStore = s.toStore →
        (t.withEdges edges).toStore = { s.toStore with edges := edges } := fun t edges h =>
      congrArg (fun r : RFState => { r with edges := edges }) h
    refine hnodes _ _ ?_
    split
    · rfl
    · split_ifs
      · exact toStore_updateSwitchFormData
      · rfl
  | deleteNodeById id =>
    have htype : s.operatorType id = (s.toStore.getNode id).bind Node.label := rfl
    rw [GraphOp.apply, GraphOp.toStoreOp, StoreOp.apply, FormState.deleteNodeById,
      RFState.deleteNodeById, htype]
    split_ifs
    · rw [FormState.deleteAgentDownstreamNodesById, RFState.deleteAgentDownstreamNodesById]
      change _ = match deleteAllDownstreamAgentsAndTool id s.edges with
        | none => _
        | some (ids, collected) => _
      split
      · rfl
      · exact toStore_filter fun _ => rfl
    · exact toStore_filter fun _ => rfl
  | deleteIterationNodeById id =>
    rw [GraphOp.apply, GraphOp.toStoreOp, StoreOp.apply, FormState.deleteIterationNodeById,
      RFState.deleteIterationNodeById]
    have hchildren : s.toStore.nodes.filter (·.parentId = some id) =
        (s.nodes.filter (·.parentId = some id)).map FormNode.toNode := List.filter_map
    rw [hchildren]
    simp only [List.any_map]
    exact toStore_filter fun _ => rfl

/-- Every operation keeps the ids distinct. -/
theorem nodup_apply (hdistinct : (s.nodes.map (·.id)).Nodup) (op : GraphOp) :
    ((op.apply libAddEdge s).nodes.map (·.id)).Nodup := by
  have hfilter : ∀ keep : FormNode → Bool, ((s.nodes.filter keep).map (·.id)).Nodup := fun keep =>
    hdistinct.sublist (List.filter_sublist.map _)
  have hids : ∀ t : FormState, t.nodes.map (·.id) = t.toStore.nodes.map Node.id := by
    intro t
    rw [FormState.toStore, List.map_map]
    rfl
  cases op with
  | addEdge connection =>
    rw [hids, toStore_apply]
    exact hids s ▸ hdistinct
  | onConnect connection =>
    rw [hids, toStore_apply]
    exact hids s ▸ hdistinct
  | deleteEdgeById id =>
    rw [hids, toStore_apply]
    exact hids s ▸ hdistinct
  | deleteNodeById id =>
    rw [GraphOp.apply, FormState.deleteNodeById]
    split_ifs
    · rw [FormState.deleteAgentDownstreamNodesById]
      split
      · exact hdistinct
      · exact hfilter _
    · exact hfilter _
  | deleteIterationNodeById id => exact hfilter _

/-- What an orderly operation keeps. -/
theorem FormsFollow.apply (hadd : AppendsEdge libAddEdge) (hdistinct : (s.nodes.map (·.id)).Nodup)
    (hs : FormsFollow s) {op : GraphOp} (horderly : op.Orderly s) :
    FormsFollow (op.apply libAddEdge s) := by
  cases op with
  | addEdge connection => exact hs.connect hadd hdistinct horderly
  | onConnect connection => exact hs.connect hadd hdistinct horderly
  | deleteEdgeById id => exact hs.deleteEdgeById hdistinct horderly
  | deleteNodeById id => exact hs.deleteNodeById hdistinct horderly
  | deleteIterationNodeById id => exact hs.deleteIterationNodeById hdistinct horderly

end Steps

end Keep

/-- One orderly operation. -/
def OrderlyStep (libAddEdge : Connection → List Edge → List Edge) (s t : FormState) : Prop :=
  ∃ op : GraphOp, op.Orderly s ∧ t = op.apply libAddEdge s

/-- From a state in which ids are distinct and the forms follow, any number of orderly operations
leads to such a state, whatever `addEdge` of the flow library appends. -/
theorem orderly_operations_keep_forms (libAddEdge : Connection → List Edge → List Edge)
    (hadd : AppendsEdge libAddEdge) {s₀ s : FormState} {n : ℕ}
    (hdistinct : (s₀.nodes.map (·.id)).Nodup) (hstart : FormsFollow s₀)
    (hrun : Run (OrderlyStep libAddEdge) s₀ n s) : FormsFollow s := by
  have hkept : (s.nodes.map (·.id)).Nodup ∧ FormsFollow s :=
    hrun.invariant (P := fun _ s => (s.nodes.map (·.id)).Nodup ∧ FormsFollow s)
      ⟨hdistinct, hstart⟩ fun _ m t _ hm hstep => by
        obtain ⟨op, horderly, rfl⟩ := hstep
        exact ⟨nodup_apply hm.1 op, hm.2.apply hadd hm.1 horderly⟩
  exact hkept.2

/-- A Switch and a message, with nothing in the form. -/
def switchCanvas : FormState where
  nodes := [{ canvasNode "Switch:a" .switch none with form := fun _ => [] },
    { canvasNode "Message:b" .message none with form := fun _ => [] }]
  edges := []

/-- The first case leads to the message. -/
def caseConnection : Connection := ⟨"Switch:a", "Message:b", some "Case 1", some "end"⟩

theorem switchCanvas_follows : FormsFollow switchCanvas := by
  intro node hnode hlabel b
  rcases List.mem_pair.mp hnode with rfl | rfl
  · rfl
  · cases hlabel

/-- A connection from the first case is orderly, and is listed. -/
theorem orderly_connection_keeps_form :
    FormsFollow (switchCanvas.addEdge flowAddEdge caseConnection) := by
  have horderly : (GraphOp.addEdge caseConnection).Orderly switchCanvas := by
    refine fun _ => ⟨by decide, fun handle b hhandle hbranch => ?_⟩
    obtain rfl := Option.some.inj hhandle
    have hcase : branchOf "Case 1" = some (.case 0) := by decide
    rw [hcase] at hbranch
    obtain rfl := Option.some.inj hbranch
    decide
  exact orderly_operations_keep_forms flowAddEdge flowAddEdge_appends (n := 1) (by decide)
    switchCanvas_follows (.single ⟨.addEdge caseConnection, horderly, rfl⟩)

/-- The message that the first case leads to is deleted, and the form keeps it. -/
theorem deletion_leaves_form :
    FormsFollow switchCanvas ∧ ¬ FormsFollow
      ([GraphOp.addEdge caseConnection, .deleteNodeById "Message:b"].foldl
        (fun s op => op.apply flowAddEdge s) switchCanvas) := by
  refine ⟨switchCanvas_follows, fun h => ?_⟩
  have hcase : ∀ node ∈ ([GraphOp.addEdge caseConnection, .deleteNodeById "Message:b"].foldl
      (fun s op => op.apply flowAddEdge s) switchCanvas).nodes, node.label = some .switch →
        node.form (.case 0) = [] := fun node hnode hlabel => h node hnode hlabel (.case 0)
  exact absurd hcase (by decide)

end RagFlow.Editor
