/-
# Components and workflows

A workflow is the `components` dictionary of the DSL: every component has its
kind with the parameters the scheduler reads, its downstream list, the parent
it is nested in (an Iteration or a Loop), the ids its input elements refer to,
and what it does when its invocation fails. Display names, prompts and model
settings are not read by the scheduler and are left out.
-/

import RagFlow.Agent.Variable
import Mathlib.Logic.Relation

namespace RagFlow.Agent

/-- The right-hand side of a loop termination condition, by `input_mode`. -/
inductive ConditionInput
  | variable (ref : VarRef)
  | constant (value : Value)
  | invalid

/-- One entry of `loop_termination_condition`; a missing or empty `variable` (`var` here) or
`operator` is `none`. -/
structure LoopCondition where
  var : Option VarRef
  operator : Option Operator
  input : ConditionInput

/-- `logical_operator` of a loop. -/
inductive LogicalOperator
  | and
  | or
  | other (name : String)
  deriving DecidableEq

/-- How a loop variable gets its first value: `input_mode`, or else `type`. -/
inductive LoopVariableInput
  | variable (ref : VarRef)
  | constant (value : Value)
  | typed (type : String)

/-- One entry of `loop_variables`. -/
structure LoopVariable where
  var : String
  input : LoopVariableInput

/-- A collated output of an Iteration: the output key and the `ref` to the
output of a component of the body, split at `@`. -/
structure CollatedOutput where
  key : String
  cpnId : CpnId
  var : String
  deriving DecidableEq

/-- The component kinds the scheduler distinguishes, each with the parameters it
reads. `other` stands for every component class without a branch of its own. -/
inductive Obj
  | begin
  | userFillUp
  | iteration (itemsRef : VarRef) (outputs : List CollatedOutput)
  | iterationItem
  | loop (loopVariables : List LoopVariable) (terminationCondition : List LoopCondition)
      (logicalOperator : LogicalOperator) (maximumLoopCount : ℕ)
  | loopItem
  | categorize
  | switch
  | exitLoop
  | message
  | other (name : String)

namespace Obj

/-- `component_name.lower() in ["begin", "userfillup"]`: the kinds that are
invoked without looking at their input elements. -/
def takesRunInputs : Obj → Bool
  | begin | userFillUp => true
  | _ => false

/-- The kinds whose successors are their downstream list in every run. -/
def isPlain : Obj → Bool
  | begin | exitLoop | message | other _ => true
  | _ => false

/-- `component_name.lower() == "userfillup"`. -/
def isUserFillUp : Obj → Bool
  | userFillUp => true
  | _ => false

/-- Iterations, loops and their item components. -/
def isNesting : Obj → Bool
  | iteration _ _ | iterationItem | loop _ _ _ _ | loopItem => true
  | _ => false

end Obj

/-- An entry of the `components` dictionary. Falsy settings of the DSL are
`none` or the empty list. -/
structure Component where
  obj : Obj
  downstream : List CpnId
  parentId : Option CpnId
  /-- The `_cpn_id` of each input element. -/
  inputElements : List (Option CpnId)
  exceptionMethod : Option String
  exceptionGoto : List CpnId
  exceptionDefaultValue : Option Value

/-- A component outside every Iteration and Loop that reads the outputs of the
components `inputs` and has no settings for failures. -/
def Component.simple (obj : Obj) (downstream inputs : List CpnId) : Component where
  obj := obj
  downstream := downstream
  parentId := none
  inputElements := inputs.map some
  exceptionMethod := none
  exceptionGoto := []
  exceptionDefaultValue := none

/-- The components dictionary, in insertion order, without repeated keys. -/
structure Workflow where
  components : List (CpnId × Component)
  nodup : (components.map Prod.fst).Nodup

namespace Workflow

/-- The component ids. -/
def ids (W : Workflow) : List CpnId := W.components.map Prod.fst

/-- `Graph.get_component`. -/
def getComponent (W : Workflow) (c : CpnId) : Option Component :=
  W.components.lookup c

/-- Subscripting a missing component raises this `TypeError`. -/
def noneError : String := "'NoneType' object is not subscriptable"

/-- `ComponentBase.get_parent`, with the id of the parent. -/
def getParent (W : Workflow) (cpn : Component) : Except String (Option (CpnId × Component)) :=
  match cpn.parentId with
  | none => .ok none
  | some pid =>
      match W.getComponent pid with
      | none => .error noneError
      | some parent => .ok (some (pid, parent))

/-- The first component of an item kind below the parent `pid`. -/
def findItem (W : Workflow) (isItem : Obj → Bool) (pid : CpnId) : Option CpnId :=
  (W.components.find? fun entry =>
    isItem entry.2.obj && entry.2.parentId == some pid).map Prod.fst

/-- `Iteration.get_start` and `Loop.get_start`; other kinds have no such method. -/
def getStart (W : Workflow) (pid : CpnId) (parent : Component) :
    Except String (Option CpnId) :=
  match parent.obj with
  | .iteration _ _ => .ok (W.findItem (fun | .iterationItem => true | _ => false) pid)
  | .loop _ _ _ _ => .ok (W.findItem (fun | .loopItem => true | _ => false) pid)
  | _ => .error "object has no attribute 'get_start'"

/-- The downstream list of a component id. -/
def downstream (W : Workflow) (c : CpnId) : List CpnId :=
  ((W.getComponent c).map Component.downstream).getD []

/-- `b` is in the downstream list of `a`. -/
def Edge (W : Workflow) (a b : CpnId) : Prop := b ∈ W.downstream a

/-- `b` has an input element that refers to `a`. -/
def Refers (W : Workflow) (b a : CpnId) : Prop :=
  ∃ cpn, W.getComponent b = some cpn ∧ some a ∈ cpn.inputElements

theorem mem_ids_iff {W : Workflow} {c : CpnId} :
    c ∈ W.ids ↔ (W.getComponent c).isSome := by
  simp only [ids, getComponent, List.lookup_isSome_iff, List.mem_map, beq_iff_eq]
  constructor
  · rintro ⟨entry, hentry, rfl⟩
    exact ⟨entry, hentry, rfl⟩
  · rintro ⟨entry, hentry, h⟩
    exact ⟨entry, hentry, h.symm⟩

theorem mem_components_of_getComponent {W : Workflow} {c : CpnId} {cpn : Component}
    (h : W.getComponent c = some cpn) : (c, cpn) ∈ W.components := by
  obtain ⟨before, after, heq, _⟩ := List.lookup_eq_some_iff.mp h
  simp [heq]

theorem downstream_eq {W : Workflow} {c : CpnId} {cpn : Component}
    (h : W.getComponent c = some cpn) : W.downstream c = cpn.downstream := by
  simp [downstream, h]

theorem parentId_of_getParent {W : Workflow} {cpn parent : Component} {pid : CpnId}
    (h : W.getParent cpn = .ok (some (pid, parent))) :
    cpn.parentId = some pid := by
  unfold getParent at h
  split at h
  · cases h
  · rename_i hpid
    split at h
    · cases h
    · cases h
      exact hpid

theorem getComponent_of_getParent {W : Workflow} {cpn parent : Component} {pid : CpnId}
    (h : W.getParent cpn = .ok (some (pid, parent))) :
    W.getComponent pid = some parent := by
  unfold getParent at h
  split at h
  · cases h
  · split at h
    · cases h
    · rename_i hget
      cases h
      exact hget

theorem Edge.mem_ids {W : Workflow} {a b : CpnId} (h : W.Edge a b) : a ∈ W.ids := by
  rw [mem_ids_iff]
  by_contra hnone
  have hnone := Option.not_isSome_iff_eq_none.mp hnone
  simp [Edge, downstream, hnone] at h

end Workflow

/-- `cpn_id.lower().find("userfillup") >= 0`. -/
def isUserFillUpId (c : CpnId) : Bool :=
  decide ("userfillup".toList <:+: c.toList.map Char.toLower)

end RagFlow.Agent
