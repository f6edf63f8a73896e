/-
# Running a workflow

`Canvas.run` keeps one list, the path. Behind the index `idx` stand the
components of the next batch; a batch first drops the entries one of whose
references is not on the path yet, invokes the others concurrently, and then
lets each of them append its successors. The run ends when a batch adds nothing.

The body of a component, the order in which concurrent invocations take effect,
cancellation, and exceptions that escape from outside the modelled code come
from an environment. What the scheduler does is recorded in a log: the creation
and the end of every invocation, every item an Iteration hands out, and every
answer of `end()`. Events sent to the client, timing outputs, the retrieval
records and the history are not read back by the scheduler and are left out.
-/

import RagFlow.Agent.Component
import RagFlow.Math.Push

namespace RagFlow.Agent

open RagFlow.Math

/-- The cursor `_idx` of an item component; `-1` marks the end. -/
abbrev Cursor := { i : ℤ // -1 ≤ i }

namespace Cursor

/-- `self._idx = -1`. -/
def stop : Cursor := ⟨-1, by decide⟩

/-- `self._idx = 0`, as set by the constructor. -/
def zero : Cursor := ⟨0, by decide⟩

/-- `self._idx += 1`. -/
def next (i : Cursor) : Cursor := ⟨i.1 + 1, by have := i.2; omega⟩

@[simp] theorem stop_val : stop.1 = -1 := rfl

@[simp] theorem zero_val : zero.1 = 0 := rfl

@[simp] theorem next_val (i : Cursor) : i.next.1 = i.1 + 1 := rfl

end Cursor

/-- What a run does, in the order in which it happens. -/
inductive Event
  /-- The inputs of a component were read and its task was created. -/
  | created (cpnId : CpnId)
  /-- The invocation of a component returned. -/
  | finished (cpnId : CpnId)
  /-- An IterationItem set its outputs `item` and `index`. -/
  | item (cpnId : CpnId) (value : Value) (index : ℤ)
  /-- `LoopItem.end` combined the termination conditions to this value. -/
  | condition (cpnId : CpnId) (shouldEnd : Bool)
  /-- The scheduler asked `end()` of an item component. -/
  | ended (cpnId : CpnId) (isEnd : Bool)

/-- The state of a canvas that the scheduler reads and writes. -/
structure Canvas where
  path : List CpnId
  data : Data
  cursor : CpnId → Cursor
  error : Option Value
  log : List Event

/-- Everything a run depends on besides the workflow. -/
structure Env where
  host : Host
  /-- The body of a component without a branch of its own: it reads the inputs
  taken when the task was created, changes the variables and may raise. -/
  invoke : ℕ → CpnId → (inputs data : Data) → Data × Option String
  /-- Reading the deferred text of a Message to its end, which may change other
  variables and may raise. -/
  stream : ℕ → CpnId → Data → Except String (Data × String)
  /-- `check_if_canceled`, by time and by its position in the invocation. -/
  isCanceled : ℕ → ℕ → Bool
  /-- The order in which the concurrent invocations of a batch take effect. -/
  gather : ℕ → List CpnId → List CpnId
  gather_perm : ∀ time tasks, (gather time tasks).Perm tasks
  /-- An exception that leaves the run: a cancelled task, or one raised while
  the inputs of a batch are read. -/
  escape : ℕ → Option String

/-- The environment in which component bodies do nothing and nothing fails. -/
def Env.quiet : Env where
  host := ⟨fun _ => none, fun _ => none, fun _ _ => .none, fun _ => ""⟩
  invoke := fun _ _ _ data => (data, none)
  stream := fun _ _ data => .ok (data, "")
  isCanceled := fun _ _ => false
  gather := fun _ tasks => tasks
  gather_perm := fun _ _ => .refl _
  escape := fun _ => none

namespace Canvas

/-- A canvas that has not run yet. -/
def fresh : Canvas where
  path := []
  data := ⟨fun _ _ => none, fun _ => none⟩
  cursor := fun _ => .zero
  error := none
  log := []

/-- Add an event to the log. -/
def record (s : Canvas) (e : Event) : Canvas := { s with log := s.log ++ [e] }

/-- `set_output` of a component. -/
def setOutput (s : Canvas) (c : CpnId) (key : String) (v : Value) : Canvas :=
  { s with data := s.data.setOutput c key v }

/-- Assign `_idx` of an item component. -/
def setCursor (s : Canvas) (c : CpnId) (i : Cursor) : Canvas :=
  { s with cursor := Function.update s.cursor c i }

/-- `ComponentBase.error`, as far as it is truthy. -/
def errorOf (s : Canvas) (c : CpnId) : Option Value :=
  (s.data.outputs c "_ERROR").filter Value.truthy

/-- The number of events so far, used as time. -/
def time (s : Canvas) : ℕ := s.log.length

end Canvas

/-! ## Invoking a component -/

section Invoke

variable (W : Workflow) (env : Env)

/-- Whether a component id exists. -/
def known (c : CpnId) : Bool := (W.getComponent c).isSome

/-- The message about items that are not a list. -/
def notAnArray (host : Host) (itemsRef : VarRef) (v : Value) : String :=
  itemsRef.text ++ " must be an array, but its type is " ++ host.typeText v

/-- `check_if_canceled` returning true: the error output is set. -/
def cancel (s : Canvas) (c : CpnId) : Canvas × Option String :=
  (s.setOutput c "_ERROR" (.str "Task has been canceled"), none)

/-- Append the outputs of body components to the collated outputs of `pid`, one
after the other. Only a list can be appended to; a falsy output starts a new
list. -/
def collateAll (pid : CpnId) (data : Data) : List CollatedOutput → Data × Option String
  | [] => (data, none)
  | o :: os =>
      match data.output pid o.key with
      | .list res =>
          collateAll pid (data.setOutput pid o.key
            (.list (res ++ [data.output o.cpnId o.var]))) os
      | res =>
          if res.truthy then (data, some "object has no attribute 'append'")
          else
            collateAll pid (data.setOutput pid o.key
              (.list [data.output o.cpnId o.var])) os

/-- The components nested in `pid`, in dictionary order. -/
def bodyIds (pid : CpnId) : List CpnId :=
  (W.components.filter fun entry => entry.2.parentId == some pid).map Prod.fst

/-- `IterationItem.output_collation`. -/
def outputCollation (pid : CpnId) (outputs : List CollatedOutput) (data : Data) :
    Data × Option String :=
  collateAll pid data
    ((bodyIds W pid).flatMap fun cid => outputs.filter fun o => o.cpnId == cid)

/-- The collation step of `IterationItem._invoke`: nothing before the second
element. -/
def collate (pid : CpnId) (outputs : List CollatedOutput) (idx : Cursor) (data : Data) :
    Data × Option String :=
  if 0 < idx.1 then outputCollation W pid outputs data else (data, none)

/-- The end of `IterationItem._invoke`: stop behind the last element, or hand
out `arr[_idx]`. -/
def handOut (c : CpnId) (arr : List Value) (s : Canvas) : Canvas × Option String :=
  let idx := s.cursor c
  if (arr.length : ℤ) ≤ idx.1 then (s.setCursor c .stop, none)
  else
    match pyIndex arr idx.1 with
    | none => (s, some "list index out of range")
    | some v =>
        (((s.setOutput c "item" v).setOutput c "index" (.num idx.1)).setCursor c idx.next
          |>.record (.item c v idx.1), none)

/-- `IterationItem._invoke`. -/
def iterationItemInvoke (c : CpnId) (cpn : Component) (s : Canvas) :
    Canvas × Option String :=
  if env.isCanceled s.time 0 then cancel s c
  else
    match W.getParent cpn with
    | .error e => (s, some e)
    | .ok (some (pid, { obj := .iteration itemsRef outputs, .. })) =>
        match getVariableValue env.host (known W) s.data itemsRef with
        | .error e => (s, some e)
        | .ok (.list arr) =>
            if 0 < (s.cursor c).1 && env.isCanceled s.time 1 then cancel s c
            else
              match collate W pid outputs (s.cursor c) s.data with
              | (data, some e) => ({ s with data := data }, some e)
              | (data, none) =>
                  let s := { s with data := data }
                  if (s.cursor c).1 < (arr.length : ℤ) && env.isCanceled s.time 2 then cancel s c
                  else handOut c arr s
        | .ok v => (s.setCursor c .stop, some (notAnArray env.host itemsRef v))
    | .ok _ => (s, some "object has no attribute '_param'")

/-- `LoopItem._invoke`. -/
def loopItemInvoke (c : CpnId) (cpn : Component) (s : Canvas) : Canvas × Option String :=
  if env.isCanceled s.time 0 then cancel s c
  else
    match W.getParent cpn with
    | .error e => (s, some e)
    | .ok (some (_, { obj := .loop _ _ _ maximumLoopCount, .. })) =>
        if (maximumLoopCount : ℤ) ≤ (s.cursor c).1 then (s.setCursor c .stop, none)
        else if 0 < (s.cursor c).1 && env.isCanceled s.time 1 then cancel s c
        else (s.setCursor c (s.cursor c).next, none)
    | .ok _ => (s, some "object has no attribute 'maximum_loop_count'")

/-- `Iteration._invoke`: the items must be a list. -/
def iterationInvoke (c : CpnId) (itemsRef : VarRef) (s : Canvas) : Canvas × Option String :=
  if env.isCanceled s.time 0 then cancel s c
  else
    match getVariableValue env.host (known W) s.data itemsRef with
    | .error e => (s, some e)
    | .ok (.list _) => (s, none)
    | .ok v => (s.setOutput c "_ERROR" (.str (notAnArray env.host itemsRef v)), none)

/-- The first value of a loop variable. -/
def loopVariableValue (data : Data) : LoopVariableInput → Except String Value
  | .variable ref => getVariableValue env.host (known W) data ref
  | .constant v => .ok v
  | .typed type =>
      .ok (if type = "number" then .num 0
        else if type = "boolean" then .bool false
        else if "object".toList <+: type.toList then .dict []
        else if "array".toList <+: type.toList then .list []
        else .str "")

/-- `Loop._invoke`: set the loop variables. -/
def loopInvoke (c : CpnId) (s : Canvas) : List LoopVariable → Canvas × Option String
  | [] => (s, none)
  | v :: vs =>
      match loopVariableValue W env s.data v.input with
      | .error e => (s, some e)
      | .ok value => loopInvoke c (s.setOutput c v.var value) vs

/-- The `_invoke` of a component: the state it leaves and the exception it
raises. -/
def invokeBody (c : CpnId) (cpn : Component) (inputs : Data) (s : Canvas) :
    Canvas × Option String :=
  match cpn.obj with
  | .iterationItem => iterationItemInvoke W env c cpn s
  | .loopItem => loopItemInvoke W env c cpn s
  | .iteration itemsRef _ => iterationInvoke W env c itemsRef s
  | .loop loopVariables _ _ _ =>
      if env.isCanceled s.time 0 then cancel s c else loopInvoke W env c s loopVariables
  | .exitLoop => (s, none)
  | _ =>
      let (data, raised) := env.invoke s.time c inputs s.data
      ({ s with data := data }, raised)

/-- `ComponentBase.invoke`: an exception becomes the default value of the
component, or its error output. -/
def invoke (c : CpnId) (cpn : Component) (inputs : Data) (s : Canvas) : Canvas :=
  match invokeBody W env c cpn inputs s with
  | (s, none) => s
  | (s, some message) =>
      match cpn.exceptionMethod, cpn.exceptionDefaultValue with
      | some "comment", some default => s.setOutput c "result" default
      | _, _ => s.setOutput c "_ERROR" (.str message)

/-- One task of a batch, from its start to its end. -/
def runTask (inputs : Data) (s : Canvas) (c : CpnId) : Canvas :=
  match W.getComponent c with
  | none => s
  | some cpn => (invoke W env c cpn inputs s).record (.finished c)

end Invoke

/-! ## A batch -/

section Batch

variable (W : Workflow) (env : Env)

/-- The check of `_run_batch`: some input element refers to a component that is
not on the path in front of this entry. It is off while the path starts at a
UserFillUp. -/
def missesReference (head : Option CpnId) (before : List CpnId) (cpn : Component) : Bool :=
  cpn.inputElements.any fun
    | none => false
    | some r => !decide (r ∈ before) && !(head.any isUserFillUpId)

/-- Whether `_run_batch` creates a task for an entry with `before` in front. -/
def ready (head : Option CpnId) (before : List CpnId) (cpn : Component) : Bool :=
  cpn.obj.takesRunInputs || !missesReference head before cpn

/-- The entries of a batch that are not popped, in order. -/
def selectBatch (before : List CpnId) : List CpnId → Except String (List CpnId)
  | [] => .ok []
  | c :: rest =>
      match W.getComponent c with
      | none => .error Workflow.noneError
      | some cpn =>
          if ready (before ++ [c]).head? before cpn then
            (selectBatch (before ++ [c]) rest).map (c :: ·)
          else selectBatch before rest

/-- The canvas on which the tasks of a batch start: the popped entries are gone,
and every task has been created. -/
def startBatch (executed batch : List CpnId) (s : Canvas) : Canvas :=
  { s with
    path := executed ++ batch
    log := s.log ++ batch.map Event.created }

/-- `_run_batch(f, t)` on the path `executed ++ pending` split at `f`. All tasks
are created before the first of them runs. -/
def runBatch (executed pending : List CpnId) (s : Canvas) :
    Except String (List CpnId × Canvas) :=
  match env.escape s.time with
  | some e => .error e
  | none =>
      (selectBatch W executed pending).map fun batch =>
        (batch, (env.gather s.time batch).foldl (runTask W env s.data)
          (startBatch executed batch s))

/-- The value a termination condition compares with. -/
def conditionValue (data : Data) : ConditionInput → Except String Value
  | .variable ref => getVariableValue env.host (known W) data ref
  | .constant v => .ok v
  | .invalid => .error "Invalid input mode."

/-- One termination condition of a loop. -/
def evaluateLoopCondition (data : Data) (item : LoopCondition) : Except String Bool :=
  match item.var, item.operator with
  | some ref, some operator => do
      let var ← getVariableValue env.host (known W) data ref
      let value ← conditionValue W env data item.input
      evaluateCondition var operator value
  | _, _ => .error "Loop condition is incomplete."

/-- The termination condition of a loop, combined by its logical operator. -/
def shouldEnd (data : Data) (items : List LoopCondition) (logical : LogicalOperator) :
    Except String Bool := do
  let conditions ← items.mapM (evaluateLoopCondition W env data)
  match logical with
  | .and => .ok (conditions.all id)
  | .or => .ok (conditions.any id)
  | .other _ => .error "Invalid logical operator,should be 'and' or 'or'."

/-- `LoopItem.end` while the cursor is not at the end mark. -/
def loopItemCheck (c : CpnId) (cpn : Component) (s : Canvas) : Except String (Bool × Canvas) :=
  match W.getParent cpn with
  | .ok (some (_, { obj := .loop _ items logical _, .. })) =>
      (shouldEnd W env s.data items logical).map fun b =>
        let s := s.record (.condition c b)
        (b, if b then s.setCursor c .stop else s)
  | .ok _ => .error "object has no attribute 'loop_termination_condition'"
  | .error e => .error e

/-- `end()` of an item component; other kinds are not asked. -/
def endOf (c : CpnId) (cpn : Component) (s : Canvas) : Except String (Bool × Canvas) :=
  match cpn.obj with
  | .iterationItem =>
      let b := decide ((s.cursor c).1 = -1)
      .ok (b, s.record (.ended c b))
  | .loopItem =>
      if (s.cursor c).1 = -1 then .ok (true, s.record (.ended c true))
      else (loopItemCheck W env c cpn s).map fun (b, s) => (b, s.record (.ended c b))
  | _ => .ok (false, s)

/-- The ids a categorize or switch component left in its output `_next`. -/
def nextOutput (data : Data) (c : CpnId) : Except String (List CpnId) :=
  match data.output c "_next" with
  | .list items => items.mapM fun
      | .str s => .ok s
      | _ => .error Workflow.noneError
  | .str "" => .ok []
  | _ => .error "TypeError"

/-- `get_start()` of a parent, which must have found an item component. -/
def startOf (pid : CpnId) (parent : Component) : Except String CpnId :=
  match W.getStart pid parent with
  | .ok (some c) => .ok c
  | .ok none => .error Workflow.noneError
  | .error e => .error e

/-- The downstream list of the parent of `cpn`. -/
def parentDownstream (cpn : Component) : Except String (List CpnId) :=
  match W.getParent cpn with
  | .ok (some (_, parent)) => .ok parent.downstream
  | .ok none => .error Workflow.noneError
  | .error e => .error e

/-- The last two branches of the post-processing: a leaf inside an Iteration or
a Loop goes back to its start, anything else to its downstream list. -/
def leafSuccessors (cpn : Component) : Except String (List CpnId) :=
  if cpn.downstream = [] then
    match W.getParent cpn with
    | .error e => .error e
    | .ok none => .ok []
    | .ok (some (pid, parent)) => (startOf W pid parent).map fun c => [c]
  else .ok cpn.downstream

/-- The ids that the post-processing of a finished component appends, by kind. -/
def successors (c : CpnId) (cpn : Component) (isEnd : Bool) (data : Data) :
    Except String (List CpnId) :=
  if isEnd then parentDownstream W cpn
  else
    match cpn.obj with
    | .categorize | .switch => nextOutput data c
    | .iteration _ _ | .loop _ _ _ _ => (startOf W c cpn).map fun start => [start]
    | .exitLoop =>
        match W.getParent cpn with
        | .error e => .error e
        | .ok none => .error Workflow.noneError
        | .ok (some (_, { obj := .loop _ _ _ _, downstream := downstream, .. })) =>
            .ok downstream
        | .ok (some _) => leafSuccessors W cpn
    | _ => leafSuccessors W cpn

/-- A finished Message with a deferred text reads it to its end. -/
def drain (c : CpnId) (cpn : Component) (s : Canvas) : Except String Canvas :=
  match cpn.obj, s.data.output c "content" with
  | .message, .stream =>
      (env.stream s.time c s.data).map fun (data, text) =>
        { s with data := data.setOutput c "content" (.str text) }
  | _, _ => .ok s

/-- The error branch of the post-processing. An `exception_goto` extends the
path and suppresses the ordinary successors, which the flag reports. -/
def handleError (c : CpnId) (cpn : Component) (s : Canvas) : Bool × Canvas :=
  match s.errorOf c with
  | none => (false, s)
  | some message =>
      match cpn.exceptionMethod with
      | none => (false, { s with error := some message })
      | some _ =>
          if cpn.exceptionGoto ≠ [] then
            (true, { s with path := s.path ++ cpn.exceptionGoto })
          else if (cpn.exceptionDefaultValue.map Value.truthy).getD false then (false, s)
          else (false, { s with error := some message })

/-- Once the run has an error, a deferred text is dropped. -/
def dropStream (c : CpnId) (cpn : Component) (s : Canvas) : Canvas :=
  match cpn.obj, s.data.output c "content", s.error with
  | .iteration _ _, _, _ | .loop _ _ _ _, _, _ => s
  | _, .stream, some _ => s.setOutput c "content" .none
  | _, _, _ => s

/-- The post-processing of a component up to the point where the path grows:
whether an `exception_goto` was taken, and the ids to append if not. -/
def settle (s : Canvas) (c : CpnId) : Except String (Bool × List CpnId × Canvas) :=
  match W.getComponent c with
  | none => .error Workflow.noneError
  | some cpn => do
      let s ← drain env c cpn s
      let (otherBranch, s) := handleError c cpn s
      let (isEnd, s) ← endOf W env c cpn (dropStream c cpn s)
      let ids ← successors W c cpn isEnd s.data
      return (otherBranch, ids, s)

/-- The post-processing of one component of a finished batch. -/
def postProcess (s : Canvas) (c : CpnId) : Except String Canvas := do
  let (otherBranch, ids, s) ← settle W env s c
  return if otherBranch then s else { s with path := pushAll s.path ids }

end Batch

/-! ## A run -/

/-- A run between two batches: the canvas and the index of the next batch. -/
structure RunState where
  canvas : Canvas
  idx : ℕ

namespace RunState

/-- The part of the path that has been executed. -/
def executed (s : RunState) : List CpnId := s.canvas.path.take s.idx

/-- The entries of the next batch. -/
def pending (s : RunState) : List CpnId := s.canvas.path.drop s.idx

@[simp]
theorem executed_append_pending (s : RunState) : s.executed ++ s.pending = s.canvas.path :=
  List.take_append_drop s.idx s.canvas.path

end RunState

/-- How one pass through the loop of `Canvas.run` leaves the run. -/
inductive Outcome
  | running (s : RunState)
  | finished (s : Canvas)
  /-- The run returned to ask the user for inputs. -/
  | waiting (s : Canvas)

section Run

variable (W : Workflow) (env : Env)

/-- Whether a path entry is a UserFillUp component. -/
def asksUser (c : CpnId) : Bool := (W.getComponent c).any (·.obj.isUserFillUp)

/-- The UserFillUp components come first in the path that is kept while the
user is asked; they are invoked once to fill in their tips. -/
def waitForUser (s : RunState) : Canvas :=
  let fillUps := s.pending.filter (asksUser W)
  let s' := fillUps.foldl (runTask W env s.canvas.data) s.canvas
  { s' with path := fillUps ++ s.pending.filter fun c => !asksUser W c }

/-- One pass through the loop of `Canvas.run`. -/
def step (s : RunState) : Except String Outcome := do
  let (batch, canvas) ← runBatch W env s.executed s.pending s.canvas
  let canvas ← batch.foldlM (postProcess W env) canvas
  let next : RunState := ⟨canvas, s.executed.length + batch.length⟩
  if canvas.error.isSome then
    return .finished { canvas with path := canvas.path.take s.executed.length }
  else if next.pending.any (asksUser W) then
    return .waiting (waitForUser W env next)
  else
    return .running next

/-- `while idx < len(self.path)`, with a bound on the number of passes. -/
def runLoop : ℕ → RunState → Option (Except String Outcome)
  | 0, _ => none
  | fuel + 1, s =>
      if s.pending = [] then some (.ok (.finished s.canvas))
      else
        match step W env s with
        | .ok (.running s') => runLoop fuel s'
        | result => some result

/-- Exactly `n` passes, each of which is followed by another one. -/
def passes : ℕ → RunState → Option RunState
  | 0, s => some s
  | n + 1, s =>
      if s.pending = [] then none
      else
        match step W env s with
        | .ok (.running s') => passes n s'
        | _ => none

/-- The beginning of `Canvas.run`: outputs are reset, and the run starts at
`begin` unless it resumes at a UserFillUp. -/
def startRun (s : Canvas) : RunState :=
  let path :=
    if s.path.getLast?.any isUserFillUpId then s.path else s.path ++ ["begin"]
  ⟨{ s with path := path, data := s.data.reset, error := none, log := [] }, path.length - 1⟩

/-- `Canvas.run` on a canvas as it is stored. -/
def run (fuel : ℕ) (s : Canvas) : Option (Except String Outcome) :=
  runLoop W env fuel (startRun s)

/-- One pass that leads to another pass. -/
def Step (s s' : RunState) : Prop :=
  s.pending ≠ [] ∧ step W env s = .ok (.running s')

end Run

end RagFlow.Agent
