/-
# Workflow variables

Components of an agent workflow communicate through named outputs and through
the globals of the canvas. A component names such a variable by a reference,
`cpn_id@key.rest` for an output and a plain key for a global; this module gives
the runtime values, the reference lookup of the canvas, and the comparison that
a loop applies to a looked-up value.

Ints and finite floats compare exactly in the source, so both are rationals
here. Parsing a string as JSON, converting a path key to an index, reading an
attribute of a foreign object and printing a type are services of the host
language; they enter as fields of `Host` and no result depends on what they
return.
-/

import Mathlib.Data.Rat.Defs
import Mathlib.Data.List.Infix

namespace RagFlow.Agent

/-- Components are identified by the keys of the `components` dictionary. -/
abbrev CpnId := String

/-- A runtime value. `stream` is the deferred text of a streaming component. -/
inductive Value
  | none
  | bool (b : Bool)
  | num (q : ℚ)
  | str (s : String)
  | list (items : List Value)
  | dict (entries : List (String × Value))
  | stream

namespace Value

/-- Truth value testing. -/
def truthy : Value → Bool
  | .none => false
  | .bool b => b
  | .num q => q ≠ 0
  | .str s => s ≠ ""
  | .list items => !items.isEmpty
  | .dict entries => !entries.isEmpty
  | .stream => true

/-- The number a value stands for in a comparison; booleans are integers. -/
def number? : Value → Option ℚ
  | .bool b => some (if b then 1 else 0)
  | .num q => some q
  | _ => Option.none

mutual

/-- Equality of values: `True == 1`, lists elementwise, dictionaries whatever
the order of their keys. -/
def pyEq : Value → Value → Bool
  | .none, .none => true
  | .bool a, .bool b => a == b
  | .bool a, .num q => q = (if a then 1 else 0)
  | .num q, .bool b => q = (if b then 1 else 0)
  | .num p, .num q => p = q
  | .str a, .str b => a = b
  | .list as, .list bs => pyEqList as bs
  | .dict as, .dict bs => as.length = bs.length && pyEqDict as bs
  | _, _ => false

/-- Elementwise equality. -/
def pyEqList : List Value → List Value → Bool
  | [], [] => true
  | a :: as, b :: bs => pyEq a b && pyEqList as bs
  | _, _ => false

/-- Every entry of the first dictionary occurs in the second. -/
def pyEqDict : List (String × Value) → List (String × Value) → Bool
  | [], _ => true
  | (k, a) :: as, bs =>
      (match bs.lookup k with
        | some b => pyEq a b
        | Option.none => false) && pyEqDict as bs

end

end Value

/-- A variable reference, split at `@` and at the first dot. -/
inductive VarRef
  | global (exp : String)
  | output (cpnId : CpnId) (rootKey : String) (rest : List String)
  deriving DecidableEq

/-- The reference as it is written in the DSL. -/
def VarRef.text : VarRef → String
  | .global exp => exp
  | .output cpnId rootKey rest => cpnId ++ "@" ++ ".".intercalate (rootKey :: rest)

/-- Services of the host language used while following a reference; `typeText`
is `str(type(v))`. -/
structure Host where
  jsonLoads : String → Option Value
  int : String → Option ℤ
  getattr : Value → String → Value
  typeText : Value → String

/-- The variables of a canvas: per component its outputs, and the globals. -/
structure Data where
  outputs : CpnId → String → Option Value
  globals : String → Option Value

namespace Data

/-- `ComponentBase.output(var_nm)`: a missing output reads as the empty string. -/
def output (data : Data) (c : CpnId) (key : String) : Value :=
  (data.outputs c key).getD (.str "")

/-- `ComponentBase.set_output`. -/
def setOutput (data : Data) (c : CpnId) (key : String) (v : Value) : Data :=
  { data with outputs := fun c' key' =>
      if c' = c ∧ key' = key then some v else data.outputs c' key' }

/-- `ComponentBase.reset(only_output=True)` on every component. -/
def reset (data : Data) : Data :=
  { data with outputs := fun c key => (data.outputs c key).map fun _ => .none }

@[simp]
theorem setOutput_self (data : Data) (c : CpnId) (key : String) (v : Value) :
    (data.setOutput c key v).output c key = v := by
  simp [output, setOutput]

end Data

/-- List indexing with a Python index: negative indices count from the end. -/
def pyIndex {α : Type*} (items : List α) (i : ℤ) : Option α :=
  if 0 ≤ i then items[i.toNat]? else
    if 0 ≤ i + items.length then items[(i + items.length).toNat]? else none

/-- `Graph.get_variable_param_value`: follow a dotted path into a value. -/
@[grind =] def getVariableParamValue (host : Host) : Value → List String → Value
  | cur, [] => cur
  | .none, _ :: _ => .none
  | .str s, key :: keys =>
      match host.jsonLoads s with
      | none => .none
      | some (.dict entries) =>
          getVariableParamValue host ((entries.lookup key).getD .none) keys
      | some (.list items) =>
          match (host.int key).bind (pyIndex items) with
          | none => .none
          | some v => getVariableParamValue host v keys
      | some v => getVariableParamValue host (host.getattr v key) keys
  | .dict entries, key :: keys =>
      getVariableParamValue host ((entries.lookup key).getD .none) keys
  | .list items, key :: keys =>
      match (host.int key).bind (pyIndex items) with
      | none => .none
      | some v => getVariableParamValue host v keys
  | v, key :: keys => getVariableParamValue host (host.getattr v key) keys

/-- `Graph.get_variable_value`. `known` tells which component ids exist. -/
def getVariableValue (host : Host) (known : CpnId → Bool) (data : Data) :
    VarRef → Except String Value
  | .global exp =>
      match data.globals exp with
      | none => .error exp
      | some v => .ok v
  | .output cpnId rootKey rest =>
      if known cpnId then .ok (getVariableParamValue host (data.output cpnId rootKey) rest)
      else .error ("Can't find variable: '" ++ (VarRef.output cpnId rootKey rest).text ++ "'")

/-- The operators of a loop termination condition. -/
inductive Operator
  | contains | notContains | startWith | endWith | is | isNot | empty | notEmpty
  | eq | ne | gt | lt | ge | le
  | other (name : String)
  deriving DecidableEq

/-- The operator as it is written in a condition. -/
def Operator.text : Operator → String
  | .contains => "contains"
  | .notContains => "not contains"
  | .startWith => "start with"
  | .endWith => "end with"
  | .is => "is"
  | .isNot => "is not"
  | .empty => "empty"
  | .notEmpty => "not empty"
  | .eq => "="
  | .ne => "≠"
  | .gt => ">"
  | .lt => "<"
  | .ge => "≥"
  | .le => "≤"
  | .other name => name

/-- The final `raise` of `evaluate_condition`. -/
def invalidOperator (operator : Operator) : Except String Bool :=
  .error ("Invalid operator: " ++ operator.text)

/-- An order comparison of two numbers; other operands raise a `TypeError`. -/
def compareNumbers (var value : Value) (rel : ℚ → ℚ → Bool) : Except String Bool :=
  match var.number?, value.number? with
  | some p, some q => .ok (rel p q)
  | _, _ => .error "TypeError"

/-- `LoopItem.evaluate_condition`. A boolean is an int for the source, so the
branch for numbers also takes the booleans and the later branch is never
reached. -/
def evaluateCondition (var : Value) (operator : Operator) (value : Value) :
    Except String Bool :=
  match var with
  | .str s =>
      match operator, value with
      | .contains, .str v => .ok (decide (v.toList <:+: s.toList))
      | .notContains, .str v => .ok (!decide (v.toList <:+: s.toList))
      | .startWith, .str v => .ok (decide (v.toList <+: s.toList))
      | .endWith, .str v => .ok (decide (v.toList <:+ s.toList))
      | .contains, _ | .notContains, _ | .startWith, _ | .endWith, _ => .error "TypeError"
      | .is, v => .ok (var.pyEq v)
      | .isNot, v => .ok (!var.pyEq v)
      | .empty, _ => .ok (s = "")
      | .notEmpty, _ => .ok (s ≠ "")
      | op, _ => invalidOperator op
  | .num _ | .bool _ =>
      match operator with
      | .eq => .ok (var.pyEq value)
      | .ne => .ok (!var.pyEq value)
      | .gt => compareNumbers var value (· > ·)
      | .lt => compareNumbers var value (· < ·)
      | .ge => compareNumbers var value (· ≥ ·)
      | .le => compareNumbers var value (· ≤ ·)
      | .empty => .ok false
      | .notEmpty => .ok true
      | op => invalidOperator op
  | .dict entries =>
      match operator with
      | .empty => .ok entries.isEmpty
      | .notEmpty => .ok (!entries.isEmpty)
      | op => invalidOperator op
  | .list items =>
      match operator with
      | .contains => .ok (items.any value.pyEq)
      | .notContains => .ok (!items.any value.pyEq)
      | .is => .ok (var.pyEq value)
      | .isNot => .ok (!var.pyEq value)
      | .empty => .ok items.isEmpty
      | .notEmpty => .ok (!items.isEmpty)
      | op => invalidOperator op
  | .none => .ok (operator = .empty)
  | .stream => invalidOperator operator

end RagFlow.Agent
