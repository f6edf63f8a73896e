/-
# The port of the metadata filter

`ApplyMetaFilter` is the filter of the other server, written for the same conditions and the same
metadata. A value of the metadata is text there, and the documents of a value are a list of
strings or a list of interfaces, of which most operators read the second only. The two programs
are compared value by value: what they do to the documents is the same, so they agree wherever
their tests of the values do, and where a test differs they disagree on some documents.
-/

import RagFlow.Retrieval.MetaFilter
import RagFlow.Math.Dict

namespace RagFlow.Retrieval

open RagFlow.Math

/-! ## The port -/

/-- The documents of a value: `[]interface{}` or `[]string`. -/
inductive DocIDs where
  | interfaces (ids : List String)
  | strings (ids : List String)

/-- `docIDs.([]interface{})`, and nothing where it is another type. -/
def DocIDs.unboxed : DocIDs → List String
  | interfaces ids => ids
  | strings _ => []

/-- Both types. -/
def DocIDs.all : DocIDs → List String
  | interfaces ids => ids
  | strings ids => ids

structure MetaFilterCondition where
  key : String
  value : String
  op : String

/-- The cases of the switch, with the default among them. -/
inductive GoOperator where
  | equal
  | notEqual
  | contains
  | notContains
  | isIn
  | notIn
  | startWith
  | endWith
  | empty
  | notEmpty
  | comparison (c : Comparison)
  | default

def GoOperator.ofText : String → GoOperator
  | "=" => equal
  | "==" => equal
  | "!=" => notEqual
  | "≠" => notEqual
  | "contains" => contains
  | "not contains" => notContains
  | "in" => isIn
  | "not in" => notIn
  | "start with" => startWith
  | "end with" => endWith
  | "empty" => empty
  | "not empty" => notEmpty
  | ">" => comparison .gt
  | "<" => comparison .lt
  | ">=" => comparison .ge
  | "<=" => comparison .le
  | _ => default

/-- The operators of the original, by their text. -/
def Operator.ofText : String → Operator
  | "contains" => contains
  | "not contains" => notContains
  | "in" => isIn
  | "not in" => notIn
  | "start with" => startWith
  | "end with" => endWith
  | "empty" => empty
  | "not empty" => notEmpty
  | "=" => equal
  | "≠" => notEqual
  | ">" => comparison .gt
  | "<" => comparison .lt
  | "≥" => comparison .ge
  | "≤" => comparison .le
  | op => unknown op

/-- The documents that an operator can read. -/
def GoOperator.read : GoOperator → DocIDs → List String
  | .equal => DocIDs.all
  | _ => DocIDs.unboxed

section Port

variable {go : GoStrings} {valueMap : ValueMap} {value : String} {d : String}

end Port

/-! ## The tests of the original -/

section Original

variable {ι : Type} {py : Python ι} {op : Operator} {value : Value ι} {d : String}

/-- The answers for the values of a key, in their order. -/
def Python.answers (py : Python ι) (op : Operator) : Value ι → List (Value ι) → List Bool
  | _, [] => []
  | value, v :: vs =>
    match py.prepare op v value with
    | none => false :: py.answers op value vs
    | some (input, value) => py.matched op input value :: py.answers op value vs

end Original

/-! ## The same metadata for both -/

/-- A value of the metadata: text, or a number. -/
inductive Scalar (ι : Type) where
  | text (s : String)
  | number (x : ι)

def Scalar.toValue {ι : Type} : Scalar ι → Value ι
  | text s => .str s
  | number x => .other x

/-- The text of a value, which is the key of a map in the port. -/
def Scalar.toText {ι : Type} (format : ι → String) : Scalar ι → String
  | text s => s
  | number x => format x

/-- A value with its documents, and whether the port has them as interfaces. -/
structure MetaValue (ι : Type) where
  value : Scalar ι
  docIds : List String
  boxed : Bool

/-- The values of one key, with different texts. -/
structure MetaField (ι : Type) (format : ι → String) where
  values : List (MetaValue ι)
  nodup : (values.map fun v => v.value.toText format).Nodup

section Both

variable {ι : Type} {format : ι → String}

def MetaField.v2docs (field : MetaField ι format) : List (Value ι × List String) :=
  field.values.map fun v => (v.value.toValue, v.docIds)

abbrev Metadata (ι : Type) (format : ι → String) := Dict String (MetaField ι format)

def Metadata.metas (m : Metadata ι format) : Metas ι :=
  (m.mapValues fun _ field => field.v2docs).entries

/-- The metadata with one key. -/
def Metadata.single (key : String) (field : MetaField ι format) : Metadata ι format :=
  Dict.empty.set key field

/-- The condition as the original reads it. -/
def MetaFilterCondition.filter (c : MetaFilterCondition) : Filter ι where
  key := c.key
  op := .ofText c.op
  value := .str c.value

variable (py : Python ι) (go : GoStrings)

variable {py go}

end Both

/-! ## One condition -/

section Answers

variable {texts : List String} {docs : String → List String} {d : String}

end Answers

section Conditions

variable {ι : Type} {format : ι → String} {py : Python ι} {go : GoStrings}

end Conditions

section Combine

variable {φ ψ δ : Type} [DecidableEq δ] {ids : φ → Finset δ} {fs : List φ} {d : δ}

end Combine

/-! ## The port and the original -/

section Result

variable {ι : Type} {format : ι → String} {py : Python ι} {go : GoStrings}

end Result

/-! ## Two metadata maps -/

def isEmpty : MetaFilterCondition := { key := "notes", value := "", op := "empty" }

end RagFlow.Retrieval
