/-
# Updates in Elasticsearch

An update of one id sends a partial document; an update of a query generates a script from the
same new values. The script leaves empty values out, cleans texts, writes lists as texts and
fails where a value to remove is not there.
-/

import Mathlib.Data.Rat.Defs
import Mathlib.Logic.Function.Basic
import RagFlow.Elastic.Query

namespace RagFlow.Elastic

open RagFlow.Math

/-- New data for a field; `J` are the elements of lists. -/
inductive NewData (J : Type*) where
  | null
  | bool (b : Bool)
  | int (n : ℤ)
  | float (q : ℚ)
  | str (s : String)
  | list (l : List J)
deriving DecidableEq

/-- The data of a field of a stored document. -/
inductive FieldData (J : Type*) where
  | data (v : NewData J)
  | object (x : J)
deriving DecidableEq

/-- The fields of a document. -/
abbrev Source (J : Type*) := String → Option (FieldData J)

/-- An entry of the new values. What is to be removed stands under the key `remove`: a field, or
values of lists. -/
inductive Change (J : Type*) where
  | set (k : String) (v : NewData J)
  | removeField (field : String)
  | removeValues (items : List (String × J))

def Change.key {J : Type*} : Change J → String
  | set k _ => k
  | removeField _ => "remove"
  | removeValues _ => "remove"

/-- `not v`. -/
def NewData.falsy {J : Type*} : NewData J → Bool
  | .null => true
  | .bool b => !b
  | .int n => n = 0
  | .float q => q = 0
  | .str s => s = ""
  | .list l => l.isEmpty

/-- What is taken for granted of the elements of lists: what they are compared with, whether a
text contains them, and how a list of them is written as JSON. -/
structure Elements (J : Type*) where
  term : J → Value
  within : J → String → Bool
  dumps : List J → String

section Update

variable {J : Type*} [DecidableEq J] (elements : Elements J)

def Source.erase (s : Source J) (k : String) : Source J := Function.update s k none

def Source.put (s : Source J) (k : String) (v : NewData J) : Source J :=
  Function.update s k (some (.data v))

/-! ## By id -/

/-- The last part of the name, between underscores. -/
def isFeas (k : String) : Bool := (k.toList.splitOn '_').getLast? = some "feas".toList

/-- The new values of a partial document, without the id and what is to be removed. -/
def docPart (new : List (Change J)) : List (String × NewData J) :=
  new.filterMap fun
    | .set k v => if k = "id" then none else some (k, v)
    | _ => none

/-- Removes the field that is named as a text. -/
def Source.drop (s : Source J) : Change J → Source J
  | .removeField field => s.erase field
  | _ => s

/-- The values to remove from lists. -/
def Change.takes : Change J → List (String × J)
  | removeValues items => items
  | _ => []

/-- Removes an element if it is there. Data without elements makes the script fail. -/
def removeGuarded (s : Source J) (item : String × J) : Option (Source J) :=
  match s item.1 with
  | none => some s
  | some (.data .null) => some s
  | some (.data (.list l)) => some (s.put item.1 (.list (l.erase item.2)))
  | some (.data (.str t)) => if elements.within item.2 t then none else some s
  | some _ => none

/-- `update` of one id. The scripts and the partial document are requests of their own; one that
fails ends the update. -/
def updateById (s : Source J) (new : List (Change J)) : Source J :=
  let docPart := docPart new
  let s := (docPart.filter fun e => isFeas e.1).foldl (fun s e => s.erase e.1) s
  let s := new.foldl Source.drop s
  match (new.flatMap Change.takes).foldlM (removeGuarded elements) s with
  | none => s
  | some s => docPart.foldl (fun s e => s.put e.1 e.2) s

/-! ## By query -/

/-- `re.sub(r"(['\n\r]|\\.)", " ", v)`. A dot is no line break. -/
def clean : List Char → List Char
  | [] => []
  | ['\\'] => ['\\']
  | c :: c' :: cs =>
    if c = '\\' ∧ c' ≠ '\n' then ' ' :: clean cs
    else (if c = '\'' ∨ c = '\n' ∨ c = '\r' then ' ' else c) :: clean (c' :: cs)
  | [c] => [if c = '\'' ∨ c = '\n' ∨ c = '\r' then ' ' else c]

inductive Stmt (J : Type*) where
  | removeField (field : String)
  | removeValue (field : String) (v : J)
  | setParam (field : String) (s : String)
  | setLiteral (field : String) (v : NewData J)
deriving DecidableEq

/-- The part of the script for an entry of the new values. Other types raise. -/
def statements : Change J → Option (List (Stmt J))
  | .removeField field => some [.removeField field]
  | .removeValues items => some (items.map fun e => .removeValue e.1 e.2)
  | .set k v =>
    if v.falsy ∧ k ≠ "available_int" then some []
    else
      match v with
      | .str s => some [.setParam k (String.ofList (clean s.toList))]
      | .list l => some [.setParam k (elements.dumps l)]
      | .null => none
      | v => some [.setLiteral k v]

/-- The script language has no `True` and `False`, and reads integers of 32 bits. -/
def NewData.isLiteral : NewData J → Bool
  | .int n => -2147483648 ≤ n && n < 2147483648
  | .float _ => true
  | _ => false

def Stmt.declares : Stmt J → Bool
  | removeValue _ _ => true
  | _ => false

/-- A variable may be declared once. -/
def compiles (script : List (Stmt J)) : Bool :=
  script.countP Stmt.declares ≤ 1 && script.all fun
    | .setLiteral _ v => v.isLiteral
    | _ => true

/-- One statement; to remove what is not there fails. -/
def Stmt.run (s : Source J) : Stmt J → Option (Source J)
  | removeField field => some (s.erase field)
  | removeValue field v =>
    match s field with
    | some (.data (.list l)) => if v ∈ l then some (s.put field (.list (l.erase v))) else none
    | _ => none
  | setParam field t => some (s.put field (.str t))
  | setLiteral field v => some (s.put field v)

/-- What `update` of a query makes of a document that matches. A script that fails changes
nothing. -/
def updateByQuery (s : Source J) (new : List (Change J)) : Source J :=
  (((new.mapM (statements elements)).map List.flatten).bind fun script =>
    if compiles script then script.foldlM Stmt.run s else none).getD s

/-! ## The documents of an index -/

structure Doc (J : Type*) where
  id : String
  source : Source J

def FieldData.hasTerm (v : Value) : FieldData J → Bool
  | .data (.str s) => v = .str s
  | .data (.int n) => v = .int n
  | .data (.list l) => l.any fun e => elements.term e = v
  | _ => false

/-- There is no value where there is nothing, null or an empty list. -/
def FieldData.hasValue : FieldData J → Bool
  | .data .null => false
  | .data (.list l) => !l.isEmpty
  | _ => true

def docIndex : Index (Doc J) where
  term d k v := if k = "_id" then v = .str d.id else (d.source k).any (FieldData.hasTerm elements v)
  lt d k bound := (d.source k).any fun
    | .data (.int n) => n < bound
    | _ => false
  hasField d k := (d.source k).any FieldData.hasValue

/-- What an entry of the condition adds to the filters of an update. -/
def updateClause (k : String) (v : FieldValue) : Option (List Clause) :=
  if v.falsy then some []
  else if k = "exists" then
    match v with
    | .one (.str s) => some [.hasField s]
    | _ => none
  else
    match v with
    | .many l => some [.terms k l]
    | .one v => some [.term k v]
    | .dict _ => none

def updateQuery (condition : Condition) (knowledgebaseId : String) : Option BoolQuery :=
  ((condition.set "kb_id" (.one (.str knowledgebaseId))).entries.mapM fun e =>
    updateClause e.1 e.2).map fun clauses =>
      { filter := clauses.flatten, must := [], mustNot := [] }

/-- `update` of the documents of an index. -/
def update (docs : List (Doc J)) (condition : Condition) (new : List (Change J))
    (knowledgebaseId : String) : List (Doc J) :=
  match condition.get? "id" with
  | some (.one (.str chunkId)) => docs.map fun d =>
    if d.id = chunkId then { d with source := updateById elements d.source new } else d
  | _ =>
    match updateQuery condition knowledgebaseId with
    | none => docs
    | some q => docs.map fun d =>
      if q.matches (docIndex elements) d then
        { d with source := updateByQuery elements d.source new }
      else d

/-- `delete` of the documents of an index. -/
def delete (docs : List (Doc J)) (condition : Condition) (knowledgebaseId : String) :
    List (Doc J) :=
  match deleteQuery condition knowledgebaseId with
  | none => docs
  | some q => docs.filter fun d => !q.matches (docIndex elements) d

end Update

end RagFlow.Elastic
