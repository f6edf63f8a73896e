/-
# Chunks in the columns of a table

The insertion of a chunk writes its fields into the columns of a table, and a search reads them
back. Three fields may share a column, lists are texts in it, and empty important keywords are
counted in a column of their own.
-/

import RagFlow.Infinity.Columns
import RagFlow.Math.Dict

namespace RagFlow.Infinity

open RagFlow.Math

/-- The values of a chunk; `J` are the values in a JSON dictionary. -/
inductive Value (J : Type*) where
  | none
  | str (s : Text)
  | strs (l : List Text)
  | num (n : ℤ)
  | nums (l : List ℕ)
  | rows (l : List (List ℕ))
  | dict (items : List (Text × J))
deriving DecidableEq

section Values

variable {J : Type*}

abbrev Doc (J : Type*) := Dict String (Value J)

def Value.truthy : Value J → Bool
  | .none => false
  | .str s => !s.isEmpty
  | .strs l => !l.isEmpty
  | .num n => n ≠ 0
  | .nums l => !l.isEmpty
  | .rows l => !l.isEmpty
  | .dict items => !items.isEmpty

/-- `isinstance(v, list)`. -/
def Value.isList : Value J → Bool
  | .strs _ => true
  | .nums _ => true
  | .rows _ => true
  | _ => false

/-! The empty list is a list of anything. -/

def Value.strs? : Value J → Option (List Text)
  | .strs l => some l
  | .nums [] => some []
  | .rows [] => some []
  | _ => Option.none

def Value.nums? : Value J → Option (List ℕ)
  | .nums l => some l
  | .strs [] => some []
  | .rows [] => some []
  | _ => Option.none

def Value.rows? : Value J → Option (List (List ℕ))
  | .rows l => some l
  | .strs [] => some []
  | .nums [] => some []
  | _ => Option.none

def Value.str? : Value J → Option Text
  | .str s => some s
  | _ => Option.none

/-- `v[0]` of a list. -/
def Value.head? : Value J → Option (Value J)
  | .strs (s :: _) => some (.str s)
  | .nums (n :: _) => some (.num n)
  | .rows (row :: _) => some (.nums row)
  | _ => Option.none

/-- `not d.get(k)`, turned round. -/
def Dict.truthy (d : Doc J) (k : String) : Bool := ((d.get? k).map Value.truthy).getD false

end Values

/-! ## Writing -/

def fieldKeyword (fieldName : String) : Bool :=
  fieldName = "source_id" ||
    ("_kwd".toList.isSuffixOf fieldName.toList &&
      fieldName ∉ ["knowledge_graph_kwd", "docnm_kwd", "important_kwd", "question_kwd"])

/-- `_feas$`. -/
def fieldFeas (fieldName : String) : Bool := "_feas".toList.isSuffixOf fieldName.toList

def list2str {J : Type*} (lst : Value J) (sep : Text) : Option Text :=
  match lst with
  | .str s => some s
  | lst => lst.strs?.map fun l => sep.intercalate l

section Insert

variable {J : Type*} (dumps : Value J → Option Text)

/-- The body of the loop over the fields, which raises on a value of another type. -/
def insertField (d : Doc J) : String × Value J → Option (Doc J)
  | (k, v) =>
    if k = "docnm_kwd" then some (d.set "docnm" v)
    else if k = "title_kwd" ∨ k = "title_sm_tks" then
      if Dict.truthy d "docnm_kwd" then some d
      else (list2str v [' ']).map fun s => d.set "docnm" (.str s)
    else if k = "important_kwd" then
      if v.isList then v.strs?.map fun l =>
        (d.set "important_keywords" (.str ([','].intercalate (l.filter fun kw => !kw.isEmpty)))).set
          "important_kwd_empty_count" (.num (l.countP List.isEmpty))
      else (list2str v [',']).map fun s => d.set "important_keywords" (.str s)
    else if k = "important_tks" then
      if Dict.truthy d "important_kwd" then some d else some (d.set "important_keywords" v)
    else if k = "content_with_weight" then some (d.set "content" v)
    else if k = "content_ltks" ∨ k = "content_sm_ltks" then
      if Dict.truthy d "content_with_weight" then some d else some (d.set "content" v)
    else if k = "authors_tks" then some (d.set "authors" v)
    else if k = "authors_sm_tks" then
      if Dict.truthy d "authors_tks" then some d else some (d.set "authors" v)
    else if k = "question_kwd" then (list2str v ['\n']).map fun s => d.set "questions" (.str s)
    else if k = "question_tks" then
      if Dict.truthy d "question_kwd" then some d
      else (list2str v [' ']).map fun s => d.set "questions" (.str s)
    else if fieldKeyword k then
      if v.isList then v.strs?.map fun l => d.set k (.str (['#', '#', '#'].intercalate l))
      else some (d.set k v)
    else if fieldFeas k then (dumps v).map fun s => d.set k (.str s)
    else if k = "chunk_data" then
      match v with
      | .dict items => (dumps (.dict items)).map fun s => d.set k (.str s)
      | v => some (d.set k v)
    else if k = "kb_id" then
      if v.isList then v.head?.map fun x => d.set k x else some d
    else if k = "position_int" then
      v.rows?.map fun l => d.set k (.str (joinHex l.flatten))
    else if k = "page_num_int" ∨ k = "top_int" then
      v.nums?.map fun l => d.set k (.str (joinHex l))
    else if k = "meta_fields" then
      match v with
      | .dict items => (dumps (.dict items)).map fun s => d.set k (.str s)
      | v => some (d.set k (if v.truthy then v else .str ['{', '}']))
    else some (d.set k v)

/-- The fields that are deleted when their columns are written. -/
def writtenFields : List String :=
  ["docnm_kwd", "title_tks", "title_sm_tks", "important_kwd", "important_tks",
    "content_with_weight", "content_ltks", "content_sm_ltks", "authors_tks", "authors_sm_tks",
    "question_kwd", "question_tks"]

/-- A vector that is missing is zero. -/
def addVectors (embeddingClmns : List (String × ℕ)) (d : Doc J) : Doc J :=
  embeddingClmns.foldl
    (fun d clmn => if clmn.1 ∈ d then d else d.set clmn.1 (.nums (List.replicate clmn.2 0))) d

/-- `InfinityConnection.insert`, of one document. -/
def insert (embeddingClmns : List (String × ℕ)) (doc : Doc J) : Option (Doc J) :=
  if "_id" ∈ doc ∨ "id" ∉ doc then none
  else (doc.entries.foldlM (insertField dumps) doc).map fun d =>
    addVectors embeddingClmns (d.filter fun k _ => k ∉ writtenFields)

end Insert

/-! ## Reading -/

/-- The column that a field is written to. -/
def selectField (field : String) : String :=
  if field ∈ ["docnm_kwd", "title_tks", "title_sm_tks"] then "docnm"
  else if field ∈ ["important_kwd", "important_tks"] then "important_keywords"
  else if field ∈ ["question_kwd", "question_tks"] then "questions"
  else if field ∈ ["content_with_weight", "content_ltks", "content_sm_ltks"] then "content"
  else if field ∈ ["authors_tks", "authors_sm_tks"] then "authors"
  else field

def convertSelectFields (outputFields : List String) : List String :=
  let converted := outputFields.map selectField
  (if "important_kwd" ∈ outputFields ∧ "important_kwd_empty_count" ∉ converted then
    converted ++ ["important_kwd_empty_count"]
  else converted).dedup

def lower (name : String) : String := String.ofList (name.toList.map Char.toLower)

section Read

variable {J : Type*} (loads : Text → Option (Value J))

/-- Copy a column to the fields among `names` that are asked for. -/
def copyColumn (fieldsAll : List String) (column : String) (names : List String) (res : Doc J) :
    Doc J :=
  match res.get? column with
  | none => res
  | some v =>
    (names.filter fun field => field ∈ fieldsAll).foldl (fun res field => res.set field v) res

/-- The tokens of `important_kwd`, with the empty ones at the end. -/
def importantKwd (raw : Value J) (emptyCount : Option (Value J)) : Option (List Text) := do
  let tokens ← match raw with
    | .none => some []
    | raw => raw.str?.map splitKeywords
  match emptyCount with
  | none => some tokens
  | some .none => some tokens
  | some (.num n) => some (tokens ++ List.replicate n.toNat [])
  | some _ => none

def keywordColumn (fieldsAll : List String) (res : Doc J) : Option (Doc J) :=
  match res.get? "important_keywords" with
  | none => some res
  | some v =>
    if "important_kwd" ∈ fieldsAll then
      (importantKwd v (res.get? "important_kwd_empty_count")).map fun l =>
        res.set "important_kwd" (.strs l)
    else some res

def questionColumn (fieldsAll : List String) (res : Doc J) : Option (Doc J) :=
  match res.get? "questions" with
  | none => some res
  | some v =>
    if "question_kwd" ∈ fieldsAll then
      v.str?.map fun s => res.set "question_kwd" (.strs (splitlines s))
    else some res

/-- The fields that a row has besides its columns. -/
def addFields (fieldsAll : List String) (res : Doc J) : Option (Doc J) := do
  let res := copyColumn fieldsAll "docnm" ["docnm_kwd", "title_tks", "title_sm_tks"] res
  let res ← keywordColumn fieldsAll res
  let res := copyColumn fieldsAll "important_keywords" ["important_tks"] res
  let res ← questionColumn fieldsAll res
  let res := copyColumn fieldsAll "questions" ["question_tks"] res
  let res :=
    copyColumn fieldsAll "content" ["content_with_weight", "content_ltks", "content_sm_ltks"] res
  some (copyColumn fieldsAll "authors" ["authors_tks", "authors_sm_tks"] res)

/-- `column_map`, where the last of several columns counts. -/
def columnMap (columns fieldsAll : List String) (key : String) : Option String :=
  if key = "row_id()" ∧ "row_id()" ∈ fieldsAll ∧ "row_id" ∈ columns.map lower then
    columns.reverse.find? fun col => lower col = "row_id"
  else columns.reverse.find? fun col => lower col = key

def matchedColumns (columns fieldsAll : List String) : Dict String String :=
  fieldsAll.foldl
    (fun matched col =>
      match columnMap columns fieldsAll (lower col) with
      | none => matched
      | some column => matched.set column col)
    Dict.empty

/-- What is read from a column. -/
def fieldValue (column : String) (v : Value J) : Option (Value J) :=
  let k := lower column
  if fieldKeyword k then
    v.str?.map fun s => .strs ((splitAtSep ['#', '#', '#'] s).filter fun kwd => !kwd.isEmpty)
  else if fieldFeas k then if v.truthy then v.str?.bind loads else some (.dict [])
  else if k = "chunk_data" then
    match v with
    | .str s => if s.isEmpty then some v else loads s
    | v => some v
  else if k = "position_int" then
    if v.truthy then v.str?.bind fun s => (splitHex s).map fun arr => .rows (groups 5 arr)
    else some (.rows [])
  else if k = "page_num_int" ∨ k = "top_int" then
    if v.truthy then v.str?.bind fun s => (splitHex s).map .nums else some (.nums [])
  else some v

/-- The first row of each id. -/
def dropDuplicates [DecidableEq J] : List (Doc J) → List (Doc J)
  | [] => []
  | row :: rows => row :: (dropDuplicates rows).filter fun r => r.get? "id" ≠ row.get? "id"

/-- The record of a row, under its id. -/
def record (fieldsAll : List String) (res : Doc J) : Option (Option (Value J) × Doc J) :=
  let columns := res.keys
  let matched := matchedColumns columns fieldsAll
  (Dict.fill Prod.snd (fun e => (res.get? e.1).bind (fieldValue loads e.2)) matched.entries
    Dict.empty).map fun res2 =>
    let kept := res2.filter fun k _ =>
      k ∉ ["docnm", "important_keywords", "questions", "content", "authors"]
    let noneColumns := fieldsAll.filter fun col => (columnMap columns fieldsAll (lower col)).isNone
    let all := noneColumns.foldl (fun d col => d.set col .none) kept
    (all.get? "id", all.filter fun k _ => k ≠ "id")

/-- `get_fields`, of the rows of a frame, which have the same columns. -/
def getFields [DecidableEq J] (fields : List String) (res : List (Doc J)) :
    Option (List (Option (Value J) × Doc J)) :=
  if fields.isEmpty then some []
  else do
    let fieldsAll := (fields ++ ["id"]).dedup
    let rows ← res.mapM (addFields fieldsAll)
    (dropDuplicates rows).mapM (record loads fieldsAll)

/-- The columns of a row that a search asks for. -/
def output (columns : List String) (row : Doc J) : Doc J := row.filter fun k _ => k ∈ columns

end Read

end RagFlow.Infinity
