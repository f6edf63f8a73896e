/-
# Migration of stored workflows

The chunkers of a workflow have been renamed. A stored workflow is rewritten on read: the ids of
its components that carry an old name, what refers to them, and the old names themselves. The
workflow is any JSON value; what does not have the expected form is left alone, and a value that
cannot be the key of a dictionary stops the migration where it is looked up in one.
-/

import Mathlib.Data.List.Sort
import Mathlib.Data.Rat.Defs
import RagFlow.Ingestion.Parents
import RagFlow.Math.Assoc
import RagFlow.Math.Chars
import RagFlow.Math.Substitute

namespace RagFlow.Migration

open RagFlow.Math
open RagFlow.Ingestion (isSpace)

abbrev Text := List Char

inductive Json where
  | null
  | bool (b : Bool)
  | num (q : ℚ)
  | str (t : Text)
  | list (items : List Json)
  | dict (entries : List (Text × Json))

def componentRenames : List (Text × Text) :=
  [("Splitter".toList, "TokenChunker".toList), ("HierarchicalMerger".toList, "TitleChunker".toList),
    ("PDFGenerator".toList, "DocGenerator".toList)]

def nodeTypeRenames : List (Text × Text) := [("splitterNode".toList, "chunkerNode".toList)]

/-! ## Ids -/

def renameIdBy : List (Text × Text) → Text → Text
  | [], componentId => componentId
  | (oldName, newName) :: renames, componentId =>
    if oldName ++ [':'] <+: componentId then
      newName ++ [':'] ++ componentId.drop (oldName ++ [':']).length
    else renameIdBy renames componentId

/-- The new id of a component. -/
def renameId (componentId : Text) : Text := renameIdBy componentRenames componentId

/-- `component_id_map.get(text, text)`. -/
def mapId (ids : List Text) (text : Text) : Text := if text ∈ ids then renameId text else text

/-- `renames.get(value, value)` of a text. -/
def renameText (renames : List (Text × Text)) (text : Text) : Text :=
  (look text renames).getD text

/-- A function of texts at a value that is looked up in a dictionary. -/
def atKey (f : Text → Text) : Json → Option Json
  | .str t => some (.str (f t))
  | .list _ | .dict _ => none
  | other => some other

/-! ## Variable references -/

def isIdChar (c : Char) : Bool := c.isAlphanum || c ∈ [':', '_', '-']

def isNameChar (c : Char) : Bool := c.isAlphanum || c ∈ ['_', '.', '-']

/-- A match of `VARIABLE_REF_PATTERN` at the start of a text: its four groups. -/
def matchRef (text : Text) : Option (Text × Text × Text × Text) :=
  let opening := text.takeWhile (· = '{') ++ (text.dropWhile (· = '{')).takeWhile isSpace
  let afterOpening := (text.dropWhile (· = '{')).dropWhile isSpace
  let componentId := afterOpening.takeWhile isIdChar
  match afterOpening.dropWhile isIdChar with
  | '@' :: rest =>
    let name := rest.takeWhile isNameChar
    let afterName := rest.dropWhile isNameChar
    let closing := afterName.takeWhile isSpace ++
      (afterName.dropWhile isSpace).takeWhile (· = '}')
    if text.head? = some '{' ∧ componentId ≠ [] ∧ name ≠ [] ∧
        (afterName.dropWhile isSpace).head? = some '}' then
      some (opening, componentId, '@' :: name, closing)
    else none
  | _ => none

/-- `repl` at a match. -/
def refMatcher (ids : List Text) : Matcher Char := fun text =>
  (matchRef text).map fun (opening, componentId, name, closing) =>
    ((opening ++ componentId ++ name ++ closing).length - 1,
      opening ++ mapId ids componentId ++ name ++ closing)

def rewriteVariableRefs (ids : List Text) (text : Text) : Text :=
  if text ∈ ids then renameId text else substitute (refMatcher ids) text

mutual

def rewriteValue (ids : List Text) : Json → Json
  | .str t => .str (rewriteVariableRefs ids t)
  | .list items => .list (rewriteItems ids items)
  | .dict entries => .dict (rewriteEntries ids entries)
  | .null => .null
  | .bool b => .bool b
  | .num q => .num q

def rewriteItems (ids : List Text) : List Json → List Json
  | [] => []
  | item :: items => rewriteValue ids item :: rewriteItems ids items

def rewriteEntries (ids : List Text) : List (Text × Json) → List (Text × Json)
  | [] => []
  | (key, item) :: entries => (key, rewriteValue ids item) :: rewriteEntries ids entries

end

/-! ## Parts of the workflow -/

/-- A function of texts at any value. -/
def onText (f : Text → Text) : Json → Json
  | .str t => .str (f t)
  | other => other

/-- A function of entries at any value. -/
def onDict (f : List (Text × Json) → List (Text × Json)) : Json → Json
  | .dict entries => .dict (f entries)
  | other => other

/-- A function of entries at each value of a list. -/
def onDicts (f : List (Text × Json) → List (Text × Json)) : Json → Json
  | .list items => .list (items.map (onDict f))
  | other => other

/-- The ids in a list are looked up. -/
def mapIds (ids : List Text) : Json → Option Json
  | .list items => (items.mapM (atKey (mapId ids))).map .list
  | other => some other

/-- The name of the operator; a missing one is put there as `None`. -/
def renameObj : Json → Option Json
  | .dict obj =>
    (atKey (renameText componentRenames) ((look "component_name".toList obj).getD .null)).map
      fun name => .dict (put "component_name".toList name obj)
  | other => some other

/-- What is done to a component once the texts in it have been rewritten. -/
def linkRewrites (ids : List Text) : List (Text × (Json → Option Json)) :=
  [("obj".toList, renameObj), ("downstream".toList, mapIds ids), ("upstream".toList, mapIds ids),
    ("parent_id".toList, fun v => some (onText (mapId ids) v))]

def rewriteComponent (ids : List Text) (component : Json) : Option Json :=
  match rewriteValue ids component with
  | .dict entries => (mapAllM (linkRewrites ids) entries).map .dict
  | other => some other

def rewriteComponents (ids : List Text) (components : List (Text × Json)) :
    Option (List (Text × Json)) :=
  (components.mapM fun e => (rewriteComponent ids e.2).map fun c => (mapId ids e.1, c)).map
    fun rewritten => rewritten.foldl (fun d e => put e.1 e.2 d) []

def dataRewrites (ids : List Text) : List (Text × (Json → Json)) :=
  [("label".toList, onText (renameText componentRenames)),
    ("name".toList, onText (renameText componentRenames)), ("form".toList, rewriteValue ids)]

def nodeRewrites (ids : List Text) : List (Text × (Json → Json)) :=
  [("id".toList, onText (mapId ids)), ("parentId".toList, onText (mapId ids)),
    ("type".toList, onText (renameText nodeTypeRenames)),
    ("data".toList, onDict (mapAll (dataRewrites ids)))]

/-- `str.replace`. -/
def replaceText (old new : Text) (text : Text) : Text :=
  if old = [] then new ++ text.flatMap fun c => c :: new
  else substitute (fun t => if old <+: t then some (old.length - 1, new) else none) text

/-- The id of an edge: the ids of the components in it are replaced, longer ones first. -/
def rewriteEdgeId (ids : List Text) (edgeId : Text) : Text :=
  (ids.mergeSort fun a b => decide (b.length ≤ a.length)).foldl
    (fun edgeId id => replaceText id (mapId ids id) edgeId) edgeId

def edgeRewrites (ids : List Text) : List (Text × (Json → Json)) :=
  [("source".toList, onText (mapId ids)), ("target".toList, onText (mapId ids)),
    ("id".toList, onText (rewriteEdgeId ids))]

def graphRewrites (ids : List Text) : List (Text × (Json → Json)) :=
  [("nodes".toList, onDicts (mapAll (nodeRewrites ids))),
    ("edges".toList, onDicts (mapAll (edgeRewrites ids)))]

/-- What is done to the other entries once the components have been rewritten. -/
def restRewrites (ids : List Text) : List (Text × (Json → Option Json)) :=
  [("path".toList, mapIds ids),
    ("graph".toList, fun v => some (onDict (mapAll (graphRewrites ids)) v)),
    ("history".toList, fun v => some (rewriteValue ids v)),
    ("messages".toList, fun v => some (rewriteValue ids v)),
    ("reference".toList, fun v => some (rewriteValue ids v))]

/-- `normalize_chunker_dsl`; `none` if it raises. -/
def normalizeChunkerDsl (dsl : Json) : Option Json :=
  match dsl with
  | .dict entries =>
    match look "components".toList entries with
    | some (.dict components) => do
      let ids := components.map Prod.fst
      let components ← rewriteComponents ids components
      let entries ← mapAllM (restRewrites ids)
        (put "components".toList (.dict components) entries)
      pure (.dict entries)
    | _ => some dsl
  | _ => some dsl

end RagFlow.Migration
