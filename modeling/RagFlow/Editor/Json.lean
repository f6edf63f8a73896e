/-
# Values and their JSON texts

`JSON.stringify` drops what JSON has no text for: an undefined field of an object goes, and an
undefined item of an array, like a number that is not finite, becomes `null`. Reading the text back
gives a value with the same text.
-/

import Mathlib

namespace RagFlow.Editor

inductive Js where
  /-- Also a function. -/
  | undefined
  | null
  | bool (b : Bool)
  /-- No value for a number that is not finite. -/
  | number (x : Option ℚ)
  | str (s : String)
  | array (items : List Js)
  | object (entries : List (String × Js))

/-- A JSON text is the list of its tokens; commas and colons are where they have to be. -/
inductive Token where
  | null
  | bool (b : Bool)
  | number (x : ℚ)
  | str (s : String)
  | key (s : String)
  | openArray
  | closeArray
  | openObject
  | closeObject
deriving DecidableEq

def Js.isUndefined : Js → Bool
  | undefined => true
  | _ => false

mutual

/-- `JSON.stringify`; the text of `undefined` is the one of an item. -/
def stringify : Js → List Token
  | .undefined | .null | .number none => [.null]
  | .bool b => [.bool b]
  | .number (some x) => [.number x]
  | .str s => [.str s]
  | .array items => .openArray :: stringifyItems items ++ [.closeArray]
  | .object entries => .openObject :: stringifyEntries entries ++ [.closeObject]

def stringifyItems : List Js → List Token
  | [] => []
  | v :: items => stringify v ++ stringifyItems items

def stringifyEntries : List (String × Js) → List Token
  | [] => []
  | (k, v) :: entries =>
    if v.isUndefined then stringifyEntries entries
    else .key k :: stringify v ++ stringifyEntries entries

end

mutual

/-- `JSON.parse(JSON.stringify(v))`. -/
def clone : Js → Js
  | .undefined | .null | .number none => .null
  | .bool b => .bool b
  | .number (some x) => .number (some x)
  | .str s => .str s
  | .array items => .array (cloneItems items)
  | .object entries => .object (cloneEntries entries)

def cloneItems : List Js → List Js
  | [] => []
  | v :: items => clone v :: cloneItems items

def cloneEntries : List (String × Js) → List (String × Js)
  | [] => []
  | (k, v) :: entries =>
    if v.isUndefined then cloneEntries entries else (k, clone v) :: cloneEntries entries

end

theorem not_isUndefined_clone (v : Js) : (clone v).isUndefined = false := by
  fun_cases clone v <;> rfl

mutual

theorem clone_clone : ∀ v : Js, clone (clone v) = clone v
  | .undefined | .null | .number none | .bool _ | .number (some _) | .str _ => rfl
  | .array items => by rw [clone, clone, cloneItems_cloneItems items]
  | .object entries => by rw [clone, clone, cloneEntries_cloneEntries entries]

theorem cloneItems_cloneItems : ∀ items : List Js, cloneItems (cloneItems items) = cloneItems items
  | [] => rfl
  | v :: items => by rw [cloneItems, cloneItems, clone_clone v, cloneItems_cloneItems items]

theorem cloneEntries_cloneEntries :
    ∀ entries : List (String × Js), cloneEntries (cloneEntries entries) = cloneEntries entries
  | [] => rfl
  | (k, v) :: entries => by
    rw [cloneEntries]
    split_ifs
    · exact cloneEntries_cloneEntries entries
    · rw [cloneEntries, not_isUndefined_clone, if_neg Bool.false_ne_true, clone_clone v,
        cloneEntries_cloneEntries entries]

end

end RagFlow.Editor
