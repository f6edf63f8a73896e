/-
# The filter of a condition

A condition names values for columns. It is written as a text that the store reads as a filter,
with the values in quotes; the rows that it selects are searched, updated or deleted.
-/

import RagFlow.Sql.Formula
import RagFlow.Infinity.Columns

namespace RagFlow.Infinity

open RagFlow.Sql

inductive Item where
  | str (s : Text)
  | int (n : ℤ)
deriving DecidableEq

inductive FieldValue where
  | one (x : Item)
  | many (l : List Item)
deriving DecidableEq

/-- An entry of the condition. A dictionary stands only under `must_not`. -/
inductive Entry where
  | field (k : Text) (v : FieldValue)
  | mustNot (v : List (Text × Text))
deriving DecidableEq

/-- A column as the table shows it: its name, its type and its default. -/
structure Column where
  name : Text
  type : Text
  default : Text
deriving DecidableEq

/-- What the connections to the store say about their fields. -/
structure FieldRules where
  fieldKeyword : Text → Bool
  convertMatchingField : Text → Text
  must_not_plain : fieldKeyword "must_not".toList = false
  unquoted : ∀ k, '\'' ∉ k → '\'' ∉ convertMatchingField k

/-! ## Writing the filter -/

/-- `str` of an integer. -/
def intText : ℤ → Text
  | .ofNat n => Nat.toDigits 10 n
  | .negSucc n => '-' :: Nat.toDigits 10 (n + 1)

def Item.text : Item → Text
  | .str s => s
  | .int n => intText n

/-- `not v`. -/
def FieldValue.falsy : FieldValue → Bool
  | .one (.str s) => s.isEmpty
  | .one (.int n) => n = 0
  | .many l => l.isEmpty

/-- The text in quotes, which it may contain only twice. -/
def quote (t : Text) : Text := '\'' :: (escape '\'' t ++ ['\''])

def Item.inList : Item → Text
  | .str s => quote s
  | .int n => intText n

def filterFulltext (field : Text) (value : Item) : Text :=
  "filter_fulltext('".toList ++ field ++ "', ".toList ++ quote value.text ++ ")".toList

section Write

variable (rules : FieldRules) (columns : List Column)

/-- `columns[cln]`; of columns with one name the last counts. -/
def column (cln : Text) : Option Column := columns.reverse.find? (·.name = cln)

/-- `exists`. The text of the type is found at another place than the start, or not at all. -/
def existsText (cln : Text) : Option Text :=
  (column columns cln).map fun c =>
    if !"cha".toList.isPrefixOf (c.type.map Char.toLower) then
      " ".toList ++ cln ++ "!='".toList ++ c.default ++ "' ".toList
    else cln ++ "!=".toList ++ c.default

/-- What an entry adds to the conditions. -/
def entryText : Entry → Option (List Text)
  | .field k v =>
    if k = "available_int".toList then
      if v = .one (.int 0) then some ["available_int=0".toList]
      else if v = .one (.int 1) then some ["available_int=1".toList]
      else some []
    else if v.falsy then some []
    else if rules.fieldKeyword k then
      match v with
      | .many l =>
        some ["(".toList ++
          " or ".toList.intercalate (l.map (filterFulltext (rules.convertMatchingField k))) ++
            ")".toList]
      | .one x => some [filterFulltext (rules.convertMatchingField k) x]
    else
      match v with
      | .many l =>
        some [k ++ " IN (".toList ++ ", ".toList.intercalate (l.map Item.inList) ++ ")".toList]
      | .one x =>
        if k = "must_not".toList then some []
        else
          match x with
          | .str s => some [k ++ "=".toList ++ quote s]
          | .int n =>
            -- `exists` of what is no name of a column fails.
            if k = "exists".toList then none else some [k ++ "=".toList ++ intText n]
  | .mustNot v =>
    (v.filter (·.1 = "exists".toList)).mapM fun item =>
      (existsText columns item.2).map fun t => "NOT (".toList ++ t ++ ")".toList

def equivalentConditionToStr (condition : List Entry) : Option Text :=
  (condition.mapM (entryText rules columns)).map fun conds =>
    if conds.flatten.isEmpty then "1=1".toList else " AND ".toList.intercalate conds.flatten

end Write

/-! ## What the store reads -/

def infinityDialect : Dialect where
  isWord c := c.isAlphanum || c = '_'
  isQuote c := c = '\'' || c = '"'
  isWord_quote c h := by
    rcases (by simpa using h : c = '\'' ∨ c = '"') with rfl | rfl <;> decide

/-- Numerals in decimal digits. -/
def number (w : Text) : Option ℕ :=
  if !w.isEmpty && w.all Char.isDigit then some (Nat.ofDigitChars 10 w 0) else none

def constant : List Token → Option Item
  | [.quoted '\'' t] => some (.str t)
  | [.word w] => (number w).map fun n => .int n
  | [.sign '-', .word w] => (number w).map fun n => .int (-n)
  | _ => none

/-- What the store says of a row: that a column has a value, and that a text is found in a field. -/
structure Engine (ρ : Type*) where
  equals : ρ → Text → Item → Bool
  fulltext : ρ → Text → Text → Bool

section Read

variable {ρ : Type*} (e : Engine ρ)

def fulltextArguments : List Token → Option (ρ → Bool)
  | [.quoted '\'' field, .sign ',', .quoted '\'' value] =>
    some fun row => e.fulltext row field value
  | _ => none

/-- The comparisons of the store. A numeral is no name of a column. -/
def comparison : List Token → Option (ρ → Bool)
  | .word w :: ts =>
    if (number w).isSome then
      match ts with
      | .sign '=' :: value =>
        (constant [.word w]).bind fun x => (constant value).map fun y _ => x = y
      | _ => none
    else
      match ts with
      | .sign '=' :: value => (constant value).map fun x row => e.equals row w x
      | .sign '!' :: .sign '=' :: value => (constant value).map fun x row => !e.equals row w x
      | t :: value =>
        if keyword "in" t then
          (inner value).bind fun body =>
            ((splitTop (· = .sign ',') 0 body).mapM constant).map fun xs row =>
              xs.any (e.equals row w)
        else if w = "filter_fulltext".toList then
          (inner (t :: value)).bind (fulltextArguments e)
        else none
      | [] => none
  | _ => none

end Read

/-- The texts in quotes. -/
def literals (ts : List Token) : List Text :=
  ts.filterMap fun t => match t with
    | .quoted '\'' s => some s
    | _ => none

/-! ## What the condition says -/

def FieldValue.items : FieldValue → List Item
  | .one x => [x]
  | .many l => l

section Meaning

variable (rules : FieldRules) (columns : List Column) {ρ : Type*} (e : Engine ρ)

/-- An entry holds of a row if the column has one of the values, or matches one of them, and a
column under `must_not` has its default. Empty values say nothing, and `available_int` is asked
for 0 and 1 only. -/
def Entry.holds (row : ρ) : Entry → Bool
  | .field k v =>
    if k = "available_int".toList then
      (v ≠ .one (.int 0) && v ≠ .one (.int 1)) || v.items.any (e.equals row k)
    else if v.falsy then true
    else if rules.fieldKeyword k then
      v.items.any fun x => e.fulltext row (rules.convertMatchingField k) x.text
    else v.items.any (e.equals row k)
  | .mustNot v =>
    (v.filter (·.1 = "exists".toList)).all fun item =>
      (column columns item.2).any fun c => e.equals row item.2 (.str c.default)

/-- The texts that stand in quotes: the strings, once each, and the names of the fields that are
searched. -/
def Entry.quoted : Entry → List Text
  | .field k v =>
    if k = "available_int".toList || v.falsy then []
    else if rules.fieldKeyword k then
      v.items.flatMap fun x => [rules.convertMatchingField k, x.text]
    else v.items.filterMap fun x => match x with
      | .str s => some s
      | .int _ => none
  | .mustNot v =>
    (v.filter (·.1 = "exists".toList)).flatMap fun item =>
      ((column columns item.2).map Column.default).toList

end Meaning

/-- The name of a column: a word, no numeral and no word of the language. -/
structure IsColumnName (k : Text) : Prop where
  ne_nil : k ≠ []
  words : ∀ c ∈ k, infinityDialect.isWord c = true
  head : ∀ c ∈ k.head?, c.isDigit = false
  free : k.map Char.toLower ∉ ["and".toList, "or".toList, "not".toList, "in".toList]

/-- The keys of the condition are names of columns, or `must_not` with columns of the table. The
defaults of those are shown without quotes, and their types do not begin with `cha`. -/
def Entry.Admissible (columns : List Column) : Entry → Prop
  | .field k _ => IsColumnName k ∧ k ≠ "exists".toList ∧ k ≠ "must_not".toList
  | .mustNot v => ∀ item ∈ v, item.1 = "exists".toList → ∃ c, column columns item.2 = some c ∧
      IsColumnName item.2 ∧ '\'' ∉ c.default ∧
        "cha".toList.isPrefixOf (c.type.map Char.toLower) = false

end RagFlow.Infinity
