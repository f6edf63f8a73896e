/-
# Terms and their weights

Weights are numbers as the query prints them. The weight of a term in a list of terms is a
parameter; which terms there are is not.
-/

import Mathlib.Data.Rat.Floor
import RagFlow.Query.Text

namespace RagFlow.Query

open RagFlow.Math
open RagFlow.Ingestion (isSpace)

/-! ## Numbers -/

/-- A float that is not negative, as the shortest decimal `digits * 10 ^ exponent` for it. -/
structure Weight where
  digits : ℕ
  exponent : ℤ
  deriving DecidableEq

def Weight.value (w : Weight) : ℚ := w.digits * 10 ^ w.exponent

/-- How many digits stand before the point. -/
def Weight.point (w : Weight) : ℤ := (Nat.toDigits 10 w.digits).length + w.exponent

/-- The number prints without an exponent. -/
def Weight.Plain (w : Weight) : Prop := -4 < w.point ∧ w.point ≤ 16

instance (w : Weight) : Decidable w.Plain := inferInstanceAs (Decidable (_ ∧ _))

/-- At least two digits. -/
def exponentDigits (n : ℕ) : Text := (Nat.toDigits 10 n).leftpad 2 '0'

/-- `str` of a float. -/
def Weight.str (w : Weight) : Text :=
  let ds := Nat.toDigits 10 w.digits
  if w.Plain then
    if w.point ≤ 0 then '0' :: '.' :: (List.replicate (-w.point).toNat '0' ++ ds)
    else if ds.length ≤ w.point then
      ds ++ List.replicate (w.point - ds.length).toNat '0' ++ ['.', '0']
    else ds.take w.point.toNat ++ '.' :: ds.drop w.point.toNat
  else
    let rest := ds.tail
    ds.take 1 ++ (if rest = [] then [] else '.' :: rest) ++
      'e' :: (if w.point - 1 < 0 then '-' else '+') :: exponentDigits (w.point - 1).natAbs

/-- The nearest natural number, the even one of two. -/
def roundHalfEven (q : ℚ) : ℕ :=
  let n := ⌊q⌋.toNat
  if q - n < 1 / 2 then n
  else if 1 / 2 < q - n then n + 1
  else if n % 2 = 0 then n else n + 1

/-- `%.4f` for four places. -/
def fixed (places : ℕ) (q : ℚ) : Text :=
  let n := roundHalfEven (q * 10 ^ places)
  Nat.toDigits 10 (n / 10 ^ places) ++
    '.' :: (Nat.toDigits 10 (n % 10 ^ places)).leftpad places '0'

/-! ## Terms -/

def stopWords : List Text :=
  ["请问".toList, "您".toList, "你".toList, "我".toList, "他".toList, "是".toList, "的".toList,
    "就".toList, "有".toList, "于".toList, "及".toList, "即".toList, "在".toList, "为".toList,
    "最".toList, "有".toList, "从".toList, "以".toList, "了".toList, "将".toList, "与".toList,
    "吗".toList, "吧".toList, "中".toList, "#".toList, "什么".toList, "怎么".toList,
    "哪个".toList, "哪些".toList, "啥".toList, "相关".toList]

/-- The expression of `pretoken`. -/
def isPunctuation (c : Char) : Bool :=
  c ∈ ("~—\t @#%!<>,.?\":;'\x7b\x7d[]_=()|，。？》•●○↓《；‘’：“”【¥ 】…￥！、·（）×`&\\/「」").toList

/-- What the term weights are computed from. -/
structure TermWeight where
  tokenize : Text → Text
  /-- The weight of a term in a list of terms. -/
  weigh : List Text → Text → Weight
  /-- The entry of the term in the dictionary of names is `func`. -/
  isFunc : Text → Bool

namespace TermWeight

variable (tw : TermWeight)

/-- `Dealer.pretoken` with numbers. -/
def pretoken (txt : Text) : List Text :=
  (RagFlow.Query.split (tw.tokenize txt)).filter fun t =>
    t ∉ stopWords ∧ !t.head?.any isPunctuation ∧ t ≠ ['#'] ∧ t ≠ []

def isOneTerm (t : Text) : Bool :=
  t.length = 1 ∨
    (t.length ≤ 2 ∧ t ≠ [] ∧ t.all fun c => c.isDigit || c.isLower)

/-- The loop of `token_merge`, with enough `fuel` for every term. -/
def mergeFrom : ℕ → List Text → List Text
  | 0, _ | _, [] => []
  | fuel + 1, t :: tks =>
    let short := (t :: tks).takeWhile fun t => !t.isEmpty && t ∉ stopWords && isOneTerm t
    if 1 < short.length then
      let n := if short.length < 5 then short.length else 2
      [' '].intercalate ((t :: tks).take n) :: mergeFrom fuel ((t :: tks).drop n)
    else if t = [] then mergeFrom fuel tks
    else t :: mergeFrom fuel tks

/-- `Dealer.token_merge`. -/
def tokenMerge (tks : List Text) : List Text :=
  match tks with
  | first :: second :: rest =>
    if isOneTerm first ∧ 1 < second.length ∧ !second.head?.any Char.isAlphanum then
      [' '].intercalate [first, second] :: mergeFrom rest.length rest
    else mergeFrom tks.length tks
  | _ => mergeFrom tks.length tks

/-- `Dealer.weights` of one text. -/
def weights (tt : Text) : List (Text × Weight) :=
  let terms := tokenMerge (tw.pretoken tt)
  terms.map fun t => (t, tw.weigh terms t)

/-- `Dealer.weights` of tokens that are not processed. -/
def tokenWeights (tks : List Text) : List (Text × Weight) :=
  tks.map fun t => (t, tw.weigh tks t)

/-- What ends in a letter is joined. -/
def joinLetters (words : List Text) : List Text :=
  words.foldl (fun tks t =>
    match tks.getLast? with
    | some last =>
      if last.getLast?.any Char.isAlpha ∧ t.getLast?.any Char.isAlpha ∧ !tw.isFunc t ∧
          !tw.isFunc last then
        tks.dropLast ++ [last ++ ' ' :: t]
      else tks ++ [t]
    | none => tks ++ [t]) []

/-- `Dealer.split`. -/
def split (txt : Text) : List Text :=
  tw.joinLetters (RagFlow.Query.split (substRuns (· ∈ [' ', '\t']) [' '] txt))

end TermWeight

end RagFlow.Query
