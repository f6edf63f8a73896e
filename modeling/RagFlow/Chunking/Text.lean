/-
# Texts, position tags and custom delimiters

Texts are lists of characters. A position tag stands between `@@` and `##`; custom
delimiters are written between back quotes in the delimiter string, and a text is
split at the longest of them.
-/

import RagFlow.Math.Split
import Mathlib.Data.List.Dedup
import Mathlib.Data.Rat.Floor

namespace RagFlow.Chunking

open RagFlow.Math

abbrev Text := List Char

/-! ## Position tags -/

/-- The characters between the marks of a position tag. -/
def isTagChar (c : Char) : Bool :=
  c == '\t' || c.isDigit || c == '.' || c == '-'

/-- The length of the tag `@@[\t0-9.-]+?##` at the head of a text. The characters
inside never are `#`, so the shortest match is the only one. -/
def tagLength : Text → ℕ
  | '@' :: '@' :: cs =>
    let body := cs.takeWhile isTagChar
    if body ≠ [] ∧ ['#', '#'] <+: cs.drop body.length then body.length + 4 else 0
  | _ => 0

/-- Delete the matches, from inside one of which `skip` entries are left. -/
def deleteFrom (m : Text → ℕ) : ℕ → Text → Text
  | _, [] => []
  | skip + 1, _ :: cs => deleteFrom m skip cs
  | 0, c :: cs =>
    match m (c :: cs) with
    | 0 => c :: deleteFrom m 0 cs
    | n + 1 => deleteFrom m n cs

/-- `RAGFlowPdfParser.remove_tag`. -/
def removeTag (txt : Text) : Text := deleteFrom tagLength 0 txt

/-! ## Slices -/

/-- `t[k:]`, which counts a negative `k` from the end. -/
def sliceFrom (t : Text) (k : ℤ) : Text :=
  t.drop (if k < 0 then max (t.length + k) 0 else k).toNat

/-- `int` of a fraction cuts towards zero. -/
def truncate (x : ℚ) : ℤ := if 0 ≤ x then ⌊x⌋ else ⌈x⌉

theorem sliceFrom_suffix (t : Text) (k : ℤ) : sliceFrom t k <:+ t :=
  List.drop_suffix _ t

/-! ## Custom delimiters -/

/-- The matches of a back-quoted part. `inside` is what was read since the last back
quote, if that one can open a part. -/
def quotedFrom : Option Text → Text → List Text
  | _, [] => []
  | none, c :: cs => quotedFrom (if c = '`' then some [] else none) cs
  | some body, c :: cs =>
    if c ≠ '`' then quotedFrom (some (body ++ [c])) cs
    else if body = [] then quotedFrom (some []) cs
    else body :: quotedFrom none cs

/-- `custom_delimiters`: what stands between back quotes. -/
def customDelimiters (delimiter : Text) : List Text := quotedFrom none delimiter

/-- The length of the longest delimiter at the head of a text. Delimiters of one length
exclude each other, so the order among them is immaterial. -/
def delimiterLength (delims : List Text) (t : Text) : ℕ :=
  let sorted := delims.dedup.mergeSort fun a b => b.length ≤ a.length
  ((sorted.find? fun d => d.isPrefixOf t).map List.length).getD 0

/-- The pieces of a text between custom delimiters. -/
def customPieces (delims : List Text) (t : Text) : List Text :=
  (splitMatches (delimiterLength delims) t).filter fun piece => piece ∉ delims

end RagFlow.Chunking
