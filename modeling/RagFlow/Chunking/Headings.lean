/-
# Headings

A book or a law is cut along its headings. Which paragraph is a heading, and how high it stands, is
read off its first characters by a family of numbering patterns, from the highest level to the
lowest; what follows no pattern is a title if its layout says so and it does not read like a
sentence, and body text otherwise.

The patterns are regular expressions without nesting of repetitions. Only whether one matches at the
beginning of a text counts, so a pattern is given by what it can leave of the text.
-/

import RagFlow.Query.Text
import RagFlow.Chunking.Text

namespace RagFlow.Chunking

open RagFlow.Query (strip split)
open RagFlow.Ingestion (isSpace)

/-! ## Patterns -/

inductive Pattern
  /-- The characters of a word, one after the other. -/
  | word (w : Text)
  /-- Between `lo` and `hi` characters of a class. -/
  | run (p : Char → Bool) (lo : ℕ) (hi : Option ℕ)
  | seq (first second : Pattern)
  | alt (one other : Pattern)

namespace Pattern

/-- What can be left of a text behind a match at its beginning. -/
def rests : Pattern → Text → List Text
  | word w, text => if w <+: text then [text.drop w.length] else []
  | run p lo hi, text =>
      let longest := (text.takeWhile p).length
      ((List.range (longest + 1)).filter fun n => lo ≤ n ∧ hi.all fun hi => n ≤ hi).map text.drop
  | seq first second, text => (first.rests text).flatMap second.rests
  | alt one other, text => one.rests text ++ other.rests text

/-- `re.match(pattern, text)`. -/
def matchesAt (pattern : Pattern) (text : Text) : Bool := pattern.rests text ≠ []

def one (p : Char → Bool) : Pattern := run p 1 (some 1)

/-- `p+`. -/
def oneOrMore (p : Char → Bool) : Pattern := run p 1 none

/-- `p{,n}`. -/
def upTo (n : ℕ) (p : Char → Bool) : Pattern := run p 0 n

def inTurn : List Pattern → Pattern
  | [] => word []
  | [p] => p
  | p :: ps => seq p (inTurn ps)

def oneOf : List Pattern → Pattern
  | [] => word []
  | [p] => p
  | p :: ps => alt p (oneOf ps)

end Pattern

open Pattern

/-! ## `BULLET_PATTERN` -/

def isChineseNumber (c : Char) : Bool :=
  c ∈ ['零', '一', '二', '三', '四', '五', '六', '七', '八', '九', '十', '百']

def isNumberChar (c : Char) : Bool := isChineseNumber c || c.isDigit

/-- `第…` with a number and a unit. -/
def numbered (number : Pattern) (unit : List Text) : Pattern :=
  inTurn [word ['第'], number, oneOf (unit.map word)]

def bracketed (number : Pattern) : Pattern :=
  inTurn [one (· ∈ ['(', '（']), number, one (· ∈ [')', '）'])]

def dot : Pattern := word ['.']

def twoDigits : Pattern := upTo 2 Char.isDigit

/-- `^#…#` and then something else. -/
def hashes (n : ℕ) : Pattern :=
  inTurn [word (List.replicate n '#'), one (· ≠ '#')]

/-- `^#…#.*`. -/
def manyHashes (n : ℕ) : Pattern := word (List.replicate n '#')

def bulletPattern : List (List Pattern) := [
  [ numbered (oneOrMore isNumberChar) [['分', '编'], ['编'], ['部', '分']],
    numbered (oneOrMore isNumberChar) [['章']],
    numbered (oneOrMore isNumberChar) [['节']],
    numbered (oneOrMore isNumberChar) [['条']],
    bracketed (oneOrMore isChineseNumber) ],
  [ numbered (oneOrMore Char.isDigit) [['章']],
    numbered (oneOrMore Char.isDigit) [['节']],
    inTurn [twoDigits, one (· ∈ ['.', ' ', '、'])],
    inTurn [twoDigits, dot, twoDigits,
      one fun c => !(c.isAlpha || c ∈ ['/', '%', '~', '-'])],
    inTurn [twoDigits, dot, twoDigits, dot, twoDigits],
    inTurn [twoDigits, dot, twoDigits, dot, twoDigits, dot, twoDigits] ],
  [ numbered (oneOrMore isNumberChar) [['章']],
    numbered (oneOrMore isNumberChar) [['节']],
    inTurn [oneOrMore isChineseNumber, one (· ∈ [' ', '、'])],
    bracketed (oneOrMore isChineseNumber),
    bracketed twoDigits ],
  [ inTurn [word "PART ".toList, oneOf (["ONE", "TWO", "THREE", "FOUR", "FIVE", "SIX", "SEVEN",
      "EIGHT", "NINE", "TEN"].map fun w => word w.toList)],
    inTurn [word "Chapter ".toList, oneOf [
      inTurn [oneOrMore (· = 'I'), upTo 1 (· = 'V')],
      inTurn [word ['V'], run (· = 'I') 0 none],
      word "XI".toList, word "IX".toList, word "X".toList]],
    inTurn [word "Section ".toList, oneOrMore Char.isDigit],
    inTurn [word "Article ".toList, oneOrMore Char.isDigit] ],
  [ hashes 1, hashes 2, manyHashes 3, manyHashes 4, manyHashes 5, manyHashes 6 ]]

/-! ## Titles and body text -/

/-- Paragraphs, or pairs of a paragraph and its layout. -/
inductive Paragraphs where
  | plain (ts : List Text)
  | laid (ts : List (Text × Text))

def Paragraphs.sections : Paragraphs → List (Text × Text)
  | .plain ts => ts.map fun t => (t, [])
  | .laid ts => ts

/-- `t.split("@")[0].strip()`. -/
def beforeAt (t : Text) : Text := strip (t.takeWhile (· ≠ '@'))

/-- `re.match(r"[0-9]+$", t)`: a newline may follow. -/
def isNumber (t : Text) : Bool :=
  t.takeWhile Char.isDigit ≠ [] ∧ t.dropWhile Char.isDigit ∈ [[], ['\n']]

/-- What the filter of both merges keeps. -/
def survives (t : Text) : Bool :=
  t ≠ [] ∧ 1 < (beforeAt t).length ∧ ¬ isNumber (beforeAt t)

def notTitle (t : Text) : Bool :=
  if (numbered (oneOrMore isNumberChar) [['条']]).matchesAt t then false
  else if 12 < (split t).length ∨ (' ' ∉ t ∧ 32 ≤ t.length) then true
  else t.any (· ∈ [',', ';', '，', '。', '；', '！', '!'])

/-- What is no blank stays. -/
theorem mem_strip_iff {t : Text} {c : Char} (hc : isSpace c = false) : c ∈ strip t ↔ c ∈ t := by
  have hdrop : ∀ l : List Char, c ∈ l.dropWhile isSpace ↔ c ∈ l := by
    intro l
    induction l with
    | nil => exact Iff.rfl
    | cons a l ih =>
        rw [List.dropWhile_cons]
        split
        · next ha =>
            rw [ih, List.mem_cons]
            refine (or_iff_right fun heq => ?_).symm
            rw [heq, ha] at hc
            cases hc
        · exact Iff.rfl
  rw [strip, List.rdropWhile, List.mem_reverse, hdrop, List.mem_reverse, hdrop]

/-- A section that is kept has a character that is no blank. -/
theorem exists_of_survives {t : Text} (h : survives t = true) : ∃ c ∈ t, isSpace c = false := by
  rw [survives, decide_eq_true_iff] at h
  obtain ⟨-, hlong, -⟩ := h
  by_contra hblank
  simp only [not_exists, not_and, Bool.not_eq_false] at hblank
  have hnil : beforeAt t = [] := by
    have hall : ∀ c ∈ t.takeWhile (· ≠ '@'), isSpace c = true := fun c hc =>
      hblank c ((List.takeWhile_prefix _).subset hc)
    rw [beforeAt, strip, List.dropWhile_eq_nil_iff.mpr hall]
    rfl
  rw [hnil] at hlong
  exact absurd hlong (by decide)

/-- `re.search(r"(title|head)", layout)`. -/
def isHeadLayout (layout : Text) : Bool :=
  "title".toList <:+: layout ∨ "head".toList <:+: layout

/-- The level of a paragraph in a family: the first pattern that matches `bullet`, then titles, and
body text last. -/
def levelOf (family : List Pattern) (bullet text layout : Text) : ℕ :=
  match family.findIdx? fun p => p.matchesAt bullet with
  | some j => j
  | none => if isHeadLayout layout && !notTitle text then family.length else family.length + 1

theorem levelOf_le (family : List Pattern) (bullet text layout : Text) :
    levelOf family bullet text layout ≤ family.length + 1 := by
  rw [levelOf]
  split
  · next j hj => exact (List.findIdx?_eq_some_iff_getElem.mp hj).1.le.trans (Nat.le_succ _)
  · split
    · exact Nat.le_succ _
    · exact le_rfl

end RagFlow.Chunking
