/-
# Levels of line records

The title chunkers of the pipeline give every line of the upstream output a level: that of the
outline entry it resembles, or that of the first pattern it matches out of the family that matches
most lines, or, by its layout, the level below all patterns. What is neither is body text, and so is
every table and image. The lowest level is 1, since 0 is that of the root of a tree.
-/

import Mathlib
import RagFlow.Chunking.Headings

namespace RagFlow.Flow

open RagFlow.Chunking (Text Pattern notTitle beforeAt)
open RagFlow.Chunking.Pattern (one oneOrMore run word inTurn)
open RagFlow.Query (strip)

/-- A line of the upstream output, as far as levels and groups depend on it. -/
structure LineRecord where
  text : Text
  docTypeKwd : String
  layout : Text
deriving DecidableEq

def LineRecord.isText (record : LineRecord) : Bool := record.docTypeKwd = "text"

/-- `sys.maxsize - 1`. -/
def bodyLevel : ℕ := 2 ^ 63 - 2

/-- The levels of the lines, and the one that occurs most among the titles. -/
structure Resolved where
  levels : List ℕ
  mostLevel : Option ℕ

/-! ## Levels by pattern and layout -/

def notBullet (line : Text) : Bool :=
  [ word ['0'],
    inTurn [oneOrMore Char.isDigit, oneOrMore (· = ' '),
      one fun c => c.isDigit || c ∈ ['~', '个', '只', '-']],
    inTurn [oneOrMore Char.isDigit, run (· = '.') 2 none] ].any fun r => r.matchesAt line

section Frequency

variable (reMatch : Text → Text → Bool)

/-- A line that is a bullet has a match of the pattern, by `re.match`, at its beginning. -/
def hit (line pattern : Text) : Bool := reMatch pattern line && !notBullet line

def matchRegexLevel (text : Text) (levelGroup : List Text) : Option ℕ :=
  (levelGroup.findIdx? (hit reMatch (strip text))).map (· + 1)

/-- How many of the lines some pattern of a family matches. -/
def hits (lines : List Text) (group : List Text) : ℕ :=
  lines.countP fun sec => strip sec ≠ [] && group.any (hit reMatch (strip sec))

/-- The first of the families that match most lines. -/
def selectLevelGroup (lines : List Text) (rawLevels : List (List Text)) : List Text :=
  let selected := rawLevels.foldl (fun (best : ℕ × List Text) group =>
    if hits reMatch lines group ≤ best.1 then best else (hits reMatch lines group, group)) (0, [])
  selected.2.filter (· ≠ [])

/-- The letters that `re.I` does not tell apart. -/
def foldCase (c : Char) : Char :=
  if c = 'İ' ∨ c = 'ı' then 'i' else if c = 'ſ' then 's' else c.toLower

/-- `re.search(r"(section|title|head)", layout, re.I)`. -/
def isTitleLayout (layout : Text) : Bool :=
  ["section", "title", "head"].any fun name => name.toList <:+: layout.map foldCase

def matchLayoutLevel (text layout : Text) (fallbackLevel : ℕ) : ℕ :=
  if isTitleLayout layout && !notTitle (beforeAt text) then fallbackLevel else bodyLevel

/-- `Counter.most_common`: the larger counts first, and of equal ones what occurred first. -/
def mostCommon (levels : List ℕ) : List ℕ :=
  levels.eraseDups.mergeSort fun level level' => levels.count level' ≤ levels.count level

/-- The level of a text out of a family, and body text below all. -/
def frequencyLevel (levelGroup : List Text) (record : LineRecord) : ℕ :=
  if record.isText then
    (matchRegexLevel reMatch record.text levelGroup).getD
      (matchLayoutLevel record.text record.layout (levelGroup.length + 1))
  else bodyLevel

def resolveFrequencyLevels (paramLevels : List (List Text)) (lineRecords : List LineRecord) :
    Resolved :=
  let levelGroup := selectLevelGroup reMatch (lineRecords.map LineRecord.text) paramLevels
  let levels := lineRecords.map (frequencyLevel reMatch levelGroup)
  { levels, mostLevel := (mostCommon levels).find? (· < bodyLevel) }

end Frequency

/-! ## Levels by outline -/

/-- The pairs of neighbouring characters. -/
def charPairs (t : Text) : List (Char × Char) := t.zip t.tail

def outlineSimilarity (left right : Text) : ℚ :=
  let leftPairs := (charPairs left).toFinset
  let rightPairs := ((charPairs right).take left.length).toFinset
  ((leftPairs ∩ rightPairs).card : ℚ) / (max (max leftPairs.card rightPairs.card) 1 : ℕ)

/-- The level of the first outline entry that a text resembles; outlines count from 0. -/
def outlineLevel (outlines : List (Text × ℕ)) (record : LineRecord) : ℕ :=
  if record.isText then
    ((outlines.find? fun entry => 4 / 5 < outlineSimilarity entry.1 record.text).map
      fun entry => entry.2 + 1).getD bodyLevel
  else bodyLevel

def resolveOutlineLevels (outlines : List (Text × ℕ)) (lineRecords : List LineRecord) :
    Option Resolved :=
  if lineRecords = [] ∨ (outlines.length : ℚ) / lineRecords.length ≤ 3 / 100 then none
  else
    let maxLevel := (outlines.map Prod.snd).foldr max 0 + 1
    some
      { levels := lineRecords.map (outlineLevel outlines),
        mostLevel := some (max 1 (maxLevel - 1)) }

/-- The outlines decide if there are enough of them. -/
def resolveTitleLevels (reMatch : Text → Text → Bool) (paramLevels : List (List Text))
    (outlines : List (Text × ℕ)) (lineRecords : List LineRecord) : Resolved :=
  (resolveOutlineLevels outlines lineRecords).getD
    (resolveFrequencyLevels reMatch paramLevels lineRecords)

/-! ## Levels are positive -/

section Positive

variable {reMatch : Text → Text → Bool} {record : LineRecord}

end Positive

/-! ## The target level -/

/-- The levels of titles, in ascending order. -/
def titleLevels (levels : List ℕ) : List ℕ :=
  (levels.filter fun level => 0 < level ∧ level < bodyLevel).dedup.insertionSort (· ≤ ·)

/-- The level down to which titles count, none if there are no titles. -/
def resolveTargetLevel (levels : List ℕ) (hierarchy : ℤ) : Option ℕ :=
  let titles := titleLevels levels
  if titles = [] then none
  else titles[min (max hierarchy 1).toNat titles.length - 1]?

end RagFlow.Flow
