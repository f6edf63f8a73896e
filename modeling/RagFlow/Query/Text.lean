/-
# Cleaning of questions

A question is cleaned by regular expressions: blanks are put between Latin and Chinese letters,
special characters are taken out, and stop words are removed. The classes of characters in these
expressions are disjoint where one run follows another, so that there is one way to match each.
-/

import Mathlib.Data.List.DropRight
import RagFlow.Ingestion.Parents
import RagFlow.Math.Join
import RagFlow.Math.Substitute

namespace RagFlow.Query

open RagFlow.Math
open RagFlow.Ingestion (isSpace)

abbrev Text := List Char

/-! ## Expressions -/

/-- `text.strip()`. -/
def strip (text : Text) : Text := (text.dropWhile isSpace).rdropWhile isSpace

/-- `text.split()`. -/
def split (text : Text) : List Text := cut isSpace text

/-- A run of one class of characters and what follows it. -/
def takeRun (p : Char → Bool) (text : Text) : Option (Text × Text) :=
  if text.takeWhile p = [] then none else some (text.takeWhile p, text.dropWhile p)

def takeOne (p : Char → Bool) : Text → Option (Text × Text)
  | c :: text => if p c then some ([c], text) else none
  | [] => none

/-- `re.sub` of runs of one class. -/
def substRuns (p : Char → Bool) (new : Text) (text : Text) : Text :=
  substitute (fun t => (takeRun p t).map fun (run, _) => (run.length - 1, new)) text

/-- `re.split` at runs of one class: there can be an empty piece at each end. -/
def splitRuns (p : Char → Bool) (text : Text) : List Text :=
  if text = [] then [[]]
  else (if text.head?.any p then [[]] else []) ++ cut p text ++
    (if text.getLast?.any p then [[]] else [])

/-- `[a-zA-Z]+$` at the start of a text; a newline may follow. -/
def isAlphaWord (text : Text) : Bool :=
  text.takeWhile Char.isAlpha ≠ [] ∧ text.dropWhile Char.isAlpha ∈ [[], ['\n']]

/-! ## Blanks between scripts -/

def isZh (c : Char) : Bool := '\u4e00' ≤ c ∧ c ≤ '\u9fa5'

/-- Two groups are put apart where they match. -/
def spaceGroups (groups : Text → Option (Text × Text)) (text : Text) : Text :=
  substitute (fun t => (groups t).map fun (a, b) => (a.length + b.length - 1, a ++ ' ' :: b)) text

/-- `([A-Za-z]+[0-9]+)([\u4e00-\u9fa5]+)`. -/
def engNumZh (text : Text) : Option (Text × Text) := do
  let (letters, text) ← takeRun Char.isAlpha text
  let (digits, text) ← takeRun Char.isDigit text
  let (zh, _) ← takeRun isZh text
  pure (letters ++ digits, zh)

/-- `([A-Za-z])([\u4e00-\u9fa5]+)`. -/
def engZh (text : Text) : Option (Text × Text) := do
  let (letter, text) ← takeOne Char.isAlpha text
  let (zh, _) ← takeRun isZh text
  pure (letter, zh)

/-- `([\u4e00-\u9fa5]+)([A-Za-z]+[0-9]+)`. -/
def zhEngNum (text : Text) : Option (Text × Text) := do
  let (zh, text) ← takeRun isZh text
  let (letters, text) ← takeRun Char.isAlpha text
  let (digits, _) ← takeRun Char.isDigit text
  pure (zh, letters ++ digits)

/-- `([\u4e00-\u9fa5]+)([A-Za-z])`. -/
def zhEng (text : Text) : Option (Text × Text) := do
  let (zh, text) ← takeRun isZh text
  let (letter, _) ← takeOne Char.isAlpha text
  pure (zh, letter)

def addSpaceBetweenEngZh (txt : Text) : Text :=
  spaceGroups zhEng (spaceGroups zhEngNum (spaceGroups engZh (spaceGroups engNumZh txt)))

/-! ## Special characters -/

/-- `QueryBase.sub_special_char`. -/
def subSpecialChar (line : Text) : Text :=
  strip ((line.filter (· ≠ '\'')).flatMap fun c =>
    if c ∈ ":\x7b\x7d/[]-*?\"()|+~^".toList then ['\\', c] else [c])

/-- What `question` replaces by a blank. -/
def isCleaned (c : Char) : Bool :=
  c ∈ " :|\r\n\t,，。？?/`!！&^%()[]\x7b\x7d<>*~'\"\\".toList

/-- `QueryBase.is_chinese`. -/
def isChinese (line : Text) : Bool :=
  let arr := splitRuns (· ∈ [' ', '\t']) line
  arr.length ≤ 3 ∨ 7 * arr.length ≤ 10 * (arr.filter fun t => !isAlphaWord t).length

/-! ## Stop words -/

/-- The first expression of `rmWWW`, without the `是` around it. -/
def zhStopWords : List Text :=
  ["怎么办".toList, "什么样的".toList, "哪家".toList, "一下".toList, "那家".toList, "请问".toList,
    "啥样".toList, "咋样了".toList, "什么时候".toList, "何时".toList, "何地".toList, "何人".toList,
    "是否".toList, "是不是".toList, "多少".toList, "哪里".toList, "怎么".toList, "哪儿".toList,
    "怎么样".toList, "如何".toList, "哪些".toList, "是啥".toList, "啥是".toList, "啊".toList,
    "吗".toList, "呢".toList, "吧".toList, "咋".toList, "什么".toList, "有没有".toList, "呀".toList,
    "谁".toList, "哪位".toList, "哪个".toList]

/-- The length of a Chinese stop word at the start of a text, with the `是` around it. As many
before it are taken as leave a stop word. -/
def zhStopLength (text : Text) : Option ℕ :=
  (List.range ((text.takeWhile (· = '是')).length + 1)).reverse.findSome? fun n =>
    (zhStopWords.find? fun w => w.isPrefixOf (text.drop n)).map fun w =>
      n + w.length + ((text.drop (n + w.length)).takeWhile (· = '是')).length

def removeZhStopWords (text : Text) : Text :=
  substitute (fun t => (zhStopLength t).map fun n => (n - 1, [])) text

/-- A character without its case, as an expression compares it. -/
def foldCase (c : Char) : Char :=
  if c = '\u017f' then 's'
  else if c ∈ ['\u0130', '\u0131'] then 'i'
  else if c = '\u212a' then 'k'
  else c.toLower

def questionWords : List Text :=
  ["what".toList, "who".toList, "how".toList, "which".toList, "where".toList, "why".toList]

def smallWords : List Text :=
  ["'s".toList, "'re".toList, "is".toList, "are".toList, "were".toList, "was".toList, "do".toList,
    "does".toList, "did".toList, "don't".toList, "doesn't".toList, "didn't".toList, "has".toList,
    "have".toList, "be".toList, "there".toList, "you".toList, "me".toList, "your".toList,
    "my".toList, "mine".toList, "just".toList, "please".toList, "may".toList, "i".toList,
    "should".toList, "would".toList, "wouldn't".toList, "will".toList, "won't".toList,
    "done".toList, "go".toList, "for".toList, "with".toList, "so".toList, "the".toList,
    "a".toList, "an".toList, "by".toList, "i'm".toList, "it's".toList, "he's".toList,
    "she's".toList, "they".toList, "they're".toList, "you're".toList, "as".toList, "by".toList,
    "on".toList, "in".toList, "at".toList, "up".toList, "out".toList, "down".toList, "of".toList,
    "to".toList, "or".toList, "and".toList, "if".toList]

def isQuestionWord (w : Text) : Bool :=
  w ∈ questionWords ∨ w ∈ questionWords.map (· ++ "'re".toList) ∨
    w ∈ questionWords.map (· ++ "'s".toList)

/-- The length of a stop word at the start of a text, with the blank after it. -/
def stopLength (fold : Char → Char) (isStop : Text → Bool) (text : Text) : Option ℕ :=
  match text.dropWhile (· ≠ ' ') with
  | ' ' :: _ =>
    if isStop ((text.takeWhile (· ≠ ' ')).map fold) then
      some ((text.takeWhile (· ≠ ' ')).length + 1)
    else none
  | _ => none

/-- A stop word after a blank. -/
def stopMatcher (fold : Char → Char) (isStop : Text → Bool) : Matcher Char
  | ' ' :: rest => (stopLength fold isStop rest).map fun n => (n, [' '])
  | _ => none

/-- A stop word counts at the start of the text or after a blank. -/
def removeStopWords (fold : Char → Char) (isStop : Text → Bool) (text : Text) : Text :=
  match stopLength fold isStop text with
  | some n => ' ' :: substitute (stopMatcher fold isStop) (text.drop n)
  | none => substitute (stopMatcher fold isStop) text

/-- The expressions of `rmWWW`; letters are compared after `fold`. -/
def rmWWWBy (fold : Char → Char) (txt : Text) : Text :=
  let text := removeStopWords fold (· ∈ smallWords)
    (removeStopWords fold isQuestionWord (removeZhStopWords txt))
  if text = [] then txt else text

/-- `QueryBase.rmWWW`. -/
def rmWWW (txt : Text) : Text := rmWWWBy foldCase txt

end RagFlow.Query
