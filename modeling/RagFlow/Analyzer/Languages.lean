/-
# Texts and languages

How the analyzer prepares a text and takes it apart: what is no word becomes a blank, full-width
characters become narrow ones, delimiters and languages are split off, and text that is not
Chinese is split into sentences.
-/

import RagFlow.Analyzer.Trie
import RagFlow.Math.Join
import RagFlow.Math.Split

namespace RagFlow.Analyzer

open RagFlow.Math

/-! ## Characters -/

def latin (c : Char) : Bool := ('a' ≤ c && c ≤ 'z') || ('A' ≤ c && c ≤ 'Z')

def digit (c : Char) : Bool := '0' ≤ c && c ≤ '9'

/-- The first class of `regex_split_pattern_`. -/
def delimiter (c : Char) : Bool :=
  c ∈ " ,.<>/?;:'[]\\`!@#$%^&*()\x7b\x7d|_+=《》，。？、；‘’：“”【】~！￥%……（）——-".toList

/-- The second class of `regex_split_pattern_`. -/
def wordLike (c : Char) : Bool := latin c || digit c || c ∈ [',', '.', '-']

/-- A partial match of a class at the end of a text. -/
def endsIn (cls : Char → Bool) (t : Text) : Bool := t.getLast?.any cls

def pattern1 (t : Text) : Bool := endsIn (fun c => latin c || c ∈ ['_', '-']) t

def pattern2 (t : Text) : Bool := endsIn (fun c => latin c || c ∈ ['.', '-']) t

def pattern3 (t : Text) : Bool := endsIn (fun c => digit c || c ∈ ['.', '-']) t

def pattern4 (t : Text) : Bool := endsIn (fun c => digit c || c ∈ [',', '.', '-']) t

def pattern5 (t : Text) : Bool := t.any fun c => latin c || c ∈ ['.', '-']

/-- `IsChinese` of one character: its first byte in UTF-8 is from E4 to E9. -/
def isChinese (c : Char) : Bool := 0x4000 ≤ c.toNat && c.toNat ≤ 0x9FFF

/-! ## Preparation -/

/-- The text up to its first NUL, as a pointer to its characters shows it. -/
def cString (s : Text) : Text := s.takeWhile (· ≠ '\x00')

/-- `StrQ2B`. -/
def strQ2B (s : Text) : Text :=
  s.map fun c =>
    if 0xFF01 ≤ c.toNat ∧ c.toNat ≤ 0xFF5E then Char.ofNat (c.toNat - 0xFEE0)
    else if c.toNat = 0x3000 then ' '
    else c

/-- `PCRE2GlobalReplaceWithPosition` of `\W+` by a blank, from a byte offset on and inside a match
or not: the text, and for each byte of it an offset of the original. -/
def globalReplaceFrom (isWord : Char → Bool) :
    ℕ → Bool → Text → Text × List (ℕ × ℕ)
  | _, _, [] => ([], [])
  | pos, inMatch, c :: cs =>
    if isWord c then
      let rest := globalReplaceFrom isWord (pos + c.utf8Size) false cs
      (c :: rest.1, (List.range' pos c.utf8Size).map (fun i => (i, i)) ++ rest.2)
    else
      let rest := globalReplaceFrom isWord (pos + c.utf8Size) true cs
      if inMatch then rest else (' ' :: rest.1, (pos, pos) :: rest.2)

def globalReplace (isWord : Char → Bool) (text : Text) : Text × List (ℕ × ℕ) :=
  globalReplaceFrom isWord 0 false text

/-! ## Splitting -/

/-- `Split` at blanks. -/
def splitBlanks (s : Text) : List Text := cut (· = ' ') (cString s)

/-- `Replace` of blanks in a row by one. -/
def replaceSpaces : Bool → Text → Text
  | _, [] => []
  | afterBlank, c :: cs =>
    if c = ' ' then if afterBlank then replaceSpaces true cs else ' ' :: replaceSpaces true cs
    else c :: replaceSpaces false cs

/-- The match of `regex_split_pattern_` at the head of a text; the first class goes first. -/
def splitMatch : Text → ℕ
  | [] => 0
  | c :: cs =>
    if delimiter c then ((c :: cs).takeWhile delimiter).length
    else if wordLike c then ((c :: cs).takeWhile wordLike).length
    else 0

/-- `Split` at `regex_split_pattern_` with the delimiters kept. -/
def splitDelimiters (line : Text) : List Text :=
  (splitMatches splitMatch (cString line)).filter (· ≠ [])

/-- The inner loop of `SplitByLang`, inside a segment. -/
def languagesFrom (segment : Text) (zh : Bool) : Text → List (Text × Bool)
  | [] => [(segment, zh)]
  | c :: cs =>
    if isChinese c = zh then languagesFrom (segment ++ [c]) zh cs
    else (segment, zh) :: languagesFrom [c] (isChinese c) cs

/-- `SplitByLang`. -/
def splitByLang (line : Text) : List (Text × Bool) :=
  (splitDelimiters line).flatMap fun a =>
    match a with
    | [] => []
    | c :: cs => languagesFrom [c] (isChinese c) cs

/-- The match of the end of a sentence at the head of a text: blanks, a mark, closing quotes and
brackets, and blanks. -/
def sentenceEnd (s : Text) : ℕ :=
  let blanks := (s.takeWhile (· = ' ')).length
  match s.drop blanks with
  | [] => 0
  | c :: cs =>
    if c ∈ ['.', '?', '!'] then
      let closing := (cs.takeWhile (· ∈ ['\x27', '\x22', ')', ']'])).length
      blanks + 1 + closing + ((cs.drop closing).takeWhile (· = ' ')).length
    else 0

/-- The sentences of stretches and the matches between them: an end is appended to what is before
it, and dropped if there is nothing. -/
def sentencesOf : List Text → List Text
  | [] => []
  | [rest] => if rest = [] then [] else [rest]
  | sentence :: stop :: rest =>
    if sentence = [] then sentencesOf rest else (sentence ++ stop) :: sentencesOf rest

/-- `SentenceSplitter`. -/
def sentenceSplitter (text : Text) : List Text := sentencesOf (splitMatches sentenceEnd text)

end RagFlow.Analyzer
