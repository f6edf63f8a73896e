/-
# Tokens with positions

The twins of `Tokenize`, `Merge` and `FineGrainedTokenize` that keep a second vector with the
byte positions of the tokens. A position that is read where the vector has no entry leaves no
result.
-/

import RagFlow.Analyzer.Tokenize
import RagFlow.Math.Find

namespace RagFlow.Analyzer

open RagFlow.Math

/-- The vectors of tokens and of positions, which are filled in step. -/
structure Positioned where
  tokens : List Text
  positions : List (ℕ × ℕ)

namespace Positioned

def empty : Positioned := { tokens := [], positions := [] }

def push (out : Positioned) (token : Text) (position : ℕ × ℕ) : Positioned :=
  { tokens := out.tokens ++ [token], positions := out.positions ++ [position] }

end Positioned

/-! ## Position mappings -/

/-- `BuildPositionMapping`: for each byte of the converted text the start of the character of the
original with the same number; the original ends at `size`. -/
def buildPositionMappingFrom (size : ℕ) : ℕ → Text → Text → List ℕ
  | origPos, o :: original, c :: converted =>
    List.replicate c.utf8Size origPos ++
      buildPositionMappingFrom size (origPos + o.utf8Size) original converted
  | _, _, converted => List.replicate (byteSize converted + 1) size

def buildPositionMapping (original converted : Text) : List ℕ :=
  buildPositionMappingFrom (byteSize original) 0 original converted

/-- `final_pos_mapping`: from the prepared text back through both conversions and the replacement
to the line. -/
def finalPosMapping (env : Env) (line : Text) : List ℕ :=
  let processed := globalReplace env.isWord line
  let str1 := strQ2B processed.1
  let strline := env.convert str1
  let strq2bPosMapping := buildPositionMapping processed.1 str1
  let openccPosMapping := buildPositionMapping str1 strline
  (List.range (byteSize strline)).map (fun i =>
    (((openccPosMapping[i]?.bind fun str1Pos => strq2bPosMapping[str1Pos]?).bind
      fun processedPos => processed.2[processedPos]?).map Prod.fst).getD (byteSize line)) ++
    [byteSize line]

/-! ## `TokenizeInnerWithPosition` -/

/-- A position of the prepared text in the line, if there is a mapping. -/
def mapPosition (posMapping : Option (List ℕ)) (pos : ℕ) : ℕ :=
  match posMapping with
  | none => pos
  | some mapping => mapping[pos]?.getD 0

/-- Append the parts of a string between blanks one after another. -/
def Positioned.pushParts (posMapping : Option (List ℕ)) :
    List Text → ℕ → Positioned → Positioned
  | [], _, out => out
  | part :: parts, spaceStartPos, out =>
    pushParts posMapping parts (spaceStartPos + byteSize part)
      (out.push part (mapPosition posMapping spaceStartPos,
        mapPosition posMapping (spaceStartPos + byteSize part)))

/-- Append a string, which is split if it has a blank. -/
def Positioned.pushString (posMapping : Option (List ℕ)) (tokenStr : Text) (startPos endPos : ℕ)
    (out : Positioned) : Positioned :=
  if ' ' ∈ tokenStr then out.pushParts posMapping (splitBlanks tokenStr) startPos
  else out.push tokenStr (mapPosition posMapping startPos, mapPosition posMapping endPos)

def calculateTokensLength (tokens : List Text) (start stop : ℕ) : ℕ :=
  byteSize ((tokens.take stop).drop start).flatten

section Inner

variable (tables : Tables) (basePos : ℕ) (posMapping : Option (List ℕ)) (tks1 tks : List Text)

/-- Append the tokens from `start` to before `stop` as one string. -/
def Positioned.pushTokens (tokenStr : Text) (start : ℕ) (out : Positioned) : Positioned :=
  let startPos := basePos + calculateTokensLength tks 0 start
  out.pushString posMapping tokenStr startPos (startPos + byteSize tokenStr)

/-- Search a text that starts with the token `start`, and append the best segmentation. -/
def Positioned.search (strForDfs : Text) (start : ℕ) (out : Positioned) : Positioned :=
  let best := (dfs tables strForDfs false (MAX_DFS_DEPTH + 1) 0 [] .start).2.bestTokens
  let startPos := basePos + calculateTokensLength tks 0 start
  out.pushString posMapping ([' '].intercalate best) startPos (startPos + byteSize strForDfs)

/-- The loop over both segmentations. -/
def walkWithPosition (i j i₀ j₀ : ℕ) (out : Positioned) : Option (ℕ × ℕ × Positioned) :=
  if i < tks1.length ∧ j < tks.length then do
    let tk1 ← join tks1 i₀ i []
    let tk ← join tks j₀ j []
    if tk1 ≠ tk then
      if byteSize tk < byteSize tk1 then walkWithPosition i (j + 1) i₀ j₀ out
      else walkWithPosition (i + 1) j i₀ j₀ out
    else if tks1[i]? ≠ tks[j]? then walkWithPosition (i + 1) (j + 1) i₀ j₀ out
    else do
      let same := countSame tks1 tks i j 1
      let token ← join tks j (j + same) [' ']
      walkWithPosition (i + same + 1) (j + same + 1) (i + same) (j + same)
        ((out.search tables basePos posMapping tks tk j₀).pushTokens basePos posMapping tks token j)
  else some (i₀, j₀, out)
termination_by (tks1.length - i) + (tks.length - j)
decreasing_by all_goals omega

end Inner

/-- `TokenizeInnerWithPosition`. -/
def tokenizeInnerWithPosition (tables : Tables) (L : Text) (out : Positioned) (basePos : ℕ)
    (posMapping : Option (List ℕ)) : Option Positioned := do
  let tks := maxForward tables L
  let tks1 := maxBackward tables L
  let same := countSame tks1 tks 0 0 0
  let token ← join tks 0 same [' ']
  let out := if 0 < same then out.pushTokens basePos posMapping tks token 0 else out
  let (i₀, j₀, out) ← walkWithPosition tables basePos posMapping tks1 tks (same + 1) (same + 1)
    same same out
  if i₀ < tks1.length then do
    let strForDfs ← join tks j₀ tks.length []
    some (out.search tables basePos posMapping tks strForDfs j₀)
  else some out

/-! ## `TokenizeWithPosition` -/

variable (env : Env)

section Line

variable (line : Text) (mapping : List ℕ)

/-- The terms of one sentence, each searched from the end of the last one on. -/
def pushTerms (sentence : Text) (sentenceStartPos : ℕ) :
    List Text → ℕ → Positioned → Option Positioned
  | [], _, out => some out
  | term :: terms, currentSearchPos, out =>
    match findFrom Char.utf8Size term currentSearchPos 0 sentence with
    | none => pushTerms sentence sentenceStartPos terms currentSearchPos out
    | some posInSentence => do
      let startPos := sentenceStartPos + posInSentence
      let endPos := startPos + byteSize term
      let position ←
        if startPos < mapping.length then do
          let start ← mapping[startPos]?
          let stop ← mapping[endPos]?
          some (start, stop)
        else some (byteSize line, byteSize line)
      pushTerms sentence sentenceStartPos terms (posInSentence + byteSize term)
        (out.push (normalize env term) position)

/-- The sentences of a segment. -/
def pushSentences : List Text → ℕ → Positioned → Option Positioned
  | [], _, out => some out
  | sentence :: sentences, sentenceStartPos, out => do
    let out ← pushTerms env line mapping sentence sentenceStartPos (env.nltk sentence) 0 out
    pushSentences sentences (sentenceStartPos + byteSize sentence) out

/-- One segment of the prepared text. -/
def pushSegment (L : Text) (lang : Bool) (originalStart : ℕ) (out : Positioned) :
    Option Positioned :=
  if lang = false then pushSentences env line mapping (sentenceSplitter L) originalStart out
  else if isOneToken L then
    let startPos := originalStart
    let endPos := originalStart + byteSize L
    if startPos < mapping.length ∧ endPos < mapping.length then do
      let start ← mapping[startPos]?
      let stop ← mapping[endPos]?
      some (out.push L (start, stop))
    else some (out.push L (byteSize line, byteSize line))
  else tokenizeInnerWithPosition env.tables L out originalStart (some mapping)

/-- The segments of the prepared text, each of which has to be found from the end of the last one
on. -/
def pushSegments (strline : Text) : List (Text × Bool) → ℕ → Positioned → Option Positioned
  | [], _, out => some out
  | (L, lang) :: arr, currentPos, out =>
    if L = [] then pushSegments strline arr currentPos out
    else
      match findFrom Char.utf8Size L currentPos 0 strline with
      | none => pushSegments strline arr currentPos out
      | some _ => do
        let out ← pushSegment env line mapping L lang currentPos out
        pushSegments strline arr (currentPos + byteSize L) out

end Line

/-- The first loop of `MergeWithPosition`, from the token `i` on: tokens that are empty or a blank
are dropped. -/
def filterPositions (positions : List (ℕ × ℕ)) : ℕ → List Text → Positioned → Option Positioned
  | _, [], out => some out
  | i, token :: tokens, out =>
    if token ≠ [] ∧ token ≠ [' '] then do
      let position ← positions[i]?
      filterPositions positions (i + 1) tokens (out.push token position)
    else filterPositions positions (i + 1) tokens out

/-- The second loop of `MergeWithPosition`, from `s` on. -/
def mergeWithPositionFrom (filtered : Positioned) (s : ℕ) (out : Positioned) : Option Positioned :=
  if s < filtered.tokens.length then
    have := lt_mergeEnd env filtered.tokens s
    let E := mergeEnd env filtered.tokens s
    do
      let start ← filtered.positions[s]?
      let stop ← filtered.positions[E - 1]?
      mergeWithPositionFrom filtered E
        (out.push ((filtered.tokens.take E).drop s).flatten (start.1, stop.2))
  else some out
termination_by filtered.tokens.length - s

/-- `MergeWithPosition`. -/
def mergeWithPosition (tokens : List Text) (positions : List (ℕ × ℕ)) : Option Positioned := do
  let filtered ← filterPositions positions 0 tokens .empty
  mergeWithPositionFrom env filtered 0 .empty

/-- `TokenizeWithPosition`. -/
def tokenizeWithPosition (line : Text) : Option Positioned := do
  let strline := prepare env line
  let out ← pushSegments env line (finalPosMapping env line) strline (splitByLang strline) 0 .empty
  mergeWithPosition env out.tokens out.positions

/-! ## `FineGrainedTokenizeWithPosition` -/

/-- The lines of one token that are not empty. -/
def pushLines : List Text → ℕ → Positioned → Positioned
  | [], _, out => out
  | subToken :: subTokens, subStart, out =>
    if subToken = [] then pushLines subTokens subStart out
    else
      let subEnd := subStart + byteSize subToken
      pushLines subTokens (subEnd + 1) (out.push subToken (subStart, subEnd))

/-- The parts of one token one after another, by some measure of their length. -/
def pushFine (length : Text → ℕ) : List Text → ℕ → Positioned → Positioned
  | [], _, out => out
  | t :: stk, subPos, out =>
    pushFine length stk (subPos + length t) (out.push t (subPos, subPos + length t))

/-- The body of the loop over Chinese or mixed text. -/
def pushFineTokens (token : Text) (position : ℕ × ℕ) (out : Positioned) : Positioned :=
  if UTF8Length token < 3 ∨ pattern4 token then out.push token position
  else if (tokenList env token).length < 2 then out.push token position
  else
    match (sortTokens env (tokenList env token))[1]? with
    | none => out.push token position
    | some (stk, _) =>
      if stk.length = UTF8Length token then out.push token position
      else if pattern5 token then
        if ∃ t ∈ stk, UTF8Length t < 3 then out.push token position
        else pushFine UTF8Length stk position.1 out
      else pushFine byteSize stk position.1 out

/-- The loop over the tokens from `i` on, each with its position. -/
def pushEach (body : Text → ℕ × ℕ → Positioned → Positioned) (positions : List (ℕ × ℕ)) :
    ℕ → List Text → Positioned → Option Positioned
  | _, [], out => some out
  | i, token :: tks, out => do
    let position ← positions[i]?
    pushEach body positions (i + 1) tks (body token position out)

/-- `FineGrainedTokenizeWithPosition`. -/
def fineGrainedTokenizeWithPosition (tokensStr : Text) (positions : List (ℕ × ℕ)) :
    Option Positioned :=
  let tks := splitBlanks tokensStr
  if isEnglish tks then
    pushEach (fun token position => pushLines (getlines '/' [] token) position.1) positions 0 tks
      .empty
  else pushEach (pushFineTokens env) positions 0 tks .empty

/-! ## `AnalyzeImpl` -/

/-- A token that is reported, with its offsets. -/
structure Term where
  text : Text
  wordOffset : ℕ
  endOffset : ℕ

/-- Report the tokens from `i` on with their positions; empty ones are left out. -/
def reportPositions (positions : List (ℕ × ℕ)) : ℕ → List Text → Option (List Term)
  | _, [] => some []
  | i, token :: tokens =>
    if token = [] then reportPositions positions (i + 1) tokens
    else do
      let position ← positions[i]?
      let rest ← reportPositions positions (i + 1) tokens
      some ({ text := token, wordOffset := position.1, endOffset := position.2 } :: rest)

/-- Report the tokens by their number. -/
def reportOffsets : ℕ → List Text → List Term
  | _, [] => []
  | offset, token :: tokens =>
    if token = [] then reportOffsets offset tokens
    else
      { text := token, wordOffset := offset, endOffset := 0 } :: reportOffsets (offset + 1) tokens

/-- `AnalyzeImpl`. -/
def analyzeImpl (input : Text) (fineGrained enablePosition : Bool) : Option (List Term) :=
  if enablePosition then do
    let out ← tokenizeWithPosition env input
    let out ←
      if fineGrained then
        fineGrainedTokenizeWithPosition env ([' '].intercalate out.tokens) out.positions
      else some out
    reportPositions out.positions 0 out.tokens
  else do
    let result ← tokenize env input
    let tokens := if fineGrained then fineGrainedTokenize env result else splitBlanks result
    some (reportOffsets 0 tokens)

end RagFlow.Analyzer
