/-
# Context of tables and images among chunks

Tables and images get sentences of one text chunk around their own text: of a text chunk that
overlaps them on a page, or else of the next one before or behind them on their page. The chunks
are rewritten one after the other, while later ones still look for text among them.
-/

import Mathlib.Algebra.BigOperators.Group.List.Basic
import Mathlib.Data.List.Sort
import Mathlib.Data.Prod.Lex
import RagFlow.Math.Dict
import RagFlow.Math.InPlace
import RagFlow.Chunking.Text
import RagFlow.Query.Text

namespace RagFlow.Chunking.MediaContext

open RagFlow.Math
open RagFlow.Query (strip)

/-! ## Chunks -/

/-- A value of a dictionary that should be a string. -/
inductive Field where
  | missing
  | other
  | str (t : Text)
deriving DecidableEq

/-- A chunk, with the fields that are read or written and the others as they are. Lists of numbers
that are missing are empty, and a number that is missing is `none`. -/
structure Chunk (ρ : Type*) where
  docTypeKwd : Option String
  image : Bool
  contentWithWeight : Field
  text : Field
  contentLtks : Option Text
  contentSmLtks : Option Text
  positionInt : List (List (Option ℚ))
  pageNumInt : List (Option ℚ)
  pageNumber : Option ℚ
  topInt : List (Option ℚ)
  top : Option ℚ
  bottom : Option ℚ
  x0 : Option ℚ
  rest : ρ
deriving DecidableEq

section Source

variable {ρ : Type*}

def hasText : Field → Bool
  | .str t => strip t ≠ []
  | _ => false

def isImageChunk (ck : Chunk ρ) : Bool :=
  ck.docTypeKwd = some "image" ∨
    ck.image ∧ !hasText (match ck.contentWithWeight with
      | .str t => .str t
      | _ => ck.text)

def isTableChunk (ck : Chunk ρ) : Bool := ck.docTypeKwd = some "table"

def isTextChunk (ck : Chunk ρ) : Bool := !isImageChunk ck && !isTableChunk ck

def getText (ck : Chunk ρ) : Text :=
  match ck.contentWithWeight, ck.text with
  | .str t, _ => t
  | _, .str t => t
  | _, _ => []

/-! ## Sentences -/

def stops : Text := ['.', '。', '！', '？', '!', '?', '；', ';', '：', ':', '\n']

def stopLength : Text → ℕ
  | c :: _ => if c ∈ stops then 1 else 0
  | [] => 0

/-- The pieces of the split with the stops put behind what they end; `buf` is what stands before. -/
def joinStops : List Text → Text → List Text
  | [], buf => if buf = [] then [] else [buf]
  | p :: parts, buf =>
    if p = [] then joinStops parts buf
    else if ∃ c ∈ stops, p = [c] then (buf ++ p) :: joinStops parts []
    else joinStops parts (buf ++ p)

def splitSentences (text : Text) : List Text := joinStops (splitMatches stopLength text) []

/-- The loop of `trim_to_tokens`. -/
def trimFrom (num : Text → ℕ) : ℤ → List Text → List Text
  | _, [] => []
  | remaining, s :: seq =>
    if num s = 0 then trimFrom num remaining seq
    else if remaining < num s then [s]
    else s :: trimFrom num (remaining - num s) seq

def trimToTokens (num : Text → ℕ) (text : Text) (tokenBudget : ℤ) (fromTail : Bool) : Text :=
  if tokenBudget ≤ 0 ∨ text = [] then []
  else
    let sentences := splitSentences text
    if fromTail then (trimFrom num tokenBudget sentences.reverse).reverse.flatten
    else (trimFrom num tokenBudget sentences).flatten

/-- The loop for the sentence where half of the tokens are reached. -/
def midFrom (num : Text → ℕ) (target : ℚ) : List Text → ℕ → ℕ → ℕ → Option ℚ → ℕ
  | [], _, _, bestIdx, _ => bestIdx
  | s :: sentences, i, cum, bestIdx, bestDiff =>
    let diff := |((cum + num s : ℕ) : ℚ) - target|
    if bestDiff.all (diff < ·) then midFrom num target sentences (i + 1) (cum + num s) i (some diff)
    else midFrom num target sentences (i + 1) (cum + num s) bestIdx bestDiff

def findMidSentenceIndex (num : Text → ℕ) (sentences : List Text) : ℕ :=
  let total := (sentences.map num).sum
  if total = 0 then sentences.length / 2
  else midFrom num (total / 2) sentences 0 0 0 none

/-- Collects sentences while there are tokens left; what is too long is trimmed. -/
def collectFrom (num : Text → ℕ) (fromTail : Bool) : ℤ → List Text → List Text
  | _, [] => []
  | remaining, s :: seq =>
    if remaining ≤ 0 then []
    else if num s = 0 then collectFrom num fromTail remaining seq
    else
      let s := if remaining < num s then trimToTokens num s remaining fromTail else s
      s :: collectFrom num fromTail (remaining - num s) seq

def collectContextFromSentences (num : Text → ℕ) (sentences : List Text) (boundaryIdx : ℕ)
    (tokenBudget : ℤ) : List Text × List Text :=
  ((collectFrom num true tokenBudget (sentences.take (boundaryIdx + 1)).reverse).reverse,
    collectFrom num false tokenBudget (sentences.drop (boundaryIdx + 1)))

/-! ## Positions -/

/-- Top and bottom the right way round. -/
def ordered (top bottom : ℚ) : ℚ × ℚ := if bottom < top then (bottom, top) else (top, bottom)

/-- One entry of `position_int`. Unpacking fails if there are too many numbers. -/
def addBounds (bounds : Dict ℤ (ℚ × ℚ)) : List (Option ℚ) → Option (Dict ℤ (ℚ × ℚ))
  | [pn, _, _, top, bottom] =>
    match pn, top with
    | some pn, some top =>
      let b := ordered top (bottom.getD top)
      some (bounds.set (truncate pn) (match bounds.get? (truncate pn) with
        | some old => (min old.1 b.1, max old.2 b.2)
        | none => b))
    | _, _ => some bounds
  | pos => if pos.length < 5 then some bounds else none

/-- The page and the top of a chunk, each from one of two fields. -/
def pageOf (ck : Chunk ρ) : Option ℚ :=
  match ck.pageNumInt with
  | pn :: _ => pn
  | [] => ck.pageNumber

def topOf (ck : Chunk ρ) : Option ℚ :=
  match ck.topInt with
  | top :: _ => top
  | [] => ck.top

def getBoundsByPage (ck : Chunk ρ) : Dict ℤ (ℚ × ℚ) :=
  if ck.positionInt ≠ [] then (ck.positionInt.foldlM addBounds Dict.empty).getD Dict.empty
  else match pageOf ck, topOf ck with
    | some pn, some top => Dict.empty.set (truncate pn) (ordered top (ck.bottom.getD top))
    | _, _ => Dict.empty

structure Position where
  pn : Option ℚ
  top : Option ℚ
  left : Option ℚ

/-- Reading the left side fails if the first position has no second number. -/
def extractPosition (ck : Chunk ρ) : Position :=
  match ck.positionInt with
  | [] => ⟨pageOf ck, topOf ck, ck.x0⟩
  | (_ :: left :: _) :: _ => ⟨pageOf ck, topOf ck, left⟩
  | _ => ⟨none, none, none⟩

/-- The sort key of a chunk that has a page and a top. -/
def sortKey (idx : ℕ) (ck : Chunk ρ) : Option (ℤ ×ₗ ℤ ×ₗ ℤ ×ₗ ℕ) :=
  match extractPosition ck with
  | ⟨some pn, some top, left⟩ =>
    some (toLex (truncate pn, toLex (truncate top, toLex (truncate (left.getD 0), idx))))
  | _ => none

/-- The place is the last part of the key. -/
def placeOf (key : ℤ ×ₗ ℤ ×ₗ ℤ ×ₗ ℕ) : ℕ := (ofLex (ofLex (ofLex key).2).2).2

def positioned (chunks : List (Chunk ρ)) : List (ℤ ×ₗ ℤ ×ₗ ℤ ×ₗ ℕ) :=
  (chunks.zipIdx.filterMap fun (ck, idx) => sortKey idx ck).insertionSort (· ≤ ·)

def orderedIndices (chunks : List (Chunk ρ)) : List ℕ :=
  if positioned chunks ≠ [] then
    (positioned chunks).map placeOf ++
      (chunks.zipIdx.filter fun (ck, idx) => (sortKey idx ck).isNone).map Prod.snd
  else List.range chunks.length

/-! ## The source of a context -/

def textBounds (chunks : List (Chunk ρ)) : List (ℕ × Dict ℤ (ℚ × ℚ)) :=
  (chunks.zipIdx.filter fun (ck, _) => isTextChunk ck).filterMap fun (ck, idx) =>
    let bounds := getBoundsByPage ck
    if bounds.entries = [] then none else some (idx, bounds)

/-- The distance of the middles where two ranges overlap. -/
def overlapDistance (media text : ℚ × ℚ) : Option ℚ :=
  if media.2 < text.1 ∨ text.2 < media.1 then none
  else some |(media.1 + media.2) / 2 - (text.1 + text.2) / 2|

/-- The nearest text chunk that overlaps, the first of equally near ones. -/
def nearest (mediaBounds : Dict ℤ (ℚ × ℚ)) (textBounds : List (ℕ × Dict ℤ (ℚ × ℚ))) : Option ℕ :=
  let candidates := textBounds.flatMap fun (textIdx, bounds) =>
    bounds.entries.filterMap fun (pn, t) =>
      (mediaBounds.get? pn).bind fun m => (overlapDistance m t).map fun dist => (dist, textIdx)
  (candidates.foldl (fun best c => match best with
    | none => some c
    | some b => if c.1 < b.1 then some c else some b) none).map Prod.snd

def isOnPage (chunks : List (Chunk ρ)) (page : ℤ) (i : ℕ) : Bool :=
  chunks[i]?.any fun ck => (extractPosition ck).pn = some (page : ℚ)

/-- The places of the chunks on a page, in order. -/
def pageOrder (chunks : List (Chunk ρ)) (ordered : List ℕ) (page : ℤ) : List ℕ :=
  ordered.filter (isOnPage chunks page)

def isTextAt (chunks : List (Chunk ρ)) (i : ℕ) : Bool := chunks[i]?.any isTextChunk

/-- The next text chunk behind the first of a page, or before the last. -/
def neighbor (chunks : List (Chunk ρ)) (pageOrder : List ℕ) (idx : ℕ) : Option ℕ :=
  if idx ∉ pageOrder then none
  else
    let posInPage := pageOrder.idxOf idx
    if posInPage = 0 then (pageOrder.drop 1).find? (isTextAt chunks)
    else if posInPage = pageOrder.length - 1 then
      (pageOrder.take posInPage).reverse.find? (isTextAt chunks)
    else none

/-- The place of the text chunk that the context comes from. -/
def sourceOf (ordered : List ℕ) (textBounds : List (ℕ × Dict ℤ (ℚ × ℚ))) (chunks : List (Chunk ρ))
    (idx : ℕ) (ck : Chunk ρ) : Option ℕ :=
  let mediaBounds := getBoundsByPage ck
  match nearest mediaBounds textBounds with
  | some i => some i
  | none =>
    match mediaBounds.keys.min? with
    | some mediaPage => neighbor chunks (pageOrder chunks ordered mediaPage) idx
    | none => none

/-! ## Rewriting -/

/-- The token counter, the two tokenizers and the sizes of the contexts. -/
structure Settings where
  numTokensFromString : Text → ℕ
  tokenize : Text → Text
  fineGrainedTokenize : Text → Text
  tableContextSize : ℤ
  imageContextSize : ℤ

variable (o : Settings)

def tokenBudget (ck : Chunk ρ) : ℤ :=
  if isImageChunk ck then o.imageContextSize
  else if isTableChunk ck then o.tableContextSize
  else 0

/-- `"\n".join(pieces)`. -/
def joinLines (pieces : List Text) : Text := ['\n'].intercalate pieces

def combine (prevCtx nextCtx : List Text) (selfText : Text) : Text :=
  joinLines (prevCtx ++ (if selfText = [] then [] else [selfText]) ++ nextCtx)

/-- The tokens are made again if they are there and the text changes. -/
def updateTokens (combined : Text) (original : Field) (ck : Chunk ρ) : Chunk ρ :=
  if .str combined ≠ original then
    let contentLtks := ck.contentLtks.map fun _ => o.tokenize combined
    { ck with
      contentLtks
      contentSmLtks := ck.contentSmLtks.map fun _ =>
        o.fineGrainedTokenize (contentLtks.getD (o.tokenize combined)) }
  else ck

/-- Stores the text in the field that is there. -/
def store (combined : Text) (ck : Chunk ρ) : Chunk ρ :=
  if ck.contentWithWeight ≠ .missing then
    updateTokens o combined ck.contentWithWeight { ck with contentWithWeight := .str combined }
  else if ck.text ≠ .missing then
    updateTokens o combined ck.text { ck with text := .str combined }
  else updateTokens o combined .missing ck

def contextOf (ordered : List ℕ) (textBounds : List (ℕ × Dict ℤ (ℚ × ℚ))) (chunks : List (Chunk ρ))
    (idx : ℕ) (ck : Chunk ρ) : List Text × List Text :=
  match (sourceOf ordered textBounds chunks idx ck).bind fun i => chunks[i]? with
  | some source =>
    let sentences := splitSentences (getText source)
    if sentences = [] then ([], [])
    else collectContextFromSentences o.numTokensFromString sentences
      (findMidSentenceIndex o.numTokensFromString sentences) (tokenBudget o ck)
  | none => ([], [])

/-- One chunk with its context, which is looked for among the chunks as they are. -/
def attach (ordered : List ℕ) (textBounds : List (ℕ × Dict ℤ (ℚ × ℚ))) (chunks : List (Chunk ρ))
    (idx : ℕ) (ck : Chunk ρ) : Chunk ρ :=
  if tokenBudget o ck ≤ 0 then ck
  else
    let (prevCtx, nextCtx) := contextOf o ordered textBounds chunks idx ck
    if prevCtx = [] ∧ nextCtx = [] then ck
    else store o (combine prevCtx nextCtx (getText ck)) ck

/-- The loop over the chunks, which are rewritten in place. -/
def attachFirst (chunks : List (Chunk ρ)) (places : List ℕ) : List (Chunk ρ) :=
  rewriteAll (attach o (orderedIndices chunks) (textBounds chunks)) places chunks

def attachMediaContext (chunks : List (Chunk ρ)) : List (Chunk ρ) :=
  if chunks = [] ∨ o.tableContextSize ≤ 0 ∧ o.imageContextSize ≤ 0 then chunks
  else
    let attached := attachFirst o chunks (orderedIndices chunks)
    if positioned chunks ≠ [] then (orderedIndices chunks).filterMap (attached[·]?)
    else attached

end Source

end RagFlow.Chunking.MediaContext
