/-
# Chunks of a given number of tokens

`TokenChunker` turns the items of structured input into chunks. Texts are split at the custom
delimiters, if there are any; otherwise texts that follow one another are joined until they have
more tokens than the chunk size. A table or image is a chunk of its own, and the texts before and
behind it are not joined. Children delimiters split the chunks once more.
-/

import Mathlib
import RagFlow.Math.Stretch
import RagFlow.Chunking.Delimiters
import RagFlow.Chunking.Sentences

namespace RagFlow.Flow

open RagFlow.Math
open RagFlow.Chunking
open RagFlow.Query (strip)
open RagFlow.Ingestion (isSpace)

/-! ## Items and parameters -/

inductive ChunkType
  | text
  | table
  | image
deriving DecidableEq

inductive DelimiterMode
  | tokenSize
  | delimiter
  | one
deriving DecidableEq

/-- An item of the upstream output. Its texts are there if they are strings. -/
structure UpstreamItem where
  docTypeKwd : Text
  text : Option Text
  contentWithWeight : Option Text := none
  positions : List (List ℤ) := []
  imgId : Option String := none
deriving DecidableEq

structure TokenChunkerParam where
  delimiterMode : DelimiterMode := .tokenSize
  chunkTokenSize : ℕ := 512
  delimiters : List Text := [['\n']]
  overlappedPercent : ℕ := 0
  childrenDelimiters : List Text := []
  tableContextSize : ℕ := 0
  imageContextSize : ℕ := 0

/-- A chunk while it is worked on. -/
structure WorkChunk where
  text : Text
  ckType : ChunkType
  positions : List (List ℤ)
  tkNums : ℕ
  imgId : Option String := none
  contextAbove : Text := []
  contextBelow : Text := []
  mom : Text := []
deriving DecidableEq

structure ChunkDoc where
  text : Text
  docTypeKwd : Option ChunkType := none
  positions : List (List ℤ) := []
  mom : Text := []
  imgId : Option String := none
deriving DecidableEq

namespace UpstreamItem

def ckType (item : UpstreamItem) : ChunkType :=
  let docType := (strip item.docTypeKwd).map Char.toLower
  if docType = "table".toList then .table
  else if docType = "image".toList then .image
  else .text

def isMedia (item : UpstreamItem) : Bool := item.ckType ≠ .text

def content (item : UpstreamItem) : Text :=
  (item.text.orElse fun _ => item.contentWithWeight).getD []

end UpstreamItem

namespace TokenChunkerParam

/-- The active delimiters of `_compile_delimiter_pattern`. -/
def activeDelimiters (param : TokenChunkerParam) : List Text :=
  customDelimiters param.delimiters.flatten

/-- `check` drops empty delimiters. -/
def activeChildren (param : TokenChunkerParam) : List Text :=
  param.childrenDelimiters.filter (· ≠ [])

end TokenChunkerParam

/-! ## The steps of `_invoke` -/

section Steps

variable (numTokens : Text → ℕ)

/-- `_split_text_by_pattern`. -/
def splitTextByPattern (text : Text) (delims : List Text) : List Text :=
  if delims = [] then [text] else keepDelimiters (splitMatches (delimiterLength delims) text)

/-- `_build_json_chunks`, for one item. -/
def buildChunks (delims : List Text) (item : UpstreamItem) : List WorkChunk :=
  if item.ckType = .text then
    ((splitTextByPattern item.content delims).filter (strip · ≠ [])).map fun segment =>
      { text := segment, ckType := .text, positions := item.positions,
        tkNums := numTokens segment }
  else
    [{ text := item.content, ckType := item.ckType, positions := item.positions,
       tkNums := numTokens item.content, imgId := item.imgId }]

def takeSentences (text : Text) (needTokens : ℕ) (fromEnd : Bool) : Text :=
  let sentences := withStops (splitStops text)
  let enough := fun collected => needTokens ≤ numTokens collected
  if fromEnd then takeUp enough sentences.reverse [] else takeDown enough sentences []

/-- The text above a chunk, from the chunks before it, the nearest first. -/
def textAbove : List WorkChunk → ℕ → Text
  | [], _ => []
  | prev :: rest, remain =>
      if remain = 0 then []
      else if prev.ckType = .text then
        if remain ≤ prev.tkNums then takeSentences numTokens prev.text remain true
        else textAbove rest (remain - prev.tkNums) ++ prev.text
      else textAbove rest remain

def textBelow : List WorkChunk → ℕ → Text
  | [], _ => []
  | after :: rest, remain =>
      if remain = 0 then []
      else if after.ckType = .text then
        if remain ≤ after.tkNums then takeSentences numTokens after.text remain false
        else after.text ++ textBelow rest (remain - after.tkNums)
      else textBelow rest remain

/-- `_attach_context_to_media_chunks`, behind the chunks `before`. -/
def attachContext (param : TokenChunkerParam) :
    List WorkChunk → List WorkChunk → List WorkChunk
  | _, [] => []
  | before, chunk :: rest =>
      let contextSize :=
        if chunk.ckType = .image then param.imageContextSize else param.tableContextSize
      let chunk' :=
        if chunk.ckType = .text ∨ contextSize = 0 then chunk
        else { chunk with contextAbove := textAbove numTokens before contextSize,
                          contextBelow := textBelow numTokens rest contextSize }
      chunk' :: attachContext param (chunk :: before) rest

/-- The chunks so far, and whether the last of them is a text that can be added to. -/
structure TokenMerge where
  merged : List WorkChunk
  open_ : Bool

/-- The end of a chunk that the next one begins with. -/
def overlapOf (param : TokenChunkerParam) (text : Text) : Text :=
  text.drop (text.length * (100 - param.overlappedPercent) / 100)

/-- A step of `_merge_text_chunks_by_token_size`. -/
def mergeText (param : TokenChunkerParam) (st : TokenMerge) (chunk : WorkChunk) : TokenMerge :=
  if chunk.ckType ≠ .text then { merged := st.merged ++ [chunk], open_ := false }
  else
    match (if st.open_ then st.merged.getLast? else none) with
    | none => { merged := st.merged ++ [chunk], open_ := true }
    | some prev =>
        if param.chunkTokenSize * (100 - param.overlappedPercent) < prev.tkNums * 100 then
          let chunk :=
            if 0 < param.overlappedPercent ∧ prev.text ≠ [] then
              let text := overlapOf param prev.text ++ chunk.text
              { chunk with text, tkNums := numTokens text }
            else chunk
          { merged := st.merged ++ [chunk], open_ := true }
        else
          let text :=
            if prev.text ≠ [] ∧ chunk.text ≠ [] then prev.text ++ '\n' :: chunk.text
            else prev.text ++ chunk.text
          { merged := st.merged.dropLast ++
              [{ prev with text, positions := prev.positions ++ chunk.positions,
                           tkNums := prev.tkNums + chunk.tkNums }],
            open_ := true }

/-- `_split_chunk_docs_by_children`, for one chunk. -/
def childrenOf (delims : List Text) (chunk : WorkChunk) : List WorkChunk :=
  if delims = [] ∨ chunk.ckType ≠ .text then [chunk]
  else
    ((splitTextByPattern chunk.text delims).filter (strip · ≠ [])).map fun text =>
      { chunk with mom := chunk.text, text }

/-- `_finalize_json_chunks`, for one chunk. -/
def finalizeChunk (chunk : WorkChunk) : Option ChunkDoc :=
  let text := chunk.contextAbove ++ chunk.text ++ chunk.contextBelow
  if strip text = [] then none
  else
    some { text, docTypeKwd := some chunk.ckType, positions := chunk.positions,
           mom := chunk.mom, imgId := chunk.imgId }

/-- `TokenChunker._invoke` on structured input. -/
def tokenChunks (param : TokenChunkerParam) (items : List UpstreamItem) : List ChunkDoc :=
  if param.delimiterMode = .one then
    let sections := (items.map UpstreamItem.content).filter (strip · ≠ [])
    let mergedText := ['\n'].intercalate sections
    if strip mergedText = [] then [] else [{ text := mergedText }]
  else
    let built := items.flatMap (buildChunks numTokens param.activeDelimiters)
    let attached := attachContext numTokens param [] built
    let merged :=
      if param.activeDelimiters = [] then
        (attached.foldl (mergeText numTokens param) ⟨[], false⟩).merged
      else attached
    (merged.flatMap (childrenOf param.activeChildren)).filterMap finalizeChunk

end Steps

end RagFlow.Flow
