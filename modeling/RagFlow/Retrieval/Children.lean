/-
# Parents instead of children, in Python and in Go

Retrieved chunks that carry the id of a parent are taken out of the list and grouped by it, and one
entry for each parent comes in their place. Both ports ask the index of the first tenant for the
parents; they differ in what they take for an id, in a parent that is not there and in the fields
that its row does not have.
-/

import RagFlow.Ingestion.Parents
import RagFlow.Math.ExchangeSort
import RagFlow.Math.Groups

namespace RagFlow.Retrieval.Children

open RagFlow.Math
open RagFlow.Ingestion (isSpace mean)

/-! ## Chunks and rows -/

/-- The value of a field. -/
inductive Value where
  | nil
  | text (s : String)
  | texts (ks : List String)
  | number (x : ℚ)
  | vector (xs : List ℚ)
  | positions (ps : List (List ℤ))
deriving DecidableEq

/-- A chunk as `retrieval` builds it, or an entry in place of some. -/
structure Hit where
  chunkId : String
  contentLtks : String
  contentWithWeight : String
  docId : String
  docnmKwd : Value
  kbId : String
  importantKwd : List String
  tagKwd : Option (List String)
  imageId : Value
  similarity : ℚ
  vectorSimilarity : ℚ
  termSimilarity : ℚ
  vector : Value
  positions : Value
  docTypeKwd : Value
  momId : Option String
  rowId : Option String
  highlight : Option String
deriving DecidableEq

/-- The keys of a chunk with their values. -/
def Hit.items (ck : Hit) : List (String × Value) :=
  let text (s : Option String) := (s.map Value.text).getD .nil
  [("chunk_id", .text ck.chunkId), ("content_ltks", .text ck.contentLtks),
    ("content_with_weight", .text ck.contentWithWeight), ("doc_id", .text ck.docId),
    ("docnm_kwd", ck.docnmKwd), ("kb_id", .text ck.kbId),
    ("important_kwd", .texts ck.importantKwd),
    ("tag_kwd", (ck.tagKwd.map Value.texts).getD .nil), ("image_id", ck.imageId),
    ("similarity", .number ck.similarity), ("vector_similarity", .number ck.vectorSimilarity),
    ("term_similarity", .number ck.termSimilarity), ("vector", ck.vector),
    ("positions", ck.positions), ("doc_type_kwd", ck.docTypeKwd), ("mom_id", text ck.momId),
    ("row_id", text ck.rowId), ("highlight", text ck.highlight)]

/-- The vector under a key that ends in `_vec`. -/
def Hit.vec? (ck : Hit) : Option (List ℚ) :=
  ck.items.findSome? fun e =>
    if "_vec".toList <:+ e.1.toList then
      match e.2 with
      | .vector xs => some xs
      | _ => none
    else none

/-- The row of a parent. -/
structure Row where
  contentWithWeight : String
  docId : String
  kbId : String
  docnmKwd : Option Value
  imgId : Option Value
  positionInt : Option Value
  docTypeKwd : Option Value

/-- What a document store finds by index, datasets and id. A dataset without a name has no rows. -/
structure DocStore where
  get : String → List String → String → Option Row
  nameless : ∀ index kbIds id, get index (kbIds.filter (· ≠ "")) id = get index kbIds id

def indexName (uid : String) : String := "ragflow_" ++ uid

/-! ## Python -/

namespace Python

inductive Error where
  | indexError
  | typeError

/-- `isinstance(mom_id, str) and mom_id.strip()`. -/
def mom? (ck : Hit) : Option String :=
  ck.momId.filter fun id => id.toList.any fun c => !isSpace c

/-- Takes the chunks with a parent out of the list from `i` on. -/
def walk (chunks : List Hit) (i : ℕ) (momChunks : Dict String (List Hit)) :
    List Hit × Dict String (List Hit) :=
  if h : i < chunks.length then
    match mom? chunks[i] with
    | none => walk chunks (i + 1) momChunks
    | some id => walk (chunks.eraseIdx i) i (momChunks.gather (id, chunks[i]))
  else (chunks, momChunks)
termination_by chunks.length - i
decreasing_by
  · omega
  · rw [List.length_eraseIdx_of_lt h]
    omega

/-- The entry for a parent, with a vector of zeros. -/
def entry (id : String) (cks : List Hit) (chunk : Row) (vectorSize : ℕ) : Hit where
  chunkId := id
  contentLtks := " ".intercalate (cks.map Hit.contentLtks)
  contentWithWeight := chunk.contentWithWeight
  docId := chunk.docId
  docnmKwd := chunk.docnmKwd.getD (.text "")
  kbId := chunk.kbId
  importantKwd := cks.flatMap Hit.importantKwd
  tagKwd := none
  imageId := chunk.imgId.getD (.text "")
  similarity := mean (cks.map Hit.similarity)
  vectorSimilarity := mean (cks.map Hit.similarity)
  termSimilarity := mean (cks.map Hit.similarity)
  vector := .vector (List.replicate vectorSize 0)
  positions := chunk.positionInt.getD (.positions [])
  docTypeKwd := chunk.docTypeKwd.getD (.text "")
  momId := none
  rowId := none
  highlight := none

/-- The entry for one parent is appended; the state has the size of the vectors. -/
def addParent (store : DocStore) (idxNms : List String) (s : List Hit × ℕ)
    (e : String × List Hit) : Except Error (List Hit × ℕ) :=
  match idxNms with
  | [] => .error .indexError
  | idxNm :: _ => match store.get idxNm (e.2.map Hit.kbId) e.1 with
    | none => .error .typeError
    | some chunk =>
      let d := entry e.1 e.2 chunk s.2
      match e.2.head?.bind Hit.vec? with
      | none => .ok (s.1 ++ [d], s.2)
      | some xs => .ok (s.1 ++ [{ d with vector := .vector xs }], xs.length)

/-- `retrieval_by_children`. -/
def retrievalByChildren (store : DocStore) (chunks : List Hit) (tenantIds : List String) :
    Except Error (List Hit) :=
  if chunks.isEmpty then .ok []
  else
    let idxNms := tenantIds.map indexName
    let (chunks, momChunks) := walk chunks 0 .empty
    if momChunks.entries.isEmpty then .ok chunks
    else do
      let (chunks, _) ← momChunks.entries.foldlM (addParent store idxNms) (chunks, 1024)
      return chunks.mergeSort fun a b => a.similarity * -1 ≤ b.similarity * -1

end Python

/-! ## Go -/

namespace Go

def mom? (ck : Hit) : Option String := ck.momId.filter fun id => id ≠ ""

/-- The chunks by the id of their parent. -/
def momChunks (chunks : List Hit) : Dict String (List Hit) :=
  groupByKey (chunks.filterMap fun ck => (mom? ck).map fun id => (id, ck))

/-- The datasets of some children. -/
def kbIds (cks : List Hit) : List String :=
  let kbIds := (cks.map Hit.kbId).filter (· ≠ "")
  if kbIds.isEmpty then [""] else kbIds

/-- The entry for a parent, with a vector of zeros. -/
def aggregated (id : String) (cks : List Hit) (parent : Row) (vectorSize : ℕ) : Hit :=
  let avgSim := (cks.foldl (fun totalSim ck => totalSim + ck.similarity) (0 : ℚ)) / cks.length
  { chunkId := id
    contentLtks := " ".intercalate (cks.map Hit.contentLtks)
    contentWithWeight := parent.contentWithWeight
    docId := parent.docId
    docnmKwd := parent.docnmKwd.getD .nil
    kbId := parent.kbId
    importantKwd := cks.foldl (fun all ck => all ++ ck.importantKwd) []
    tagKwd := none
    imageId := parent.imgId.getD .nil
    similarity := avgSim
    vectorSimilarity := avgSim
    termSimilarity := avgSim
    vector := .vector (List.replicate vectorSize 0)
    positions := parent.positionInt.getD .nil
    docTypeKwd :=
      let docTypeKwd := parent.docTypeKwd.getD .nil
      if docTypeKwd = .text "" then .texts [] else docTypeKwd
    momId := none
    rowId := none
    highlight := none }

/-- The entry for one parent is appended if the parent is there. -/
def addParent (store : DocStore) (indexName : String) (groups : Dict String (List Hit))
    (s : List Hit × ℕ) (momId : String) : List Hit × ℕ :=
  let childList := (groups.get? momId).getD []
  match store.get indexName (kbIds childList) momId with
  | none => s
  | some parent =>
    let d := aggregated momId childList parent s.2
    match childList.findSome? Hit.vec? with
    | none => (s.1 ++ [d], s.2)
    | some xs => (s.1 ++ [{ d with vector := .vector xs }], xs.length)

/-- `RetrievalByChildren`, where the range over the map of the groups takes its keys in the
order `order`. -/
def retrievalByChildren (store : DocStore) (chunks : List Hit) (tenantIds order : List String) :
    List Hit :=
  match tenantIds.map indexName with
  | [] => chunks
  | index :: _ =>
    if chunks.isEmpty then chunks
    else if (momChunks chunks).entries.isEmpty then chunks
    else
      let remaining := chunks.filter fun ck => (mom? ck).isNone
      let all := (order.foldl (addParent store index (momChunks chunks)) (remaining, 1024)).1
      exchangeSort (fun a b => b.similarity < a.similarity) all

end Go

/-! ## What should come out -/

/-- The chunks with a parent. -/
def childrenOf (chunks : List Hit) (id : String) : List Hit :=
  chunks.filter fun ck => Go.mom? ck = some id

/-- An entry has the row of a parent and the mean of its children. -/
structure StandsFor (store : DocStore) (tenantIds : List String) (chunks : List Hit) (d : Hit) :
    Prop where
  row : ∃ tenantId ∈ tenantIds, ∃ row,
    store.get (indexName tenantId) ((childrenOf chunks d.chunkId).map Hit.kbId) d.chunkId =
      some row ∧
      d.contentWithWeight = row.contentWithWeight ∧ d.docId = row.docId
  mean : d.similarity = mean ((childrenOf chunks d.chunkId).map Hit.similarity)

/-- All chunks without a parent are there and one entry for each parent. -/
def Replaces (store : DocStore) (tenantIds : List String) (chunks out : List Hit) : Prop :=
  ∃ parents : List Hit, out.Perm (chunks.filter (fun ck => (Go.mom? ck).isNone) ++ parents) ∧
    (parents.map Hit.chunkId).Nodup ∧
    (∀ id, id ∈ parents.map Hit.chunkId ↔ ∃ ck ∈ chunks, Go.mom? ck = some id) ∧
    ∀ d ∈ parents, StandsFor store tenantIds chunks d

/-- The row of a parent has all fields that are taken from it, and it has a type. -/
structure Row.Complete (row : Row) : Prop where
  docnmKwd : row.docnmKwd.isSome
  imgId : row.imgId.isSome
  positionInt : row.positionInt.isSome
  docTypeKwd : ∃ v, row.docTypeKwd = some v ∧ v ≠ .text ""

section Groups

variable {chunks : List Hit} {id : String}

end Groups

/-! ## One parent -/

section Entries

variable {store : DocStore} {idx id : String} {cks : List Hit} {row : Row}

/-- The entry for a parent, if the index has its row. -/
def found (store : DocStore) (idx : String) (entryOf : String → List Hit → Row → ℕ → Hit)
    (id : String) (cks : List Hit) : Option Hit :=
  (store.get idx (cks.map Hit.kbId) id).map fun row => entryOf id cks row 1024

end Entries

/-! ## Whole lists -/

section Lists

variable {store : DocStore} {chunks : List Hit} {tenantIds : List String}

/-- The chunks without a parent. -/
def remaining (chunks : List Hit) : List Hit := chunks.filter fun ck => (Go.mom? ck).isNone

/-- The entries for all parents, if the index has their rows. -/
def entries (store : DocStore) (idx : String) (chunks : List Hit) : Option (List Hit) :=
  (Go.momChunks chunks).keys.mapM fun id => found store idx Python.entry id (childrenOf chunks id)

end Lists

/-! ## A parent of another tenant -/

end RagFlow.Retrieval.Children
