/-
# Chunks and their parents

A child chunk carries the id of its parent, by which `retrieval_by_children` looks the
parent up. That id is a hash of the text of the parent alone, while the other ids hash
the document as well. So the parents of two documents can be one row; the row says which
document wrote it last, and it goes with that document.
-/

import RagFlow.Ingestion.ChunkStore
import RagFlow.Retrieval.Pagination
import Mathlib.Logic.Relation

namespace RagFlow.Ingestion

open RagFlow.Math
open RagFlow.Retrieval (RankedChunk)

/-! ## `retrieval_by_children` -/

/-- `str.isspace` of one character. -/
def isSpace (c : Char) : Bool :=
  let n := c.toNat
  (9 ≤ n && n ≤ 13) || (28 ≤ n && n ≤ 32) || (0x2000 ≤ n && n ≤ 0x200a) ||
    n ∈ [0x85, 0xa0, 0x1680, 0x2028, 0x2029, 0x202f, 0x205f, 0x3000]

/-- The chunk has a `mom_id` that is not blank. -/
def isChild (ck : RankedChunk ℚ) : Bool := ck.momId.toList.any fun c => !isSpace c

/-- `None` has been subscripted. -/
structure TypeError where

def mean (xs : List ℚ) : ℚ := xs.sum / xs.length

/-- The entry for a parent with some of its children. -/
def parentEntry (store : DocStore) (id : String) (cks : List (RankedChunk ℚ)) :
    Except TypeError (RankedChunk ℚ) :=
  match store.get? id with
  | none => .error {}
  | some chunk => .ok {
      chunkId := id
      contentLtks := " ".intercalate (cks.map fun ck => ck.contentLtks)
      contentWithWeight := chunk.contentWithWeight
      docId := chunk.docId
      docnmKwd := chunk.docnmKwd.getD ""
      kbId := chunk.kbId
      importantKwd := cks.flatMap fun ck => ck.importantKwd
      tagKwd := []
      imageId := chunk.imgId.getD ""
      similarity := mean (cks.map fun ck => ck.similarity)
      vectorSimilarity := mean (cks.map fun ck => ck.similarity)
      termSimilarity := mean (cks.map fun ck => ck.similarity)
      docTypeKwd := chunk.docTypeKwd.getD ""
      momId := "" }

/-- `retrieval_by_children`. -/
def retrievalByChildren (store : DocStore) (chunks : List (RankedChunk ℚ)) :
    Except TypeError (List (RankedChunk ℚ)) :=
  let children := chunks.filter isChild
  if children.isEmpty then .ok chunks
  else do
    let parents ← (children.map fun ck => ck.momId).eraseDups.mapM fun id =>
      parentEntry store id (children.filter fun ck => ck.momId = id)
    let others := chunks.filter fun ck => !isChild ck
    return (others ++ parents).mergeSort fun a b => b.similarity ≤ a.similarity

/-! ## What should hold of the store -/

/-- The parent of a chunk is there, with its text and of its document. -/
def HasParent (store : DocStore) (child : Row) : Prop :=
  ∀ id, child.momId = some id →
    ∃ p, store.get? id = some p ∧ p.contentWithWeight = child.momText ∧ p.docId = child.docId

/-- The rows of one dataset, all with their parents. -/
structure KeepsParents (kbId : String) (store : DocStore) : Prop where
  dataset : ∀ k row, store.get? k = some row → row.kbId = kbId
  parents : ∀ k row, store.get? k = some row → HasParent store row

/-- A row that can be stored under its id as far as `child` is concerned: it is not that
of its parent, or it is as the parent should be. -/
def Fits (row child : Row) : Prop :=
  child.momId = some row.id → row.contentWithWeight = child.momText ∧ row.docId = child.docId

/-- What a call has to keep in mind: the children that are stored, and its own chunks. -/
def IsAround (hash : String → String) (store : DocStore) (chunks : List Chunk) (child : Row) :
    Prop :=
  (∃ k, store.get? k = some child) ∨ ∃ ck ∈ chunks, child = ck.toRow hash

/-- No chunk and no parent text comes under the id of the parent of some other chunk with
another text or document, and a parent that is rejected is there already. -/
structure InsertFits (env : TaskEnv) (store : DocStore) (chunks : List Chunk) : Prop where
  texts : ∀ ck ∈ chunks, ck.momText ≠ "" → ∀ child, IsAround env.hash store chunks child →
    child.momId = some (env.hash ck.momText) →
      ck.momText = child.momText ∧ ck.docId = child.docId
  ids : ∀ ck ∈ chunks, ∀ child, IsAround env.hash store chunks child →
    Fits (ck.toRow env.hash) child
  accepted : ∀ m ∈ mothers env.hash chunks, env.rejects m = true →
    ∃ p, store.get? m.id = some p ∧ p.contentWithWeight = m.contentWithWeight ∧
      p.docId = m.docId

/-- A call of `insert_chunks`, which may stop early, or the deletion of a document. -/
inductive StoreStep (hash : String → String) (kbId : String) : DocStore → DocStore → Prop
  | insert (env : TaskEnv) (chunks : List Chunk) (s : TaskState) (hhash : env.hash = hash)
      (hkb : env.datasetId = kbId) (hfits : InsertFits env s.store chunks) :
      StoreStep hash kbId s.store (left (insertChunks env chunks s)).store
  | delete (docId : String) (store : DocStore) :
      StoreStep hash kbId store (deleteDoc store docId kbId)

/-! ## Writing rows that fit -/

variable {store : DocStore} {rows : List Row} {child : Row} {kbId : String}

theorem get?_writeAll {k : String} {row : Row} (h : (writeAll store rows).get? k = some row) :
    store.get? k = some row ∨ row ∈ rows ∧ row.id = k := by
  induction rows generalizing store with
  | nil => exact .inl h
  | cons first rows ih =>
      rcases ih h with hfirst | ⟨hrow, hid⟩
      · rw [get?_write] at hfirst
        split_ifs at hfirst with hk
        · obtain rfl := Option.some.inj hfirst
          exact .inr ⟨List.mem_cons_self, hk.symm⟩
        · exact .inl hfirst
      · exact .inr ⟨List.mem_cons_of_mem first hrow, hid⟩

/-- Under the id of a written row stands the one written last. -/
theorem exists_get?_writeAll (store : DocStore) {row : Row} (h : row ∈ rows) :
    ∃ last ∈ rows, last.id = row.id ∧ (writeAll store rows).get? row.id = some last := by
  induction rows using List.reverseRecOn with
  | nil => cases h
  | append_singleton rows final ih =>
      rw [writeAll_append]
      show ∃ last ∈ rows ++ [final], last.id = row.id ∧
        (write (writeAll store rows) final).get? row.id = some last
      rw [get?_write]
      by_cases hid : row.id = final.id
      · exact ⟨final, by simp, hid.symm, if_pos hid⟩
      · have hrow : row ∈ rows := by
          rcases List.mem_append.mp h with hrow | hfinal
          · exact hrow
          · rw [List.mem_singleton.mp hfinal] at hid
            exact absurd rfl hid
        obtain ⟨last, hlast, hlastId, hget⟩ := ih hrow
        exact ⟨last, List.mem_append_left _ hlast, hlastId, by rw [if_neg hid, hget]⟩

/-- Rows that fit do not take the parent away. -/
theorem HasParent.writeAll (h : HasParent store child) (hfits : ∀ row ∈ rows, Fits row child) :
    HasParent (writeAll store rows) child := by
  intro id hid
  obtain ⟨p, hp, hparent⟩ := h id hid
  induction rows using List.reverseRecOn with
  | nil => exact ⟨p, hp, hparent⟩
  | append_singleton rows row ih =>
      obtain ⟨q, hq, hsame⟩ := ih fun r hr => hfits r (List.mem_append_left _ hr)
      rw [writeAll_append]
      show ∃ p, (write (RagFlow.Ingestion.writeAll store rows) row).get? id = some p ∧ _
      rw [get?_write]
      by_cases hrow : id = row.id
      · rw [if_pos hrow]
        exact ⟨row, rfl, hfits row (by simp) (hrow ▸ hid)⟩
      · rw [if_neg hrow]
        exact ⟨q, hq, hsame⟩

/-! ## One step -/

section Insert

variable {env : TaskEnv} {chunks : List Chunk}

theorem fits_mother (hfits : InsertFits env store chunks)
    (hchild : IsAround env.hash store chunks child) {row : Row}
    (hrow : row ∈ env.stored (mothers env.hash chunks)) : Fits row child := by
  obtain ⟨m, hm, -, rfl⟩ := mem_stored.mp hrow
  obtain ⟨ck, hck, hmom, rfl⟩ := mem_mothersFrom hm
  exact hfits.texts ck hck hmom child hchild

theorem fits_chunk (hfits : InsertFits env store chunks)
    (hchild : IsAround env.hash store chunks child) {row : Row}
    (hrow : row ∈ env.stored (chunks.map (Chunk.toRow env.hash))) : Fits row child := by
  obtain ⟨doc, hdoc, -, rfl⟩ := mem_stored.mp hrow
  obtain ⟨ck, hck, rfl⟩ := List.mem_map.mp hdoc
  exact hfits.ids ck hck child hchild

/-- Once the parents are written, every chunk of the call has its parent. -/
theorem hasParent_mothers (hfits : InsertFits env store chunks) {ck : Chunk} (hck : ck ∈ chunks) :
    HasParent (writeAll store (env.stored (mothers env.hash chunks))) (ck.toRow env.hash) := by
  have haround : IsAround env.hash store chunks (ck.toRow env.hash) := .inr ⟨ck, hck, rfl⟩
  intro id hid
  have hmom : ck.momText ≠ "" := by
    intro hnone
    simp [Chunk.toRow, hnone] at hid
  have hhash : env.hash ck.momText = id := by simpa [Chunk.toRow, hmom] using hid
  obtain ⟨m, hm, hmid⟩ := exists_mothersFrom hck hmom (List.not_mem_nil (a := env.hash ck.momText))
  rw [hhash] at hmid
  cases hrejects : env.rejects m with
  | false =>
      have hstored : ({ m with kbId := env.datasetId } : Row) ∈
          env.stored (mothers env.hash chunks) := mem_stored.mpr ⟨m, hm, hrejects, rfl⟩
      obtain ⟨last, hlast, hlastId, hget⟩ := exists_get?_writeAll store hstored
      have hlastId : last.id = id := hlastId.trans hmid
      rw [show ({ m with kbId := env.datasetId } : Row).id = id from hmid] at hget
      exact ⟨last, hget, fits_mother hfits haround hlast (hlastId ▸ hid)⟩
  | true =>
      -- The parent that was there before is as this one.
      obtain ⟨p, hp, htext, hdoc⟩ := hfits.accepted m hm hrejects
      obtain ⟨ck', hck', hmom', rfl⟩ := mem_mothersFrom hm
      have hsame := hfits.texts ck' hck' hmom' _ haround (by rw [hid, ← hmid]; rfl)
      have hbefore : HasParent store (ck.toRow env.hash) := by
        intro id' hid'
        obtain rfl := Option.some.inj (hid.symm.trans hid')
        rw [hmid] at hp
        exact ⟨p, hp, htext.trans hsame.1, hdoc.trans hsame.2⟩
      exact hbefore.writeAll (fun row hrow => fits_mother hfits haround hrow) id hid

/-- A list that begins another one ends in its first or in its second part. -/
theorem ends_in_part {α : Type*} {l a b : List α} (h : l <+: a ++ b) :
    l <+: a ∨ ∃ b', b' <+: b ∧ l = a ++ b' := by
  rcases List.prefix_or_prefix_of_prefix h (List.prefix_append a b) with hshort | ⟨b', rfl⟩
  · exact .inl hshort
  · exact .inr ⟨b', (List.prefix_append_right_inj a).mp h, rfl⟩

/-- However early the call stops, all chunks have their parents. -/
theorem keepsParents_insert (hstore : KeepsParents env.datasetId store)
    (hfits : InsertFits env store chunks) {written : List Row}
    (hwritten : written <+: planned env chunks) :
    KeepsParents env.datasetId (writeAll store written) := by
  have hall : ∀ row ∈ written, row ∈ env.stored (mothers env.hash chunks) ∨
      row ∈ env.stored (chunks.map (Chunk.toRow env.hash)) := by
    intro row hrow
    exact List.mem_append.mp (hwritten.subset hrow)
  have hfit : ∀ row ∈ written, ∀ child, IsAround env.hash store chunks child → Fits row child := by
    intro row hrow child hchild
    rcases hall row hrow with hm | hc
    · exact fits_mother hfits hchild hm
    · exact fits_chunk hfits hchild hc
  constructor
  · intro k row hget
    rcases get?_writeAll hget with hold | ⟨hrow, -⟩
    · exact hstore.dataset k row hold
    · rcases hall row hrow with hm | hc
      · obtain ⟨m, -, -, rfl⟩ := mem_stored.mp hm
        rfl
      · obtain ⟨doc, -, -, rfl⟩ := mem_stored.mp hc
        rfl
  · intro k row hget
    rcases get?_writeAll hget with hold | ⟨hrow, -⟩
    · exact (hstore.parents k row hold).writeAll fun r hr => hfit r hr row (.inl ⟨k, hold⟩)
    · rcases ends_in_part hwritten with hmoms | ⟨rest, hrest, rfl⟩
      · obtain ⟨m, hm, -, rfl⟩ := mem_stored.mp (hmoms.subset hrow)
        obtain ⟨ck, -, -, rfl⟩ := mem_mothersFrom hm
        intro id hid
        cases hid
      · rcases List.mem_append.mp hrow with hm | hc
        · obtain ⟨m, hmom, -, rfl⟩ := mem_stored.mp hm
          obtain ⟨ck, -, -, rfl⟩ := mem_mothersFrom hmom
          intro id hid
          cases hid
        · obtain ⟨doc, hdoc, -, rfl⟩ := mem_stored.mp (hrest.subset hc)
          obtain ⟨ck, hck, rfl⟩ := List.mem_map.mp hdoc
          rw [writeAll_append]
          have hparent := (hasParent_mothers hfits hck).writeAll fun r hr =>
            fits_chunk hfits (.inr ⟨ck, hck, rfl⟩) (hrest.subset hr)
          exact hparent

end Insert

/-- Deleting a document takes the parents of its own chunks only. -/
theorem keepsParents_delete (h : KeepsParents kbId store) (docId : String) :
    KeepsParents kbId (deleteDoc store docId kbId) := by
  have hkept : ∀ k row, (deleteDoc store docId kbId).get? k = some row ↔
      store.get? k = some row ∧ ¬ (row.docId = docId ∧ row.kbId = kbId) := by
    intro k row
    rw [deleteDoc, Dict.get?_filter, Option.filter_eq_some_iff, Bool.not_eq_true',
      decide_eq_false_iff_not]
  constructor
  · intro k row hget
    exact h.dataset k row ((hkept k row).mp hget).1
  · intro k row hget id hid
    obtain ⟨hrow, hother⟩ := (hkept k row).mp hget
    obtain ⟨p, hp, htext, hdoc⟩ := h.parents k row hrow id hid
    refine ⟨p, (hkept id p).mpr ⟨hp, ?_⟩, htext, hdoc⟩
    rintro ⟨hdel, -⟩
    exact hother ⟨hdoc ▸ hdel, h.dataset k row hrow⟩

theorem keepsParents_step {hash : String → String} {t : DocStore}
    (h : StoreStep hash kbId store t) (hstore : KeepsParents kbId store) : KeepsParents kbId t := by
  cases h with
  | insert env chunks s hhash hkb hfits =>
      subst hkb
      have hwrote := insertChunks_leaves env chunks s
      have hend : WroteSome (planned env chunks) s (left (insertChunks env chunks s)) :=
        (hwrote.mono (fun _ hall => hall.some) fun _ hsome => hsome).at_left
      obtain ⟨written, hwritten, hstores⟩ := hend
      rw [hstores.store]
      exact keepsParents_insert hstore hfits hwritten
  | delete docId => exact keepsParents_delete hstore docId

/-! ## What a retrieval finds -/

/-- A hit of a retrieval, by the row it is read from. -/
structure ReadFrom (store : DocStore) (row : Row) (ck : RankedChunk ℚ) : Prop where
  stored : ∃ k, store.get? k = some row
  docId : ck.docId = row.docId
  momId : ck.momId = row.momId.getD ""

/-- Every child gives way to a parent of its own document, with the text that its parent
has; the other chunks stay, and nothing else comes in. -/
structure Replaces (store : DocStore) (chunks out : List (RankedChunk ℚ)) : Prop where
  children : ∀ ck ∈ chunks, isChild ck = true → ∀ row, ReadFrom store row ck →
    ∃ d ∈ out, d.chunkId = ck.momId ∧ d.docId = ck.docId ∧ d.contentWithWeight = row.momText
  others : ∀ ck ∈ chunks, isChild ck = false → ck ∈ out
  only : ∀ d ∈ out, d ∈ chunks ∧ isChild d = false ∨
    ∃ ck ∈ chunks, isChild ck = true ∧ d.chunkId = ck.momId ∧ d.docId = ck.docId

variable {ck : RankedChunk ℚ} {row : Row} {cks chunks : List (RankedChunk ℚ)}

/-- The entry for the parent of a stored child. -/
theorem parentEntry_ok (h : KeepsParents kbId store) (hread : ReadFrom store row ck)
    (hchild : isChild ck = true) (cks : List (RankedChunk ℚ)) :
    ∃ d, parentEntry store ck.momId cks = .ok d ∧ d.chunkId = ck.momId ∧ d.docId = ck.docId ∧
      d.contentWithWeight = row.momText := by
  have hmom : row.momId = some ck.momId := by
    rw [hread.momId]
    cases hrow : row.momId with
    | none =>
        rw [isChild, hread.momId, hrow] at hchild
        cases hchild
    | some id => rfl
  obtain ⟨k, hk⟩ := hread.stored
  obtain ⟨p, hp, htext, hdoc⟩ := h.parents k row hk ck.momId hmom
  rw [parentEntry, hp]
  exact ⟨_, rfl, rfl, hdoc.trans hread.docId.symm, htext⟩

/-- Where all parents are there, a retrieval does not fail, and replaces the children. -/
theorem retrievalByChildren_replaces (h : KeepsParents kbId store)
    (hread : ∀ ck ∈ chunks, ∃ row, ReadFrom store row ck) :
    ∃ out, retrievalByChildren store chunks = .ok out ∧ Replaces store chunks out := by
  rw [retrievalByChildren]
  by_cases hnone : (chunks.filter isChild).isEmpty
  · have hno : ∀ ck ∈ chunks, isChild ck = false := by
      simpa [List.filter_eq_nil_iff] using hnone
    rw [if_pos hnone]
    refine ⟨chunks, rfl, ?_, fun ck hck _ => hck, fun d hd => .inl ⟨hd, hno d hd⟩⟩
    intro ck hck hchild
    rw [hno ck hck] at hchild
    cases hchild
  · rw [if_neg hnone]
    let entry (id : String) : Except TypeError (RankedChunk ℚ) :=
      parentEntry store id ((chunks.filter isChild).filter fun ck => ck.momId = id)
    have hids : ∀ id, id ∈ ((chunks.filter isChild).map fun ck => ck.momId).eraseDups ↔
        ∃ ck ∈ chunks, isChild ck = true ∧ ck.momId = id := by
      intro id
      simp [and_assoc]
    have hentries : ∀ id ∈ ((chunks.filter isChild).map fun ck => ck.momId).eraseDups,
        ∃ d, entry id = .ok d := by
      intro id hid
      obtain ⟨ck, hck, hchild, rfl⟩ := (hids id).mp hid
      obtain ⟨row, hrow⟩ := hread ck hck
      obtain ⟨d, hd, -⟩ := parentEntry_ok h hrow hchild _
      exact ⟨d, hd⟩
    obtain ⟨parents, hparents, hmem⟩ := exists_mapM_ok hentries
    refine ⟨_, by rw [hparents]; rfl, ?_⟩
    have hout : ∀ d, d ∈ ((chunks.filter fun ck => !isChild ck) ++ parents).mergeSort
        (fun a b => b.similarity ≤ a.similarity) ↔
        (d ∈ chunks ∧ isChild d = false) ∨ ∃ ck ∈ chunks, isChild ck = true ∧
          entry ck.momId = .ok d := by
      intro d
      rw [List.mem_mergeSort, List.mem_append, hmem, List.mem_filter, Bool.not_eq_true']
      refine or_congr_right ?_
      constructor
      · rintro ⟨id, hid, hd⟩
        obtain ⟨ck, hck, hchild, rfl⟩ := (hids id).mp hid
        exact ⟨ck, hck, hchild, hd⟩
      · rintro ⟨ck, hck, hchild, hd⟩
        exact ⟨ck.momId, (hids _).mpr ⟨ck, hck, hchild, rfl⟩, hd⟩
    constructor
    · intro ck hck hchild row hrow
      obtain ⟨d, hd, hspec⟩ := parentEntry_ok h hrow hchild
        ((chunks.filter isChild).filter fun other => other.momId = ck.momId)
      exact ⟨d, (hout d).mpr (.inr ⟨ck, hck, hchild, hd⟩), hspec⟩
    · intro ck hck hother
      exact (hout ck).mpr (.inl ⟨hck, hother⟩)
    · intro d hd
      rcases (hout d).mp hd with hother | ⟨ck, hck, hchild, hentry⟩
      · exact .inl hother
      · obtain ⟨row, hrow⟩ := hread ck hck
        obtain ⟨d', hd', hid, hdoc, -⟩ := parentEntry_ok h hrow hchild
          ((chunks.filter isChild).filter fun other => other.momId = ck.momId)
        obtain rfl := Except.ok.inj (hentry.symm.trans hd')
        exact .inr ⟨ck, hck, hchild, hid, hdoc⟩

/-! ## Runs -/

theorem keepsParents_empty (kbId : String) : KeepsParents kbId Dict.empty where
  dataset k row h := by cases h
  parents k row h := by cases h

/-- In every run whose calls insert only what fits, every stored child has its parent, and
a retrieval replaces it by this one. -/
theorem parents_are_found {hash : String → String} {t : DocStore}
    (hrun : Relation.ReflTransGen (StoreStep hash kbId) store t)
    (hstore : KeepsParents kbId store) :
    KeepsParents kbId t ∧ ∀ chunks, (∀ ck ∈ chunks, ∃ row, ReadFrom t row ck) →
      ∃ out, retrievalByChildren t chunks = .ok out ∧ Replaces t chunks out := by
  have hkeeps : KeepsParents kbId t := by
    induction hrun with
    | refl => exact hstore
    | tail _ hstep ih => exact keepsParents_step hstep ih
  exact ⟨hkeeps, fun chunks hread => retrievalByChildren_replaces hkeeps hread⟩

/-- The same words below the same heading, in the documents `d1` and `d2`. -/
def termsChunk (id docId : String) : Chunk where
  id
  contentWithWeight := "Terms"
  docId
  mom := some "Chapter one"

def termsEnv : TaskEnv where
  hash text := if text = "Chapter one" then "8b02665baa2d3918" else text
  bulkSize := 4
  datasetId := "kb"
  rejects _ := false
  canceled _ := false

/-- The store after the chunk is inserted for one document. -/
def termsStore : DocStore :=
  (left (insertChunks termsEnv [termsChunk "73d3f92321b4ea67" "d1"] { store := Dict.empty })).store

theorem parents_are_found_terms : KeepsParents "kb" termsStore := by
  have hfits : InsertFits termsEnv Dict.empty [termsChunk "73d3f92321b4ea67" "d1"] := by
    have haround : ∀ child, IsAround termsEnv.hash Dict.empty [termsChunk "73d3f92321b4ea67" "d1"]
        child → child = (termsChunk "73d3f92321b4ea67" "d1").toRow termsEnv.hash := by
      rintro child (⟨k, hk⟩ | ⟨ck, hck, rfl⟩)
      · cases hk
      · rw [List.mem_singleton.mp hck]
    constructor
    · intro ck hck _ child hchild _
      rw [haround child hchild, List.mem_singleton.mp hck]
      exact ⟨rfl, rfl⟩
    · intro ck hck child hchild hid
      rw [haround child hchild, List.mem_singleton.mp hck] at hid
      exact absurd hid (by decide)
    · intro m _ hrejects
      cases hrejects
  exact (parents_are_found (.single (.insert termsEnv _ { store := Dict.empty } rfl rfl hfits))
    (keepsParents_empty "kb")).1

/-- Inserting it for the second document takes the parent over, and deleting that document
takes it away from the first. -/
theorem deleted_parent_is_missed :
    ¬ KeepsParents "kb" (deleteDoc (left (insertChunks termsEnv
      [termsChunk "f93dd39df09ca501" "d2"] { store := termsStore })).store "d2" "kb") := by
  intro h
  have hchild : ∃ row, (deleteDoc (left (insertChunks termsEnv
      [termsChunk "f93dd39df09ca501" "d2"] { store := termsStore })).store "d2" "kb").get?
        "73d3f92321b4ea67" = some row ∧ row.momId = some "8b02665baa2d3918" := ⟨_, rfl, rfl⟩
  obtain ⟨row, hrow, hmom⟩ := hchild
  obtain ⟨p, hp, -⟩ := h.parents _ row hrow _ hmom
  have hgone : (deleteDoc (left (insertChunks termsEnv
      [termsChunk "f93dd39df09ca501" "d2"] { store := termsStore })).store "d2" "kb").get?
        "8b02665baa2d3918" = none := rfl
  rw [hgone] at hp
  cases hp

end RagFlow.Ingestion
