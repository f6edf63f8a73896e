/-
# Inserting chunks into the document store

`insert_chunks` writes the chunks of a task in bulks, and before them a row for every
text that is the parent of some of them. A row is stored under its id, so a later one
with the same id replaces it. Between the bulks the task may find itself canceled, and a
chunk that the store rejects ends the call. After each bulk the task records the ids of
the chunks written so far.
-/

import RagFlow.Math.Dict
import RagFlow.Math.Except
import RagFlow.Math.Window

namespace RagFlow.Ingestion

open RagFlow.Math

/-! ## Chunks and rows -/

/-- A chunk as it is built from a document. A list of pages or of tops that is there is
not empty. -/
structure Chunk where
  id : String
  contentWithWeight : String
  docId : String
  docnmKwd : Option String := none
  imgId : Option String := none
  docTypeKwd : Option String := none
  availableInt : Option ℕ := none
  positionInt : List (List ℤ) := []
  pageNumInt : Option (ℕ × List ℕ) := none
  topInt : Option (ℕ × List ℕ) := none
  tocKwd : Option String := none
  mom : Option String := none
  momWithWeight : Option String := none

/-- A row of the store. Inserting it into a dataset sets `kb_id`. -/
structure Row extends Chunk where
  kbId : String := ""
  momId : Option String := none

/-- The text of the parent, empty for a chunk without one. -/
def Chunk.momText (ck : Chunk) : String :=
  match ck.mom.filter (· ≠ "") with
  | some mom => mom
  | none => ck.momWithWeight.getD ""

/-- The chunk with the id of its parent. -/
def Chunk.toRow (hash : String → String) (ck : Chunk) : Row where
  toChunk := ck
  momId := if ck.momText = "" then none else some (hash ck.momText)

/-- The parent: a copy of the chunk from which all but a few fields are removed. -/
def Chunk.mother (ck : Chunk) (id : String) : Row where
  id
  contentWithWeight := ck.momText
  docId := ck.docId
  docnmKwd := ck.docnmKwd
  availableInt := some 0
  positionInt := ck.positionInt
  pageNumInt := ck.pageNumInt
  topInt := ck.topInt

/-- The parents of the chunks, each id once. -/
def mothersFrom (hash : String → String) : List String → List Chunk → List Row
  | _, [] => []
  | motherIds, ck :: chunks =>
    if ck.momText = "" then mothersFrom hash motherIds chunks
    else if hash ck.momText ∈ motherIds then mothersFrom hash motherIds chunks
    else ck.mother (hash ck.momText) ::
      mothersFrom hash (hash ck.momText :: motherIds) chunks

def mothers (hash : String → String) (chunks : List Chunk) : List Row :=
  mothersFrom hash [] chunks

/-! ## The store -/

/-- The rows by their ids. -/
abbrev DocStore := Dict String Row

/-- A row replaces the one with its id. -/
def write (store : DocStore) (row : Row) : DocStore := store.set row.id row

def writeAll (store : DocStore) (rows : List Row) : DocStore := rows.foldl write store

/-- `docStoreConn.delete({"doc_id": doc_id}, …, kb_id)`. -/
def deleteDoc (store : DocStore) (docId kbId : String) : DocStore :=
  store.filter fun _ row => !(row.docId = docId ∧ row.kbId = kbId)

/-- What surrounds a call: the hash of texts, `DOC_BULK_SIZE`, the dataset, the rows that
the store answers with an error, and what each check for cancellation finds. -/
structure TaskEnv where
  hash : String → String
  bulkSize : ℕ
  datasetId : String
  rejects : Row → Bool
  canceled : ℕ → Bool

/-- The rows that an insert of `docs` stores. -/
def TaskEnv.stored (env : TaskEnv) (docs : List Row) : List Row :=
  (docs.filter fun row => !env.rejects row).map fun row => { row with kbId := env.datasetId }

/-- The store and the task in it: the `chunk_ids` field, which is a string of words in the
database, the number of checks for cancellation, and every id that was inserted. -/
structure TaskState where
  store : DocStore
  chunkIds : List String := []
  checks : ℕ := 0
  inserted : List String := []

inductive Stop where
  /-- `False` is returned, or the progress callback raises. -/
  | canceled
  /-- "Insert chunk error", with the ids of the rejected rows. -/
  | insertError (ids : List String)
  /-- `range` raises for a bulk size of 0. -/
  | valueError

abbrev TaskRun := Except (Stop × TaskState) TaskState

/-! ## `insert_chunks` -/

/-- `docStoreConn.insert`. -/
def TaskState.insert (env : TaskEnv) (docs : List Row) (s : TaskState) : TaskState :=
  { s with
    store := writeAll s.store (env.stored docs)
    inserted := s.inserted ++ (env.stored docs).map fun row => row.id }

/-- `has_canceled`, which the progress callback asks as well. -/
def TaskState.check (env : TaskEnv) (s : TaskState) : TaskRun :=
  if env.canceled s.checks then .error (.canceled, { s with checks := s.checks + 1 })
  else .ok { s with checks := s.checks + 1 }

/-- `range(0, n, bulk)`. -/
def bulkStarts (n bulk : ℕ) : List ℕ := (List.range ((n + bulk - 1) / bulk)).map (· * bulk)

/-- A bulk of parents. What the store answers is not looked at. -/
def insertMotherBulk (env : TaskEnv) (moms : List Row) (s : TaskState) (b : ℕ) : TaskRun :=
  (s.insert env ((moms.drop b).take env.bulkSize)).check env

/-- The progress is reported for some of the bulks only. -/
def TaskState.report (env : TaskEnv) (b : ℕ) (s : TaskState) : TaskRun :=
  if b % 128 = 0 then s.check env else .ok s

/-- A bulk of chunks. -/
def insertChunkBulk (env : TaskEnv) (rows : List Row) (s : TaskState) (b : ℕ) : TaskRun := do
  let bulk := (rows.drop b).take env.bulkSize
  let s ← (s.insert env bulk).check env
  let s ← s.report env b
  let failed := bulk.filter env.rejects
  if failed ≠ [] then throw (.insertError (failed.map fun row => row.id), s)
  else return { s with chunkIds := (rows.take (b + env.bulkSize)).map fun row => row.id }

/-- `insert_chunks`. Recording the ids is an UPDATE, so it does not raise `DoesNotExist`. -/
def insertChunks (env : TaskEnv) (chunks : List Chunk) (s : TaskState) : TaskRun :=
  let moms := mothers env.hash chunks
  let rows := chunks.map (Chunk.toRow env.hash)
  if env.bulkSize = 0 then throw (.valueError, s)
  else do
    let s ← (bulkStarts moms.length env.bulkSize).foldlM (insertMotherBulk env moms) s
    (bulkStarts rows.length env.bulkSize).foldlM (insertChunkBulk env rows) s

/-! ## What a call writes -/

theorem writeAll_append (store : DocStore) (rows rows' : List Row) :
    writeAll store (rows ++ rows') = writeAll (writeAll store rows) rows' :=
  List.foldl_append

theorem stored_append (env : TaskEnv) (docs docs' : List Row) :
    env.stored (docs ++ docs') = env.stored docs ++ env.stored docs' := by
  simp [TaskEnv.stored]

/-- From `s` to `t` exactly the given rows are inserted, in this order. -/
structure Wrote (rows : List Row) (s t : TaskState) : Prop where
  store : t.store = writeAll s.store rows
  inserted : t.inserted = s.inserted ++ rows.map fun row => row.id

/-- From `s` to `t` the first of the given rows are inserted. -/
def WroteSome (rows : List Row) (s t : TaskState) : Prop :=
  ∃ written, written <+: rows ∧ Wrote written s t

variable {env : TaskEnv} {rows rows' : List Row} {s t u : TaskState}

theorem Wrote.refl (s : TaskState) : Wrote [] s s := ⟨rfl, by simp⟩

theorem Wrote.trans (h : Wrote rows s t) (h' : Wrote rows' t u) : Wrote (rows ++ rows') s u where
  store := by rw [h'.store, h.store, writeAll_append]
  inserted := by rw [h'.inserted, h.inserted, List.map_append, List.append_assoc]

theorem Wrote.some (h : Wrote rows s t) : WroteSome rows s t := ⟨rows, List.prefix_rfl, h⟩

theorem WroteSome.append (h : WroteSome rows s t) (rows' : List Row) :
    WroteSome (rows ++ rows') s t := by
  obtain ⟨written, hwritten, h⟩ := h
  exact ⟨written, hwritten.trans (List.prefix_append rows rows'), h⟩

theorem Wrote.trans_some (h : Wrote rows s t) (h' : WroteSome rows' t u) :
    WroteSome (rows ++ rows') s u := by
  obtain ⟨written, hwritten, h'⟩ := h'
  exact ⟨rows ++ written, (List.prefix_append_right_inj rows).mpr hwritten, h.trans h'⟩

theorem wrote_insert (env : TaskEnv) (docs : List Row) (s : TaskState) :
    Wrote (env.stored docs) s (s.insert env docs) := ⟨rfl, rfl⟩

/-- A check changes neither the store nor what the task has recorded. -/
theorem check_leaves (h : Wrote rows s t) :
    Leaves (fun u => Wrote rows s u ∧ u.chunkIds = t.chunkIds) (WroteSome rows s)
      (t.check env) := by
  rw [TaskState.check]
  split_ifs
  · exact Wrote.some ⟨h.store, h.inserted⟩
  · exact ⟨⟨h.store, h.inserted⟩, rfl⟩

theorem report_leaves (b : ℕ) (h : Wrote rows s t) :
    Leaves (Wrote rows s) (WroteSome rows s) (t.report env b) := by
  rw [TaskState.report]
  split_ifs
  · exact (check_leaves h).mono (fun _ hu => hu.1) fun _ hu => hu
  · exact h

/-! ## Bulks -/

theorem length_bulkStarts (n bulk : ℕ) : (bulkStarts n bulk).length = (n + bulk - 1) / bulk := by
  simp [bulkStarts]

theorem eq_of_bulkStarts {n bulk b : ℕ} {done : List ℕ} (h : done ++ [b] <+: bulkStarts n bulk) :
    b = done.length * bulk := by
  have hget : (bulkStarts n bulk)[done.length]? = some b := by
    obtain ⟨rest, hrest⟩ := h
    simp [← hrest]
  simp only [bulkStarts, List.getElem?_map, Option.map_eq_some_iff] at hget
  obtain ⟨k, hk, rfl⟩ := hget
  obtain ⟨-, rfl⟩ := List.getElem?_eq_some_iff.mp hk
  simp

/-- All bulks together are the list. -/
theorem take_bulkStarts {α : Type*} {bulk : ℕ} (hbulk : 0 < bulk) (l : List α) :
    l.take ((bulkStarts l.length bulk).length * bulk) = l := by
  apply List.take_of_length_le
  rw [length_bulkStarts]
  have hdiv := Nat.div_add_mod (l.length + bulk - 1) bulk
  have hmod := Nat.mod_lt (l.length + bulk - 1) hbulk
  rw [Nat.mul_comm] at hdiv
  omega

/-- Bulk after bulk, a loop inserts a list or a first part of it. -/
theorem bulks_leave (hbulk : 0 < env.bulkSize) {f : TaskState → ℕ → TaskRun} (docs : List Row)
    (hf : ∀ u b, Leaves (Wrote (env.stored ((docs.drop b).take env.bulkSize)) u)
      (WroteSome (env.stored ((docs.drop b).take env.bulkSize)) u) (f u b)) (s : TaskState) :
    Leaves (Wrote (env.stored docs) s) (WroteSome (env.stored docs) s)
      ((bulkStarts docs.length env.bulkSize).foldlM f s) := by
  -- The rows before the bulk that comes next.
  let P (done : List ℕ) : TaskState → Prop :=
    Wrote (env.stored (docs.take (done.length * env.bulkSize))) s
  have hloop : Leaves (P (bulkStarts docs.length env.bulkSize)) (WroteSome (env.stored docs) s)
      ((bulkStarts docs.length env.bulkSize).foldlM f s) := by
    apply Leaves.foldlM
    · show Wrote (env.stored (docs.take (0 * env.bulkSize))) s s
      rw [Nat.zero_mul, List.take_zero]
      exact Wrote.refl s
    · intro done b u hdone hu
      have hu : Wrote (env.stored (docs.take (done.length * env.bulkSize))) s u := hu
      have hb := eq_of_bulkStarts hdone
      have htake : docs.take ((done ++ [b]).length * env.bulkSize) =
          docs.take (done.length * env.bulkSize) ++ (docs.drop b).take env.bulkSize := by
        rw [List.length_append, List.length_singleton, take_succ_mul, hb]
      apply (hf u b).mono
      · intro v hv
        show Wrote (env.stored (docs.take ((done ++ [b]).length * env.bulkSize))) s v
        rw [htake, stored_append]
        exact hu.trans hv
      · intro v hv
        have hsome := hu.trans_some hv
        rw [← stored_append, ← htake] at hsome
        have hall : docs = docs.take ((done ++ [b]).length * env.bulkSize) ++
            docs.drop ((done ++ [b]).length * env.bulkSize) := (List.take_append_drop _ _).symm
        rw [hall, stored_append]
        exact hsome.append _
  apply hloop.mono
  · intro t ht
    have ht : Wrote (env.stored
        (docs.take ((bulkStarts docs.length env.bulkSize).length * env.bulkSize))) s t := ht
    rw [take_bulkStarts hbulk] at ht
    exact ht
  · exact fun t ht => ht

theorem insertMotherBulk_leaves (env : TaskEnv) (moms : List Row) (s : TaskState) (b : ℕ) :
    Leaves (Wrote (env.stored ((moms.drop b).take env.bulkSize)) s)
      (WroteSome (env.stored ((moms.drop b).take env.bulkSize)) s)
      (insertMotherBulk env moms s b) :=
  (check_leaves (wrote_insert env _ s)).mono (fun _ h => h.1) fun _ h => h

/-- A bulk of chunks goes on only if none is rejected, and records its ids. -/
theorem insertChunkBulk_leaves (env : TaskEnv) (rows : List Row) (s : TaskState) (b : ℕ) :
    Leaves (fun t => Wrote (env.stored ((rows.drop b).take env.bulkSize)) s t ∧
        (∀ row ∈ (rows.drop b).take env.bulkSize, env.rejects row = false) ∧
        t.chunkIds = (rows.take (b + env.bulkSize)).map fun row => row.id)
      (WroteSome (env.stored ((rows.drop b).take env.bulkSize)) s)
      (insertChunkBulk env rows s b) := by
  apply (check_leaves (wrote_insert env ((rows.drop b).take env.bulkSize) s)).bind
  intro t ht
  apply (report_leaves b ht.1).bind
  intro u hu
  by_cases hfailed : ((rows.drop b).take env.bulkSize).filter env.rejects = []
  · rw [if_neg (not_not.mpr hfailed)]
    refine ⟨⟨hu.store, hu.inserted⟩, ?_, rfl⟩
    simpa [List.filter_eq_nil_iff] using hfailed
  · rw [if_pos hfailed]
    exact hu.some

/-! ## The whole call -/

/-- The rows that a call stores where nothing stops it: the parents, then the chunks. -/
def planned (env : TaskEnv) (chunks : List Chunk) : List Row :=
  env.stored (mothers env.hash chunks) ++ env.stored (chunks.map (Chunk.toRow env.hash))

/-- The loop over the chunks records all of them. -/
theorem chunkLoop_ok (hbulk : 0 < env.bulkSize) {rows : List Row} {s t : TaskState}
    (h : (bulkStarts rows.length env.bulkSize).foldlM (insertChunkBulk env rows) s = .ok t) :
    (∀ row ∈ rows, env.rejects row = false) ∧
      (rows ≠ [] → t.chunkIds = rows.map fun row => row.id) := by
  let P (done : List ℕ) (u : TaskState) : Prop :=
    (∀ row ∈ rows.take (done.length * env.bulkSize), env.rejects row = false) ∧
      (done ≠ [] → u.chunkIds = (rows.take (done.length * env.bulkSize)).map fun row => row.id)
  have hloop : P (bulkStarts rows.length env.bulkSize) t := by
    apply foldlM_induction h
    · exact ⟨by simp, fun hne => absurd rfl hne⟩
    · intro done b u v hdone hu hv
      have hb := eq_of_bulkStarts hdone
      obtain ⟨-, hnone, hids⟩ := (insertChunkBulk_leaves env rows u b).of_ok hv
      have hlen : (done ++ [b]).length * env.bulkSize = b + env.bulkSize := by
        rw [List.length_append, List.length_singleton, Nat.succ_mul, hb]
      constructor
      · intro row hrow
        rw [hlen, List.take_add, List.mem_append] at hrow
        rcases hrow with hbefore | hbulk
        · rw [hb] at hbefore
          exact hu.1 row hbefore
        · exact hnone row hbulk
      · intro _
        rw [hlen]
        exact hids
  constructor
  · intro row hrow
    rw [← take_bulkStarts hbulk rows] at hrow
    exact hloop.1 row hrow
  · intro hne
    have hsome : bulkStarts rows.length env.bulkSize ≠ [] := by
      intro hnil
      have hall := take_bulkStarts hbulk rows
      rw [hnil, List.length_nil, Nat.zero_mul, List.take_zero] at hall
      exact hne hall.symm
    rw [hloop.2 hsome, take_bulkStarts hbulk]

/-- A call stores what is planned, or a first part of it where it stops. -/
theorem insertChunks_leaves (env : TaskEnv) (chunks : List Chunk) (s : TaskState) :
    Leaves (Wrote (planned env chunks) s) (WroteSome (planned env chunks) s)
      (insertChunks env chunks s) := by
  rw [insertChunks]
  by_cases hbulk : env.bulkSize = 0
  · rw [if_pos hbulk]
    exact ⟨[], List.nil_prefix, Wrote.refl s⟩
  · rw [if_neg hbulk]
    have hpos := Nat.pos_of_ne_zero hbulk
    have hmoms := bulks_leave hpos (mothers env.hash chunks)
      (fun u b => insertMotherBulk_leaves env _ u b) s
    apply (hmoms.mono (fun _ h => h) fun _ h => h.append _).bind
    intro t ht
    have hrows := bulks_leave hpos (chunks.map (Chunk.toRow env.hash))
      (fun u b => (insertChunkBulk_leaves env _ u b).mono (fun _ h => h.1) fun _ h => h) t
    exact hrows.mono (fun _ h => ht.trans h) fun _ h => ht.trans_some h

/-- A call that ends well has been rejected no chunk, and the task has the ids of its
chunks. -/
theorem insertChunks_ok {chunks : List Chunk} (h : insertChunks env chunks s = .ok t) :
    (∀ ck ∈ chunks, env.rejects (ck.toRow env.hash) = false) ∧
      (chunks ≠ [] → t.chunkIds = chunks.map Chunk.id) := by
  rw [insertChunks] at h
  by_cases hbulk : env.bulkSize = 0
  · rw [if_pos hbulk] at h
    cases h
  · rw [if_neg hbulk] at h
    obtain ⟨u, -, hrows⟩ := bind_eq_ok.mp h
    obtain ⟨hnone, hids⟩ := chunkLoop_ok (Nat.pos_of_ne_zero hbulk) hrows
    constructor
    · intro ck hck
      exact hnone _ (List.mem_map_of_mem hck)
    · intro hne
      rw [hids (by simpa using hne), List.map_map]
      rfl

/-! ## Looking up what was written -/

theorem get?_write (store : DocStore) (row : Row) (k : String) :
    (write store row).get? k = if k = row.id then some row else store.get? k :=
  Dict.get?_set store row.id k row

theorem mem_stored {docs : List Row} {row : Row} :
    row ∈ env.stored docs ↔
      ∃ doc ∈ docs, env.rejects doc = false ∧ { doc with kbId := env.datasetId } = row := by
  simp only [TaskEnv.stored, List.mem_map, List.mem_filter, Bool.not_eq_true', and_assoc]

/-- A parent comes from one of the chunks. -/
theorem mem_mothersFrom {hash : String → String} {ids : List String} {chunks : List Chunk}
    {m : Row} (h : m ∈ mothersFrom hash ids chunks) :
    ∃ ck ∈ chunks, ck.momText ≠ "" ∧ m = ck.mother (hash ck.momText) := by
  induction chunks generalizing ids with
  | nil => cases h
  | cons ck chunks ih =>
      rw [mothersFrom] at h
      have hrest : ∀ ids, m ∈ mothersFrom hash ids chunks →
          ∃ ck' ∈ ck :: chunks, ck'.momText ≠ "" ∧ m = ck'.mother (hash ck'.momText) := by
        intro ids hm
        obtain ⟨ck', hck', hspec⟩ := ih hm
        exact ⟨ck', List.mem_cons_of_mem ck hck', hspec⟩
      split_ifs at h with hnone hseen
      · exact hrest _ h
      · exact hrest _ h
      · rcases List.mem_cons.mp h with rfl | hm
        · exact ⟨ck, List.mem_cons_self, hnone, rfl⟩
        · exact hrest _ hm

/-- Every chunk with a parent has one of that id among the parents, unless it was seen. -/
theorem exists_mothersFrom {hash : String → String} {chunks : List Chunk} {ck : Chunk}
    (h : ck ∈ chunks) (hmom : ck.momText ≠ "") {ids : List String}
    (hseen : hash ck.momText ∉ ids) :
    ∃ m ∈ mothersFrom hash ids chunks, m.id = hash ck.momText := by
  induction chunks generalizing ids with
  | nil => cases h
  | cons first chunks ih =>
      rw [mothersFrom]
      rcases List.mem_cons.mp h with rfl | h
      · rw [if_neg hmom, if_neg hseen]
        exact ⟨_, List.mem_cons_self, rfl⟩
      · split_ifs with hnone hknown
        · exact ih h hseen
        · exact ih h hseen
        · by_cases hsame : hash ck.momText = hash first.momText
          · exact ⟨_, List.mem_cons_self, hsame.symm⟩
          · have hfresh : hash ck.momText ∉ hash first.momText :: ids := by
              simp [hsame, hseen]
            obtain ⟨m, hm, hid⟩ := ih h hfresh
            exact ⟨m, List.mem_cons_of_mem _ hm, hid⟩

end RagFlow.Ingestion
