/-
# The chunks that a task records

When the chunks of a task are built, `do_handle_task` inserts them, and after them a
chunk with the table of contents, if there is one. Each call of `insert_chunks` records
the ids of its own chunks only, and the parents of chunks are recorded by none.
-/

import RagFlow.Ingestion.ChunkStore

namespace RagFlow.Ingestion

open RagFlow.Math

/-! ## The table of contents -/

/-- The order in which the chunks are read: by page, and by the place on the page. -/
def Chunk.tocKey (ck : Chunk) : ℕ × ℕ :=
  ((ck.pageNumInt.map Prod.fst).getD 0, (ck.topInt.map Prod.fst).getD 0)

def Chunk.comesBefore (a b : Chunk) : Bool :=
  a.tocKey.1 < b.tocKey.1 || (a.tocKey.1 == b.tocKey.1 && a.tocKey.2 ≤ b.tocKey.2)

/-- `build_TOC`: a copy of the last chunk with another text and id. `tocText` is the table
of contents that the chat model finds, unless it is empty. -/
def buildTOC (hash : String → String) (tocText : List Chunk → Option String)
    (docs : List Chunk) : Option Chunk :=
  let docs := docs.mergeSort Chunk.comesBefore
  match tocText docs, docs.getLast? with
  | some text, some last => some { last with
      contentWithWeight := text
      tocKwd := some "toc"
      availableInt := some 0
      pageNumInt := some (100000000, [])
      id := hash (text ++ last.docId) }
  | _, _ => none

/-! ## The task -/

/-- A standard task whose chunks are built and embedded. -/
structure IndexTask where
  docId : String
  parserId : String
  tocExtraction : Bool
  chunks : List Chunk
  tocText : List Chunk → Option String

/-- The chunk with the table of contents, if the settings ask for it. -/
def IndexTask.toc (hash : String → String) (task : IndexTask) : Option Chunk :=
  if task.parserId.toLower = "naive" ∧ task.tocExtraction then
    buildTOC hash task.tocText task.chunks
  else none

/-- `_maybe_insert_chunks`. -/
def maybeInsertChunks (env : TaskEnv) (chunks : List Chunk) (s : TaskState) : TaskRun := do
  let s ← s.check env
  insertChunks env chunks s

def insertTOC (env : TaskEnv) (toc : Option Chunk) (s : TaskState) : TaskRun :=
  match toc with
  | none => .ok s
  | some d => maybeInsertChunks env [d] s

/-- The chunks are inserted, then the table of contents. The checks are those of
`has_canceled` and of the progress callback. -/
def indexChunks (env : TaskEnv) (task : IndexTask) (s : TaskState) : TaskRun := do
  let s ← maybeInsertChunks env task.chunks s
  let s ← s.check env
  let s ← s.check env
  let s ← insertTOC env (task.toc env.hash) s
  let s ← s.check env
  s.check env

/-- `finally`: the rows of a canceled task are deleted. -/
def cleanUp (env : TaskEnv) (docId : String) (run : TaskRun) : TaskRun :=
  match run with
  | .ok s =>
    if env.canceled s.checks then
      .error (.canceled, { s with store := deleteDoc s.store docId env.datasetId })
    else .ok { s with checks := s.checks + 1 }
  | .error (stop, s) =>
    if env.canceled s.checks then
      .error (stop, { s with store := deleteDoc s.store docId env.datasetId })
    else .error (stop, { s with checks := s.checks + 1 })

/-- `do_handle_task`, for a standard task, from where the chunks are there. -/
def doHandleTask (env : TaskEnv) (task : IndexTask) (s : TaskState) : TaskRun :=
  if task.chunks = [] then s.check env
  else cleanUp env task.docId (indexChunks env task s)

/-- The task has recorded the ids that it has inserted, and no others. -/
def RecordsAll (s : TaskState) : Prop := ∀ id, id ∈ s.chunkIds ↔ id ∈ s.inserted

/-! ## What a finished task has inserted and recorded -/

variable {env : TaskEnv} {rows : List Row} {s t : TaskState}

theorem check_ok (h : s.check env = .ok t) : t.inserted = s.inserted ∧ t.chunkIds = s.chunkIds := by
  rw [TaskState.check] at h
  split_ifs at h
  · obtain rfl := Except.ok.inj h
    exact ⟨rfl, rfl⟩

/-- A call that ends well inserts the parents and the chunks, and records the chunks. -/
theorem maybeInsertChunks_ok {chunks : List Chunk} (h : maybeInsertChunks env chunks s = .ok t) :
    t.inserted = s.inserted ++ (planned env chunks).map (fun row => row.id) ∧
      (∀ ck ∈ chunks, env.rejects (ck.toRow env.hash) = false) ∧
      (chunks ≠ [] → t.chunkIds = chunks.map Chunk.id) := by
  obtain ⟨u, hu, hinsert⟩ := bind_eq_ok.mp h
  have hwrote := (insertChunks_leaves env chunks u).of_ok hinsert
  rw [hwrote.inserted, (check_ok hu).1]
  exact ⟨rfl, insertChunks_ok hinsert⟩

/-- The ids that a call inserts: those of its chunks, and of their parents as far as the
store takes them. -/
theorem mem_ids_planned {chunks : List Chunk}
    (hnone : ∀ ck ∈ chunks, env.rejects (ck.toRow env.hash) = false) (id : String) :
    id ∈ (planned env chunks).map (fun row => row.id) ↔
      (∃ m ∈ mothers env.hash chunks, env.rejects m = false ∧ m.id = id) ∨
        id ∈ chunks.map Chunk.id := by
  have hmoms : id ∈ (env.stored (mothers env.hash chunks)).map (fun row => row.id) ↔
      ∃ m ∈ mothers env.hash chunks, env.rejects m = false ∧ m.id = id := by
    simp [TaskEnv.stored, and_assoc]
  have hall : (chunks.map (Chunk.toRow env.hash)).filter (fun row => !env.rejects row) =
      chunks.map (Chunk.toRow env.hash) := by
    rw [List.filter_eq_self]
    intro row hrow
    obtain ⟨ck, hck, rfl⟩ := List.mem_map.mp hrow
    simp [hnone ck hck]
  have hrows : (env.stored (chunks.map (Chunk.toRow env.hash))).map (fun row => row.id) =
      chunks.map Chunk.id := by
    rw [TaskEnv.stored, hall, List.map_map, List.map_map]
    rfl
  rw [planned, List.map_append, List.mem_append, hmoms, hrows]

/-- The chunks that are recorded, and the ones that are inserted, once all calls have gone
through. -/
structure Completed (env : TaskEnv) (task : IndexTask) (t : TaskState) : Prop where
  chunkIds : t.chunkIds = match task.toc env.hash with
    | none => task.chunks.map Chunk.id
    | some d => [d.id]
  inserted : ∀ id, id ∈ t.inserted ↔
    ((∃ m ∈ mothers env.hash task.chunks, env.rejects m = false ∧ m.id = id) ∨
      id ∈ task.chunks.map Chunk.id) ∨
    ∃ d, task.toc env.hash = some d ∧
      ((∃ m ∈ mothers env.hash [d], env.rejects m = false ∧ m.id = id) ∨ id = d.id)

theorem indexChunks_ok {task : IndexTask} {store : DocStore} (hchunks : task.chunks ≠ [])
    (h : indexChunks env task { store } = .ok t) : Completed env task t := by
  -- The calls, and the checks between them, one after the other.
  obtain ⟨s₁, hfirst, h⟩ := bind_eq_ok.mp h
  obtain ⟨s₂, hcheck₂, h⟩ := bind_eq_ok.mp h
  obtain ⟨s₃, hcheck₃, h⟩ := bind_eq_ok.mp h
  obtain ⟨s₄, htoc, h⟩ := bind_eq_ok.mp h
  obtain ⟨s₅, hcheck₅, hcheck₆⟩ := bind_eq_ok.mp h
  obtain ⟨hinserted, hnone, hids⟩ := maybeInsertChunks_ok hfirst
  have hids := hids hchunks
  have hlast : t.inserted = s₄.inserted ∧ t.chunkIds = s₄.chunkIds :=
    ⟨(check_ok hcheck₆).1.trans (check_ok hcheck₅).1,
      (check_ok hcheck₆).2.trans (check_ok hcheck₅).2⟩
  have hbefore : s₃.inserted = (planned env task.chunks).map (fun row => row.id) ∧
      s₃.chunkIds = task.chunks.map Chunk.id := by
    rw [(check_ok hcheck₃).1, (check_ok hcheck₃).2, (check_ok hcheck₂).1, (check_ok hcheck₂).2]
    exact ⟨by simpa using hinserted, hids⟩
  cases hd : task.toc env.hash with
  | none =>
      rw [hd] at htoc
      obtain rfl := Except.ok.inj htoc
      refine ⟨by rw [hd, hlast.2, hbefore.2], fun id => ?_⟩
      rw [hd, hlast.1, hbefore.1, mem_ids_planned hnone]
      simp
  | some d =>
      rw [hd] at htoc
      obtain ⟨hinsertedTOC, hnoneTOC, hidsTOC⟩ := maybeInsertChunks_ok htoc
      have hrecorded : t.chunkIds = [d.id] := by
        rw [hlast.2, hidsTOC (List.cons_ne_nil d []), List.map_singleton]
      refine ⟨by rw [hd, hrecorded], fun id => ?_⟩
      rw [hd, hlast.1, hinsertedTOC, hbefore.1, List.mem_append, mem_ids_planned hnone,
        mem_ids_planned hnoneTOC]
      simp

/-- A task that ends well, from the state in which it is created. -/
theorem doHandleTask_ok {task : IndexTask} {store : DocStore}
    (h : doHandleTask env task { store } = .ok t) : Completed env task t := by
  rw [doHandleTask] at h
  by_cases hchunks : task.chunks = []
  · have htoc : task.toc env.hash = none := by
      rw [IndexTask.toc, hchunks]
      split_ifs
      · cases htext : task.tocText (([] : List Chunk).mergeSort Chunk.comesBefore) with
        | none => simp only [buildTOC, htext]
        | some text => simp [buildTOC]
      · rfl
    rw [if_pos hchunks] at h
    obtain ⟨hinserted, hids⟩ := check_ok h
    refine ⟨by rw [htoc, hids, hchunks, List.map_nil], fun id => ?_⟩
    rw [htoc, hinserted, hchunks]
    simp [mothers, mothersFrom]
  · rw [if_neg hchunks] at h
    cases hrun : indexChunks env task { store } with
    | error e =>
        rw [hrun] at h
        simp only [cleanUp] at h
        split_ifs at h
    | ok u =>
        rw [hrun] at h
        simp only [cleanUp] at h
        split_ifs at h
        obtain rfl := Except.ok.inj h
        have hu := indexChunks_ok hchunks hrun
        exact ⟨hu.chunkIds, hu.inserted⟩

/-- Every parent that the store takes has the id of a chunk; or, where there is a table of
contents, every chunk and every parent that the store takes has the id of that one. -/
def IdsAreLast (env : TaskEnv) (task : IndexTask) : Prop :=
  match task.toc env.hash with
  | none => ∀ m ∈ mothers env.hash task.chunks, env.rejects m = false →
      m.id ∈ task.chunks.map Chunk.id
  | some d => (∀ ck ∈ task.chunks, ck.id = d.id) ∧
      ∀ m ∈ mothers env.hash task.chunks ++ mothers env.hash [d], env.rejects m = false →
        m.id = d.id

/-- A task that ends well has recorded the ids that it has inserted iff the last call has
recorded all of them. -/
theorem doHandleTask_records_iff {task : IndexTask} {store : DocStore}
    (h : doHandleTask env task { store } = .ok t) : RecordsAll t ↔ IdsAreLast env task := by
  obtain ⟨hids, hinserted⟩ := doHandleTask_ok h
  rw [IdsAreLast]
  cases hd : task.toc env.hash with
  | none =>
      rw [hd] at hids
      constructor
      · intro hrec m hm haccepted
        have hmem := (hrec m.id).mpr ((hinserted m.id).mpr (.inl (.inl ⟨m, hm, haccepted, rfl⟩)))
        rw [hids] at hmem
        exact hmem
      · intro hmoms id
        rw [hids, hinserted, hd]
        constructor
        · exact fun hid => .inl (.inr hid)
        · rintro ((⟨m, hm, haccepted, rfl⟩ | hid) | ⟨d, hnone, -⟩)
          · exact hmoms m hm haccepted
          · exact hid
          · cases hnone
  | some d =>
      rw [hd] at hids
      have hone : ∀ id, id ∈ t.chunkIds ↔ id = d.id := by
        intro id
        rw [hids]
        exact List.mem_singleton
      constructor
      · intro hrec
        have hsame : ∀ id, id ∈ t.inserted → id = d.id :=
          fun id hid => (hone id).mp ((hrec id).mpr hid)
        constructor
        · intro ck hck
          exact hsame ck.id ((hinserted ck.id).mpr (.inl (.inr (List.mem_map_of_mem hck))))
        · intro m hm haccepted
          apply hsame m.id
          rw [hinserted]
          rcases List.mem_append.mp hm with hchunk | htoc
          · exact .inl (.inl ⟨m, hchunk, haccepted, rfl⟩)
          · exact .inr ⟨d, hd, .inl ⟨m, htoc, haccepted, rfl⟩⟩
      · rintro ⟨hchunks, hmoms⟩ id
        rw [hone, hinserted]
        constructor
        · exact fun hid => .inr ⟨d, hd, .inr hid⟩
        · rintro ((⟨m, hm, haccepted, rfl⟩ | hid) | ⟨d', hd', ⟨m, hm, haccepted, rfl⟩ | hid⟩)
          · exact hmoms m (List.mem_append_left _ hm) haccepted
          · obtain ⟨ck, hck, rfl⟩ := List.mem_map.mp hid
            exact hchunks ck hck
          · obtain rfl := Option.some.inj (hd.symm.trans hd')
            exact hmoms m (List.mem_append_right _ hm) haccepted
          · obtain rfl := Option.some.inj (hd.symm.trans hd')
            exact hid

/-! ## Tasks that complete -/

/-- The store takes everything, and nothing is canceled. -/
structure TaskEnv.Steady (env : TaskEnv) : Prop where
  bulkSize : 0 < env.bulkSize
  rejects : ∀ row, env.rejects row = false
  canceled : ∀ n, env.canceled n = false

/-- The computation goes on. -/
def GoesOn (run : TaskRun) : Prop := Leaves (fun _ => True) (fun _ => False) run

theorem GoesOn.foldlM {f : TaskState → ℕ → TaskRun} (hf : ∀ u b, GoesOn (f u b)) (l : List ℕ)
    (s : TaskState) : GoesOn (l.foldlM f s) :=
  Leaves.foldlM (P := fun _ _ => True) trivial fun _ b u _ _ => hf u b

namespace TaskEnv.Steady

theorem check (h : env.Steady) (s : TaskState) : GoesOn (s.check env) := by
  rw [TaskState.check, if_neg (by simp [h.canceled])]
  exact trivial

theorem insertChunkBulk (h : env.Steady) (rows : List Row) (s : TaskState) (b : ℕ) :
    GoesOn (insertChunkBulk env rows s b) := by
  apply (h.check _).bind
  intro t _
  have hreport : GoesOn (t.report env b) := by
    rw [TaskState.report]
    split_ifs
    · exact h.check t
    · exact trivial
  apply hreport.bind
  intro u _
  have hfailed : ((rows.drop b).take env.bulkSize).filter env.rejects = [] := by
    simp [List.filter_eq_nil_iff, h.rejects]
  rw [if_neg (not_not.mpr hfailed)]
  exact trivial

theorem maybeInsertChunks (h : env.Steady) (chunks : List Chunk) (s : TaskState) :
    GoesOn (maybeInsertChunks env chunks s) := by
  apply (h.check s).bind
  intro t _
  rw [insertChunks, if_neg (Nat.pos_iff_ne_zero.mp h.bulkSize)]
  have hmoms : GoesOn ((bulkStarts (mothers env.hash chunks).length env.bulkSize).foldlM
      (insertMotherBulk env (mothers env.hash chunks)) t) :=
    GoesOn.foldlM (fun _ _ => h.check _) _ t
  apply hmoms.bind
  intro u _
  exact GoesOn.foldlM (h.insertChunkBulk _) _ u

theorem doHandleTask (h : env.Steady) (task : IndexTask) (s : TaskState) :
    ∃ t, doHandleTask env task s = .ok t := by
  have hgoes : GoesOn (RagFlow.Ingestion.doHandleTask env task s) := by
    rw [RagFlow.Ingestion.doHandleTask]
    split_ifs
    · exact h.check s
    · have hindex : GoesOn (indexChunks env task s) := by
        apply (h.maybeInsertChunks task.chunks s).bind
        intro s₁ _
        apply (h.check s₁).bind
        intro s₂ _
        apply (h.check s₂).bind
        intro s₃ _
        have htoc : GoesOn (insertTOC env (task.toc env.hash) s₃) := by
          cases task.toc env.hash with
          | none => exact trivial
          | some d => exact h.maybeInsertChunks [d] s₃
        apply htoc.bind
        intro s₄ _
        exact (h.check s₄).bind fun s₅ _ => h.check s₅
      cases hrun : indexChunks env task s with
      | error e =>
          rw [hrun] at hindex
          exact hindex.elim
      | ok t =>
          simp only [cleanUp, h.canceled]
          exact trivial
  cases hrun : RagFlow.Ingestion.doHandleTask env task s with
  | error e =>
      rw [hrun] at hgoes
      exact hgoes.elim
  | ok t => exact ⟨t, rfl⟩

end TaskEnv.Steady

def steadyEnv (hash : String → String) : TaskEnv where
  hash
  bulkSize := 4
  datasetId := "kb"
  rejects _ := false
  canceled _ := false

theorem steadyEnv_steady (hash : String → String) : (steadyEnv hash).Steady :=
  ⟨Nat.succ_pos 3, fun _ => rfl, fun _ => rfl⟩

def firstParagraph : Chunk where
  id := "ad78ea01c976d1fd"
  contentWithWeight := "first"
  docId := "d1"

/-- A task for the paragraph, where `toc` is the table of contents that the model finds. -/
def firstTask (tocExtraction : Bool) (toc : Option String) : IndexTask where
  docId := "d1"
  parserId := "naive"
  tocExtraction
  chunks := [firstParagraph]
  tocText _ := toc

/-- Without a table of contents the chunk is recorded. -/
theorem doHandleTask_records_paragraph :
    ∃ t, doHandleTask (steadyEnv fun text => text) (firstTask false none)
        { store := Dict.empty } = .ok t ∧ RecordsAll t := by
  have htoc : (firstTask false none).toc (fun text => text) = none := by
    simp [IndexTask.toc, firstTask]
  obtain ⟨t, ht⟩ := (steadyEnv_steady fun text => text).doHandleTask (firstTask false none)
    { store := Dict.empty }
  refine ⟨t, ht, (doHandleTask_records_iff ht).mpr ?_⟩
  rw [IdsAreLast, steadyEnv, htoc]
  intro m hm
  cases hm

/-- The table of contents of the paragraph. -/
def firstTOC : String :=
  "[\x7b\"level\": \"1\", \"title\": \"first\", \"ids\": [\"ad78ea01c976d1fd\"]\x7d]"

def firstHash (text : String) : String :=
  if text = firstTOC ++ "d1" then "f9e71c3e5623532f" else text

/-- With one, only the table of contents is recorded, and not the chunk. -/
theorem tableOfContents_drops_chunks :
    ∃ t, doHandleTask (steadyEnv firstHash) (firstTask true (some firstTOC))
        { store := Dict.empty } = .ok t ∧ ¬ RecordsAll t := by
  have htoc : (firstTask true (some firstTOC)).toc firstHash = some { firstParagraph with
      contentWithWeight := firstTOC
      tocKwd := some "toc"
      availableInt := some 0
      pageNumInt := some (100000000, [])
      id := "f9e71c3e5623532f" } := by
    have hsort : [firstParagraph].mergeSort Chunk.comesBefore = [firstParagraph] :=
      List.mergeSort_singleton _
    have hlower : "naive".toLower = "naive" := by
      apply String.ext
      show ("naive".map Char.toLower).toList = _
      simp
    rw [IndexTask.toc, if_pos ⟨hlower, rfl⟩, buildTOC]
    simp only [firstTask, hsort]
    rfl
  obtain ⟨t, ht⟩ := (steadyEnv_steady firstHash).doHandleTask (firstTask true (some firstTOC))
    { store := Dict.empty }
  refine ⟨t, ht, fun hrec => ?_⟩
  obtain ⟨hids, hinserted⟩ := doHandleTask_ok ht
  have hchunk := (hrec firstParagraph.id).mpr ((hinserted _).mpr
    (.inl (.inr (List.mem_map_of_mem List.mem_cons_self))))
  rw [show (steadyEnv firstHash).hash = firstHash from rfl, htoc] at hids
  rw [hids] at hchunk
  exact absurd hchunk (by decide)

end RagFlow.Ingestion
