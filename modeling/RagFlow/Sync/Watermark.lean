/-
# Where the next poll starts

The start of the next poll is the latest time among all documents of all batches. A document that
was not stored is polled again only if none of them is later.
-/

import Mathlib.Order.Lattice
import Mathlib.Order.MinMax
import RagFlow.Sync.RunTask

namespace RagFlow.Sync

variable {T R : Type*} [LinearOrder T] [LinearOrder R] {iso : T → R} {hash128 : String → String}
  {now : ℤ} {task : Task T}

/-! ## The running maximum -/

theorem maxUpdate_le_iff {d : Doc T × Upload} {docs : List (Doc T × Upload)} {x : T} :
    maxUpdate d docs ≤ x ↔ ∀ d' ∈ d :: docs, d'.1.docUpdatedAt ≤ x := by
  have hfold : ∀ (docs : List (Doc T × Upload)) (m : T),
      docs.foldl (fun m d => max m d.1.docUpdatedAt) m ≤ x ↔
        m ≤ x ∧ ∀ d' ∈ docs, d'.1.docUpdatedAt ≤ x := by
    intro docs
    induction docs with
    | nil => simp
    | cons d' docs ih =>
        intro m
        rw [List.foldl_cons, ih, max_le_iff, List.forall_mem_cons, and_assoc]
  rw [maxUpdate, hfold, List.forall_mem_cons]

/-- A batch raises the start to its latest document, whatever becomes of it. -/
theorem nextUpdate_batchStep_le_iff {s : SyncState T R} {batch : DocBatch T} {x : T} :
    (batchStep iso hash128 now task s batch).nextUpdate ≤ x ↔
      s.nextUpdate ≤ x ∧ ∀ d ∈ batch.docs, d.1.docUpdatedAt ≤ x := by
  cases hdocs : batch.docs with
  | nil =>
      rw [batchStep, hdocs]
      simp
  | cons d docs =>
      have hnext : (batchStep iso hash128 now task s batch).nextUpdate =
          max s.nextUpdate (maxUpdate d docs) := by
        unfold batchStep
        split
        · next h => rw [hdocs] at h; cases h
        · next h =>
            rw [hdocs] at h
            cases h
            dsimp only
            split <;> rfl
      rw [hnext, max_le_iff, maxUpdate_le_iff]

theorem nextUpdate_foldl_le_iff {s : SyncState T R} {batches : List (DocBatch T)} {x : T} :
    (batches.foldl (batchStep iso hash128 now task) s).nextUpdate ≤ x ↔
      s.nextUpdate ≤ x ∧ ∀ batch ∈ batches, ∀ d ∈ batch.docs, d.1.docUpdatedAt ≤ x := by
  induction batches generalizing s with
  | nil => simp
  | cons batch batches ih =>
      rw [List.foldl_cons, ih, nextUpdate_batchStep_le_iff, List.forall_mem_cons, and_assoc]

/-! ## The range in the log -/

/-- Each log is still there, with a range that starts no earlier. -/
def Tables.NotEarlier (t t' : Tables R) : Prop :=
  ∀ log ∈ t.syncLogs, ∃ log' ∈ t'.syncLogs, log'.id = log.id ∧
    ∀ s ∈ log.pollRangeStart, ∃ s' ∈ log'.pollRangeStart, s ≤ s'

theorem Tables.NotEarlier.refl (t : Tables R) : t.NotEarlier t := fun log hlog =>
  ⟨log, hlog, rfl, fun s hs => ⟨s, hs, le_rfl⟩⟩

theorem Tables.NotEarlier.trans {t t' t'' : Tables R} (h : t.NotEarlier t')
    (h' : t'.NotEarlier t'') : t.NotEarlier t'' := by
  intro log hlog
  obtain ⟨log', hlog', hid, hstart⟩ := h log hlog
  obtain ⟨log'', hlog'', hid', hstart'⟩ := h' log' hlog'
  refine ⟨log'', hlog'', hid'.trans hid, fun s hs => ?_⟩
  obtain ⟨s', hs', hle⟩ := hstart s hs
  obtain ⟨s'', hs'', hle'⟩ := hstart' s' hs'
  exact ⟨s'', hs'', hle.trans hle'⟩

theorem notEarlier_updateLog {t : Tables R} {id : String} {f : SyncLog R → SyncLog R}
    (hid : ∀ log, (f log).id = log.id)
    (hstart : ∀ log, ∀ s ∈ log.pollRangeStart, ∃ s' ∈ (f log).pollRangeStart, s ≤ s') :
    t.NotEarlier (t.updateLog id f) := by
  intro log hlog
  refine ⟨_, List.mem_map.mpr ⟨log, hlog, rfl⟩, ?_, fun s hs => ?_⟩
  · split
    · exact hid log
    · rfl
  · split
    · exact hstart log s hs
    · exact ⟨s, hs, le_rfl⟩

theorem notEarlier_setStatus (t : Tables R) (id connectorId : String) (status : TaskStatus) :
    t.NotEarlier (setStatus t now id connectorId status) :=
  notEarlier_updateLog (f := fun log => { log.touch now with status }) (fun _ => rfl)
    fun _ s hs => ⟨s, hs, le_rfl⟩

theorem notEarlier_increaseDocs (t : Tables R) (id : String) (m : R) (n : ℕ) (err : String)
    (k : ℕ) : t.NotEarlier (increaseDocs t now id m n err k) := by
  refine notEarlier_updateLog (fun _ => rfl) fun log s hs => ⟨_, rfl, ?_⟩
  rw [hs]
  exact le_max_left s m

theorem notEarlier_increaseRemovedDocs (t : Tables R) (id : String) (n : ℕ) (err : String)
    (k : ℕ) : t.NotEarlier (increaseRemovedDocs t now id n err k) :=
  notEarlier_updateLog (fun _ => rfl) fun _ s hs => ⟨s, hs, le_rfl⟩

theorem notEarlier_batchStep (s : SyncState T R) (batch : DocBatch T) :
    s.tables.NotEarlier (batchStep iso hash128 now task s batch).tables := by
  unfold batchStep
  split
  · exact .refl _
  · dsimp only
    split
    · exact notEarlier_increaseDocs _ _ _ _ _ _
    · exact .refl _

theorem notEarlier_foldl (s : SyncState T R) (batches : List (DocBatch T)) :
    s.tables.NotEarlier (batches.foldl (batchStep iso hash128 now task) s).tables := by
  induction batches generalizing s with
  | nil => exact .refl _
  | cons batch batches ih => exact (notEarlier_batchStep s batch).trans (ih _)

variable {epoch : T} {cleanup : List String → Option (ℕ × List String)} {t : Tables R}
  {existing : List String} {batches : List (DocBatch T)} {fileList : Option (List String)}

theorem notEarlier_runTaskLogic : t.NotEarlier
    (runTaskLogic iso hash128 now task epoch cleanup t existing batches fileList).2.1 := by
  unfold runTaskLogic
  dsimp only
  have hloop : t.NotEarlier (batches.foldl (batchStep iso hash128 now task)
      ⟨task.pollRangeStart.getD epoch, 0, 0, 0, existing, t⟩).tables :=
    notEarlier_foldl ⟨task.pollRangeStart.getD epoch, 0, 0, 0, existing, t⟩ batches
  refine (hloop.trans ?_).trans (notEarlier_setStatus _ _ _ _)
  split
  · exact notEarlier_increaseRemovedDocs _ _ _ _ _
  · exact .refl _

/-! ## The next poll -/

def Tables.isScheduled (t : Tables R) (connectorId kbId : String) : Prop :=
  ∃ log ∈ t.syncLogs, log.connectorId = connectorId ∧ log.kbId = kbId ∧ log.status = .schedule

omit [LinearOrder R] in
/-- If none is scheduled yet, the log that is added starts where it is told to. -/
theorem exists_mem_schedule {newId connectorId kbId : String} {s : Option R} {reindex : Bool}
    {n : ℕ} (ht : ¬ t.isScheduled connectorId kbId) :
    ∃ log ∈ (schedule t now newId connectorId kbId s reindex n).syncLogs, log.id = newId ∧
      log.connectorId = connectorId ∧ log.kbId = kbId ∧ log.status = .schedule ∧
      log.fromBeginning = (if reindex then "1" else "0") ∧ log.pollRangeStart = s := by
  have hnone : ∀ logs : List (SyncLog R), (∀ log ∈ logs, log ∈ t.syncLogs) →
      (logs.any fun log => log.kbId = kbId && log.connectorId = connectorId &&
        log.status = .schedule) = false := by
    intro logs hlogs
    rw [List.any_eq_false]
    intro log hlog h
    simp only [Bool.and_eq_true, decide_eq_true_eq] at h
    exact ht ⟨log, hlogs log hlog, h.1.2, h.1.1, h.2⟩
  unfold schedule
  dsimp only
  split
  · rw [hnone _ fun log hlog => List.mem_of_mem_filter hlog]
    exact ⟨_, List.mem_append_right _ (List.mem_singleton.mpr rfl), rfl, rfl, rfl, rfl, rfl, rfl⟩
  · rw [hnone _ fun log hlog => hlog]
    exact ⟨_, List.mem_append_right _ (List.mem_singleton.mpr rfl), rfl, rfl, rfl, rfl, rfl, rfl⟩

/-- No document that was not stored is before the new start, and the start is not before the old
one, exactly if such a document is not before the old start nor before any document of any batch.
The log added for the next poll has the new start, and no log's range starts earlier. -/
theorem no_update_skipped_iff (iso : T → R) (hash128 : String → String) (now : ℤ) (task : Task T)
    (epoch : T) (cleanup : List String → Option (ℕ × List String)) (newId : String)
    (t : Tables R) (existing : List String) (batches : List (DocBatch T))
    (fileList : Option (List String)) :
    let run := runTaskLogic iso hash128 now task epoch cleanup
      (start t now task.id task.connectorId) existing batches fileList
    ((∀ batch ∈ batches, ∀ d ∈ batch.docs, d.2.isStored = false →
          run.1 ≤ d.1.docUpdatedAt) ∧
        (∀ s ∈ task.pollRangeStart, s ≤ run.1) ∧ t.NotEarlier run.2.1 ∧
        (¬ run.2.1.isScheduled task.connectorId task.kbId →
          ∃ log ∈ (call iso hash128 now task epoch cleanup newId t existing batches
              (.normal fileList)).syncLogs,
            log.id = newId ∧ log.connectorId = task.connectorId ∧ log.kbId = task.kbId ∧
              log.status = .schedule ∧ log.fromBeginning = "0" ∧
              log.pollRangeStart = some (iso run.1))) ↔
      ∀ batch ∈ batches, ∀ d ∈ batch.docs, d.2.isStored = false →
        task.pollRangeStart.getD epoch ≤ d.1.docUpdatedAt ∧
          ∀ batch' ∈ batches, ∀ d' ∈ batch'.docs, d'.1.docUpdatedAt ≤ d.1.docUpdatedAt := by
  have hle : ∀ x, (runTaskLogic iso hash128 now task epoch cleanup
      (start t now task.id task.connectorId) existing batches fileList).1 ≤ x ↔
        task.pollRangeStart.getD epoch ≤ x ∧
          ∀ batch ∈ batches, ∀ d ∈ batch.docs, d.1.docUpdatedAt ≤ x :=
    fun x => nextUpdate_foldl_le_iff
  dsimp only
  constructor
  · rintro ⟨hskipped, _⟩ batch hbatch d hd hstored
    exact (hle _).mp (hskipped batch hbatch d hd hstored)
  · intro hlatest
    refine ⟨fun batch hbatch d hd hstored => (hle _).mpr (hlatest batch hbatch d hd hstored),
      fun s hs => ?_, (notEarlier_setStatus t _ _ _).trans notEarlier_runTaskLogic, fun hnone => ?_⟩
    · have hstart := ((hle _).mp le_rfl).1
      rwa [hs] at hstart
    · exact exists_mem_schedule hnone

/-- A batch that fails and, after it, one with a later document that is stored. -/
def failedThenStored : List (DocBatch ℕ) :=
  [⟨[(⟨"a", 3⟩, .unreached)], some "database is locked"⟩, ⟨[(⟨"b", 5⟩, .added)], none⟩]

theorem update_skipped :
    ¬ ∀ batch ∈ failedThenStored, ∀ d ∈ batch.docs, d.2.isStored = false →
      (runTaskLogic (R := ℕ) id id 0 ⟨"log", "c", "kb", some 1⟩ 0 (fun _ => none)
        ⟨[], [], [], []⟩ [] failedThenStored none).1 ≤ d.1.docUpdatedAt := by
  decide

end RagFlow.Sync
