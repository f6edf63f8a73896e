/-
# One synchronisation

The batches of a source are stored one after the other, and a batch that fails is skipped. The
start of the next poll is raised by every batch before it is stored; the range in the log only by
a batch whose storing has not failed.
-/

import RagFlow.Sync.Logs

namespace RagFlow.Sync

/-! ## The log -/

section Tables

variable {R : Type*}

def Tables.updateLog (t : Tables R) (id : String) (f : SyncLog R → SyncLog R) : Tables R :=
  { t with syncLogs := t.syncLogs.map fun log => if log.id = id then f log else log }

def Tables.updateConnector (t : Tables R) (id : String) (status : TaskStatus) : Tables R :=
  { t with connectors := t.connectors.map fun c => if c.id = id then { c with status } else c }

/-- The log with the time of its update, in milliseconds. -/
def SyncLog.touch (log : SyncLog R) (now : ℤ) : SyncLog R :=
  { log with updateTime := now, updateDate := some (now / 1000) }

/-- `start` and `done`: the new status of the log and of its connector. -/
def setStatus (t : Tables R) (now : ℤ) (id connectorId : String) (status : TaskStatus) :
    Tables R :=
  (t.updateLog id fun log => { log.touch now with status }).updateConnector connectorId status

def start (t : Tables R) (now : ℤ) (id connectorId : String) : Tables R :=
  setStatus t now id connectorId .running

def done (t : Tables R) (now : ℤ) (id connectorId : String) : Tables R :=
  setStatus t now id connectorId .done

/-- `fn.COALESCE(fn.GREATEST(column, value), value)`. -/
def coalesceGreatest [Max R] (column : Option R) (value : R) : R :=
  column.elim value fun c => max c value

def increaseDocs [Max R] (t : Tables R) (now : ℤ) (id : String) (maxUpdate : R) (docNum : ℕ)
    (errMsg : String) (errorCount : ℕ) : Tables R :=
  t.updateLog id fun log =>
    { log.touch now with
      newDocsIndexed := log.newDocsIndexed + docNum
      totalDocsIndexed := log.totalDocsIndexed + docNum
      pollRangeStart := some (coalesceGreatest log.pollRangeStart maxUpdate)
      pollRangeEnd := some (coalesceGreatest log.pollRangeEnd maxUpdate)
      errorMsg := log.errorMsg ++ errMsg
      errorCount := log.errorCount + errorCount }

def increaseRemovedDocs (t : Tables R) (now : ℤ) (id : String) (removedCount : ℕ)
    (errMsg : String) (errorCount : ℕ) : Tables R :=
  t.updateLog id fun log =>
    { log.touch now with
      docsRemovedFromIndex := log.docsRemovedFromIndex + removedCount
      errorMsg := log.errorMsg ++ errMsg
      errorCount := log.errorCount + errorCount }

/-- `schedule`: of more than 100 logs the 70 oldest go, and a log is added unless one is scheduled
already. -/
def schedule (t : Tables R) (now : ℤ) (newId connectorId kbId : String)
    (pollRangeStart : Option R) (reindex : Bool) (totalDocsIndexed : ℕ) : Tables R :=
  let own := t.syncLogs.filter fun log => log.kbId = kbId && log.connectorId = connectorId
  let oldest := own.mergeSort fun a b => decide (a.updateTime ≤ b.updateTime)
  let rmIds := (oldest.take 70).map SyncLog.id
  let t := if 100 < own.length then
      { t with syncLogs := t.syncLogs.filter fun log => log.id ∉ rmIds }
    else t
  if t.syncLogs.any fun log =>
      log.kbId = kbId && log.connectorId = connectorId && log.status = .schedule then t
  else
    let log : SyncLog R :=
      { id := newId
        connectorId := connectorId
        kbId := kbId
        status := .schedule
        fromBeginning := if reindex then "1" else "0"
        updateDate := some (now / 1000)
        updateTime := now
        pollRangeStart := pollRangeStart
        pollRangeEnd := none
        newDocsIndexed := 0
        totalDocsIndexed := totalDocsIndexed
        docsRemovedFromIndex := 0
        errorMsg := ""
        fullExceptionTrace := ""
        errorCount := 0 }
    let t := t.updateConnector connectorId .schedule
    { t with syncLogs := t.syncLogs ++ [log] }

end Tables

/-! ## Storing a batch -/

/-- What `upload_document` does with one document. Content that is the same is stored, but the
document is not returned. -/
inductive Upload where
  | added
  | changed
  | same
  | failed (err : String)
  | unreached
deriving DecidableEq

namespace Upload

def isStored : Upload → Bool
  | added | changed | same => true
  | failed _ | unreached => false

def isReturned : Upload → Bool
  | added | changed => true
  | same | failed _ | unreached => false

def err? : Upload → Option String
  | failed err => some err
  | added | changed | same | unreached => none

end Upload

structure Doc (T : Type*) where
  id : String
  docUpdatedAt : T
deriving DecidableEq

/-- A batch with what becomes of each document, and the exception that storing it ends with. -/
structure DocBatch (T : Type*) where
  docs : List (Doc T × Upload)
  raised : Option String
deriving DecidableEq

/-- `duplicate_and_parse`: the errors, and the ids of the documents that are new or changed. -/
def duplicateAndParse {T : Type*} (hash128 : String → String) (batch : DocBatch T) :
    Except String (List String × List String) :=
  match batch.raised with
  | some ex => .error ex
  | none => .ok (batch.docs.filterMap fun d => d.2.err?,
      (batch.docs.filter fun d => d.2.isReturned).map fun d => hash128 d.1.id)

/-! ## The task -/

structure Task (T : Type*) where
  id : String
  connectorId : String
  kbId : String
  pollRangeStart : Option T

structure SyncState (T R : Type*) where
  nextUpdate : T
  failedDocs : ℕ
  addedDocs : ℕ
  updatedDocs : ℕ
  existingDocIds : List String
  tables : Tables R

/-- What the summary says. -/
structure Summary where
  total : ℕ
  added : ℕ
  updated : ℕ
  deleted : ℕ
  skipped : ℕ
deriving DecidableEq

section RunTask

variable {T R : Type*} [LinearOrder T] [LinearOrder R]

def maxUpdate (d : Doc T × Upload) (docs : List (Doc T × Upload)) : T :=
  docs.foldl (fun m d => max m d.1.docUpdatedAt) d.1.docUpdatedAt

variable (iso : T → R) (hash128 : String → String) (now : ℤ) (task : Task T)

/-- One round of the loop over the batches. -/
def batchStep (s : SyncState T R) (batch : DocBatch T) : SyncState T R :=
  match batch.docs with
  | [] => s
  | d :: docs =>
    let s := { s with nextUpdate := max s.nextUpdate (maxUpdate d docs) }
    match duplicateAndParse hash128 batch with
    | .ok (err, dids) =>
      let changedDocIds := dids.dedup
      let updatedInBatch := (changedDocIds.filter (· ∈ s.existingDocIds)).length
      let addedInBatch := changedDocIds.length - updatedInBatch
      { s with
        tables := increaseDocs s.tables now task.id (iso (maxUpdate d docs)) batch.docs.length
          ("\n".intercalate err) err.length
        addedDocs := s.addedDocs + addedInBatch
        updatedDocs := s.updatedDocs + updatedInBatch
        existingDocIds := s.existingDocIds ∪ changedDocIds }
    | .error _ => { s with failedDocs := s.failedDocs + batch.docs.length }

/-- `_run_task_logic` where it ends normally: the new start of the range, the tables, and the
summary. The sync of deleted files takes place if a snapshot is there and not empty; `cleanup`
returns how many documents it has removed and the errors, or nothing if none is stale. -/
def runTaskLogic (epoch : T) (cleanup : List String → Option (ℕ × List String)) (t : Tables R)
    (existing : List String) (batches : List (DocBatch T)) (fileList : Option (List String)) :
    T × Tables R × Summary :=
  let nextUpdate := task.pollRangeStart.getD epoch
  let s := batches.foldl (batchStep iso hash128 now task) ⟨nextUpdate, 0, 0, 0, existing, t⟩
  let removed := (fileList.filter (· ≠ [])).bind cleanup
  let tables := match removed with
    | some (removedCount, errors) => increaseRemovedDocs s.tables now task.id removedCount
        ("\n".intercalate errors) errors.length
    | none => s.tables
  let removedDocs := (removed.map Prod.fst).getD 0
  (s.nextUpdate, done tables now task.id task.connectorId,
    ⟨s.addedDocs + s.updatedDocs + removedDocs, s.addedDocs, s.updatedDocs, removedDocs,
      s.failedDocs⟩)

/-- How `_run_task_logic` ends. -/
inductive Ending where
  | normal (fileList : Option (List String))
  | timeout (msg : String)
  | exception (msg trace : String)

/-- `__call__`: only a task that ends normally is scheduled again, from the new start. -/
def call (epoch : T) (cleanup : List String → Option (ℕ × List String)) (newId : String)
    (t : Tables R) (existing : List String) (batches : List (DocBatch T)) (ending : Ending) :
    Tables R :=
  let t := start t now task.id task.connectorId
  match ending with
  | .normal fileList =>
    let (pollRangeStart, t, _) :=
      runTaskLogic iso hash128 now task epoch cleanup t existing batches fileList
    schedule t now newId task.connectorId task.kbId (some (iso pollRangeStart)) false 0
  | .timeout msg =>
    let s := batches.foldl (batchStep iso hash128 now task)
      ⟨task.pollRangeStart.getD epoch, 0, 0, 0, existing, t⟩
    s.tables.updateLog task.id fun log =>
      { log.touch now with status := .fail, errorMsg := msg }
  | .exception msg trace =>
    let s := batches.foldl (batchStep iso hash128 now task)
      ⟨task.pollRangeStart.getD epoch, 0, 0, 0, existing, t⟩
    s.tables.updateLog task.id fun log =>
      { log.touch now with status := .fail, errorMsg := msg, fullExceptionTrace := trace }

end RunTask

end RagFlow.Sync
