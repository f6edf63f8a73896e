/-
# The logs of data-source synchronisation

A log stands for one synchronisation of a connector with a dataset. Logs that are scheduled are
listed once their interval has passed, by a join with the connector, the link to the dataset and
the dataset, and each row of the list is started.
-/

import Mathlib.Data.List.Dedup
import Mathlib.Data.List.Sort
import Mathlib.Data.List.Nodup
import Mathlib.Order.Defs.LinearOrder

namespace RagFlow.Sync

inductive TaskStatus where
  | unstart
  | running
  | cancel
  | done
  | fail
  | schedule
deriving DecidableEq

inductive InputType where
  | loadState
  | poll
  | event
  | slimRetrieval
deriving DecidableEq

/-- A row of `sync_logs`. Update times are in milliseconds, update dates in seconds; `T` are the
bounds of the range that is polled. -/
structure SyncLog (T : Type*) where
  id : String
  connectorId : String
  kbId : String
  status : TaskStatus
  fromBeginning : String
  updateDate : Option ℤ
  updateTime : ℤ
  pollRangeStart : Option T
  pollRangeEnd : Option T
  newDocsIndexed : ℕ
  totalDocsIndexed : ℕ
  docsRemovedFromIndex : ℕ
  errorMsg : String
  fullExceptionTrace : String
  errorCount : ℕ
deriving DecidableEq

structure Connector where
  id : String
  tenantId : String
  name : String
  source : String
  inputType : InputType
  config : String
  /-- In minutes. -/
  refreshFreq : ℤ
  timeoutSecs : ℤ
  status : TaskStatus
deriving DecidableEq

structure Connector2Kb where
  connectorId : String
  kbId : String
  autoParse : String
deriving DecidableEq

structure Knowledgebase where
  id : String
  name : String
  avatar : String
deriving DecidableEq

structure Tables (T : Type*) where
  syncLogs : List (SyncLog T)
  connectors : List Connector
  connector2Kb : List Connector2Kb
  knowledgebases : List Knowledgebase

/-- A row of the list of tasks. -/
structure SyncTask (T : Type*) where
  id : String
  connectorId : String
  kbId : String
  updateDate : Option ℤ
  pollRangeStart : Option T
  pollRangeEnd : Option T
  newDocsIndexed : ℕ
  totalDocsIndexed : ℕ
  errorMsg : String
  fullExceptionTrace : String
  errorCount : ℕ
  name : String
  source : String
  tenantId : String
  timeoutSecs : ℤ
  kbName : String
  kbAvatar : String
  autoParse : String
  reindex : String
  status : TaskStatus
  updateTime : ℤ
  config : Option String
deriving DecidableEq

section Listing

variable {T : Type*} [DecidableEq T]

/-! ## Listing -/

def syncTask (withConfig : Bool) (log : SyncLog T) (connector : Connector) (link : Connector2Kb)
    (kb : Knowledgebase) : SyncTask T where
  id := log.id
  connectorId := log.connectorId
  kbId := log.kbId
  updateDate := log.updateDate
  pollRangeStart := log.pollRangeStart
  pollRangeEnd := log.pollRangeEnd
  newDocsIndexed := log.newDocsIndexed
  totalDocsIndexed := log.totalDocsIndexed
  errorMsg := log.errorMsg
  fullExceptionTrace := log.fullExceptionTrace
  errorCount := log.errorCount
  name := connector.name
  source := connector.source
  tenantId := connector.tenantId
  timeoutSecs := connector.timeoutSecs
  kbName := kb.name
  kbAvatar := kb.avatar
  autoParse := link.autoParse
  reindex := log.fromBeginning
  status := log.status
  updateTime := log.updateTime
  config := if withConfig then some connector.config else none

/-- The log is scheduled, its connector is a scheduled one that polls, and the interval has passed
since the log was updated. -/
def isDue (now : ℤ) (log : SyncLog T) (connector : Connector) : Bool :=
  connector.inputType = .poll && connector.status = .schedule && log.status = .schedule &&
    log.updateDate.any fun date => date < now - 60 * connector.refreshFreq

/-- `list_sync_tasks`: the rows, and how many there are on all pages. -/
def listSyncTasks (t : Tables T) (now : ℤ) (connectorId : Option String)
    (page : Option (ℕ × ℕ)) : List (SyncTask T) × ℕ :=
  let connectorId := connectorId.filter (· ≠ "")
  let condition := fun (log : SyncLog T) (connector : Connector) => match connectorId with
    | some id => decide (log.connectorId = id)
    | none => isDue now log connector
  let joined := t.syncLogs.flatMap fun log =>
    (t.connectors.filter fun c => log.connectorId = c.id && condition log c).flatMap fun c =>
      (t.connector2Kb.filter fun l => log.kbId = l.kbId).flatMap fun l =>
        (t.knowledgebases.filter fun kb => log.kbId = kb.id).map fun kb =>
          syncTask connectorId.isNone log c l kb
  let query := joined.dedup.mergeSort fun a b => decide (b.updateTime ≤ a.updateTime)
  let rows := match page with
    | some (pageNumber, itemsPerPage) =>
      if pageNumber = 0 then query
      else (query.drop ((pageNumber - 1) * itemsPerPage)).take itemsPerPage
    | none => query
  (rows, query.length)

def funcFactory : List String :=
  ["rss", "s3", "r2", "oci_storage", "google_cloud_storage", "notion", "discord", "confluence",
    "gmail", "google_drive", "jira", "sharepoint", "slack", "teams", "moodle", "dropbox", "webdav",
    "box", "airtable", "asana", "imap", "zendesk", "github", "gitlab", "bitbucket", "seafile",
    "mysql", "postgresql", "dingtalk_ai_table"]

/-- `dispatch_tasks` starts each row of the list; a source without a function stops it. -/
def dispatchTasks (t : Tables T) (now : ℤ) : Option (List (SyncTask T)) :=
  (listSyncTasks t now none none).1.mapM fun task =>
    if task.source ∈ funcFactory then some task else none

/-! ## What is due -/

/-- The rows with the link of the connector to the dataset. -/
def ownTasks (t : Tables T) (now : ℤ) : List (SyncTask T) :=
  t.syncLogs.flatMap fun log =>
    (t.connectors.filter fun c => log.connectorId = c.id && isDue now log c).flatMap fun c =>
      (t.connector2Kb.filter fun l =>
          log.connectorId = l.connectorId && log.kbId = l.kbId).flatMap fun l =>
        (t.knowledgebases.filter fun kb => log.kbId = kb.id).map (syncTask true log c l)

/-- The logs that are due. -/
def dueLogs (t : Tables T) (now : ℤ) : List (SyncLog T) :=
  t.syncLogs.filter fun log => t.connectors.any fun c => log.connectorId = c.id && isDue now log c

/-- Ids are those of one row, and each log has one link of its connector to its dataset. -/
structure Tables.Linked (t : Tables T) : Prop where
  logs : (t.syncLogs.map SyncLog.id).Nodup
  connectors : (t.connectors.map Connector.id).Nodup
  knowledgebases : (t.knowledgebases.map Knowledgebase.id).Nodup
  dataset : ∀ log ∈ t.syncLogs, ∃ kb ∈ t.knowledgebases, kb.id = log.kbId
  linked : ∀ log ∈ t.syncLogs, ∃ own, (t.connector2Kb.filter fun l =>
    log.connectorId = l.connectorId && log.kbId = l.kbId) = [own]

end Listing

end RagFlow.Sync
