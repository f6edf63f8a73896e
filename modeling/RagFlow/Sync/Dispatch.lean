/-
# Which synchronisations are started

The list of tasks joins a log with every link to its dataset, the link of another connector
included. Rows of one log that differ in their link are kept apart, and all of them are started.
-/

import RagFlow.Math.Except
import RagFlow.Sync.Logs

namespace RagFlow.Sync

variable {T : Type*} {t : Tables T} {now : ℤ}

/-! ## The rows of one log -/

/-- The rows that the list has for one log before duplicates go. -/
def rowsOf (t : Tables T) (now : ℤ) (log : SyncLog T) : List (SyncTask T) :=
  (t.connectors.filter fun c => log.connectorId = c.id && isDue now log c).flatMap fun c =>
    (t.connector2Kb.filter fun l => log.kbId = l.kbId).flatMap fun l =>
      (t.knowledgebases.filter fun kb => log.kbId = kb.id).map (syncTask true log c l)

def ownRowsOf (t : Tables T) (now : ℤ) (log : SyncLog T) : List (SyncTask T) :=
  (t.connectors.filter fun c => log.connectorId = c.id && isDue now log c).flatMap fun c =>
    (t.connector2Kb.filter fun l =>
        log.connectorId = l.connectorId && log.kbId = l.kbId).flatMap fun l =>
      (t.knowledgebases.filter fun kb => log.kbId = kb.id).map (syncTask true log c l)

/-- The links of one dataset agree with the link of the connector, wherever a log is due. -/
def Tables.AgreeingLinks (t : Tables T) (now : ℤ) : Prop :=
  ∀ log ∈ dueLogs t now, ∀ own ∈ t.connector2Kb, own.connectorId = log.connectorId →
    own.kbId = log.kbId → ∀ link ∈ t.connector2Kb, link.kbId = log.kbId →
      link.autoParse = own.autoParse

theorem filter_key_eq {α β : Type*} [DecidableEq β] {f : α → β} {l : List α}
    (hl : (l.map f).Nodup) {a : α} (ha : a ∈ l) : (l.filter fun b => f a = f b) = [a] := by
  induction l with
  | nil => cases ha
  | cons b l ih =>
      obtain ⟨hb, hl'⟩ := List.nodup_cons.mp hl
      rcases List.mem_cons.mp ha with rfl | ha
      · have hrest : (l.filter fun b => f a = f b) = [] := by
          rw [List.filter_eq_nil_iff]
          intro c hc hac
          exact hb (List.mem_map.mpr ⟨c, hc, (of_decide_eq_true hac).symm⟩)
        rw [List.filter_cons_of_pos (by simp), hrest]
      · have hne : f a ≠ f b := fun hab => hb (hab ▸ List.mem_map_of_mem ha)
        rw [List.filter_cons_of_neg (by simpa using hne), ih hl' ha]

/-- What a log is joined with if it is due. -/
theorem exists_joined (ht : t.Linked) {log : SyncLog T} (hlog : log ∈ dueLogs t now) :
    ∃ c kb own, (t.connectors.filter fun c => log.connectorId = c.id && isDue now log c) = [c] ∧
      c ∈ t.connectors ∧ log.connectorId = c.id ∧
      (t.knowledgebases.filter fun kb => log.kbId = kb.id) = [kb] ∧
      (t.connector2Kb.filter fun l =>
        log.connectorId = l.connectorId && log.kbId = l.kbId) = [own] := by
  obtain ⟨hmem, hany⟩ := List.mem_filter.mp hlog
  obtain ⟨c, hc, hdue⟩ := List.any_eq_true.mp hany
  rw [Bool.and_eq_true, decide_eq_true_eq] at hdue
  obtain ⟨kb, hkb, hid⟩ := ht.dataset log hmem
  obtain ⟨own, hown⟩ := ht.linked log hmem
  have hconnector : (t.connectors.filter fun c => log.connectorId = c.id) = [c] := by
    rw [hdue.1]
    exact filter_key_eq ht.connectors hc
  refine ⟨c, kb, own, ?_, hc, hdue.1, ?_, hown⟩
  · have hfilter : (t.connectors.filter fun c => log.connectorId = c.id && isDue now log c) =
        (t.connectors.filter fun c => log.connectorId = c.id).filter (isDue now log) := by
      rw [List.filter_filter]
      exact List.filter_congr fun x _ => Bool.and_comm _ _
    rw [hfilter, hconnector, List.filter_cons_of_pos hdue.2, List.filter_nil]
  · rw [← hid]
    exact filter_key_eq ht.knowledgebases hkb

/-- A log that is not due is joined with no connector. -/
theorem connectors_of_not_due {log : SyncLog T} (hmem : log ∈ t.syncLogs)
    (hlog : log ∉ dueLogs t now) :
    (t.connectors.filter fun c => log.connectorId = c.id && isDue now log c) = [] := by
  rw [List.filter_eq_nil_iff]
  intro c hc hdue
  exact hlog (List.mem_filter.mpr ⟨hmem, List.any_eq_true.mpr ⟨c, hc, hdue⟩⟩)

theorem rowsOf_of_not_due {log : SyncLog T} (hmem : log ∈ t.syncLogs)
    (hlog : log ∉ dueLogs t now) : rowsOf t now log = [] := by
  rw [rowsOf, connectors_of_not_due hmem hlog, List.flatMap_nil]

theorem ownRowsOf_of_not_due {log : SyncLog T} (hmem : log ∈ t.syncLogs)
    (hlog : log ∉ dueLogs t now) : ownRowsOf t now log = [] := by
  rw [ownRowsOf, connectors_of_not_due hmem hlog, List.flatMap_nil]

/-- A log that is due has one row of its own, and one in the list for each link to its dataset. -/
theorem exists_rowsOf (ht : t.Linked) {log : SyncLog T} (hlog : log ∈ dueLogs t now) :
    ∃ c kb own, c ∈ t.connectors ∧ log.connectorId = c.id ∧ own ∈ t.connector2Kb ∧
      log.connectorId = own.connectorId ∧ log.kbId = own.kbId ∧
      ownRowsOf t now log = [syncTask true log c own kb] ∧
      rowsOf t now log = (t.connector2Kb.filter fun l => log.kbId = l.kbId).map
        fun l => syncTask true log c l kb := by
  obtain ⟨c, kb, own, hconnector, hc, hid, hkb, hown⟩ := exists_joined ht hlog
  have hmem : own ∈ t.connector2Kb.filter fun l =>
      log.connectorId = l.connectorId && log.kbId = l.kbId := hown ▸ List.mem_singleton.mpr rfl
  obtain ⟨hlink, hboth⟩ := List.mem_filter.mp hmem
  rw [Bool.and_eq_true, decide_eq_true_eq, decide_eq_true_eq] at hboth
  refine ⟨c, kb, own, hc, hid, hlink, hboth.1, hboth.2, ?_, ?_⟩
  · rw [ownRowsOf, hconnector, hown, hkb]
    rfl
  · rw [rowsOf, hconnector, hkb, List.flatMap_cons, List.flatMap_nil, List.append_nil]
    simp only [List.map_cons, List.map_nil, ← List.map_eq_flatMap]

theorem ownTasks_eq (t : Tables T) (now : ℤ) : ownTasks t now =
    t.syncLogs.flatMap (ownRowsOf t now) := rfl

/-- Each log that is due has one row of its own. -/
theorem map_id_ownTasks (ht : t.Linked) :
    (ownTasks t now).map SyncTask.id = (dueLogs t now).map SyncLog.id := by
  have hrow : ∀ log ∈ t.syncLogs, (ownRowsOf t now log).map SyncTask.id =
      if (t.connectors.any fun c => log.connectorId = c.id && isDue now log c) then [log.id]
      else [] := by
    intro log hmem
    split
    · next hdue =>
        obtain ⟨c, kb, own, _, _, _, _, _, hrow, _⟩ :=
          exists_rowsOf ht (List.mem_filter.mpr ⟨hmem, hdue⟩)
        rw [hrow]
        rfl
    · next hdue =>
        rw [ownRowsOf_of_not_due hmem fun hlog => hdue (List.mem_filter.mp hlog).2]
        rfl
  rw [ownTasks_eq, List.map_flatMap, List.flatMap_congr hrow, dueLogs]
  induction t.syncLogs with
  | nil => rfl
  | cons log logs ih =>
      rw [List.flatMap_cons, List.filter_cons, ih]
      split <;> rfl

theorem nodup_ownTasks (ht : t.Linked) : (ownTasks t now).Nodup := by
  refine List.Nodup.of_map SyncTask.id ?_
  rw [map_id_ownTasks ht]
  exact (List.filter_sublist.map SyncLog.id).nodup ht.logs

/-- The sources of the connectors whose logs are due. -/
theorem source_of_mem_ownTasks (ht : t.Linked) :
    (∀ task ∈ ownTasks t now, task.source ∈ funcFactory) ↔
      ∀ log ∈ dueLogs t now, ∀ c ∈ t.connectors, c.id = log.connectorId →
        c.source ∈ funcFactory := by
  constructor
  · intro hall log hlog c hc hid
    obtain ⟨c', kb, own, hc', hid', _, _, _, hrow, _⟩ := exists_rowsOf ht hlog
    have hsame : c' = c :=
      List.inj_on_of_nodup_map ht.connectors hc' hc (hid'.symm.trans hid.symm)
    have hmem : syncTask true log c' own kb ∈ ownTasks t now := by
      rw [ownTasks_eq]
      exact List.mem_flatMap.mpr
        ⟨log, (List.mem_filter.mp hlog).1, hrow ▸ List.mem_singleton.mpr rfl⟩
    exact hsame ▸ hall _ hmem
  · intro hall task htask
    rw [ownTasks_eq] at htask
    obtain ⟨log, hmem, hrow⟩ := List.mem_flatMap.mp htask
    by_cases hlog : log ∈ dueLogs t now
    · obtain ⟨c, kb, own, hc, hid, _, _, _, hrows, _⟩ := exists_rowsOf ht hlog
      rw [hrows, List.mem_singleton] at hrow
      exact hrow ▸ hall log hlog c hc hid.symm
    · rw [ownRowsOf_of_not_due hmem hlog] at hrow
      cases hrow

/-! ## The list -/

variable [DecidableEq T]

theorem perm_listSyncTasks (t : Tables T) (now : ℤ) :
    (listSyncTasks t now none none).1.Perm (t.syncLogs.flatMap (rowsOf t now)).dedup :=
  List.mergeSort_perm _ _

/-- The list is the list of own rows exactly if no link of a dataset disagrees. -/
theorem perm_listSyncTasks_iff (ht : t.Linked) :
    (listSyncTasks t now none none).1.Perm (ownTasks t now) ↔ t.AgreeingLinks now := by
  have hmem : (listSyncTasks t now none none).1.Perm (ownTasks t now) ↔
      ∀ task, task ∈ t.syncLogs.flatMap (rowsOf t now) ↔ task ∈ ownTasks t now := by
    rw [(perm_listSyncTasks t now).congr_left,
      List.perm_ext_iff_of_nodup (List.nodup_dedup _) (nodup_ownTasks ht)]
    simp only [List.mem_dedup]
  rw [hmem, ownTasks_eq]
  constructor
  · intro hall log hlog own hown hconnector hkb link hlink hdataset
    obtain ⟨c, kb, own', hc, hid, hown', _, _, hrow, hrows⟩ := exists_rowsOf ht hlog
    have hin := (List.mem_filter.mp hlog).1
    -- Every link to the dataset has a row, which is a row of the log's own by its id.
    have hauto : ∀ l ∈ t.connector2Kb, l.kbId = log.kbId → l.autoParse = own'.autoParse := by
      intro l hl hlkb
      have htask : syncTask true log c l kb ∈ t.syncLogs.flatMap (rowsOf t now) := by
        refine List.mem_flatMap.mpr ⟨log, hin, ?_⟩
        rw [hrows]
        exact List.mem_map.mpr ⟨l, List.mem_filter.mpr ⟨hl, by simp [hlkb]⟩, rfl⟩
      obtain ⟨log', hin', hrow'⟩ := List.mem_flatMap.mp ((hall _).mp htask)
      have hlog' : log' ∈ dueLogs t now := by
        by_contra hnot
        rw [ownRowsOf_of_not_due hin' hnot] at hrow'
        cases hrow'
      obtain ⟨c', kb', own'', _, _, _, _, _, hown'', _⟩ := exists_rowsOf ht hlog'
      rw [hown'', List.mem_singleton] at hrow'
      have hsame : log' = log :=
        List.inj_on_of_nodup_map ht.logs hin' hin (congrArg SyncTask.id hrow').symm
      subst hsame
      rw [hrow, List.cons.injEq] at hown''
      exact (congrArg SyncTask.autoParse hrow').trans (congrArg SyncTask.autoParse hown''.1).symm
    rw [hauto link hlink hdataset, hauto own hown hkb]
  · intro hagree task
    rw [List.mem_flatMap, List.mem_flatMap]
    refine exists_congr fun log => and_congr_right fun hin => ?_
    by_cases hlog : log ∈ dueLogs t now
    · obtain ⟨c, kb, own, hc, hid, hown, hconnector, hkb, hrow, hrows⟩ := exists_rowsOf ht hlog
      rw [hrow, hrows, List.mem_map, List.mem_singleton]
      constructor
      · rintro ⟨l, hl, rfl⟩
        obtain ⟨hl, hlkb⟩ := List.mem_filter.mp hl
        have hauto : l.autoParse = own.autoParse :=
          hagree log hlog own hown hconnector.symm hkb.symm l hl (of_decide_eq_true hlkb).symm
        rw [syncTask, syncTask, hauto]
      · rintro rfl
        exact ⟨own, List.mem_filter.mpr ⟨hown, decide_eq_true hkb⟩, rfl⟩
    · rw [rowsOf_of_not_due hin hlog, ownRowsOf_of_not_due hin hlog]

theorem isSome_dispatchTasks_iff : (dispatchTasks t now).isSome ↔
    ∀ task ∈ (listSyncTasks t now none none).1, task.source ∈ funcFactory := by
  rw [dispatchTasks, Math.isSome_mapM]
  refine forall₂_congr fun task _ => ?_
  split <;> simp_all

theorem dispatchTasks_eq
    (h : ∀ task ∈ (listSyncTasks t now none none).1, task.source ∈ funcFactory) :
    dispatchTasks t now = some (listSyncTasks t now none none).1 := by
  have hmap := Math.mapM_eq_map (l := (listSyncTasks t now none none).1)
    (f := fun task => if task.source ∈ funcFactory then some task else none) (g := id)
    fun task htask => if_pos (h task htask)
  rw [dispatchTasks, hmap, List.map_id]

/-- What is due is listed once with its own settings, and started once, exactly if the links of
the dataset of a log that is due agree and its source has a function. -/
theorem due_once_iff (t : Tables T) (now : ℤ) (ht : t.Linked) :
    ((listSyncTasks t now none none).1.Perm (ownTasks t now) ∧
        (ownTasks t now).map SyncTask.id = (dueLogs t now).map SyncLog.id ∧
        ∃ started, dispatchTasks t now = some started ∧
          (started.map SyncTask.id).Perm ((dueLogs t now).map SyncLog.id)) ↔
      t.AgreeingLinks now ∧ ∀ log ∈ dueLogs t now, ∀ c ∈ t.connectors, c.id = log.connectorId →
        c.source ∈ funcFactory := by
  rw [← source_of_mem_ownTasks ht, perm_listSyncTasks_iff ht]
  constructor
  · rintro ⟨hagree, _, started, hstarted, _⟩
    have hlist := (perm_listSyncTasks_iff ht).mpr hagree
    have hsome := isSome_dispatchTasks_iff.mp (Option.isSome_of_mem hstarted)
    exact ⟨hagree, fun task htask => hsome task (hlist.mem_iff.mpr htask)⟩
  · rintro ⟨hagree, hsource⟩
    have hlist := (perm_listSyncTasks_iff ht).mpr hagree
    refine ⟨hagree, map_id_ownTasks ht, _, dispatchTasks_eq fun task htask =>
      hsource task (hlist.mem_iff.mp htask), ?_⟩
    rw [← map_id_ownTasks ht]
    exact hlist.map _

/-- Two connectors that poll one dataset, each with a link of its own. -/
def sharedDataset (first second : String) : Tables ℕ where
  syncLogs := [⟨"log", "a", "kb", .schedule, "0", some 0, 0, none, none, 0, 0, 0, "", "", 0⟩]
  connectors :=
    [⟨"a", "tenant", "", "s3", .poll, "\x7b\x7d", 5, 3600, .schedule⟩,
      ⟨"b", "tenant", "", "rss", .poll, "\x7b\x7d", 5, 3600, .schedule⟩]
  connector2Kb := [⟨"a", "kb", first⟩, ⟨"b", "kb", second⟩]
  knowledgebases := [⟨"kb", "", ""⟩]

theorem sharedDataset_linked (first second : String) : (sharedDataset first second).Linked where
  logs := by simp [sharedDataset]
  connectors := by simp [sharedDataset]
  knowledgebases := by simp [sharedDataset]
  dataset := by simp [sharedDataset]
  linked := by simp [sharedDataset]

theorem due_once_sharedDataset :
    (listSyncTasks (sharedDataset "1" "1") 1000 none none).1.Perm
      (ownTasks (sharedDataset "1" "1") 1000) := by
  refine ((due_once_iff (sharedDataset "1" "1") 1000 (sharedDataset_linked "1" "1")).mpr
    ⟨?_, by decide⟩).1
  intro log _ own hown _ _ link hlink _
  simp only [sharedDataset, List.mem_cons, List.not_mem_nil, or_false] at hown hlink
  rcases hown with rfl | rfl <;> rcases hlink with rfl | rfl <;> rfl

/-- With one link that parses and one that does not, the one log that is due is listed and started
twice. -/
theorem due_twice :
    (sharedDataset "1" "0").Linked ∧
      (dueLogs (sharedDataset "1" "0") 1000).map SyncLog.id = ["log"] ∧
      (ownTasks (sharedDataset "1" "0") 1000).map SyncTask.autoParse = ["1"] ∧
      (dispatchTasks (sharedDataset "1" "0") 1000).map
          (List.map fun task => (task.id, task.autoParse)) =
        some [("log", "1"), ("log", "0")] := by
  refine ⟨sharedDataset_linked "1" "0", by decide, by decide, ?_⟩
  rw [dispatchTasks, listSyncTasks]
  dsimp only
  rw [List.mergeSort_of_pairwise (by decide +kernel)]
  decide +kernel

end RagFlow.Sync
