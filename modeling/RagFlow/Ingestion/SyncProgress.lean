/-
# The status of a document from its tasks

`_sync_progress` reads the tasks of a document, then the document, folds the tasks into a
status, a progress and a message, and writes them much later. The write is conditional on
the row as it is then, so a document that is cancelled in between is left alone. A document
without tasks is skipped, whatever its status says.
-/

import RagFlow.Ingestion.Parents
import RagFlow.Math.Threads
import Mathlib.Algebra.BigOperators.Group.List.Basic
import Mathlib.Algebra.Order.BigOperators.Group.List
import Mathlib.Algebra.Order.Field.Basic
import Mathlib.Data.Rat.Cast.Order

namespace RagFlow.Ingestion

open RagFlow.Math Threads

/-! ## The fold over the tasks -/

inductive TaskStatus where
  | unstart
  | running
  | cancel
  | done
  | fail
  | schedule
deriving DecidableEq

/-- A row of the task table. -/
structure SyncTask where
  taskType : String
  progress : ℚ
  progressMsg : Option String
  priority : ℤ

/-- The task types that freeze the progress of a parsed document. -/
def pipelineSpecialProgressFreezeTaskTypes : List String := ["raptor", "graphrag", "mindmap"]

/-- The variables of the loop over the tasks. -/
structure Tally where
  msg : List String
  prg : ℚ
  finished : Bool
  bad : ℕ
  specialTaskRunning : Bool
  priority : ℤ

/-- The progress of a task that is still to be done. -/
def SyncTask.Unfinished (t : SyncTask) : Prop := 0 ≤ t.progress ∧ t.progress < 1

instance (t : SyncTask) : Decidable t.Unfinished := inferInstanceAs (Decidable (_ ∧ _))

/-- The body of the loop. `None` has no `strip`. -/
def Tally.add (acc : Tally) (t : SyncTask) : Option Tally :=
  match t.progressMsg with
  | none => none
  | some progressMsg => some
    { msg := if progressMsg.toList.any fun c => !isSpace c then acc.msg ++ [progressMsg]
        else acc.msg
      prg := acc.prg + if 0 ≤ t.progress then t.progress else 0
      finished := if t.Unfinished then false else acc.finished
      bad := if t.progress = -1 then acc.bad + 1 else acc.bad
      specialTaskRunning := acc.specialTaskRunning ||
        t.taskType.toLower ∈ pipelineSpecialProgressFreezeTaskTypes
      priority := max acc.priority t.priority }

def tally (tsks : List SyncTask) : Option Tally :=
  tsks.foldlM Tally.add
    { msg := [], prg := 0, finished := true, bad := 0, specialTaskRunning := false, priority := 0 }

/-- The progress and the status that a tally of `count` tasks gives. -/
def Tally.status (t : Tally) (count : ℕ) : ℚ × TaskStatus :=
  if t.finished && t.bad ≠ 0 then (-1, .fail)
  else if t.finished then (1, .done)
  else (t.prg / count, .running)

/-- The progress of a parsed document stays while a follow-up task is under way. -/
def Tally.freezesProgress (t : Tally) (docProgress : ℚ) : Bool :=
  t.specialTaskRunning && 1 ≤ docProgress && !t.finished

/-! ## Rows, and a pass over them -/

/-- A row of the document table. -/
structure SyncDoc where
  run : Option TaskStatus
  progress : ℚ
  progressMsg : String
  processBeginAt : Option ℚ
  processDuration : ℚ
  updateTime : ℚ

/-- The fields that a pass writes at its end. -/
structure SyncInfo where
  processDuration : ℚ
  run : TaskStatus
  progress : Option ℚ
  progressMsg : String
  updateTime : ℚ

structure SyncDb (δ : Type*) where
  docs : δ → Option SyncDoc
  tasks : δ → List SyncTask

/-- What a pass was given of a document. -/
structure SyncArg (δ : Type*) where
  id : δ
  processBeginAt : Option ℚ

/-- What a step of a pass finds outside the database. -/
structure Moment where
  now : ℚ
  getQueueLength : ℤ → ℕ

/-- Where a pass stands: what it has read of the present document, and the documents after
it. -/
inductive SyncPass (δ : Type*) where
  | next (docs : List (SyncArg δ))
  | tasksRead (d : SyncArg δ) (tsks : List SyncTask) (rest : List (SyncArg δ))
  | docRead (d : SyncArg δ) (count : ℕ) (t : Tally) (docProgress : ℚ) (rest : List (SyncArg δ))
  | writing (id : δ) (beginAt : ℚ) (count : ℕ) (t : Tally) (docProgress : ℚ)
      (rest : List (SyncArg δ))

def tasksAhead (m : Moment) (priority : ℤ) : String :=
  toString (m.getQueueLength priority) ++ " tasks are ahead in the queue..."

/-- The message of the document, from the messages of its tasks. -/
def Tally.progressMsg (t : Tally) (m : Moment) : String :=
  let msg := "\n".intercalate (t.msg.mergeSort fun a b => decide (a ≤ b))
  if msg = "" then tasksAhead m t.priority
  else if ["created task graphrag", "created task raptor", "created task mindmap"].any
      fun ending => ending.toList.isSuffixOf msg.toList then
    msg ++ "\n" ++ tasksAhead m t.priority
  else msg

/-- The dictionary `info`. -/
def Tally.info (t : Tally) (m : Moment) (beginAt : ℚ) (count : ℕ) (docProgress : ℚ) :
    SyncInfo where
  processDuration := max (m.now - beginAt) 0
  run := (t.status count).2
  progress :=
    if (t.status count).1 ≠ 0 ∧ t.freezesProgress docProgress = false then
      some (t.status count).1
    else none
  progressMsg := t.progressMsg m
  updateTime := m.now

def SyncDoc.update (doc : SyncDoc) (info : SyncInfo) : SyncDoc where
  run := some info.run
  progress := info.progress.getD doc.progress
  progressMsg := info.progressMsg
  processBeginAt := doc.processBeginAt
  processDuration := info.processDuration
  updateTime := info.updateTime

variable {δ : Type*} [DecidableEq δ]

/-- An `UPDATE` of one row, where there is one. -/
def SyncDb.updateDoc (db : SyncDb δ) (id : δ) (f : SyncDoc → SyncDoc) : SyncDb δ :=
  { db with docs := Function.update db.docs id ((db.docs id).map f) }

/-- The write at the end, on a row that is not cancelled. -/
def SyncDb.writeInfo (db : SyncDb δ) (id : δ) (info : SyncInfo) : SyncDb δ :=
  db.updateDoc id fun doc => if doc.run = some .cancel then doc else doc.update info

/-- The next step of a pass; `none` at its end. An exception is logged, and the pass goes on
with the next document. -/
def syncStep (m : Moment) (db : SyncDb δ) : SyncPass δ → Option (SyncDb δ × SyncPass δ)
  | .next [] => none
  | .next (d :: rest) =>
    if db.tasks d.id = [] then some (db, .next rest)
    else some (db, .tasksRead d (db.tasks d.id) rest)
  | .tasksRead d tsks rest =>
    match db.docs d.id with
    -- `get_by_id` has answered `None`, which has no `run`.
    | none => some (db, .next rest)
    | some doc =>
      if doc.run = some .cancel then some (db, .next rest)
      else
        match tally tsks with
        | none => some (db, .next rest)
        | some t => some (db, .docRead d tsks.length t doc.progress rest)
  | .docRead d count t docProgress rest =>
    match d.processBeginAt with
    | some beginAt => some (db, .writing d.id beginAt count t docProgress rest)
    | none =>
      some (db.updateDoc d.id
          fun doc => { doc with processBeginAt := some m.now, updateTime := m.now },
        .writing d.id m.now count t docProgress rest)
  | .writing id beginAt count t docProgress rest =>
    some (db.writeInfo id (t.info m beginAt count docProgress), .next rest)

/-- A step of a pass with nothing in between. -/
def PassStep (p q : SyncDb δ × SyncPass δ) : Prop := ∃ m, syncStep m p.1 p.2 = some q

/-- A pass takes its next step, or someone else updates the tasks of a document or cancels
it. -/
inductive SyncStep {ι : Type*} (_i : ι) (db : SyncDb δ) (pass : SyncPass δ) :
    SyncDb δ → SyncPass δ → Prop
  | pass (m : Moment) {db' : SyncDb δ} {pass' : SyncPass δ}
      (h : syncStep m db pass = some (db', pass')) : SyncStep _i db pass db' pass'
  | updateTasks (id : δ) (tsks : List SyncTask) :
      SyncStep _i db pass { db with tasks := Function.update db.tasks id tsks } pass
  /-- One of the two places that cancel a document sets its progress to 0. -/
  | cancel (id : δ) (resetProgress : Bool) : SyncStep _i db pass
      (db.updateDoc id fun doc =>
        { doc with
          run := some .cancel
          progress := if resetProgress then 0 else doc.progress })
      pass

/-! ## The tally -/

variable {tsks : List SyncTask} {t acc acc' : Tally}

/-- What one task adds. -/
theorem tally_add {task : SyncTask} (h : acc.add task = some acc') :
    acc'.prg = acc.prg + max task.progress 0 ∧
      (acc'.finished = true ↔ acc.finished = true ∧ ¬ task.Unfinished) ∧
      (acc'.bad ≠ 0 ↔ acc.bad ≠ 0 ∨ task.progress = -1) := by
  rw [Tally.add] at h
  split at h
  · cases h
  · obtain rfl := Option.some.inj h
    refine ⟨?_, ?_, ?_⟩
    · rw [max_comm task.progress, max_def 0 task.progress]
    · by_cases htask : task.Unfinished <;> simp [htask]
    · by_cases hbad : task.progress = -1 <;> simp [hbad]

theorem tally_foldlM (h : tsks.foldlM Tally.add acc = some t) :
    t.prg = acc.prg + (tsks.map fun task => max task.progress 0).sum ∧
      (t.finished = true ↔ acc.finished = true ∧ ∀ task ∈ tsks, ¬ task.Unfinished) ∧
      (t.bad ≠ 0 ↔ acc.bad ≠ 0 ∨ ∃ task ∈ tsks, task.progress = -1) := by
  induction tsks generalizing acc with
  | nil =>
      obtain rfl := Option.some.inj h
      simp
  | cons task tsks ih =>
      rw [List.foldlM_cons] at h
      obtain ⟨acc', hadd, hrest⟩ := Option.bind_eq_some_iff.mp h
      obtain ⟨hprg, hfinished, hbad⟩ := ih hrest
      obtain ⟨hprg', hfinished', hbad'⟩ := tally_add hadd
      refine ⟨?_, ?_, ?_⟩
      · rw [hprg, hprg', List.map_cons, List.sum_cons, add_assoc]
      · rw [hfinished, hfinished', List.forall_mem_cons, and_assoc]
      · rw [hbad, hbad', List.exists_mem_cons_iff, or_assoc]

/-- The tally raises at a message that is null, and at no other task. -/
theorem tally_foldlM_eq_none_iff :
    tsks.foldlM Tally.add acc = none ↔ ∃ task ∈ tsks, task.progressMsg = none := by
  induction tsks generalizing acc with
  | nil => simp
  | cons task tsks ih =>
      rw [List.foldlM_cons, List.exists_mem_cons_iff]
      cases hmsg : task.progressMsg with
      | none => simp [Tally.add, hmsg]
      | some msg =>
          have hadd : ∃ acc', acc.add task = some acc' := by simp [Tally.add, hmsg]
          obtain ⟨acc', hadd⟩ := hadd
          rw [hadd]
          simpa using ih

theorem tally_spec (h : tally tsks = some t) :
    t.prg = (tsks.map fun task => max task.progress 0).sum ∧
      (t.finished = true ↔ ∀ task ∈ tsks, ¬ task.Unfinished) ∧
      (t.bad ≠ 0 ↔ ∃ task ∈ tsks, task.progress = -1) := by
  simpa using tally_foldlM h

/-- With a task that is unfinished, and no progress above 1, the mean is below 1. -/
theorem mean_lt_one (hunf : ∃ task ∈ tsks, task.Unfinished)
    (hle : ∀ task ∈ tsks, task.progress ≤ 1) :
    (tsks.map fun task => max task.progress 0).sum / tsks.length < 1 := by
  have hsum : (tsks.map fun task => max task.progress 0).sum < (tsks.map fun _ => (1 : ℚ)).sum := by
    obtain ⟨task, hmem, hunf⟩ := hunf
    refine List.sum_lt_sum _ _ (fun task' hmem' => max_le (hle task' hmem') zero_le_one) ?_
    exact ⟨task, hmem, max_lt hunf.2 zero_lt_one⟩
  have hpos : (0 : ℚ) < tsks.length := by
    obtain ⟨task, hmem, -⟩ := hunf
    exact_mod_cast List.length_pos_of_mem hmem
  rw [List.map_const', List.sum_replicate, nsmul_one] at hsum
  rwa [div_lt_one hpos]

/-! ## What a pass leaves -/

/-- The status and the progress that the tasks ask for; `before` is the progress that stays
if none is written. -/
def FollowsTasks (tsks : List SyncTask) (before : ℚ) (doc : SyncDoc) : Prop :=
  ((∃ task ∈ tsks, task.Unfinished) → doc.run = some .running ∧
    (doc.progress = before ∨
      0 < doc.progress ∧ ((∀ task ∈ tsks, task.progress ≤ 1) → doc.progress < 1))) ∧
  ((∀ task ∈ tsks, ¬ task.Unfinished) → (∃ task ∈ tsks, task.progress = -1) →
    doc.run = some .fail ∧ doc.progress = -1) ∧
  ((∀ task ∈ tsks, ¬ task.Unfinished) → (∀ task ∈ tsks, task.progress ≠ -1) →
    doc.run = some .done ∧ doc.progress = 1)

/-- What the write makes of a row whose progress stood at `before`, or was written by a pass
already. -/
theorem followsTasks_update (h : tally tsks = some t) {before : ℚ} {doc : SyncDoc}
    (hdoc : doc.progress = before ∨ FollowsTasks tsks before doc) (m : Moment)
    (beginAt docProgress : ℚ) :
    FollowsTasks tsks before (doc.update (t.info m beginAt tsks.length docProgress)) := by
  obtain ⟨hprg, hfinished, hbad⟩ := tally_spec h
  refine ⟨fun hunf => ?_, fun hdone hfail => ?_, fun hdone hfine => ?_⟩
  · have hnot : t.finished = false := by
      by_contra hfin
      obtain ⟨task, hmem, hunf⟩ := hunf
      exact hfinished.mp (by simpa using hfin) task hmem hunf
    have hstatus : t.status tsks.length = (t.prg / tsks.length, .running) := by
      simp [Tally.status, hnot]
    refine ⟨by simp [SyncDoc.update, Tally.info, hstatus], ?_⟩
    simp only [SyncDoc.update, Tally.info, hstatus, hprg]
    split_ifs with hwrite
    · refine Or.inr ⟨lt_of_le_of_ne ?_ (Ne.symm hwrite.1), mean_lt_one hunf⟩
      refine div_nonneg (List.sum_nonneg fun x hx => ?_) (Nat.cast_nonneg _)
      obtain ⟨task, -, rfl⟩ := List.mem_map.mp hx
      exact le_max_right _ _
    · rcases hdoc with hsame | hfollows
      · exact Or.inl hsame
      · exact (hfollows.1 hunf).2
  · have hstatus : t.status tsks.length = (-1, .fail) := by
      simp [Tally.status, hfinished.mpr hdone, hbad.mpr hfail]
    simp [SyncDoc.update, Tally.info, hstatus, Tally.freezesProgress, hfinished.mpr hdone]
  · have hzero : t.bad = 0 := by
      by_contra hne
      obtain ⟨task, hmem, heq⟩ := hbad.mp hne
      exact hfine task hmem heq
    have hstatus : t.status tsks.length = (1, .done) := by
      simp [Tally.status, hfinished.mpr hdone, hzero]
    simp [SyncDoc.update, Tally.info, hstatus, Tally.freezesProgress, hfinished.mpr hdone]

/-! ## A pass without disturbance -/

namespace SyncPass

/-- The documents that a pass has still to write, or to skip. -/
def ahead : SyncPass δ → List δ
  | next docs => docs.map SyncArg.id
  | tasksRead d _ rest => d.id :: rest.map SyncArg.id
  | docRead d _ _ _ rest => d.id :: rest.map SyncArg.id
  | writing id _ _ _ _ rest => id :: rest.map SyncArg.id

/-- What a pass carries along comes from the tasks, and none of them raises. -/
def ReadFrom (tasks : δ → List SyncTask) : SyncPass δ → Prop
  | next _ => True
  | tasksRead d tsks _ => tsks = tasks d.id ∧ tsks ≠ []
  | docRead d count t _ _ =>
    count = (tasks d.id).length ∧ tasks d.id ≠ [] ∧ tally (tasks d.id) = some t
  | writing id _ count t _ _ =>
    count = (tasks id).length ∧ tasks id ≠ [] ∧ tally (tasks id) = some t

end SyncPass

variable {db db' : SyncDb δ} {pass pass' : SyncPass δ} {m : Moment} {d : δ} {doc : SyncDoc}

/-- A row after an `UPDATE` of some row. -/
theorem updateDoc_docs (hdoc : db.docs d = some doc) (id : δ) (f : SyncDoc → SyncDoc) :
    (db.updateDoc id f).docs d = some (if d = id then f doc else doc) := by
  rw [SyncDb.updateDoc]
  by_cases h : d = id
  · subst h
    simp [hdoc]
  · simp [h, hdoc]

/-- A row that is not cancelled, after the final write of some row. -/
theorem writeInfo_docs (hdoc : db.docs d = some doc) (hrun : doc.run ≠ some .cancel) (id : δ)
    (info : SyncInfo) :
    (db.writeInfo id info).docs d = some (if d = id then doc.update info else doc) := by
  rw [SyncDb.writeInfo, updateDoc_docs hdoc, if_neg hrun]

/-- A document that a pass leaves alone. -/
def Skipped (db : SyncDb δ) (id : δ) : Prop :=
  db.tasks id = [] ∨ db.docs id = none ∨ (∃ doc, db.docs id = some doc ∧ doc.run = some .cancel) ∨
    tally (db.tasks id) = none

/-- What one step of a pass does to the database while it handles the document `id`, and
whether it is done with this document then. -/
inductive SyncEffect (db : SyncDb δ) (id : δ) : Bool → SyncDb δ → Prop
  | reads : SyncEffect db id false db
  | skips (h : Skipped db id) : SyncEffect db id true db
  | begins {t : Tally} (hne : db.tasks id ≠ []) (ht : tally (db.tasks id) = some t) (now : ℚ) :
      SyncEffect db id false (db.updateDoc id
        fun doc => { doc with processBeginAt := some now, updateTime := now })
  | writes {t : Tally} (hne : db.tasks id ≠ []) (ht : tally (db.tasks id) = some t) (m : Moment)
      (beginAt docProgress : ℚ) :
      SyncEffect db id true (db.writeInfo id (t.info m beginAt (db.tasks id).length docProgress))

theorem syncStep_effect (h : syncStep m db pass = some (db', pass'))
    (hread : pass.ReadFrom db.tasks) :
    pass'.ReadFrom db.tasks ∧ ∃ id handled, SyncEffect db id handled db' ∧
      pass.ahead = if handled then id :: pass'.ahead else pass'.ahead := by
  cases pass with
  | next docs =>
      cases docs with
      | nil => cases h
      | cons d rest =>
          rw [syncStep] at h
          split_ifs at h with htsks
          · obtain ⟨rfl, rfl⟩ := Prod.mk.inj (Option.some.inj h)
            exact ⟨trivial, d.id, true, .skips (Or.inl htsks), rfl⟩
          · obtain ⟨rfl, rfl⟩ := Prod.mk.inj (Option.some.inj h)
            exact ⟨⟨rfl, htsks⟩, d.id, false, .reads, rfl⟩
  | tasksRead d tsks rest =>
      obtain ⟨rfl, hne⟩ := hread
      rw [syncStep] at h
      split at h
      case h_1 hnone =>
        obtain ⟨rfl, rfl⟩ := Prod.mk.inj (Option.some.inj h)
        exact ⟨trivial, d.id, true, .skips (Or.inr (Or.inl hnone)), rfl⟩
      case h_2 doc hdoc =>
        split_ifs at h with hcancel
        · obtain ⟨rfl, rfl⟩ := Prod.mk.inj (Option.some.inj h)
          exact ⟨trivial, d.id, true, .skips (Or.inr (Or.inr (Or.inl ⟨doc, hdoc, hcancel⟩))), rfl⟩
        · split at h
          case h_1 hraises =>
            obtain ⟨rfl, rfl⟩ := Prod.mk.inj (Option.some.inj h)
            exact ⟨trivial, d.id, true, .skips (Or.inr (Or.inr (Or.inr hraises))), rfl⟩
          case h_2 t ht =>
            obtain ⟨rfl, rfl⟩ := Prod.mk.inj (Option.some.inj h)
            exact ⟨⟨rfl, hne, ht⟩, d.id, false, .reads, rfl⟩
  | docRead d count t docProgress rest =>
      rw [syncStep] at h
      split at h
      · obtain ⟨rfl, rfl⟩ := Prod.mk.inj (Option.some.inj h)
        exact ⟨hread, d.id, false, .reads, rfl⟩
      · obtain ⟨rfl, rfl⟩ := Prod.mk.inj (Option.some.inj h)
        exact ⟨hread, d.id, false, .begins hread.2.1 hread.2.2 m.now, rfl⟩
  | writing id beginAt count t docProgress rest =>
      obtain ⟨rfl, hne, ht⟩ := hread
      obtain ⟨rfl, rfl⟩ := Prod.mk.inj (Option.some.inj h)
      exact ⟨trivial, id, true, .writes hne ht m beginAt docProgress, rfl⟩

theorem SyncEffect.tasks_eq {id : δ} {handled : Bool} (h : SyncEffect db id handled db') :
    db'.tasks = db.tasks := by
  cases h <;> rfl

/-- How far an undisturbed pass has got with the document `d`, whose progress was `before`. -/
structure Following (tasks : δ → List SyncTask) (d : δ) (before : ℚ)
    (p : SyncDb δ × SyncPass δ) : Prop where
  tasks_eq : p.1.tasks = tasks
  read : p.2.ReadFrom tasks
  row : ∃ doc, p.1.docs d = some doc ∧ doc.run ≠ some .cancel ∧
    (FollowsTasks (tasks d) before doc ∨ doc.progress = before ∧ d ∈ p.2.ahead)

/-- The final write makes the row follow its tasks, and so does every further one. -/
theorem FollowsTasks.ne_cancel {before : ℚ} (h : FollowsTasks tsks before doc) :
    doc.run ≠ some .cancel := by
  by_cases hunf : ∃ task ∈ tsks, task.Unfinished
  · simp [(h.1 hunf).1]
  · have hdone : ∀ task ∈ tsks, ¬ task.Unfinished := fun task hmem h => hunf ⟨task, hmem, h⟩
    by_cases hfail : ∃ task ∈ tsks, task.progress = -1
    · simp [(h.2.1 hdone hfail).1]
    · have hfine : ∀ task ∈ tsks, task.progress ≠ -1 := fun task hmem h => hfail ⟨task, hmem, h⟩
      simp [(h.2.2 hdone hfine).1]

theorem Following.step {tasks : δ → List SyncTask} {before : ℚ} {p q : SyncDb δ × SyncPass δ}
    (hne : tasks d ≠ []) (hmsg : ∀ task ∈ tasks d, task.progressMsg ≠ none)
    (hp : Following tasks d before p) (h : PassStep p q) : Following tasks d before q := by
  obtain ⟨db, pass⟩ := p
  obtain ⟨db', pass'⟩ := q
  obtain ⟨m, h⟩ := h
  obtain ⟨htasks, hread, doc, hdoc, hrun, hrow⟩ := hp
  dsimp only at htasks hread hdoc hrow h
  subst htasks
  obtain ⟨hread', id, handled, heffect, hahead⟩ := syncStep_effect h hread
  refine ⟨heffect.tasks_eq, hread', ?_⟩
  cases heffect with
  | reads => exact ⟨doc, hdoc, hrun, by simpa [hahead] using hrow⟩
  | skips hskip =>
      have hid : d ≠ id := by
        rintro rfl
        rcases hskip with hempty | hnone | ⟨doc', hdoc', hcancel⟩ | hraises
        · exact hne hempty
        · simp [hdoc] at hnone
        · obtain rfl := Option.some.inj (hdoc.symm.trans hdoc')
          exact hrun hcancel
        · obtain ⟨task, hmem, hnull⟩ := tally_foldlM_eq_none_iff.mp hraises
          exact hmsg task hmem hnull
      refine ⟨doc, hdoc, hrun, hrow.imp_right fun ⟨hsame, hmem⟩ => ⟨hsame, ?_⟩⟩
      simpa [hahead, hid] using hmem
  | begins hne' ht now =>
      have hdoc' := updateDoc_docs hdoc id
        fun doc => { doc with processBeginAt := some now, updateTime := now }
      refine ⟨_, hdoc', ?_, ?_⟩
      · split_ifs <;> exact hrun
      · rw [hahead] at hrow
        split_ifs <;> exact hrow
  | writes hne' ht m beginAt docProgress =>
      refine ⟨_, writeInfo_docs hdoc hrun id _, ?_⟩
      split_ifs with hid
      · subst hid
        have hfollows := followsTasks_update ht (hrow.symm.imp_left And.left) m beginAt docProgress
        exact ⟨hfollows.ne_cancel, Or.inl hfollows⟩
      · refine ⟨hrun, hrow.imp_right fun ⟨hsame, hmem⟩ => ⟨hsame, ?_⟩⟩
        simpa [hahead, hid] using hmem

/-- A document without tasks, or with a message that is null, is not touched. -/
theorem untouched_step {tasks : δ → List SyncTask} {p q : SyncDb δ × SyncPass δ}
    (hd : tasks d = [] ∨ ∃ task ∈ tasks d, task.progressMsg = none)
    (hp : p.1.tasks = tasks ∧ p.2.ReadFrom tasks ∧ p.1.docs d = some doc) (h : PassStep p q) :
    q.1.tasks = tasks ∧ q.2.ReadFrom tasks ∧ q.1.docs d = some doc := by
  obtain ⟨db, pass⟩ := p
  obtain ⟨db', pass'⟩ := q
  obtain ⟨m, h⟩ := h
  obtain ⟨htasks, hread, hdoc⟩ := hp
  dsimp only at htasks hread hdoc h
  subst htasks
  obtain ⟨hread', id, handled, heffect, -⟩ := syncStep_effect h hread
  refine ⟨heffect.tasks_eq, hread', ?_⟩
  have hid : ∀ t, db.tasks id ≠ [] → tally (db.tasks id) = some t → d ≠ id := by
    rintro t hne ht rfl
    rcases hd with hempty | hnull
    · exact hne hempty
    · rw [tally, tally_foldlM_eq_none_iff.mpr hnull] at ht
      cases ht
  cases heffect with
  | reads => exact hdoc
  | skips hskip => exact hdoc
  | begins hne ht now => exact (updateDoc_docs hdoc id _).trans (by rw [if_neg (hid _ hne ht)])
  | writes hne ht m beginAt docProgress =>
      exact (updateDoc_docs hdoc id _).trans (by rw [if_neg (hid _ hne ht)])

/-! ## Cancelled documents -/

/-- No step of a pass changes a document that is cancelled when the step is taken. -/
theorem syncStep_cancelled (h : syncStep m db pass = some (db', pass'))
    (hdoc : db.docs d = some doc) (hcancel : doc.run = some .cancel) :
    ∃ doc', db'.docs d = some doc' ∧ doc'.run = doc.run ∧ doc'.progress = doc.progress ∧
      doc'.progressMsg = doc.progressMsg := by
  cases pass with
  | next docs =>
      cases docs with
      | nil => cases h
      | cons a rest =>
          rw [syncStep] at h
          split_ifs at h <;> obtain ⟨rfl, rfl⟩ := Prod.mk.inj (Option.some.inj h) <;>
            exact ⟨doc, hdoc, rfl, rfl, rfl⟩
  | tasksRead a tsks rest =>
      have hsame : db' = db := by
        rw [syncStep] at h
        repeat' split at h
        all_goals exact (Prod.mk.inj (Option.some.inj h)).1.symm
      exact ⟨doc, hsame ▸ hdoc, rfl, rfl, rfl⟩
  | docRead a count t docProgress rest =>
      rw [syncStep] at h
      split at h
      · obtain ⟨rfl, rfl⟩ := Prod.mk.inj (Option.some.inj h)
        exact ⟨doc, hdoc, rfl, rfl, rfl⟩
      · obtain ⟨rfl, rfl⟩ := Prod.mk.inj (Option.some.inj h)
        refine ⟨_, updateDoc_docs hdoc a.id _, ?_⟩
        split_ifs <;> exact ⟨rfl, rfl, rfl⟩
  | writing id beginAt count t docProgress rest =>
      obtain ⟨rfl, rfl⟩ := Prod.mk.inj (Option.some.inj h)
      refine ⟨_, updateDoc_docs hdoc id _, ?_⟩
      rw [if_pos hcancel]
      split_ifs <;> exact ⟨rfl, rfl, rfl⟩

/-! ## Whole passes -/

/-- How many steps a pass takes at most. -/
def SyncPass.size : SyncPass δ → ℕ
  | next docs => 4 * docs.length
  | tasksRead _ _ rest => 4 * rest.length + 3
  | docRead _ _ _ _ rest => 4 * rest.length + 2
  | writing _ _ _ _ _ rest => 4 * rest.length + 1

theorem syncStep_size (h : syncStep m db pass = some (db', pass')) : pass'.size < pass.size := by
  cases pass with
  | next docs =>
      cases docs with
      | nil => cases h
      | cons d rest =>
          rw [syncStep] at h
          split_ifs at h
          · obtain ⟨rfl, rfl⟩ := Prod.mk.inj (Option.some.inj h)
            simp [SyncPass.size]
          · obtain ⟨rfl, rfl⟩ := Prod.mk.inj (Option.some.inj h)
            simp only [SyncPass.size, List.length_cons]
            omega
  | tasksRead d tsks rest =>
      rw [syncStep] at h
      repeat' split at h
      all_goals
        obtain ⟨rfl, rfl⟩ := Prod.mk.inj (Option.some.inj h)
        simp [SyncPass.size]
  | docRead d count t docProgress rest =>
      rw [syncStep] at h
      split at h <;> obtain ⟨rfl, rfl⟩ := Prod.mk.inj (Option.some.inj h) <;>
        simp [SyncPass.size]
  | writing id beginAt count t docProgress rest =>
      obtain ⟨rfl, rfl⟩ := Prod.mk.inj (Option.some.inj h)
      simp [SyncPass.size]

/-- A pass stops at the end of its documents only. -/
theorem syncStep_eq_none_iff : syncStep m db pass = none ↔ pass = .next [] := by
  cases pass with
  | next docs =>
      cases docs with
      | nil => simp [syncStep]
      | cons d rest =>
          simp only [syncStep]
          split_ifs <;> simp
  | tasksRead d tsks rest =>
      simp only [syncStep]
      repeat' split
      all_goals simp
  | docRead d count t docProgress rest =>
      simp only [syncStep]
      split <;> simp
  | writing id beginAt count t docProgress rest => simp [syncStep]

/-- Every pass comes to its end. -/
theorem exists_run_passStep (p : SyncDb δ × SyncPass δ) :
    ∃ n db', Run PassStep p n (db', .next []) := by
  obtain ⟨db, pass⟩ := p
  induction hsize : pass.size using Nat.strong_induction_on generalizing db pass with
  | _ size ih =>
      subst hsize
      let m : Moment := { now := 0, getQueueLength := fun _ => 0 }
      cases hstep : syncStep m db pass with
      | none =>
          obtain rfl := syncStep_eq_none_iff.mp hstep
          exact ⟨0, db, .refl⟩
      | some q =>
          obtain ⟨db', pass'⟩ := q
          obtain ⟨n, db'', hrun⟩ := ih pass'.size (syncStep_size hstep) db' pass' rfl
          exact ⟨n + 1, db'', hrun.head ⟨m, hstep⟩⟩

theorem followsTasks_of_run {args : List (SyncArg δ)} {n : ℕ} (hmem : d ∈ args.map SyncArg.id)
    (hdoc : db.docs d = some doc) (hrun : doc.run ≠ some .cancel) (hne : db.tasks d ≠ [])
    (hmsg : ∀ task ∈ db.tasks d, task.progressMsg ≠ none)
    (h : Run PassStep (db, .next args) n (db', .next [])) :
    ∃ doc', db'.docs d = some doc' ∧ FollowsTasks (db.tasks d) doc.progress doc' := by
  have hstart : Following db.tasks d doc.progress (db, .next args) :=
    ⟨rfl, trivial, doc, hdoc, hrun, Or.inr ⟨rfl, hmem⟩⟩
  have hend := h.invariant (P := fun _ => Following db.tasks d doc.progress) hstart
    fun _ _ _ _ hp hstep => hp.step hne hmsg hstep
  obtain ⟨doc', hdoc', -, hfollows | ⟨-, hahead⟩⟩ := hend.row
  · exact ⟨doc', hdoc', hfollows⟩
  · cases hahead

theorem untouched_of_run {args : List (SyncArg δ)} {n : ℕ} {q : SyncDb δ × SyncPass δ}
    (hd : db.tasks d = [] ∨ ∃ task ∈ db.tasks d, task.progressMsg = none)
    (hdoc : db.docs d = some doc) (h : Run PassStep (db, .next args) n q) :
    q.1.docs d = some doc :=
  (h.invariant
    (P := fun _ q => q.1.tasks = db.tasks ∧ q.2.ReadFrom db.tasks ∧ q.1.docs d = some doc)
    ⟨rfl, trivial, hdoc⟩ fun _ _ _ _ hp hstep => untouched_step hd hp hstep).2.2

/-- A pass without disturbance comes to its end, and makes every document that is not cancelled
and has tasks follow them; a document without tasks, or with a message that is null, it leaves
alone. However passes, updates of tasks and cancellations interleave, no step of a pass changes
the status, the progress or the message of a document that is cancelled at that moment. -/
theorem syncProgress_follows_tasks {δ ι : Type*} [DecidableEq δ] [DecidableEq ι] :
    (∀ p : SyncDb δ × SyncPass δ, ∃ n db', Run PassStep p n (db', .next [])) ∧
    (∀ (db db' : SyncDb δ) (args : List (SyncArg δ)) (n : ℕ) (d : δ) (doc : SyncDoc),
      d ∈ args.map SyncArg.id → db.docs d = some doc → doc.run ≠ some .cancel →
      db.tasks d ≠ [] → (∀ task ∈ db.tasks d, task.progressMsg ≠ none) →
      Run PassStep (db, .next args) n (db', .next []) →
      ∃ doc', db'.docs d = some doc' ∧ FollowsTasks (db.tasks d) doc.progress doc') ∧
    (∀ (db db' : SyncDb δ) (args : List (SyncArg δ)) (n : ℕ) (d : δ) (doc : SyncDoc),
      (db.tasks d = [] ∨ ∃ task ∈ db.tasks d, task.progressMsg = none) → db.docs d = some doc →
      Run PassStep (db, .next args) n (db', .next []) → db'.docs d = some doc) ∧
    ∀ (start g : Threads ι (SyncDb δ) (SyncPass δ)) (n : ℕ), Run (Interleave SyncStep) start n g →
      ∀ i m db' pass', syncStep m g.shared (g.locals i) = some (db', pass') →
      ∀ d doc, g.shared.docs d = some doc → doc.run = some .cancel →
      ∃ doc', db'.docs d = some doc' ∧ doc'.run = doc.run ∧ doc'.progress = doc.progress ∧
        doc'.progressMsg = doc.progressMsg :=
  ⟨exists_run_passStep,
    fun _ _ _ _ _ _ hmem hdoc hrun hne hmsg h => followsTasks_of_run hmem hdoc hrun hne hmsg h,
    fun _ _ _ _ _ _ hd hdoc h => untouched_of_run hd hdoc h,
    fun _ _ _ _ _ _ _ _ hstep _ _ hdoc hcancel => syncStep_cancelled hstep hdoc hcancel⟩

/-- A document that is being parsed. -/
def parsing : SyncDoc where
  run := some .running
  progress := 1 / 2
  progressMsg := "Task is queued..."
  processBeginAt := some 0
  processDuration := 0
  updateTime := 0

/-- One document with the given tasks. -/
def oneDoc (tsks : List SyncTask) : SyncDb Unit where
  docs _ := some parsing
  tasks _ := tsks

def parsedTask : SyncTask where
  taskType := ""
  progress := 1
  progressMsg := some "Task done"
  priority := 0

/-- Its only task is done, and so is the document. -/
theorem syncProgress_follows_tasks_parsed :
    ∃ n db' doc', Run PassStep (oneDoc [parsedTask], .next [⟨(), some 0⟩]) n (db', .next []) ∧
      db'.docs () = some doc' ∧ doc'.run = some .done ∧ doc'.progress = 1 := by
  have hall := syncProgress_follows_tasks (δ := Unit) (ι := Unit)
  obtain ⟨n, db', hrun⟩ := hall.1 (oneDoc [parsedTask], .next [⟨(), some 0⟩])
  obtain ⟨doc', hdoc', hfollows⟩ := hall.2.1 (oneDoc [parsedTask]) db' [⟨(), some 0⟩] n () parsing
    (by simp) rfl (by simp [parsing]) (by simp [oneDoc]) (by simp [oneDoc, parsedTask]) hrun
  have hdone := hfollows.2.2 (by simp [oneDoc, parsedTask, SyncTask.Unfinished])
    (by intro task hmem; obtain rfl := List.mem_singleton.mp hmem; decide +kernel)
  exact ⟨n, db', doc', hrun, hdoc', hdone.1, hdone.2⟩

/-- A document that has no tasks, all of which are done, is not set to DONE. -/
theorem syncProgress_skips_without_tasks :
    ∃ n db' doc', Run PassStep (oneDoc [], .next [⟨(), some 0⟩]) n (db', .next []) ∧
      (∀ task ∈ (oneDoc []).tasks (), task.progress = 1) ∧ parsing.run ≠ some .cancel ∧
      db'.docs () = some doc' ∧ doc'.run = some .running := by
  obtain ⟨n, db', hrun⟩ := exists_run_passStep (oneDoc [], .next [⟨(), some 0⟩])
  have hsame : db'.docs () = some parsing := untouched_of_run (Or.inl rfl) rfl hrun
  exact ⟨n, db', parsing, hrun, by simp [oneDoc], by simp [parsing], hsame, rfl⟩

end RagFlow.Ingestion
