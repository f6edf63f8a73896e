/-
# Queueing a document again

`queue_tasks` splits a document into tasks and lets each of them take over the chunks of
an earlier task with the same first page and digest, if that one is finished. What the
other earlier tasks have recorded is deleted from the document store. A task that hands
over its chunks gives up its list, so no list is handed over twice; but the lists of two
earlier tasks can share an id, since ids are hashes of the content.
-/

import Mathlib.Data.Finset.Dedup
import Mathlib.Data.Finset.Card
import Mathlib.Data.Finset.Lattice.Lemmas
import Mathlib.Data.Finset.SDiff
import Mathlib.Data.Rat.Cast.Order
import Mathlib.Data.List.Perm.Basic
import Mathlib.Algebra.Order.Ring.Int

namespace RagFlow.Ingestion

/-! ## Tasks -/

/-- A task of an earlier run, as it is read from the database. The ids of its chunks are a
string of words there. -/
structure PrevTask where
  fromPage : ℤ
  digest : String
  progress : ℚ
  chunkIds : List String

/-- A task that is created. -/
structure ParseTask where
  fromPage : ℤ
  toPage : ℤ
  digest : String
  priority : ℤ
  progress : ℚ := 0
  chunkIds : List String := []

/-- The parser settings that decide on the tasks. -/
structure ParserConfig where
  layoutRecognize : String := "DeepDOC"
  /-- Missing or 0 for the default. -/
  taskPageSize : ℕ := 0
  tocExtraction : Bool := false
  /-- Missing or empty for all pages. -/
  pages : List (ℤ × ℤ) := []

/-- A document with what is read of its file: the number of pages, where it can be told,
and of rows. -/
structure QueuedDoc where
  isPdf : Bool
  parserId : String
  parserConfig : ParserConfig
  totalPages : Option ℕ
  totalRows : ℕ

def maximumPageNumber : ℤ := 100000

def maximumTaskPageNumber : ℕ := 100000 * 1000

/-- `range(start, stop, step)` for a positive step. -/
def pyRange (start stop : ℤ) (step : ℕ) : List ℤ :=
  (List.range ((stop - start + step - 1) / (step : ℤ)).toNat).map fun k => start + k * step

/-- The number of pages in a task. -/
def QueuedDoc.pageSize (doc : QueuedDoc) : ℕ :=
  let given := doc.parserConfig.taskPageSize
  if doc.parserId ∈ ["one", "knowledge_graph"] ∨ doc.parserConfig.layoutRecognize ≠ "DeepDOC" ∨
      doc.parserConfig.tocExtraction then maximumTaskPageNumber
  else if given ≠ 0 then given
  else if doc.parserId = "paper" then 22 else 12

/-- The first and the last page of each task. -/
def QueuedDoc.ranges (doc : QueuedDoc) : List (ℤ × ℤ) :=
  if doc.isPdf then
    let given := doc.parserConfig.pages
    let pageRanges := if given = [] then [(1, maximumPageNumber)] else given
    pageRanges.flatMap fun r =>
      let s := max 0 (r.1 - 1)
      let e := min (r.2 - 1) ((doc.totalPages.getD 0 : ℕ) : ℤ)
      (pyRange s e doc.pageSize).map fun p => (p, min (p + doc.pageSize) e)
  else if doc.parserId = "table" then
    (pyRange 0 doc.totalRows 3000).map fun i => (i, min (i + 3000) doc.totalRows)
  else [(0, maximumTaskPageNumber)]

/-- The array of new tasks; `digest` hashes the chunking config and the document with the
pages of a task. -/
def parseTaskArray (digest : ℤ → ℤ → String) (doc : QueuedDoc) (priority : ℤ) :
    List ParseTask :=
  doc.ranges.map fun r =>
    { fromPage := r.1, toPage := r.2, digest := digest r.1 r.2, priority }

/-! ## Reusing chunks -/

/-- `reuse_prev_task_chunks`: the number of chunks, the task and the earlier tasks after
it. The first earlier task with the same first page and digest decides. -/
def reusePrevTaskChunks (task : ParseTask) :
    List PrevTask → ℕ × ParseTask × List PrevTask
  | [] => (0, task, [])
  | prev :: rest =>
    if prev.fromPage = task.fromPage ∧ prev.digest = task.digest then
      if prev.progress < 1 ∨ prev.chunkIds = [] then (0, task, prev :: rest)
      else (prev.chunkIds.length, { task with chunkIds := prev.chunkIds, progress := 1 },
        { prev with chunkIds := [] } :: rest)
    else
      let (num, task', rest') := reusePrevTaskChunks task rest
      (num, task', prev :: rest')

/-- The loop over the new tasks. -/
def reuseAll : List ParseTask → List PrevTask → ℕ × List ParseTask × List PrevTask
  | [], prev => (0, [], prev)
  | task :: tasks, prev =>
    let (num, task', prev') := reusePrevTaskChunks task prev
    let (ckNum, tasks', prev'') := reuseAll tasks prev'
    (num + ckNum, task' :: tasks', prev'')

/-- What `queue_tasks` leaves behind: the tasks, the `chunk_num` of the document, the ids in
the document store and the tasks that are put into the queue. -/
structure Queued where
  tasks : List ParseTask
  chunkNum : ℕ
  store : Finset String
  queue : List ParseTask

/-- `queue_tasks`, for a document with the tasks `prevTasks` so far. -/
def queueTasks (digest : ℤ → ℤ → String) (doc : QueuedDoc) (priority : ℤ)
    (prevTasks : List PrevTask) (store : Finset String) : Queued :=
  let (ckNum, tasks, prevTasks) := reuseAll (parseTaskArray digest doc priority) prevTasks
  { tasks
    chunkNum := ckNum
    store := store \ (prevTasks.flatMap PrevTask.chunkIds).toFinset
    queue := tasks.filter fun task => task.progress < 1 }

/-! ## Which earlier tasks are reused -/

/-- What a task is matched by. -/
abbrev TaskKey := ℤ × String

def PrevTask.key (p : PrevTask) : TaskKey := (p.fromPage, p.digest)

def ParseTask.key (t : ParseTask) : TaskKey := (t.fromPage, t.digest)

/-- A finished task with chunks, with a key that is wanted and that none of those seen
before it has. -/
def PrevTask.IsReused (wanted : Finset TaskKey) (seen : List TaskKey) (p : PrevTask) : Prop :=
  p.key ∈ wanted ∧ p.key ∉ seen ∧ 1 ≤ p.progress ∧ p.chunkIds ≠ []

instance (wanted : Finset TaskKey) (seen : List TaskKey) (p : PrevTask) :
    Decidable (p.IsReused wanted seen) :=
  inferInstanceAs (Decidable (_ ∧ _ ∧ _ ∧ _))

/-- The earlier tasks that are reused for new ones with the keys `wanted`. -/
def reusedOf (wanted : Finset TaskKey) : List TaskKey → List PrevTask → List PrevTask
  | _, [] => []
  | seen, p :: rest =>
    if p.IsReused wanted seen then p :: reusedOf wanted (p.key :: seen) rest
    else reusedOf wanted (p.key :: seen) rest

/-- The earlier tasks that are not. -/
def leftOf (wanted : Finset TaskKey) : List TaskKey → List PrevTask → List PrevTask
  | _, [] => []
  | seen, p :: rest =>
    if p.IsReused wanted seen then leftOf wanted (p.key :: seen) rest
    else p :: leftOf wanted (p.key :: seen) rest

/-! ## One new task -/

/-- The earlier tasks after those that are reused have given up their chunks. -/
def emptied (wanted : Finset TaskKey) : List TaskKey → List PrevTask → List PrevTask
  | _, [] => []
  | seen, p :: rest =>
    (if p.IsReused wanted seen then { p with chunkIds := [] } else p) ::
      emptied wanted (p.key :: seen) rest

variable {wanted : Finset TaskKey} {seen : List TaskKey} {p : PrevTask} {task : ParseTask}

theorem isReused_insert_of_mem {k : TaskKey} (hk : k ∈ seen) :
    p.IsReused (insert k wanted) seen ↔ p.IsReused wanted seen := by
  constructor
  · rintro ⟨hkey, hfresh, hdone⟩
    refine ⟨(Finset.mem_insert.mp hkey).resolve_left ?_, hfresh, hdone⟩
    rintro rfl
    exact hfresh hk
  · exact fun ⟨hkey, hrest⟩ => ⟨Finset.mem_insert_of_mem hkey, hrest⟩

theorem isReused_insert_of_ne {k : TaskKey} (hk : p.key ≠ k) :
    p.IsReused (insert k wanted) seen ↔ p.IsReused wanted seen := by
  rw [PrevTask.IsReused, PrevTask.IsReused, Finset.mem_insert, or_iff_right hk]

/-- A key that was seen before makes no difference any more. -/
theorem of_seen {k : TaskKey} (hk : k ∈ seen) (prev : List PrevTask) :
    emptied (insert k wanted) seen prev = emptied wanted seen prev ∧
      reusedOf (insert k wanted) seen prev = reusedOf wanted seen prev := by
  induction prev generalizing seen with
  | nil => exact ⟨rfl, rfl⟩
  | cons p rest ih =>
      obtain ⟨hemptied, hreused⟩ := ih (List.mem_cons_of_mem p.key hk)
      have hp : p.IsReused (insert k wanted) seen ↔ p.IsReused wanted seen :=
        isReused_insert_of_mem hk
      rw [emptied, emptied, reusedOf, reusedOf, hemptied, hreused]
      simp only [hp, and_self]

/-- A new task takes over the chunks of one more earlier task, or it stays as it is. -/
def TakesOver (wanted : Finset TaskKey) (seen : List TaskKey) (task : ParseTask)
    (prev : List PrevTask) (num : ℕ) (task' : ParseTask) : Prop :=
  (num = 0 ∧ task' = task ∧
      reusedOf (insert task.key wanted) seen prev = reusedOf wanted seen prev) ∨
    ∃ p, num = p.chunkIds.length ∧ task' = { task with chunkIds := p.chunkIds, progress := 1 } ∧
      (reusedOf (insert task.key wanted) seen prev).Perm (p :: reusedOf wanted seen prev)

/-- The first earlier task with the key decides, and the rest stays as it is. -/
theorem reusePrevTaskChunks_of_key {p : PrevTask} (hkey : p.key = task.key)
    (hseen : task.key ∉ seen) (rest : List PrevTask) :
    ∃ num task', reusePrevTaskChunks task (emptied wanted seen (p :: rest)) =
        (num, task', emptied (insert task.key wanted) seen (p :: rest)) ∧
      TakesOver wanted seen task (p :: rest) num task' := by
  have hseenKey : task.key ∈ p.key :: seen := by simp [hkey]
  obtain ⟨hrest, hreused⟩ := of_seen hseenKey rest
  obtain ⟨hfrom, hdigest⟩ := Prod.mk.inj hkey
  have hmatch : p.fromPage = task.fromPage ∧ p.digest = task.digest := ⟨hfrom, hdigest⟩
  have hinsert : p.IsReused (insert task.key wanted) seen ↔
      1 ≤ p.progress ∧ p.chunkIds ≠ [] := by
    simp [PrevTask.IsReused, hkey, hseen]
  by_cases htaken : p.IsReused wanted seen
  · have htaken' := hinsert.mpr htaken.2.2
    refine ⟨0, task, ?_, Or.inl ⟨rfl, rfl, ?_⟩⟩
    · rw [emptied, emptied, if_pos htaken, if_pos htaken', reusePrevTaskChunks,
        if_pos hmatch, if_pos (Or.inr rfl), hrest]
    · rw [reusedOf, reusedOf, if_pos htaken, if_pos htaken', hreused]
  · by_cases hdone : 1 ≤ p.progress ∧ p.chunkIds ≠ []
    · have hnot : ¬ (p.progress < 1 ∨ p.chunkIds = []) := by
        rw [not_or, not_lt]
        exact hdone
      have htaken' := hinsert.mpr hdone
      refine ⟨p.chunkIds.length, _, ?_, Or.inr ⟨p, rfl, rfl, ?_⟩⟩
      · rw [emptied, emptied, if_neg htaken, if_pos htaken', reusePrevTaskChunks,
          if_pos hmatch, if_neg hnot, hrest]
      · rw [reusedOf, reusedOf, if_neg htaken, if_pos htaken', hreused]
    · have hnot : p.progress < 1 ∨ p.chunkIds = [] := by
        by_contra hcon
        rw [not_or, not_lt] at hcon
        exact hdone hcon
      have htaken' := mt hinsert.mp hdone
      refine ⟨0, task, ?_, Or.inl ⟨rfl, rfl, ?_⟩⟩
      · rw [emptied, emptied, if_neg htaken, if_neg htaken', reusePrevTaskChunks,
          if_pos hmatch, if_pos hnot, hrest]
      · rw [reusedOf, reusedOf, if_neg htaken, if_neg htaken', hreused]

/-- One more task takes the chunks of one more earlier task, or nothing. -/
theorem reusePrevTaskChunks_spec (hseen : task.key ∉ seen) (prev : List PrevTask) :
    ∃ num task', reusePrevTaskChunks task (emptied wanted seen prev) =
        (num, task', emptied (insert task.key wanted) seen prev) ∧
      TakesOver wanted seen task prev num task' := by
  induction prev generalizing seen with
  | nil => exact ⟨0, task, rfl, Or.inl ⟨rfl, rfl, rfl⟩⟩
  | cons p rest ih =>
      by_cases hkey : p.key = task.key
      · exact reusePrevTaskChunks_of_key hkey hseen rest
      · have hhere : p.IsReused (insert task.key wanted) seen ↔ p.IsReused wanted seen :=
          isReused_insert_of_ne hkey
        have hfresh : task.key ∉ p.key :: seen := by
          simp [Ne.symm hkey, hseen]
        obtain ⟨num, task', heq, hspec⟩ := ih hfresh
        refine ⟨num, task', ?_, ?_⟩
        · have hmiss : ∀ q : PrevTask, q.key = p.key →
              ¬ (q.fromPage = task.fromPage ∧ q.digest = task.digest) := by
            rintro q hq ⟨hfrom, hdigest⟩
            exact hkey (hq ▸ Prod.ext hfrom hdigest)
          rw [emptied, emptied, reusePrevTaskChunks, if_neg, heq]
          · simp only [hhere]
          · split_ifs
            · exact hmiss _ rfl
            · exact hmiss _ rfl
        · rw [TakesOver, reusedOf, reusedOf]
          simp only [hhere]
          by_cases htaken : p.IsReused wanted seen
          · simp only [if_pos htaken]
            rcases hspec with ⟨hnum, htask, hreused⟩ | ⟨q, hnum, htask, hperm⟩
            · exact Or.inl ⟨hnum, htask, by rw [hreused]⟩
            · exact Or.inr ⟨q, hnum, htask, (hperm.cons p).trans (List.Perm.swap q p _)⟩
          · simp only [if_neg htaken]
            exact hspec

/-! ## All new tasks -/

/-- The tasks that have taken over chunks. -/
def reusing (tasks : List ParseTask) : List ParseTask :=
  tasks.filter fun task => task.progress = 1

/-- New tasks take over the lists of different earlier tasks, one for one. -/
theorem reuseAll_spec (prev : List PrevTask) {tasks : List ParseTask}
    (hnew : ∀ task ∈ tasks, task.progress = 0) (wanted : Finset TaskKey) :
    ∃ ckNum tasks' picked, reuseAll tasks (emptied wanted [] prev) =
        (ckNum, tasks', emptied (wanted ∪ (tasks.map ParseTask.key).toFinset) [] prev) ∧
      (reusing tasks').map ParseTask.chunkIds = picked.map PrevTask.chunkIds ∧
      ckNum = ((reusing tasks').flatMap ParseTask.chunkIds).length ∧
      (reusedOf (wanted ∪ (tasks.map ParseTask.key).toFinset) [] prev).Perm
        (picked ++ reusedOf wanted [] prev) := by
  induction tasks generalizing wanted with
  | nil => exact ⟨0, [], [], by simp [reuseAll], rfl, rfl, by simp⟩
  | cons task tasks ih =>
      have hnone : task.key ∉ ([] : List TaskKey) := List.not_mem_nil
      obtain ⟨num, task', hfirst, hspec⟩ := reusePrevTaskChunks_spec hnone prev
      obtain ⟨ckNum, tasks', picked, hrest, hlists, hnum, hperm⟩ :=
        ih (fun t ht => hnew t (List.mem_cons_of_mem task ht)) (insert task.key wanted)
      have hkeys : insert task.key wanted ∪ (tasks.map ParseTask.key).toFinset =
          wanted ∪ ((task :: tasks).map ParseTask.key).toFinset := by
        rw [List.map_cons, List.toFinset_cons, Finset.insert_union, Finset.union_insert]
      rw [hkeys] at hrest hperm
      have hall : reuseAll (task :: tasks) (emptied wanted [] prev) = (num + ckNum, task' :: tasks',
          emptied (wanted ∪ ((task :: tasks).map ParseTask.key).toFinset) [] prev) := by
        rw [reuseAll, hfirst]
        simp only [hrest]
      rcases hspec with ⟨rfl, rfl, hsame⟩ | ⟨p, rfl, rfl, hmore⟩
      · have hskip : reusing (task' :: tasks') = reusing tasks' := by
          have hzero : task'.progress = 0 := hnew task' List.mem_cons_self
          rw [reusing, List.filter_cons, if_neg (by simp [hzero])]
          rfl
        refine ⟨_, _, picked, hall, ?_, ?_, ?_⟩
        · rw [hskip, hlists]
        · rw [hskip, hnum, Nat.zero_add]
        · rw [← hsame]
          exact hperm
      · have htake : ∀ t : ParseTask, t.progress = 1 →
            reusing (t :: tasks') = t :: reusing tasks' := by
          intro t ht
          rw [reusing, List.filter_cons, if_pos (by simp [ht])]
          rfl
        refine ⟨_, _, p :: picked, hall, ?_, ?_, ?_⟩
        · rw [htake _ rfl, List.map_cons, List.map_cons, hlists]
        · rw [htake _ rfl, List.flatMap_cons, List.length_append, hnum]
        · exact (hperm.trans (hmore.append_left picked)).trans List.perm_middle

theorem reusedOf_empty (seen : List TaskKey) (prev : List PrevTask) :
    reusedOf ∅ seen prev = [] ∧ emptied ∅ seen prev = prev := by
  induction prev generalizing seen with
  | nil => exact ⟨rfl, rfl⟩
  | cons p rest ih =>
      obtain ⟨hreused, hemptied⟩ := ih (p.key :: seen)
      have hp : ¬ p.IsReused ∅ seen := fun h => Finset.notMem_empty p.key h.1
      rw [reusedOf, emptied, if_neg hp, if_neg hp, hreused, hemptied]
      exact ⟨rfl, rfl⟩

/-- What is deleted are the chunks of the earlier tasks that are left. -/
theorem flatMap_emptied (wanted : Finset TaskKey) (seen : List TaskKey) (prev : List PrevTask) :
    (emptied wanted seen prev).flatMap PrevTask.chunkIds =
      (leftOf wanted seen prev).flatMap PrevTask.chunkIds := by
  induction prev generalizing seen with
  | nil => rfl
  | cons p rest ih =>
      rw [emptied, leftOf]
      split_ifs
      · rw [List.flatMap_cons, List.nil_append, ih]
      · rw [List.flatMap_cons, List.flatMap_cons, ih]

theorem reusedOf_sublist (wanted : Finset TaskKey) (seen : List TaskKey) (prev : List PrevTask) :
    (reusedOf wanted seen prev).Sublist prev := by
  induction prev generalizing seen with
  | nil => exact List.Sublist.refl []
  | cons p rest ih =>
      rw [reusedOf]
      split_ifs
      · exact (ih _).cons_cons p
      · exact (ih _).cons p

/-- An earlier task is reused or left. -/
theorem mem_reusedOf_or_leftOf {prev : List PrevTask} (h : p ∈ prev) (wanted : Finset TaskKey)
    (seen : List TaskKey) : p ∈ reusedOf wanted seen prev ∨ p ∈ leftOf wanted seen prev := by
  induction prev generalizing seen with
  | nil => cases h
  | cons q rest ih =>
      rw [reusedOf, leftOf]
      rcases List.mem_cons.mp h with rfl | hrest
      · split_ifs
        · exact Or.inl List.mem_cons_self
        · exact Or.inr List.mem_cons_self
      · split_ifs
        · exact (ih hrest _).imp_left (List.mem_cons_of_mem q)
        · exact (ih hrest _).imp_right (List.mem_cons_of_mem q)

/-! ## The whole call -/

/-- The keys of the new tasks. -/
def newKeys (digest : ℤ → ℤ → String) (doc : QueuedDoc) (priority : ℤ) : Finset TaskKey :=
  ((parseTaskArray digest doc priority).map ParseTask.key).toFinset

/-- Queueing again keeps the chunks that are reused, deletes those of the earlier tasks that
are not, hands over no list of ids twice and counts the distinct ids. -/
structure KeepsReused (prevTasks : List PrevTask) (store : Finset String) (q : Queued) :
    Prop where
  kept : ∀ task ∈ reusing q.tasks, ∀ id ∈ task.chunkIds, id ∈ store → id ∈ q.store
  deleted : ∀ p ∈ prevTasks, ∀ id ∈ p.chunkIds,
    (∀ task ∈ reusing q.tasks, id ∉ task.chunkIds) → id ∉ q.store
  once : ∃ used : List PrevTask, used.Sublist prevTasks ∧
    ((reusing q.tasks).map ParseTask.chunkIds).Perm (used.map PrevTask.chunkIds)
  counted : q.chunkNum = ((reusing q.tasks).flatMap ParseTask.chunkIds).toFinset.card

/-- A list counts as many distinct entries as it has iff it repeats none. -/
theorem length_eq_card_toFinset_iff {α : Type*} [DecidableEq α] (l : List α) :
    l.length = l.toFinset.card ↔ l.Nodup := by
  constructor
  · intro h
    rw [List.card_toFinset] at h
    have heq := l.dedup_sublist.eq_of_length h.symm
    exact heq ▸ l.nodup_dedup
  · exact fun h => (List.toFinset_card_of_nodup h).symm

section Queue

variable (digest : ℤ → ℤ → String) (doc : QueuedDoc) (priority : ℤ) (prevTasks : List PrevTask)
  (store : Finset String)

/-- The earlier tasks that the new tasks of the document reuse, and the others. -/
def reusedTasks : List PrevTask := reusedOf (newKeys digest doc priority) [] prevTasks

def leftTasks : List PrevTask := leftOf (newKeys digest doc priority) [] prevTasks

/-- The lists that are handed over, what is deleted and what is counted. -/
theorem queueTasks_spec :
    ((reusing (queueTasks digest doc priority prevTasks store).tasks).map
      ParseTask.chunkIds).Perm
        ((reusedTasks digest doc priority prevTasks).map PrevTask.chunkIds) ∧
    (∀ id, id ∈ (queueTasks digest doc priority prevTasks store).store ↔
      id ∈ store ∧ ∀ l ∈ leftTasks digest doc priority prevTasks, id ∉ l.chunkIds) ∧
    (queueTasks digest doc priority prevTasks store).chunkNum =
      ((reusing (queueTasks digest doc priority prevTasks store).tasks).flatMap
        ParseTask.chunkIds).length := by
  have hnew : ∀ task ∈ parseTaskArray digest doc priority, task.progress = 0 := by
    intro task htask
    obtain ⟨r, _, rfl⟩ := List.mem_map.mp htask
    rfl
  obtain ⟨ckNum, tasks, picked, hall, hlists, hnum, hperm⟩ := reuseAll_spec prevTasks hnew ∅
  rw [(reusedOf_empty [] prevTasks).2, Finset.empty_union] at hall
  rw [(reusedOf_empty [] prevTasks).1, Finset.empty_union, List.append_nil] at hperm
  rw [queueTasks, hall]
  refine ⟨?_, fun id => ?_, hnum⟩
  · show ((reusing tasks).map ParseTask.chunkIds).Perm _
    rw [hlists]
    exact (hperm.map PrevTask.chunkIds).symm
  · simp only [flatMap_emptied, Finset.mem_sdiff, List.mem_toFinset, List.mem_flatMap, not_exists,
      not_and]
    exact Iff.rfl

/-- Queueing a document again does as it should iff no id that a reused task has recorded,
and that is in the store, is recorded by a task that is left as well, and the reused tasks
have recorded no id twice. -/
theorem queueTasks_keeps_iff :
    KeepsReused prevTasks store (queueTasks digest doc priority prevTasks store) ↔
      (∀ p ∈ reusedTasks digest doc priority prevTasks, ∀ id ∈ p.chunkIds, id ∈ store →
        ∀ l ∈ leftTasks digest doc priority prevTasks, id ∉ l.chunkIds) ∧
      ((reusedTasks digest doc priority prevTasks).flatMap PrevTask.chunkIds).Nodup := by
  obtain ⟨hlists, hstore, hnum⟩ := queueTasks_spec digest doc priority prevTasks store
  have hids := hlists.flatten
  rw [← List.flatMap_def, ← List.flatMap_def] at hids
  -- An id is handed over iff a reused task has recorded it.
  have hmem : ∀ id, (∃ task ∈ reusing (queueTasks digest doc priority prevTasks store).tasks,
      id ∈ task.chunkIds) ↔ ∃ p ∈ reusedTasks digest doc priority prevTasks, id ∈ p.chunkIds := by
    intro id
    rw [← List.mem_flatMap, ← List.mem_flatMap]
    exact hids.mem_iff
  constructor
  · intro h
    constructor
    · intro p hp id hid hin
      obtain ⟨task, htask, hid'⟩ := (hmem id).mpr ⟨p, hp, hid⟩
      exact ((hstore id).mp (h.kept task htask id hid' hin)).2
    · rw [← hids.nodup_iff, ← length_eq_card_toFinset_iff, ← hnum]
      exact h.counted
  · rintro ⟨hapart, hnodup⟩
    refine ⟨?_, ?_, ⟨_, reusedOf_sublist _ _ _, hlists⟩, ?_⟩
    · intro task htask id hid hin
      obtain ⟨p, hp, hid'⟩ := (hmem id).mp ⟨task, htask, hid⟩
      exact (hstore id).mpr ⟨hin, hapart p hp id hid' hin⟩
    · intro p hp id hid hunused hkept
      rcases mem_reusedOf_or_leftOf hp (newKeys digest doc priority) [] with hreused | hleft
      · obtain ⟨task, htask, hid'⟩ := (hmem id).mpr ⟨p, hreused, hid⟩
        exact hunused task htask hid'
      · exact ((hstore id).mp hkept).2 p hleft hid
    · rw [hnum, length_eq_card_toFinset_iff, hids.nodup_iff]
      exact hnodup

end Queue

/-- A document of 24 pages, in two tasks. -/
def twoPartDoc : QueuedDoc where
  isPdf := true
  parserId := "naive"
  parserConfig := {}
  totalPages := some 24
  totalRows := 0

def partDigest (fromPage _toPage : ℤ) : String := if fromPage = 0 then "x" else "y"

/-- The first part is finished; the second one has failed after storing a chunk that the
first one has as well. -/
def halfDone : List PrevTask :=
  [{ fromPage := 0, digest := "x", progress := 1, chunkIds := ["a", "b"] },
    { fromPage := 12, digest := "y", progress := -1, chunkIds := ["b"] }]

/-- The shared chunk is deleted, although the new task of the first part has it. -/
theorem shared_chunk_is_deleted :
    ¬ KeepsReused halfDone {"a", "b"} (queueTasks partDigest twoPartDoc 0 halfDone {"a", "b"}) := by
  intro h
  have hreused : ["a", "b"] ∈ (reusing (queueTasks partDigest twoPartDoc 0 halfDone
      {"a", "b"}).tasks).map ParseTask.chunkIds := by decide
  obtain ⟨task, htask, hids⟩ := List.mem_map.mp hreused
  have hb := h.kept task htask "b" (by simp [hids]) (by decide)
  exact absurd hb (by decide)

end RagFlow.Ingestion
