/-
# The merge lock of a dataset

`run_graphrag_for_kb` merges its subgraphs, and afterwards resolves entities and extracts
communities, under one lock for each dataset. Every task gives the lock the same value,
and acquiring begins by deleting a lock that carries it; after acquiring, the task may
still raise before the block that releases. So the lock keeps tasks apart only while none
of them starts to acquire what another one holds.
-/

import RagFlow.Math.Threads
import RagFlow.Redis.DistributedLock

namespace RagFlow.GraphRag

open RagFlow.Math Threads RagFlow.Redis

/-- The two parts of the task that the lock is for. -/
inductive LockedPart where
  | merge
  | resolution

/-- Where a run of `run_graphrag_for_kb` stands with its lock. -/
inductive MergeTask where
  /-- The subgraphs are being built. -/
  | building
  /-- `spin_acquire` is called, and its `delete_if_equal` is next. -/
  | acquiring (part : LockedPart)
  /-- `SET NX` is tried until it succeeds. -/
  | spinning (part : LockedPart)
  /-- `spin_acquire` has returned, and the `try` block is not entered yet. -/
  | acquired (part : LockedPart)
  /-- Inside the `try` block. -/
  | working (part : LockedPart)
  /-- The merge is done, and the lock is released. -/
  | merged
  /-- The task has returned or raised. -/
  | left

/-- Between a returned `spin_acquire` and its `release`. -/
def MergeTask.Inside : MergeTask → Prop
  | .acquired _ | .working _ => True
  | _ => False

/-- The value that every task gives the lock. -/
def batchMerge : String := "batch_merge"

abbrev MergeLock (ι : Type*) := Option (LockEntry ι)

variable {ι : Type*}

/-- One step of task `i`. -/
inductive TaskStep (i : ι) (lock : MergeLock ι) : MergeTask → MergeLock ι → MergeTask → Prop
  /-- There is nothing to merge, or building has failed or was cancelled. -/
  | giveUp : TaskStep i lock .building lock .left
  | enter : TaskStep i lock .building lock (.acquiring .merge)
  | clear (part : LockedPart) :
      TaskStep i lock (.acquiring part) (deleteIfEqual lock batchMerge) (.spinning part)
  | take {part : LockedPart} {lock' : MergeLock ι} (h : setNx lock batchMerge i = some lock') :
      TaskStep i lock (.spinning part) lock' (.acquired part)
  | retry {part : LockedPart} (h : setNx lock batchMerge i = none) :
      TaskStep i lock (.spinning part) lock (.spinning part)
  /-- The wait is cancelled. -/
  | interrupt (part : LockedPart) : TaskStep i lock (.spinning part) lock .left
  /-- Reporting that the lock is acquired raises, or the task turns out to be cancelled. -/
  | drop (part : LockedPart) : TaskStep i lock (.acquired part) lock .left
  | try (part : LockedPart) : TaskStep i lock (.acquired part) lock (.working part)
  /-- `release` after the merge. -/
  | release : TaskStep i lock (.working .merge) (deleteIfEqual lock batchMerge) .merged
  /-- `release` after the resolution, or on the way out of an exception. -/
  | finish (part : LockedPart) :
      TaskStep i lock (.working part) (deleteIfEqual lock batchMerge) .left
  /-- No more is asked for, or the task was cancelled. -/
  | stop : TaskStep i lock .merged lock .left
  | again : TaskStep i lock .merged lock (.acquiring .resolution)

/-- A step in which no lock is held when a task begins to acquire it, and no task leaves
between acquiring the lock and the `try` block. -/
def OrderlyStep (i : ι) (lock : MergeLock ι) (task : MergeTask) (lock' : MergeLock ι)
    (task' : MergeTask) : Prop :=
  TaskStep i lock task lock' task' ∧
    (∀ part, task = .acquiring part → ∀ j, ¬ Holds lock j) ∧
    ∀ part, task = .acquired part → task' ≠ .left

/-- A task is inside exactly while the lock is there and set by it. -/
structure InsideHolds (i : ι) (lock : MergeLock ι) (task : MergeTask) : Prop where
  holds : task.Inside → lock = some { value := batchMerge, setBy := some i }
  inside : Holds lock i → task.Inside

/-- A task that is not inside does not hold the lock. -/
theorem InsideHolds.of_outside {i : ι} {lock : MergeLock ι} {task : MergeTask}
    (houtside : ¬ task.Inside) (hlock : ¬ Holds lock i) : InsideHolds i lock task where
  holds := fun h => absurd h houtside
  inside := fun h => absurd h hlock

theorem InsideHolds.not_holds {i : ι} {lock : MergeLock ι} {task : MergeTask}
    (h : InsideHolds i lock task) (houtside : ¬ task.Inside) : ¬ Holds lock i :=
  fun hlock => houtside (h.inside hlock)

theorem insideHolds_stable : Stable (OrderlyStep (ι := ι)) InsideHolds where
  own := by
    rintro i lock task lock' task' ⟨hstep, _, horderly⟩ h
    cases hstep with
    | giveUp => exact .of_outside id (h.not_holds id)
    | enter => exact .of_outside id (h.not_holds id)
    | clear part => exact .of_outside id fun hlock => h.not_holds id hlock.of_deleteIfEqual
    | take htake =>
        obtain ⟨-, rfl⟩ := setNx_eq_some.mp htake
        exact ⟨fun _ => rfl, fun _ => trivial⟩
    | retry _ => exact h
    | interrupt part => exact .of_outside id (h.not_holds id)
    | drop part => exact absurd rfl (horderly part rfl)
    | «try» part => exact ⟨h.holds, fun _ => trivial⟩
    | release =>
        rw [h.holds trivial, deleteIfEqual_self]
        exact .of_outside id (by simp [Holds])
    | finish part =>
        rw [h.holds trivial, deleteIfEqual_self]
        exact .of_outside id (by simp [Holds])
    | stop => exact .of_outside id (h.not_holds id)
    | again => exact .of_outside id (h.not_holds id)
  others := by
    rintro i j lock task lock' task' other hij ⟨hstep, hfree, _⟩ h hother
    -- Only deleting and setting the key could touch what another task sees of it.
    have hdelete : (∀ k, Holds lock k → k = i) →
        InsideHolds j (deleteIfEqual lock batchMerge) other := by
      intro honly
      refine ⟨fun hin => ?_, fun hlock => hother.inside hlock.of_deleteIfEqual⟩
      have hj : Holds lock j := ⟨_, hother.holds hin, rfl⟩
      exact absurd (honly j hj).symm hij
    have hself : task.Inside → ∀ k, Holds lock k → k = i := by
      intro hin k hk
      exact hk.unique ⟨_, h.holds hin, rfl⟩
    cases hstep with
    | clear part => exact hdelete fun k hk => absurd hk (hfree part rfl k)
    | take htake =>
        obtain ⟨hnone, rfl⟩ := setNx_eq_some.mp htake
        refine .of_outside (fun hin => ?_) fun hlock => hij (holds_some.mp hlock)
        rw [hother.holds hin] at hnone
        cases hnone
    | release => exact hdelete (hself trivial)
    | finish part => exact hdelete (hself trivial)
    | _ => exact hother

/-- While no task begins to acquire the lock that another one holds, and none leaves on
the way into the `try` block, at most one task is inside, and a task that has left does
not hold the lock. -/
theorem mergeLock_exclusive [DecidableEq ι] {start g : Threads ι (MergeLock ι) MergeTask}
    {n : ℕ} (hbuilding : ∀ i, start.locals i = .building)
    (hfree : ∀ i, ¬ Holds start.shared i)
    (hrun : Run (Interleave OrderlyStep) start n g) :
    (∀ i j, (g.locals i).Inside → (g.locals j).Inside → i = j) ∧
      ∀ i, g.locals i = .left → ¬ Holds g.shared i := by
  have hstart : ∀ i, InsideHolds i start.shared (start.locals i) := by
    intro i
    rw [hbuilding i]
    exact .of_outside id (hfree i)
  have hg := insideHolds_stable.run hrun hstart
  constructor
  · intro i j hi hj
    have hlock : Holds g.shared i := ⟨_, (hg i).holds hi, rfl⟩
    exact hlock.unique ⟨_, (hg j).holds hj, rfl⟩
  · intro i hleft
    apply (hg i).not_holds
    rw [hleft]
    exact id

/-- Every task is still building, and the key is missing. -/
def allBuilding : Threads ℕ (MergeLock ℕ) MergeTask where
  shared := none
  locals := fun _ => .building

/-- Task 1 begins to acquire the lock after task 0 has released it. -/
theorem mergeLock_exclusive_allBuilding : ∃ n g,
    Run (Interleave OrderlyStep) allBuilding n g ∧
      (g.locals 1).Inside ∧ g.locals 0 = .merged ∧ ∀ i, (g.locals i).Inside → i = 1 := by
  have h₀ : Run (Interleave OrderlyStep) allBuilding 0 allBuilding := .refl
  have h₁ := thread h₀ 0 ⟨.enter, by simp [allBuilding], by simp [allBuilding]⟩
  have h₂ := thread h₁ 0 ⟨.clear .merge, by simp [allBuilding, Holds], by simp⟩
  have h₃ := thread h₂ 0 ⟨.take rfl, by simp, by simp⟩
  have h₄ := thread h₃ 0 ⟨.try .merge, by simp, by simp⟩
  have h₅ := thread h₄ 0 ⟨.release, by simp, by simp⟩
  have h₆ := thread h₅ 1 ⟨.enter, by simp [move, allBuilding], by simp [move, allBuilding]⟩
  have h₇ := thread h₆ 1 ⟨.clear .merge, by simp [deleteIfEqual_self, Holds], by simp⟩
  have h₈ := thread h₇ 1 (t := .acquired .merge)
    ⟨.take (by simp [deleteIfEqual_self, setNx]; rfl), by simp, by simp⟩
  have hexclusive := mergeLock_exclusive (fun _ => rfl) (by simp [allBuilding, Holds]) h₈
  exact ⟨_, _, h₈, trivial, rfl, fun i hi => hexclusive.1 i 1 hi trivial⟩

/-- Task 1 deletes the lock of task 0 and takes it, so both are inside; and a task that is
cancelled after acquiring the lock leaves with it. -/
theorem mergeLock_is_taken_away :
    (∃ n g, Run (Interleave TaskStep) allBuilding n g ∧
      (g.locals 0).Inside ∧ (g.locals 1).Inside) ∧
    ∃ n g, Run (Interleave TaskStep) allBuilding n g ∧
      g.locals 0 = .left ∧ Holds g.shared 0 := by
  have h₀ : Run (Interleave TaskStep) allBuilding 0 allBuilding := .refl
  have h₁ := thread h₀ 0 .enter
  have h₂ := thread h₁ 0 (.clear .merge)
  have h₃ := thread h₂ 0 (.take rfl)
  constructor
  · have h₄ := thread h₃ 1 .enter
    have h₅ := thread h₄ 1 (.clear .merge)
    have h₆ := thread h₅ 1 (.take (by simp [deleteIfEqual_self, setNx]; rfl))
    exact ⟨_, _, h₆, trivial, trivial⟩
  · exact ⟨_, _, thread h₃ 0 (.drop .merge), rfl, _, rfl, rfl⟩

end RagFlow.GraphRag
