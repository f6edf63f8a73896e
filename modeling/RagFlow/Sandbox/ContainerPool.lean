/-
# The sandbox's pool of containers

`init_containers` prepares `size` containers for each language. A request for `/run` comes
inside the semaphore of its language, takes a container from the queue, executes the code
in it and gives it back. Tasks change over at every `await`, so one turn of a request
reaches from one `await` to the next: a name leaves its queue before the lock is asked for,
and the lock is held while docker is asked about the container.
-/

import RagFlow.Math.Threads
import Mathlib.Algebra.Order.BigOperators.Group.Multiset
import Mathlib.Algebra.Order.Group.Multiset
import Mathlib.Algebra.Order.Ring.Nat
import Mathlib.Data.List.Nodup
import Mathlib.Data.List.Perm.Basic
import Mathlib.Data.Multiset.AddSub
import Mathlib.Tactic.Abel

namespace RagFlow.Sandbox

open RagFlow.Math

inductive SupportLanguage where
  | python
  | nodejs
deriving DecidableEq, Repr

namespace SupportLanguage

def value : SupportLanguage → String
  | python => "python"
  | nodejs => "nodejs"

end SupportLanguage

/-- `sandbox_python_{i}` and `sandbox_nodejs_{i}`. -/
def containerName (language : SupportLanguage) (i : ℕ) : String :=
  "sandbox_" ++ language.value ++ "_" ++ Nat.repr i

/-- The default of `allocate_container_blocking`, in milliseconds. -/
def allocateTimeout : ℕ := 10000

/-- `_CONTAINER_QUEUES`, `_CONTAINER_LOCK`, `_CONTAINER_EXECUTION_SEMAPHORES` and the time
of the event loop. No variable of the program keeps the names in `lost`: they are those of
containers that were taken from a queue and that nothing will put back. -/
structure Pool where
  queues : SupportLanguage → List String
  locked : Bool
  permits : SupportLanguage → ℕ
  time : ℕ
  lost : SupportLanguage → Multiset String

/-- How a request ends: its code was refused as unsafe or could not be decoded, it was told
`no_available_container`, its directory on the host could not be made, or its container was
let go after the execution, whatever that came to. -/
inductive Outcome where
  | refused
  | noAvailableContainer
  | unhandledException
  | executed
deriving DecidableEq

/-- Where a request stands. `start` is the time at which `allocate_container_blocking` was
called, and `name` the container the request has its hands on. -/
inductive Phase where
  | arrived
  | sleeping (start : ℕ)
  | taken (start : ℕ) (name : String)
  | checking (start : ℕ) (name : String)
  | recreating (start : ℕ) (name : String)
  | executing (name : String)
  | releasing (name : String)
  | inspecting (name : String)
  | restoring (name : String)
  | finished (outcome : Outcome)
deriving DecidableEq

structure Request where
  language : SupportLanguage
  phase : Phase
deriving DecidableEq

namespace Pool

/-- `_CONTAINER_QUEUES[language].put(name)`. -/
def put (pool : Pool) (language : SupportLanguage) (name : String) : Pool :=
  { pool with queues := Function.update pool.queues language (pool.queues language ++ [name]) }

/-- Nobody has the name any more. -/
def lose (pool : Pool) (language : SupportLanguage) (name : String) : Pool :=
  { pool with lost := Function.update pool.lost language (name ::ₘ pool.lost language) }

def acquire (pool : Pool) : Pool := { pool with locked := true }

def release (pool : Pool) : Pool := { pool with locked := false }

/-- A request comes inside the semaphore of its language. -/
def enter (pool : Pool) (language : SupportLanguage) : Pool :=
  { pool with permits := Function.update pool.permits language (pool.permits language - 1) }

/-- A request leaves the semaphore. -/
def leave (pool : Pool) (language : SupportLanguage) : Pool :=
  { pool with permits := Function.update pool.permits language (pool.permits language + 1) }

/-- The `while` loop of `allocate_container_blocking` from its condition to the next `await`:
the lock, or the sleep after `Empty`. Once the time is over there is no container. -/
def attempt (pool : Pool) (language : SupportLanguage) (start : ℕ) : Pool × Phase :=
  if pool.time - start < allocateTimeout then
    match pool.queues language with
    | name :: names =>
      ({ pool with queues := Function.update pool.queues language names }, .taken start name)
    | [] => (pool, .sleeping start)
  else
    (pool.leave language, .finished .noAvailableContainer)

/-- `execute_code` goes on with an allocated container. Its directory on the host is made
before the `try` whose `finally` releases the container. -/
def execute (pool : Pool) (language : SupportLanguage) (made : Bool) (name : String) :
    Pool × Phase :=
  if made then
    (pool, .executing name)
  else
    ((pool.lose language name).leave language, .finished .unhandledException)

end Pool

/-- One turn of a request. What docker answers, and whether the code is refused or the
directory made, is left open. -/
inductive Turn : Pool → Request → Pool → Request → Prop
  | refuse {pool l} (hfree : 0 < pool.permits l) :
      Turn pool ⟨l, .arrived⟩ pool ⟨l, .finished .refused⟩
  | enter {pool l} (hfree : 0 < pool.permits l) :
      Turn pool ⟨l, .arrived⟩ ((pool.enter l).attempt l pool.time).1
        ⟨l, ((pool.enter l).attempt l pool.time).2⟩
  | wake {pool l start} :
      Turn pool ⟨l, .sleeping start⟩ (pool.attempt l start).1 ⟨l, (pool.attempt l start).2⟩
  | lock {pool l start name} (hlock : pool.locked = false) :
      Turn pool ⟨l, .taken start name⟩ pool.acquire ⟨l, .checking start name⟩
  | running {pool l start name} (made : Bool) :
      Turn pool ⟨l, .checking start name⟩ (pool.release.execute l made name).1
        ⟨l, (pool.release.execute l made name).2⟩
  | stopped {pool l start name} :
      Turn pool ⟨l, .checking start name⟩ pool ⟨l, .recreating start name⟩
  | recreated {pool l start name} (made : Bool) :
      Turn pool ⟨l, .recreating start name⟩ (pool.release.execute l made name).1
        ⟨l, (pool.release.execute l made name).2⟩
  | skipped {pool l start name} :
      Turn pool ⟨l, .recreating start name⟩ ((pool.release.lose l name).attempt l start).1
        ⟨l, ((pool.release.lose l name).attempt l start).2⟩
  | ended {pool l name} :
      Turn pool ⟨l, .executing name⟩ pool ⟨l, .releasing name⟩
  | relock {pool l name} (hlock : pool.locked = false) :
      Turn pool ⟨l, .releasing name⟩ pool.acquire ⟨l, .inspecting name⟩
  | released {pool l name} :
      Turn pool ⟨l, .inspecting name⟩ ((pool.put l name).release.leave l)
        ⟨l, .finished .executed⟩
  | crashed {pool l name} :
      Turn pool ⟨l, .inspecting name⟩ pool ⟨l, .restoring name⟩
  | restored {pool l name} :
      Turn pool ⟨l, .restoring name⟩ ((pool.put l name).release.leave l)
        ⟨l, .finished .executed⟩
  | abandoned {pool l name} :
      Turn pool ⟨l, .restoring name⟩ ((pool.lose l name).release.leave l)
        ⟨l, .finished .executed⟩

/-- Requests arrive at any time, and the time goes on between the turns. -/
def server : Crowd.Rules Pool Request where
  arrives request := request.phase = .arrived
  outside pool pool' := ∃ elapsed, pool' = { pool with time := pool.time + elapsed }
  turn := Turn

/-! ## The start -/

/-- The tasks that `init_containers` gathers. -/
def createTasks (size : ℕ) : List (SupportLanguage × ℕ) :=
  (List.range size).flatMap fun i => [(.python, i), (.nodejs, i)]

/-- The containers of a language that were created, by the results of their tasks in the
order in which these came to an end. -/
def created (results : List ((SupportLanguage × ℕ) × Bool)) (language : SupportLanguage) :
    List String :=
  (results.filter fun r => r.1.1 = language ∧ r.2).map fun r => containerName r.1.1 r.1.2

/-- `_prepare_container` comes to its end: a created container goes to its queue. -/
def prepareContainer (pool : Pool) (result : (SupportLanguage × ℕ) × Bool) : Pool :=
  if result.2 then
    pool.put result.1.1 (containerName result.1.1 result.1.2)
  else
    pool

/-- `init_containers`, with the results of its tasks in the order of their ends. -/
def initContainers (size : ℕ) (results : List ((SupportLanguage × ℕ) × Bool)) : Pool :=
  results.foldl prepareContainer
    { queues := fun _ => [], locked := false, permits := fun _ => size, time := 0,
      lost := fun _ => 0 }

theorem toList_containerName (l : SupportLanguage) (i : ℕ) :
    (containerName l i).toList =
      "sandbox_".toList ++ l.value.toList ++ "_".toList ++ Nat.toDigits 10 i := by
  simp [containerName, Nat.repr]

/-- The name tells the language and the number. -/
theorem containerName_inj {l l' : SupportLanguage} {i j : ℕ}
    (h : containerName l i = containerName l' j) : (l, i) = (l', j) := by
  have hlist := congrArg String.toList h
  rw [toList_containerName, toList_containerName] at hlist
  have hdigits : l = l' ∧ Nat.toDigits 10 i = Nat.toDigits 10 j := by
    cases l <;> cases l' <;> simp_all [SupportLanguage.value]
  have hnumber := congrArg (fun digits => Nat.ofDigitChars 10 digits 0) hdigits.2
  simp only [Nat.ofDigitChars_ten_toDigits] at hnumber
  rw [hdigits.1, hnumber]

/-! ## What a turn moves -/

/-- The containers that a request has its hands on. -/
def Phase.held : Phase → Multiset String
  | .arrived | .sleeping _ | .finished _ => 0
  | .taken _ name | .checking _ name | .recreating _ name | .executing name
  | .releasing name | .inspecting name | .restoring name => {name}

/-- The request is inside the semaphore. -/
def Phase.inside : Phase → Bool
  | .arrived | .finished _ => false
  | _ => true

/-- The request holds `_CONTAINER_LOCK`. -/
def Phase.locks : Phase → Bool
  | .checking _ _ | .recreating _ _ | .inspecting _ | .restoring _ => true
  | _ => false

namespace Request

/-- The containers of a language that a request holds. -/
def heldOf (language : SupportLanguage) (request : Request) : Multiset String :=
  if request.language = language then request.phase.held else 0

/-- The permits of a language that a request holds. -/
def permitsOf (language : SupportLanguage) (request : Request) : ℕ :=
  if request.language = language then request.phase.inside.toNat else 0

def lockOf (request : Request) : ℕ := request.phase.locks.toNat

end Request

namespace Pool

variable (pool : Pool) (l l' : SupportLanguage) (name : String)

/-- The containers of a language in the queue and those lost. -/
def containers (language : SupportLanguage) (pool : Pool) : Multiset String :=
  ↑(pool.queues language) + pool.lost language

/-- The lock, where it is free. -/
def freeLock (pool : Pool) : ℕ := (!pool.locked).toNat

@[simp]
theorem containers_put :
    (pool.put l name).containers l' = pool.containers l' + if l = l' then {name} else 0 := by
  by_cases h : l = l'
  · subst h
    simp only [containers, put, Function.update_self, if_true, ← Multiset.coe_add,
      Multiset.coe_singleton]
    abel
  · simp [containers, put, Function.update_of_ne (Ne.symm h), h]

@[simp]
theorem containers_lose :
    (pool.lose l name).containers l' = pool.containers l' + if l = l' then {name} else 0 := by
  by_cases h : l = l'
  · subst h
    simp only [containers, lose, Function.update_self, if_true, ← Multiset.singleton_add]
    abel
  · simp [containers, lose, Function.update_of_ne (Ne.symm h), h]

@[simp] theorem containers_acquire : pool.acquire.containers l = pool.containers l := rfl
@[simp] theorem containers_release : pool.release.containers l = pool.containers l := rfl
@[simp] theorem containers_enter : (pool.enter l).containers l' = pool.containers l' := rfl
@[simp] theorem containers_leave : (pool.leave l).containers l' = pool.containers l' := rfl

@[simp] theorem permits_put : (pool.put l name).permits = pool.permits := rfl
@[simp] theorem permits_lose : (pool.lose l name).permits = pool.permits := rfl
@[simp] theorem permits_acquire : pool.acquire.permits = pool.permits := rfl
@[simp] theorem permits_release : pool.release.permits = pool.permits := rfl

@[simp]
theorem permits_leave :
    (pool.leave l).permits l' = pool.permits l' + if l = l' then 1 else 0 := by
  by_cases h : l = l'
  · subst h
    simp [leave]
  · simp [leave, Function.update_of_ne (Ne.symm h), h]

theorem permits_enter (hfree : 0 < pool.permits l) :
    (pool.enter l).permits l' + (if l = l' then 1 else 0) = pool.permits l' := by
  by_cases h : l = l'
  · subst h
    simp only [enter, Function.update_self, if_true]
    omega
  · simp [enter, Function.update_of_ne (Ne.symm h), h]

@[simp] theorem freeLock_put : (pool.put l name).freeLock = pool.freeLock := rfl
@[simp] theorem freeLock_lose : (pool.lose l name).freeLock = pool.freeLock := rfl
@[simp] theorem freeLock_release : pool.release.freeLock = 1 := rfl
@[simp] theorem freeLock_acquire : pool.acquire.freeLock = 0 := rfl
@[simp] theorem freeLock_enter : (pool.enter l).freeLock = pool.freeLock := rfl
@[simp] theorem freeLock_leave : (pool.leave l).freeLock = pool.freeLock := rfl

/-- What the loop of `allocate_container_blocking` takes from the queue is in the hands of
the request. -/
theorem containers_attempt (start : ℕ) :
    (pool.attempt l start).1.containers l' + Request.heldOf l' ⟨l, (pool.attempt l start).2⟩ =
      pool.containers l' := by
  unfold attempt
  split
  · cases hqueue : pool.queues l with
    | nil => simp [Request.heldOf, Phase.held]
    | cons name names =>
        by_cases h : l = l'
        · subst h
          simp only [containers, Request.heldOf, Phase.held, Function.update_self, if_true,
            hqueue, ← Multiset.cons_coe, ← Multiset.singleton_add]
          abel
        · simp [containers, Request.heldOf, Function.update_of_ne (Ne.symm h), h]
  · simp [Request.heldOf, Phase.held]

/-- The request stays inside the semaphore, or leaves it when the time is over. -/
theorem permits_attempt (start : ℕ) :
    (pool.attempt l start).1.permits l' +
        Request.permitsOf l' ⟨l, (pool.attempt l start).2⟩ =
      pool.permits l' + if l = l' then 1 else 0 := by
  unfold attempt
  split
  · cases pool.queues l <;> simp [Request.permitsOf, Phase.inside]
  · simp [Request.permitsOf, Phase.inside]

@[simp]
theorem freeLock_attempt (start : ℕ) : (pool.attempt l start).1.freeLock = pool.freeLock := by
  unfold attempt
  split
  · cases pool.queues l <;> rfl
  · rfl

@[simp]
theorem lockOf_attempt (start : ℕ) : Request.lockOf ⟨l', (pool.attempt l start).2⟩ = 0 := by
  unfold attempt
  split
  · cases pool.queues l <;> rfl
  · rfl

@[simp]
theorem lost_attempt (start : ℕ) : (pool.attempt l start).1.lost = pool.lost := by
  unfold attempt
  split
  · cases pool.queues l <;> rfl
  · rfl

@[simp] theorem lost_put : (pool.put l name).lost = pool.lost := rfl
@[simp] theorem lost_acquire : pool.acquire.lost = pool.lost := rfl
@[simp] theorem lost_release : pool.release.lost = pool.lost := rfl
@[simp] theorem lost_enter : (pool.enter l).lost = pool.lost := rfl
@[simp] theorem lost_leave : (pool.leave l).lost = pool.lost := rfl

theorem lost_lose :
    (pool.lose l name).lost l' = pool.lost l' + if l = l' then {name} else 0 := by
  by_cases h : l = l'
  · subst h
    simp [lose, ← Multiset.singleton_add, add_comm]
  · simp [lose, Function.update_of_ne (Ne.symm h), h]

theorem le_lost_lose : pool.lost l' ≤ (pool.lose l name).lost l' := by
  rw [lost_lose]
  exact Multiset.le_add_right _ _

theorem le_lost_execute (made : Bool) :
    pool.lost l' ≤ (pool.execute l made name).1.lost l' := by
  cases made with
  | false => exact pool.le_lost_lose l l' name
  | true => exact le_rfl

theorem containers_execute (made : Bool) :
    (pool.execute l made name).1.containers l' +
        Request.heldOf l' ⟨l, (pool.execute l made name).2⟩ =
      pool.containers l' + if l = l' then {name} else 0 := by
  cases made <;> simp [execute, Request.heldOf, Phase.held]

theorem permits_execute (made : Bool) :
    (pool.execute l made name).1.permits l' +
        Request.permitsOf l' ⟨l, (pool.execute l made name).2⟩ =
      pool.permits l' + if l = l' then 1 else 0 := by
  cases made <;> simp [execute, Request.permitsOf, Phase.inside]

@[simp]
theorem freeLock_execute (made : Bool) :
    (pool.execute l made name).1.freeLock = pool.freeLock := by
  cases made <;> rfl

@[simp]
theorem lockOf_execute (made : Bool) :
    Request.lockOf ⟨l', (pool.execute l made name).2⟩ = 0 := by
  cases made <;> rfl

end Pool

section Balances

open Request Pool

/-- A container is in its queue, in the hands of a request or lost. -/
theorem balanced_containers (language : SupportLanguage) :
    Crowd.Balanced server (Pool.containers language) (heldOf language) where
  arrive {request} h := by
    simp only [server] at h
    simp [heldOf, h, Phase.held]
  outside := by
    rintro pool _ ⟨elapsed, rfl⟩
    rfl
  turn h := by
    cases h with
    | refuse => simp [heldOf, Phase.held]
    | enter =>
        rw [containers_attempt]
        simp [heldOf, Phase.held]
    | wake =>
        rw [containers_attempt]
        simp [heldOf, Phase.held]
    | lock => rfl
    | running =>
        rw [containers_execute]
        simp [heldOf, Phase.held]
    | stopped => rfl
    | recreated =>
        rw [containers_execute]
        simp [heldOf, Phase.held]
    | skipped =>
        rw [containers_attempt]
        simp [heldOf, Phase.held]
    | ended => rfl
    | relock => rfl
    | released => simp [heldOf, Phase.held]
    | crashed => rfl
    | restored => simp [heldOf, Phase.held]
    | abandoned => simp [heldOf, Phase.held]

/-- A permit is free or with a request inside the semaphore. -/
theorem balanced_permits (language : SupportLanguage) :
    Crowd.Balanced server (fun pool => pool.permits language) (permitsOf language) where
  arrive {request} h := by
    simp only [server] at h
    simp [permitsOf, h, Phase.inside]
  outside := by
    rintro pool _ ⟨elapsed, rfl⟩
    rfl
  turn h := by
    cases h with
    | refuse => simp [permitsOf, Phase.inside]
    | enter hfree =>
        rw [permits_attempt, permits_enter _ _ _ hfree]
        simp [permitsOf, Phase.inside]
    | wake =>
        rw [permits_attempt]
        simp [permitsOf, Phase.inside]
    | lock => rfl
    | running =>
        rw [permits_execute]
        simp [permitsOf, Phase.inside]
    | stopped => rfl
    | recreated =>
        rw [permits_execute]
        simp [permitsOf, Phase.inside]
    | skipped =>
        rw [permits_attempt]
        simp [permitsOf, Phase.inside]
    | ended => rfl
    | relock => rfl
    | released => simp [permitsOf, Phase.inside]
    | crashed => rfl
    | restored => simp [permitsOf, Phase.inside]
    | abandoned => simp [permitsOf, Phase.inside]

/-- The lock is free or with one request. -/
theorem bounded_lock : Crowd.Bounded server freeLock lockOf where
  arrive {request} h := by
    simp only [server] at h
    simp [lockOf, h, Phase.locks]
  outside := by
    rintro pool _ ⟨elapsed, rfl⟩
    exact le_rfl
  turn h := by
    cases h with
    | refuse => exact le_rfl
    | enter => simp
    | wake => simp
    | lock hlock => simp [lockOf, Phase.locks, freeLock, acquire, hlock]
    | running => simp [lockOf.eq_def ⟨_, .checking _ _⟩, Phase.locks]
    | stopped => exact le_rfl
    | recreated => simp [lockOf.eq_def ⟨_, .recreating _ _⟩, Phase.locks]
    | skipped => simp [lockOf.eq_def ⟨_, .recreating _ _⟩, Phase.locks]
    | ended => exact le_rfl
    | relock hlock => simp [lockOf, Phase.locks, freeLock, acquire, hlock]
    | released => simp [lockOf, Phase.locks]
    | crashed => exact le_rfl
    | restored => simp [lockOf, Phase.locks]
    | abandoned => simp [lockOf, Phase.locks]

end Balances

/-! ## Every run -/

section Start

variable {size : ℕ} {results : List ((SupportLanguage × ℕ) × Bool)}

/-- Each language has the names of its created containers in its queue. -/
theorem initContainers_spec (size : ℕ) (results : List ((SupportLanguage × ℕ) × Bool)) :
    (initContainers size results).queues = created results ∧
      (initContainers size results).permits = (fun _ => size) ∧
      (initContainers size results).locked = false ∧
      (initContainers size results).lost = fun _ => 0 := by
  induction results using List.reverseRecOn with
  | nil => exact ⟨rfl, rfl, rfl, rfl⟩
  | append_singleton results r ih =>
      obtain ⟨⟨l, i⟩, success⟩ := r
      have hlast : initContainers size (results ++ [((l, i), success)]) =
          prepareContainer (initContainers size results) ((l, i), success) := by
        rw [initContainers, List.foldl_append]
        rfl
      rw [hlast]
      cases success with
      | false =>
          refine ⟨ih.1.trans ?_, ih.2⟩
          funext l'
          simp [created]
      | true =>
          refine ⟨?_, ih.2⟩
          funext l'
          by_cases h : l = l'
          · subst h
            simp [prepareContainer, Pool.put, created, ih.1]
          · simp [prepareContainer, Pool.put, created, h, Function.update_of_ne (Ne.symm h), ih.1]

theorem nodup_createTasks (size : ℕ) : (createTasks size).Nodup := by
  rw [createTasks, List.nodup_flatMap]
  refine ⟨fun i _ => by simp, List.nodup_range.imp ?_⟩
  intro i j hij
  simp [Function.onFun, Ne.symm hij]

/-- No two created containers have the same name. -/
theorem nodup_created (hresults : (results.map Prod.fst).Perm (createTasks size)) :
    (created results .python ++ created results .nodejs).Nodup := by
  have hnames : (results.map fun r => containerName r.1.1 r.1.2).Nodup := by
    have htasks := (hresults.nodup_iff.mpr (nodup_createTasks size)).map
      (f := fun task : SupportLanguage × ℕ => containerName task.1 task.2)
      fun _ _ => containerName_inj
    rwa [List.map_map] at htasks
  refine List.nodup_append.mpr ⟨hnames.sublist (List.filter_sublist.map _),
    hnames.sublist (List.filter_sublist.map _), ?_⟩
  rintro _ hpython _ hnodejs rfl
  obtain ⟨r, hr, hname⟩ := List.mem_map.mp hpython
  obtain ⟨r', hr', rfl⟩ := List.mem_map.mp hnodejs
  have hsame := containerName_inj hname
  simp only [List.mem_filter, decide_eq_true_eq] at hr hr'
  simp [hr.2.1, hr'.2.1] at hsame

end Start

/-- The state before the first request. -/
def start (size : ℕ) (results : List ((SupportLanguage × ℕ) × Bool)) : Crowd Pool Request where
  shared := initContainers size results
  tasks := 0

section Runs

variable {size n : ℕ} {results : List ((SupportLanguage × ℕ) × Bool)} {g : Crowd Pool Request}

theorem containers_run (hrun : Run (Crowd.Step server) (start size results) n g)
    (l : SupportLanguage) :
    ↑(g.shared.queues l) + g.shared.lost l + (g.tasks.map (Request.heldOf l)).sum =
      (↑(created results l) : Multiset String) := by
  have h := (balanced_containers l).run hrun
  have hstart := initContainers_spec size results
  simpa [Crowd.total, start, Pool.containers, hstart.1, hstart.2.2.2] using h

theorem permits_run (hrun : Run (Crowd.Step server) (start size results) n g)
    (l : SupportLanguage) :
    g.shared.permits l + (g.tasks.map (Request.permitsOf l)).sum = size := by
  have h := (balanced_permits l).run hrun
  have hstart := initContainers_spec size results
  simpa [Crowd.total, start, hstart.2.1] using h

theorem lock_run (hrun : Run (Crowd.Step server) (start size results) n g) :
    g.shared.freeLock + (g.tasks.map Request.lockOf).sum ≤ 1 := by
  have h := bounded_lock.run hrun
  have hstart := initContainers_spec size results
  simpa [Crowd.total, start, Pool.freeLock, hstart.2.2.1] using h

/-- What is in one place is in no other: a container is in its language's queue, or in the
hands of one request of that language, or lost, and one request at a time has docker look
at a container or make it anew. -/
structure Accounted (created : SupportLanguage → List String) (g : Crowd Pool Request) :
    Prop where
  placed : ∀ l, ↑(g.shared.queues l) + g.shared.lost l + (g.tasks.map (Request.heldOf l)).sum =
    (↑(created l) : Multiset String)
  nodup : (↑(g.shared.queues .python ++ g.shared.queues .nodejs) +
    (g.shared.lost .python + g.shared.lost .nodejs) +
    (g.tasks.map fun request => request.phase.held).sum).Nodup
  alone : ∀ {t u ts}, g.tasks = t ::ₘ u ::ₘ ts → Disjoint t.phase.held u.phase.held
  exclusive : g.tasks.countP (fun request => request.phase.locks) ≤ 1

theorem heldOf_add_heldOf (request : Request) :
    request.heldOf .python + request.heldOf .nodejs = request.phase.held := by
  cases hl : request.language <;> simp [Request.heldOf, hl]

theorem countP_locks (ts : Multiset Request) :
    ts.countP (fun request => request.phase.locks) = (ts.map Request.lockOf).sum := by
  induction ts using Multiset.induction with
  | empty => rfl
  | cons t ts ih =>
      rw [Multiset.countP_cons, Multiset.map_cons, Multiset.sum_cons, ih, Nat.add_comm,
        Request.lockOf]
      cases t.phase.locks <;> rfl

/-- Two tasks of a crowd whose holdings have no duplicates hold nothing in common. -/
theorem disjoint_held {t u : Request} {ts : Multiset Request} {others : Multiset String}
    (hnodup : (others + ((t ::ₘ u ::ₘ ts).map fun request => request.phase.held).sum).Nodup) :
    Disjoint t.phase.held u.phase.held := by
  have hsum := (Multiset.nodup_add.mp hnodup).2.1
  rw [Multiset.map_cons, Multiset.map_cons, Multiset.sum_cons, Multiset.sum_cons,
    ← add_assoc] at hsum
  exact (Multiset.nodup_add.mp (Multiset.nodup_add.mp hsum).1).2.2

/-- Whatever the requests, the order of their turns and the answers of docker, every container
that was created is in one place. -/
theorem containers_accounted (hresults : (results.map Prod.fst).Perm (createTasks size))
    (hrun : Run (Crowd.Step server) (start size results) n g) :
    Accounted (created results) g := by
  have hnodup : (↑(g.shared.queues .python ++ g.shared.queues .nodejs) +
      (g.shared.lost .python + g.shared.lost .nodejs) +
      (g.tasks.map fun request => request.phase.held).sum).Nodup := by
    have hall := Multiset.coe_nodup.mpr (nodup_created hresults)
    rw [← Multiset.coe_add, ← containers_run hrun, ← containers_run hrun] at hall
    simp only [← heldOf_add_heldOf, Multiset.sum_map_add, ← Multiset.coe_add]
    convert hall using 1
    abel
  exact {
    placed := containers_run hrun
    nodup := hnodup
    alone := fun htasks => disjoint_held (htasks ▸ hnodup)
    exclusive := by
      rw [countP_locks]
      exact (Nat.le_add_left _ _).trans (lock_run hrun) }

/-- One container for each language, and a request that has taken one. -/
def oneOfEach : List ((SupportLanguage × ℕ) × Bool) :=
  [((.nodejs, 0), true), ((.python, 0), true)]

def oneTaken : Crowd Pool Request where
  shared := (((start 1 oneOfEach).shared.enter .python).attempt .python 0).1
  tasks := {⟨.python, .taken 0 (containerName .python 0)⟩}

theorem run_oneTaken : Run (Crowd.Step server) (start 1 oneOfEach) 2 oneTaken :=
  (Run.single (.arrive 0 rfl)).tail (.turn 0 (.enter (l := .python) (by decide)))

theorem containers_accounted_oneTaken :
    (oneOfEach.map Prod.fst).Perm (createTasks 1) ∧
      Run (Crowd.Step server) (start 1 oneOfEach) 2 oneTaken ∧
      Accounted (created oneOfEach) oneTaken :=
  ⟨by decide, run_oneTaken, containers_accounted (by decide) run_oneTaken⟩

/-! ## A full pool -/

/-- The request was told that there is no container, or waits for one. -/
def Phase.waits : Phase → Bool
  | .sleeping _ | .finished .noAvailableContainer => true
  | _ => false

/-- A request holds at most one container, and holds it inside the semaphore. -/
theorem card_heldOf_le (l : SupportLanguage) (request : Request) :
    (request.heldOf l).card ≤ request.permitsOf l := by
  obtain ⟨language, phase⟩ := request
  by_cases h : language = l
  · cases phase <;> simp [Request.heldOf, Request.permitsOf, h, Phase.held, Phase.inside]
  · simp [Request.heldOf, Request.permitsOf, h]

theorem card_sum_heldOf_le (l : SupportLanguage) (ts : Multiset Request) :
    (ts.map (Request.heldOf l)).sum.card ≤ (ts.map (Request.permitsOf l)).sum := by
  induction ts using Multiset.induction with
  | empty => rfl
  | cons t ts ih =>
      simp only [Multiset.map_cons, Multiset.sum_cons, Multiset.card_add]
      exact Nat.add_le_add (card_heldOf_le l t) ih

/-- There are as many free permits as containers in the queue, but for those not created or
lost. -/
theorem permits_add_created_le (hrun : Run (Crowd.Step server) (start size results) n g)
    (l : SupportLanguage) :
    g.shared.permits l + (created results l).length ≤
      (g.shared.queues l).length + (g.shared.lost l).card + size := by
  have hcontainers := congrArg Multiset.card (containers_run hrun l)
  have hpermits := permits_run hrun l
  have hheld := card_sum_heldOf_le l g.tasks
  simp only [Multiset.card_add, Multiset.coe_card] at hcontainers
  omega

/-- What is lost stays lost. -/
theorem lost_le_turn {pool pool' : Pool} {request request' : Request}
    (hturn : Turn pool request pool' request') (l : SupportLanguage) :
    pool.lost l ≤ pool'.lost l := by
  cases hturn with
  | running => exact Pool.le_lost_execute _ _ _ _ _
  | recreated => exact Pool.le_lost_execute _ _ _ _ _
  | skipped => simpa using Pool.le_lost_lose (Pool.release _) _ _ _
  | abandoned => simpa using Pool.le_lost_lose _ _ _ _
  | _ => simp

/-- A request that has just started finds what is in the queue. -/
theorem waits_attempt {pool : Pool} {l : SupportLanguage} {start : ℕ}
    (htime : pool.time ≤ start) (hqueue : pool.queues l ≠ []) :
    (pool.attempt l start).2.waits = false := by
  unfold Pool.attempt
  rw [if_pos (by simp [allocateTimeout, htime])]
  cases h : pool.queues l with
  | nil => exact absurd h hqueue
  | cons name names => rfl

/-- Without a loss no turn makes a request wait, if there is a container for each permit. -/
theorem waits_turn {pool pool' : Pool} {request request' : Request}
    (hturn : Turn pool request pool' request')
    (hlost : pool'.lost request.language = pool.lost request.language)
    (hqueue : 0 < pool.permits request.language → pool.queues request.language ≠ [])
    (hwaits : request.phase.waits = false) : request'.phase.waits = false := by
  cases hturn with
  | enter hfree => exact waits_attempt le_rfl (hqueue hfree)
  | wake => simp [Phase.waits] at hwaits
  | running made => cases made <;> rfl
  | recreated made => cases made <;> rfl
  | skipped => simp [Pool.lost_lose] at hlost
  | _ => rfl

theorem language_turn {pool pool' : Pool} {request request' : Request}
    (hturn : Turn pool request pool' request') : request'.language = request.language := by
  cases hturn <;> rfl

/-- Where every container of a language was created and none is lost, there is a container in
the queue for every free permit, and no request has to wait for one or goes without. -/
theorem full_pool_serves (l : SupportLanguage)
    (hcreated : (created results l).length = size)
    (hrun : Run (Crowd.Step server) (start size results) n g) (hlost : g.shared.lost l = 0) :
    g.shared.permits l ≤ (g.shared.queues l).length ∧
      ∀ request ∈ g.tasks, request.language = l → request.phase.waits = false := by
  have henough : ∀ {m g'}, Run (Crowd.Step server) (start size results) m g' →
      g'.shared.lost l = 0 → g'.shared.permits l ≤ (g'.shared.queues l).length := by
    intro m g' hrun' hnone
    have h := permits_add_created_le hrun' l
    rw [hnone, hcreated, Multiset.card_zero] at h
    omega
  refine ⟨henough hrun hlost, ?_⟩
  induction hrun with
  | refl => simp [start]
  | tail hrun hstep ih =>
      cases hstep with
      | @arrive s t ts harrive =>
          refine Multiset.forall_mem_cons.mpr ⟨fun _ => ?_, ih hlost⟩
          simp only [server] at harrive
          rw [harrive]
          rfl
      | outside ts houtside =>
          obtain ⟨elapsed, rfl⟩ := houtside
          exact ih hlost
      | @turn s s' t t' ts hturn =>
          have hbefore : s.lost l = 0 := Multiset.le_zero.mp (hlost ▸ lost_le_turn hturn l)
          obtain ⟨ht, hts⟩ := Multiset.forall_mem_cons.mp (ih hbefore)
          refine Multiset.forall_mem_cons.mpr ⟨fun hl => ?_, hts⟩
          obtain rfl : t.language = l := (language_turn hturn).symm.trans hl
          have hpermits := henough hrun hbefore
          refine waits_turn hturn (hlost.trans hbefore.symm) (fun hfree => ?_) (ht rfl)
          exact List.ne_nil_of_length_pos (hfree.trans_le hpermits)

theorem full_pool_serves_oneTaken :
    (created oneOfEach .python).length = 1 ∧ oneTaken.shared.lost .python = 0 ∧
      oneTaken.shared.permits .python ≤ (oneTaken.shared.queues .python).length ∧
      ∀ request ∈ oneTaken.tasks, request.language = .python → request.phase.waits = false :=
  ⟨by decide, rfl, full_pool_serves .python (by decide) run_oneTaken rfl⟩

end Runs

end RagFlow.Sandbox
