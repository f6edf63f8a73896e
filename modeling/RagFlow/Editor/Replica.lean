/-
# The runtime replica of a workflow

A replica of the workflow is kept in Redis for each user. The editor replaces it under a lock when
the workflow is saved; a run reads it when it begins and writes it when it has ended, and opening
the workflow writes it where it is missing, both without the lock. So a save lasts only while no run
writes that began before it, and nothing is created after it.
-/

import RagFlow.Math.Threads
import RagFlow.Redis.DistributedLock

namespace RagFlow.Editor

open RagFlow.Math Threads RagFlow.Redis

/-- What the replica holds besides its key. -/
structure Payload (D : Type*) where
  title : String
  canvasCategory : String
  dsl : D
deriving DecidableEq

section Payload

variable {D : Type*}

/-- `_build_payload`, of a normalized DSL. -/
def buildPayload (args : Payload D) : Payload D :=
  { args with
    canvasCategory := if args.canvasCategory = "" then "agent_canvas" else args.canvasCategory }

/-- The payload that `commit_after_run` writes, which keeps the title and the category where it
has none of its own. -/
def commitPayload (args : Payload D) : Option (Payload D) → Payload D
  | none => buildPayload args
  | some latest => buildPayload
    { args with
      canvasCategory := if args.canvasCategory = "" then latest.canvasCategory
        else args.canvasCategory
      title := if args.title = "" then latest.title else args.title }

end Payload

/-- The replica, unless it is missing or unreadable, and its lock. Beside them stands which calls of
`replace_for_set` have written it, the latest first. -/
structure Replica (ι D : Type*) where
  payload : Option (Payload D)
  lock : Option (LockEntry ι)
  saves : List ι

/-- Where a client stands with a call, or with a run and its two calls. -/
inductive Client (ι D : Type*)
  /-- The read of `load_for_run` is next. -/
  | starting
  /-- The workflow runs. When it was loaded, `seen` had saved. -/
  | running (loaded : Payload D) (seen : List ι)
  /-- The read of `commit_after_run` is next. -/
  | committing (args : Payload D) (seen : List ι)
  /-- The write of `commit_after_run` is next. -/
  | writing (updated : Payload D) (seen : List ι)
  | committed (dsl : D) (seen : List ι)
  /-- The read of `create_if_absent` is next. -/
  | opening (args : Payload D)
  /-- The write of `create_if_absent` is next. -/
  | creating (args : Payload D)
  /-- `acquire` is called by `replace_for_set`, and its `delete_if_equal` is next. -/
  | saving (args : Payload D) (idx : ℕ)
  /-- `SET NX` is tried. -/
  | locking (args : Payload D) (idx : ℕ)
  /-- The write of `replace_for_set` is next. -/
  | locked (args : Payload D)
  /-- `release` is next. -/
  | releasing (args : Payload D) (ok : Bool)
  /-- `replace_for_set` has returned. -/
  | returned (dsl : D) (ok : Bool)
  /-- Everything else that ends. -/
  | done

variable {ι D : Type*}

namespace Client

/-- Before its first command. -/
def Begins : Client ι D → Prop
  | starting | opening _ => True
  | saving _ idx => idx = 0
  | _ => False

/-- It has written, or says so. -/
def Saved : Client ι D → Prop
  | releasing _ ok | returned _ ok => ok = true
  | _ => False

/-- The DSL of a call of `replace_for_set` that is on its way out. -/
def savedDsl : Client ι D → Option D
  | releasing args _ => some args.dsl
  | returned dsl _ => some dsl
  | _ => none

end Client

/-- One command of client `i`, or a step between two commands. -/
inductive ReplicaStep (lockValue : ι → String) (i : ι) (s : Replica ι D) :
    Client ι D → Replica ι D → Client ι D → Prop
  | load {loaded : Payload D} (h : s.payload = some loaded) :
      ReplicaStep lockValue i s .starting s (.running loaded s.saves)
  /-- There is no replica, or it could not be read. -/
  | miss : ReplicaStep lockValue i s .starting s .done
  /-- The run has failed or was cancelled, or its DSL is not a JSON object. -/
  | abandon (loaded : Payload D) (seen : List ι) :
      ReplicaStep lockValue i s (.running loaded seen) s .done
  | finish (loaded : Payload D) (seen : List ι) (args : Payload D) :
      ReplicaStep lockValue i s (.running loaded seen) s (.committing args seen)
  | reread (args : Payload D) (seen : List ι) :
      ReplicaStep lockValue i s (.committing args seen) s
        (.writing (commitPayload args s.payload) seen)
  | rereadFails (args : Payload D) (seen : List ι) :
      ReplicaStep lockValue i s (.committing args seen) s (.writing (commitPayload args none) seen)
  | commit (updated : Payload D) (seen : List ι) :
      ReplicaStep lockValue i s (.writing updated seen) { s with payload := some updated }
        (.committed updated.dsl seen)
  /-- `set_obj` has failed, which is not noticed. -/
  | commitFails (updated : Payload D) (seen : List ι) :
      ReplicaStep lockValue i s (.writing updated seen) s .done
  | find {args existing : Payload D} (h : s.payload = some existing) :
      ReplicaStep lockValue i s (.opening args) s .done
  | findNone {args : Payload D} (h : s.payload = none) :
      ReplicaStep lockValue i s (.opening args) s (.creating (buildPayload args))
  | findFails (args : Payload D) :
      ReplicaStep lockValue i s (.opening args) s (.creating (buildPayload args))
  | create (args : Payload D) :
      ReplicaStep lockValue i s (.creating args) { s with payload := some args } .done
  /-- The DSL is not a JSON object, or `set_obj` has failed. -/
  | createFails (args : Payload D) : ReplicaStep lockValue i s (.creating args) s .done
  | clear (args : Payload D) (idx : ℕ) :
      ReplicaStep lockValue i s (.saving args idx)
        { s with lock := deleteIfEqual s.lock (lockValue i) } (.locking args idx)
  | take {args : Payload D} {idx : ℕ} {lock' : Option (LockEntry ι)}
      (h : setNx s.lock (lockValue i) i = some lock') :
      ReplicaStep lockValue i s (.locking args idx) { s with lock := lock' } (.locked args)
  | retry {args : Payload D} {idx : ℕ} (h : setNx s.lock (lockValue i) i = none) :
      ReplicaStep lockValue i s (.locking args idx) s (.locking args idx)
  /-- The attempt has taken too long; there are `LOCK_RETRY_ATTEMPTS`. -/
  | next {args : Payload D} {idx : ℕ} (h : idx + 1 < 3) :
      ReplicaStep lockValue i s (.locking args idx) s (.saving args (idx + 1))
  | giveUp {args : Payload D} {idx : ℕ} (h : ¬ idx + 1 < 3) :
      ReplicaStep lockValue i s (.locking args idx) s (.returned args.dsl false)
  /-- The connection is lost. -/
  | lockFails (args : Payload D) (idx : ℕ) : ReplicaStep lockValue i s (.locking args idx) s .done
  | save (args : Payload D) :
      ReplicaStep lockValue i s (.locked args)
        { s with payload := some (buildPayload args), saves := i :: s.saves }
        (.releasing args true)
  /-- `set_obj` has failed, which is not noticed. -/
  | saveFails (args : Payload D) :
      ReplicaStep lockValue i s (.locked args) s (.releasing args true)
  /-- The DSL is not a JSON object. -/
  | refuse (args : Payload D) :
      ReplicaStep lockValue i s (.locked args) s (.releasing args false)
  | release (args : Payload D) (ok : Bool) :
      ReplicaStep lockValue i s (.releasing args ok)
        { s with lock := deleteIfEqual s.lock (lockValue i) } (.returned args.dsl ok)
  | releaseFails (args : Payload D) (ok : Bool) :
      ReplicaStep lockValue i s (.releasing args ok) s (.returned args.dsl ok)

/-- A step in which no run writes that was loaded before a save, nothing is created after a save,
and the write of a save does not fail. -/
def OrderlyReplicaStep (lockValue : ι → String) (i : ι) (s : Replica ι D) (client : Client ι D)
    (s' : Replica ι D) (client' : Client ι D) : Prop :=
  ReplicaStep lockValue i s client s' client' ∧
    (∀ updated seen, client = .writing updated seen → ∀ j ∈ s.saves, j ∈ seen) ∧
    (∀ args, client = .creating args → s.saves = []) ∧
    ∀ args, client = .locked args → client' = .releasing args true → s'.saves ≠ s.saves

/-- `j` has saved after `i`. -/
def SavedAfter (saves : List ι) (i j : ι) : Prop :=
  ∃ newer older, saves = newer ++ i :: older ∧ j ∈ newer

/-- What was saved is there, unless a later save or the result of a run is that was loaded after
it. -/
def EditKept (g : Threads ι (Replica ι D) (Client ι D)) : Prop :=
  ∀ i dsl, g.locals i = .returned dsl true → ∃ payload, g.shared.payload = some payload ∧
    (payload.dsl = dsl ∨
      (∃ j, SavedAfter g.shared.saves i j ∧ (g.locals j).savedDsl = some payload.dsl) ∨
      ∃ j seen, g.locals j = .committed payload.dsl seen ∧ i ∈ seen)

/-! ## What a step does -/

section Step

variable {lockValue : ι → String} {i j : ι} {s s' : Replica ι D} {client client' : Client ι D}

/-- What a step does to the replica. -/
inductive Effect (i : ι) (s : Replica ι D) (client : Client ι D) (s' : Replica ι D)
    (client' : Client ι D) : Prop
  | none (hpayload : s'.payload = s.payload) (hsaves : s'.saves = s.saves)
      (hsaved : client'.Saved → client.Saved)
  | saved (args : Payload D) (hpayload : s'.payload = some (buildPayload args))
      (hsaves : s'.saves = i :: s.saves) (hclient : client' = .releasing args true)
  | committed (updated : Payload D) (seen : List ι) (hpayload : s'.payload = some updated)
      (hsaves : s'.saves = s.saves) (hclient : client' = .committed updated.dsl seen)
      (hseen : ∀ k ∈ s.saves, k ∈ seen)
  | created (hsaves : s'.saves = []) (hbefore : s.saves = []) (hclient : ¬ client'.Saved)

theorem effect_of_step (h : OrderlyReplicaStep lockValue i s client s' client') :
    Effect i s client s' client' := by
  obtain ⟨hstep, hcommit, hcreate, hsave⟩ := h
  cases hstep with
  | commit updated seen =>
      exact .committed updated seen rfl rfl rfl (hcommit updated seen rfl)
  | create args =>
      have hnone := hcreate args rfl
      exact .created hnone hnone id
  | save args => exact .saved args rfl rfl rfl
  | saveFails args => exact absurd rfl (hsave args rfl rfl)
  | giveUp h => exact .none rfl rfl nofun
  | refuse args => exact .none rfl rfl nofun
  | release args ok => exact .none rfl rfl id
  | releaseFails args ok => exact .none rfl rfl id
  | _ => exact .none rfl rfl False.elim

/-- A call that is on its way out has no other DSL, and a run that is committed stays so. -/
theorem final_of_step (h : ReplicaStep lockValue i s client s' client') :
    (∀ dsl seen, client ≠ .committed dsl seen) ∧
      ∀ dsl, client.savedDsl = some dsl → client'.savedDsl = some dsl := by
  cases h with
  | release args ok => exact ⟨nofun, fun dsl h => h⟩
  | releaseFails args ok => exact ⟨nofun, fun dsl h => h⟩
  | _ => exact ⟨nofun, nofun⟩

end Step

/-! ## Every run -/

/-- Who says to have saved has saved, and if anyone has, the replica is the latest save or the
result of a run that was loaded after it. -/
structure KeepsEdits (g : Threads ι (Replica ι D) (Client ι D)) : Prop where
  saved : ∀ i, (g.locals i).Saved → i ∈ g.shared.saves
  stored : g.shared.saves = [] ∨ ∃ payload, g.shared.payload = some payload ∧
    ((∃ j, g.shared.saves.head? = some j ∧ (g.locals j).savedDsl = some payload.dsl) ∨
      ∃ j seen, g.locals j = .committed payload.dsl seen ∧ ∀ k ∈ g.shared.saves, k ∈ seen)

section Run

variable [DecidableEq ι] {lockValue : ι → String} {g h : Threads ι (Replica ι D) (Client ι D)}
  {n : ℕ}

theorem KeepsEdits.step (hg : KeepsEdits g)
    (hstep : Interleave (OrderlyReplicaStep lockValue) g h) : KeepsEdits h := by
  cases hstep with
  | @thread i s client hmove =>
      obtain ⟨hfinal, hdsl⟩ := final_of_step hmove.1
      -- What the others have, and the mover keeps.
      have hcommitted : ∀ j dsl seen, g.locals j = .committed dsl seen →
          (g.move i s client).locals j = .committed dsl seen := by
        intro j dsl seen hj
        have hji : j ≠ i := by
          rintro rfl
          exact hfinal dsl seen hj
        rw [move_locals_ne g hji]
        exact hj
      have hsavedDsl : ∀ j dsl, (g.locals j).savedDsl = some dsl →
          ((g.move i s client).locals j).savedDsl = some dsl := by
        intro j dsl hj
        by_cases hji : j = i
        · subst hji
          rw [move_locals_self]
          exact hdsl dsl hj
        · rw [move_locals_ne g hji]
          exact hj
      have hothers : (∀ k ∈ g.shared.saves, k ∈ s.saves) → (client.Saved → i ∈ s.saves) →
          ∀ j, ((g.move i s client).locals j).Saved → j ∈ s.saves := by
        intro hgrow hself j hj
        by_cases hji : j = i
        · subst hji
          rw [move_locals_self] at hj
          exact hself hj
        · rw [move_locals_ne g hji] at hj
          exact hgrow j (hg.saved j hj)
      cases effect_of_step hmove with
      | none hpayload hsaves hsaved =>
          refine ⟨hothers (by rw [hsaves]; exact fun _ => id) ?_, ?_⟩
          · rw [hsaves]
            exact fun hclient => hg.saved i (hsaved hclient)
          · rw [move_shared, hpayload, hsaves]
            refine hg.stored.imp id ?_
            rintro ⟨payload, hp, ⟨j, hj, hjdsl⟩ | ⟨j, seen, hj, hseen⟩⟩
            · exact ⟨payload, hp, Or.inl ⟨j, hj, hsavedDsl j _ hjdsl⟩⟩
            · exact ⟨payload, hp, Or.inr ⟨j, seen, hcommitted j _ seen hj, hseen⟩⟩
      | saved args hpayload hsaves hclient =>
          refine ⟨hothers ?_ fun _ => ?_, Or.inr ⟨buildPayload args, hpayload, Or.inl ⟨i, ?_, ?_⟩⟩⟩
          · rw [hsaves]
            exact fun k hk => List.mem_cons_of_mem i hk
          · rw [hsaves]
            exact List.mem_cons_self
          · rw [move_shared, hsaves]
            rfl
          · rw [move_locals_self, hclient]
            rfl
      | committed updated seen hpayload hsaves hclient hseen =>
          refine ⟨hothers (by rw [hsaves]; exact fun _ => id) ?_,
            Or.inr ⟨updated, hpayload, Or.inr ⟨i, seen, ?_, ?_⟩⟩⟩
          · rw [hclient]
            exact False.elim
          · rw [move_locals_self, hclient]
          · rw [move_shared, hsaves]
            exact hseen
      | created hsaves hbefore hclient =>
          refine ⟨hothers ?_ fun hsaved => absurd hsaved hclient, Or.inl hsaves⟩
          rw [hbefore]
          exact fun k hk => absurd hk List.not_mem_nil

omit [DecidableEq ι] in
theorem KeepsEdits.editKept (hg : KeepsEdits g) : EditKept g := by
  intro i dsl hi
  have hin : i ∈ g.shared.saves := hg.saved i (by rw [hi]; exact rfl)
  rcases hg.stored with hnone | ⟨payload, hp, hstored⟩
  · rw [hnone] at hin
    exact absurd hin List.not_mem_nil
  · refine ⟨payload, hp, ?_⟩
    rcases hstored with ⟨j, hj, hjdsl⟩ | ⟨j, seen, hj, hseen⟩
    · obtain ⟨newer, older, hsaves⟩ := List.append_of_mem hin
      cases newer with
      | nil =>
          rw [hsaves, List.nil_append, List.head?_cons, Option.some.injEq] at hj
          subst hj
          rw [hi] at hjdsl
          exact Or.inl (Option.some.inj hjdsl).symm
      | cons k newer =>
          rw [hsaves, List.cons_append, List.head?_cons, Option.some.injEq] at hj
          subst hj
          exact Or.inr (Or.inl ⟨k, ⟨k :: newer, older, hsaves, List.mem_cons_self⟩, hjdsl⟩)
    · exact Or.inr (Or.inr ⟨j, seen, hj, hseen i hin⟩)

/-- No edit is lost in a run in which no workflow writes its result that was loaded before a save,
and nothing is created after one. -/
theorem saved_edit_is_kept (hbegin : ∀ i, (g.locals i).Begins) (hsaves : g.shared.saves = [])
    (hrun : Run (Interleave (OrderlyReplicaStep lockValue)) g n h) : EditKept h := by
  refine KeepsEdits.editKept (hrun.invariant (P := fun _ g => KeepsEdits g) ⟨fun i hi => ?_,
    Or.inl hsaves⟩ fun _ _ _ _ hm hstep => hm.step hstep)
  have hi' := hbegin i
  cases hlocal : g.locals i with
  | releasing args ok => rw [hlocal] at hi'; exact hi'.elim
  | returned dsl ok => rw [hlocal] at hi'; exact hi'.elim
  | _ => rw [hlocal] at hi; exact hi.elim

end Run

/-! ## A run and a save -/

def draft (dsl : String) : Payload String where
  title := "Support"
  canvasCategory := "agent_canvas"
  dsl := dsl

/-- One client runs the workflow, another one saves it. -/
def runAndSave : Threads Bool (Replica Bool String) (Client Bool String) where
  shared := { payload := some (draft "old"), lock := none, saves := [] }
  locals saver := if saver then .saving (draft "new") 0 else .starting

/-- One client opens the workflow, another one saves it. -/
def openAndSave : Threads Bool (Replica Bool String) (Client Bool String) where
  shared := { payload := none, lock := none, saves := [] }
  locals saver := if saver then .saving (draft "new") 0 else .opening (draft "old")

def lockValueOf (saver : Bool) : String := if saver then "1" else "0"

/-- The run begins after the save. -/
theorem saved_edit_is_kept_before_run : ∃ n g,
    Run (Interleave (OrderlyReplicaStep lockValueOf)) runAndSave n g ∧
      g.locals true = .returned "new" true ∧ g.locals false = .committed "ran" [true] ∧
      EditKept g := by
  have h₀ : Run (Interleave (OrderlyReplicaStep lockValueOf)) runAndSave 0 runAndSave := .refl
  have h₁ := thread h₀ true ⟨.clear _ 0, nofun, nofun, nofun⟩
  have h₂ := thread h₁ true ⟨.take rfl, nofun, nofun, nofun⟩
  have h₃ := thread h₂ true ⟨.save _, nofun, nofun, fun _ _ _ => List.cons_ne_self _ _⟩
  have h₄ := thread h₃ true ⟨.release _ true, nofun, nofun, nofun⟩
  have h₅ := thread h₄ false ⟨.load rfl, nofun, nofun, nofun⟩
  have h₆ := thread h₅ false ⟨.finish _ _ (draft "ran"), nofun, nofun, nofun⟩
  have h₇ := thread h₆ false ⟨.reread _ _, nofun, nofun, nofun⟩
  have h₈ := thread h₇ false ⟨.commit _ _, by
    rintro _ _ ⟨⟩ j hj
    exact hj, nofun, nofun⟩
  refine ⟨_, _, h₈, rfl, rfl, saved_edit_is_kept (fun i => ?_) rfl h₈⟩
  cases i
  · exact trivial
  · exact rfl

theorem not_savedAfter_singleton (i j : ι) : ¬ SavedAfter [i] i j := by
  rintro ⟨newer, older, heq, hj⟩
  have hlen := congrArg List.length heq
  rw [List.length_append, List.length_cons, List.length_cons, List.length_nil] at hlen
  rw [List.eq_nil_of_length_eq_zero (show newer.length = 0 by omega)] at hj
  exact List.not_mem_nil hj

/-- A run that was loaded before the save writes its result over it, and so does a client that
found no replica before it. -/
theorem saved_edit_is_lost :
    (∃ n g, Run (Interleave (ReplicaStep lockValueOf)) runAndSave n g ∧ ¬ EditKept g) ∧
      ∃ n g, Run (Interleave (ReplicaStep lockValueOf)) openAndSave n g ∧ ¬ EditKept g := by
  constructor
  · have h₀ : Run (Interleave (ReplicaStep lockValueOf)) runAndSave 0 runAndSave := .refl
    have h₁ := thread h₀ false (.load rfl)
    have h₂ := thread h₁ true (.clear _ 0)
    have h₃ := thread h₂ true (.take rfl)
    have h₄ := thread h₃ true (.save _)
    have h₅ := thread h₄ true (.release _ true)
    have h₆ := thread h₅ false (.finish _ _ (draft "ran"))
    have h₇ := thread h₆ false (.reread _ _)
    have h₈ := thread h₇ false (.commit _ _)
    refine ⟨_, _, h₈, fun hkept => ?_⟩
    obtain ⟨payload, hp, hcases⟩ := hkept true "new" rfl
    obtain rfl := Option.some.inj hp
    rcases hcases with hsame | ⟨j, hafter, -⟩ | ⟨j, seen, hj, hin⟩
    · exact absurd (show "ran" = "new" from hsame) (by decide)
    · exact not_savedAfter_singleton true j hafter
    · cases j with
      | false =>
          cases show Client.committed "ran" [] = Client.committed "ran" seen from hj
          exact List.not_mem_nil hin
      | true => cases show Client.returned "new" true = Client.committed "ran" seen from hj
  · have h₀ : Run (Interleave (ReplicaStep lockValueOf)) openAndSave 0 openAndSave := .refl
    have h₁ := thread h₀ false (.findNone rfl)
    have h₂ := thread h₁ true (.clear _ 0)
    have h₃ := thread h₂ true (.take rfl)
    have h₄ := thread h₃ true (.save _)
    have h₅ := thread h₄ true (.release _ true)
    have h₆ := thread h₅ false (.create _)
    refine ⟨_, _, h₆, fun hkept => ?_⟩
    obtain ⟨payload, hp, hcases⟩ := hkept true "new" rfl
    obtain rfl := Option.some.inj hp
    rcases hcases with hsame | ⟨j, hafter, -⟩ | ⟨j, seen, hj, -⟩
    · exact absurd (show "old" = "new" from hsame) (by decide)
    · exact not_savedAfter_singleton true j hafter
    · cases j with
      | false => cases show Client.done = Client.committed "old" seen from hj
      | true => cases show Client.returned "new" true = Client.committed "old" seen from hj

end RagFlow.Editor
