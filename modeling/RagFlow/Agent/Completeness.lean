/-
# No component is lost

`_run_batch` pops an entry whose references are not all on the path, and nothing
in the code puts it back by itself. It comes back because a component is pushed
again by every predecessor. This module follows the last batch that contains a
predecessor of a component: the push of that batch survives, all ancestors have
been executed by then, and so the component is executed no earlier than any of
its predecessors for the last time. Termination needs no more than that the n-th
batch ends walks of length n.
-/

import RagFlow.Agent.Plain

namespace RagFlow.Agent

open RagFlow.Math Relation

variable {W : Workflow} {env : Env}

/-! ## Termination -/

/-- If the bound on the number of passes is used up, all of them were made. -/
theorem runs_of_runLoop_eq_none {fuel : ℕ} {s : RunState} (h : runLoop W env fuel s = none) :
    ∃ t, Run (Step W env) s fuel t := by
  induction fuel generalizing s with
  | zero => exact ⟨s, .refl⟩
  | succ fuel ih =>
      rw [runLoop] at h
      split_ifs at h with hpending
      split at h
      · rename_i s' hstep
        obtain ⟨t, ht⟩ := ih h
        exact ⟨t, ht.head ⟨hpending, hstep⟩⟩
      · cases h

/-- A loop that returns made some passes and then stopped: the path was used up,
or the last pass ended the run. -/
theorem runs_of_runLoop {fuel : ℕ} {s : RunState} {result : Except String Outcome}
    (h : runLoop W env fuel s = some result) :
    ∃ n t, Run (Step W env) s n t ∧
      ((t.pending = [] ∧ result = .ok (.finished t.canvas)) ∨
        (step W env t = result ∧ ∀ u, result ≠ .ok (.running u))) := by
  induction fuel generalizing s with
  | zero => cases h
  | succ fuel ih =>
      rw [runLoop] at h
      split_ifs at h with hpending
      · exact ⟨0, s, .refl, .inl ⟨hpending, (Option.some.inj h).symm⟩⟩
      · split at h
        · rename_i s' hstep
          obtain ⟨n, t, hrun, hend⟩ := ih h
          exact ⟨n + 1, t, hrun.head ⟨hpending, hstep⟩, hend⟩
        · rename_i hother
          have hresult := Option.some.inj h
          exact ⟨0, s, .refl, .inr ⟨hresult, fun u hu => hother u (hresult.trans hu)⟩⟩

namespace Workflow.Plain

variable (hW : W.Plain)

include hW

/-- A run makes at most one pass more than there are components. -/
theorem passes_le {s : Canvas} (hs : s.PathIn W) {n : ℕ} {t : RunState}
    (h : Run (Step W env) (startRun s) n t) : n ≤ W.ids.length + 1 := by
  cases n with
  | zero => omega
  | succ n =>
      obtain ⟨u, hu, hstep⟩ := Run.succ_iff.mp h
      obtain ⟨c, hc⟩ := List.exists_mem_of_ne_nil _ hstep.1
      have hwalk := hW.walk_of_pending hs hu c hc
      have := hwalk.length_le_of_acyclic hW.acyclic W.ids fun a b hab => hab.mem_ids
      omega

theorem run_terminates (env : Env) {s : Canvas} (hs : s.PathIn W) :
    ∃ result, run W env (W.ids.length + 2) s = some result := by
  cases h : run W env (W.ids.length + 2) s with
  | some result => exact ⟨result, rfl⟩
  | none =>
      obtain ⟨t, ht⟩ := runs_of_runLoop_eq_none h
      have := hW.passes_le hs ht
      omega

end Workflow.Plain

/-! ## The batches of a run -/

/-- A run laid out by its passes: the states before each pass, the batches, and
nothing pending at the end. -/
structure Passes (W : Workflow) (env : Env) (s : RunState) (n : ℕ) where
  state : ℕ → RunState
  batch : ℕ → List CpnId
  start : state 0 = s
  pass : ∀ k < n, BatchOf W env (state k) (state (k + 1)) (batch k)
  done : (state n).pending = []

namespace Passes

variable {s : RunState} {n : ℕ}

theorem exists_of_run {t : RunState} (h : Run (Step W env) s n t) (hdone : t.pending = []) :
    ∃ P : Passes W env s n, P.state n = t := by
  classical
  obtain ⟨state, hstart, hend, hsteps⟩ := h.exists_states
  choose! batch hbatch using fun k (hk : k < n) => (hsteps k hk).exists_batch
  exact ⟨⟨state, batch, hstart, hbatch, by rw [hend, hdone]⟩, hend⟩

variable (P : Passes W env s n)

/-- `c` is executed in batch `k`. -/
def ExecutedIn (k : ℕ) (c : CpnId) : Prop := k < n ∧ c ∈ P.batch k

/-- The executed part only grows. -/
theorem executed_extends (hgoto : W.NoGoto) {i j : ℕ} (hij : i ≤ j) (hj : j ≤ n) :
    (P.state i).executed <+: (P.state j).executed := by
  induction j, hij using Nat.le_induction with
  | base => exact List.prefix_rfl
  | succ j hij ih =>
      rw [(P.pass j (by omega)).executed hgoto]
      exact (ih (by omega)).trans (List.prefix_append _ _)

/-- What batch `j` executed is on the executed path of every later pass. -/
theorem mem_executed (hgoto : W.NoGoto) {j k : ℕ} {c : CpnId} (h : P.ExecutedIn j c)
    (hjk : j < k) (hk : k ≤ n) : c ∈ (P.state k).executed := by
  refine (P.executed_extends hgoto (Nat.succ_le_of_lt hjk) hk).subset ?_
  rw [(P.pass j h.1).executed hgoto]
  exact List.mem_append_right _ h.2

theorem mem_finishedIds_of_executedIn {j : ℕ} {c : CpnId} (h : P.ExecutedIn j c) :
    c ∈ finishedIds (P.state n).canvas.log := by
  have hkeep : ∀ k, j < k → k ≤ n → c ∈ finishedIds (P.state k).canvas.log := by
    intro k hjk
    induction k, (Nat.succ_le_of_lt hjk) using Nat.le_induction with
    | base => exact fun _ => (P.pass j h.1).mem_finishedIds.mpr (.inr h.2)
    | succ k hk ih =>
        exact fun hkn => (P.pass k hkn).mem_finishedIds.mpr (.inl (ih hk (by omega)))
  exact hkeep n h.1 le_rfl

/-- `c` is executed, and no predecessor of it is executed in a later batch than
the last one that executes `c`. -/
def Late (c : CpnId) : Prop :=
  ∃ k, P.ExecutedIn k c ∧ ∀ b, W.Edge b c → ∀ j, P.ExecutedIn j b → j ≤ k

/-- If all ancestors of `c` are late, then they are executed no later than some
predecessor of `c`. -/
theorem ancestor_le {c : CpnId} {last : ℕ}
    (hlate : ∀ a, TransGen W.Edge a c → P.Late a)
    (hlast : ∀ b, W.Edge b c → ∀ j, P.ExecutedIn j b → j ≤ last) {a : CpnId}
    (ha : TransGen W.Edge a c) : ∀ j, P.ExecutedIn j a → j ≤ last := by
  induction ha using TransGen.head_induction_on with
  | single hedge => exact hlast _ hedge
  | head hedge hrest ih =>
      intro j hj
      obtain ⟨k, hk, hpreds⟩ := hlate _ hrest
      exact (hpreds _ hedge j hj).trans (ih k hk)

/-- The root is executed in the first batch. -/
theorem late_begin (hW : W.Plain) (hstart : s.pending = ["begin"]) : P.Late "begin" := by
  have hn : 0 < n := by
    rcases Nat.eq_zero_or_pos n with rfl | hn
    · have hdone := P.done
      rw [P.start, hstart] at hdone
      cases hdone
    · exact hn
  have hpass := P.pass 0 hn
  refine ⟨0, ⟨hn, ?_⟩, fun b hedge => absurd hedge (hW.not_edge_begin b)⟩
  have hbatch : P.batch 0 = ["begin"] := by
    have hself := selectBatch_eq_self hpass.admitted fun c hc a ha => by
      rw [P.start, hstart, List.mem_singleton] at hc
      exact absurd (hc ▸ ha) (hW.not_refers_begin a)
    rw [hself, P.start, hstart]
  simp [hbatch]

/-- A component all of whose ancestors are late is late itself: it is pushed
after the last predecessor, and by then no reference is missing. -/
theorem late_of_ancestors (hW : W.Plain) {b c : CpnId} (hedge : W.Edge b c)
    (hc : c ∈ W.ids) (hlate : ∀ a, TransGen W.Edge a c → P.Late a) : P.Late c := by
  classical
  let HasPredecessor : ℕ → Prop := fun j => ∃ b, W.Edge b c ∧ P.ExecutedIn j b
  obtain ⟨first, hfirst, _⟩ := hlate b (.single hedge)
  let last := Nat.findGreatest HasPredecessor n
  have hspec : HasPredecessor last :=
    Nat.findGreatest_spec (P := HasPredecessor) hfirst.1.le ⟨b, hedge, hfirst⟩
  have hmax : ∀ b, W.Edge b c → ∀ j, P.ExecutedIn j b → j ≤ last := fun b hb j hj =>
    Nat.le_findGreatest hj.1.le ⟨b, hb, hj⟩
  obtain ⟨b', hedge', hb'⟩ := hspec
  rcases hW.pending_or_mem_of_edge (P.pass last hb'.1) hb'.2 hedge' with hpending | hmem
  · -- the push survived, so there is a next batch
    have hnext : last + 1 < n := by
      rcases Nat.lt_or_ge (last + 1) n with hlt | hge
      · exact hlt
      · have heq : last + 1 = n := le_antisymm (Nat.succ_le_of_lt hb'.1) hge
        rw [heq, P.done] at hpending
        cases hpending
    obtain ⟨cpn, hcpn⟩ := Option.isSome_iff_exists.mp (Workflow.mem_ids_iff.mp hc)
    have hrefs : ∀ a, W.Refers c a → a ∈ (P.state (last + 1)).executed := by
      intro a ha
      obtain ⟨j, hj, _⟩ := hlate a (hW.refers c a ha)
      have hle := P.ancestor_le hlate hmax (hW.refers c a ha) j hj
      exact P.mem_executed hW.goto hj (Nat.lt_succ_of_le hle) hnext.le
    refine ⟨last + 1, ⟨hnext, ?_⟩, fun b hb j hj => (hmax b hb j hj).trans (Nat.le_succ _)⟩
    exact mem_selectBatch (P.pass (last + 1) hnext).admitted hpending hcpn fun more =>
      ready_of_refers hcpn fun a ha => List.mem_append_left _ (hrefs a ha)
  · exact ⟨last, ⟨hb'.1, hmem⟩, hmax⟩

/-- Every component is executed when nothing is pending any more. -/
theorem late (hW : W.Plain) (hstart : s.pending = ["begin"]) {c : CpnId} (hc : c ∈ W.ids) :
    P.Late c := by
  have hall : ∀ c, c ∈ W.ids → P.Late c := by
    refine Run.acyclic_induction hW.acyclic W.ids (fun a b hab => hab.mem_ids) ?_
    intro c ih hc
    rcases ReflTransGen.cases_tail (hW.reachable c hc) with rfl | ⟨b, _, hedge⟩
    · exact P.late_begin hW hstart
    · refine P.late_of_ancestors hW hedge hc fun a ha => ih a ha ?_
      obtain ⟨b', hab, _⟩ := TransGen.head'_iff.mp ha
      exact hab.mem_ids
  exact hall c hc

end Passes

/-- A finished pass leaves an error. -/
theorem error_of_step_finished {s : RunState} {t : Canvas}
    (h : step W env s = .ok (.finished t)) : t.error ≠ none := by
  unfold step at h
  obtain ⟨⟨batch, u⟩, _, h⟩ := bind_eq_ok.mp h
  obtain ⟨v, _, h⟩ := bind_eq_ok.mp h
  split at h
  · rename_i herror
    cases h
    exact Option.isSome_iff_ne_none.mp herror
  · dsimp only at h
    split at h <;> cases h

/-- The user is only asked by UserFillUp components. -/
theorem Workflow.Plain.step_ne_waiting (hW : W.Plain) {s : RunState} {t : Canvas} :
    step W env s ≠ .ok (.waiting t) := by
  intro h
  unfold step at h
  obtain ⟨⟨batch, u⟩, _, h⟩ := bind_eq_ok.mp h
  obtain ⟨v, _, h⟩ := bind_eq_ok.mp h
  split at h
  · cases h
  · dsimp only at h
    split at h
    · rename_i hasks
      obtain ⟨c, _, hc⟩ := List.any_eq_true.mp hasks
      cases hcpn : W.getComponent c with
      | none => simp [asksUser, hcpn] at hc
      | some cpn =>
          have hkind := hW.kind c cpn hcpn
          cases hobj : cpn.obj <;> simp_all [asksUser, Obj.isUserFillUp, Obj.isPlain]
    · cases h

/-- In a plain workflow every run returns, and a run that ends without an error
has invoked every component: popping an entry never loses it. -/
theorem run_invokes_every_component (hW : W.Plain) (env : Env) (s : Canvas)
    (hs : s.PathIn W) :
    ∃ result, run W env (W.ids.length + 2) s = some result ∧
      (∀ t, result ≠ .ok (.waiting t)) ∧
      ∀ t, result = .ok (.finished t) → t.error = none →
        ∀ c ∈ W.ids, Event.finished c ∈ t.log := by
  obtain ⟨result, hresult⟩ := hW.run_terminates env hs
  obtain ⟨n, u, hrun, hend⟩ := runs_of_runLoop hresult
  refine ⟨result, hresult, ?_, ?_⟩
  · rintro t rfl
    rcases hend with ⟨_, heq⟩ | ⟨hstep, _⟩
    · cases heq
    · exact hW.step_ne_waiting hstep
  · rintro t rfl herror c hc
    rcases hend with ⟨hdone, heq⟩ | ⟨hstep, _⟩
    · cases heq
      obtain ⟨P, hP⟩ := Passes.exists_of_run hrun hdone
      obtain ⟨k, hk, _⟩ := P.late hW (startRun_of_pathIn hW.fillUp hs).2 hc
      rw [← hP]
      exact mem_finishedIds.mp (P.mem_finishedIds_of_executedIn hk)
    · exact absurd herror (error_of_step_finished hstep)

/-- In the triangle, `search` and `answer` are both invoked. -/
theorem run_invokes_triangle :
    ∃ result, run triangle .quiet 5 .fresh = some result ∧
      (∀ t, result ≠ .ok (.waiting t)) ∧
      ∀ t, result = .ok (.finished t) → t.error = none →
        ∀ c ∈ triangle.ids, Event.finished c ∈ t.log :=
  run_invokes_every_component triangle_plain .quiet .fresh (Canvas.fresh_pathIn _)

end RagFlow.Agent
