/-
# What a pass appends

The post-processing of a batch handles its entries in order, and each entry
either leaves for an `exception_goto` or hands a list of ids to `_append_path`.
The entries of the next batch are all these ids, pushed one after the other.
-/

import RagFlow.Agent.Batch

namespace RagFlow.Agent

open RagFlow.Math

variable {W : Workflow} {env : Env}

/-- How the post-processing of an entry turned out. -/
structure Settled where
  cpnId : CpnId
  otherBranch : Bool
  ids : List CpnId

section Settles

variable (W : Workflow) (env : Env)

/-- The post-processing of a batch, entry by entry. -/
def settles : List CpnId → Canvas → List Settled
  | [], _ => []
  | c :: batch, s =>
      match settle W env s c, postProcess W env s c with
      | .ok (otherBranch, ids, _), .ok s' => ⟨c, otherBranch, ids⟩ :: settles batch s'
      | _, _ => []

/-- The post-processing of the pass from `s`, entry by entry. -/
def passSettles (s : RunState) : List Settled :=
  match runBatch W env s.executed s.pending s.canvas with
  | .ok (batch, canvas) => settles W env batch canvas
  | .error _ => []

/-- The ids that the pass from `s` hands to `_append_path`, in order. -/
def passAppends (s : RunState) : List CpnId := (passSettles W env s).flatMap Settled.ids

/-- In the pass from `s` no component leaves for an `exception_goto`. -/
def StaysOnPath (s : RunState) : Prop :=
  ∀ p ∈ passSettles W env s, p.otherBranch = false

end Settles

/-- Each entry of a batch is settled once, in some state. -/
theorem settles_spec {batch : List CpnId} {s s' : Canvas}
    (h : batch.foldlM (postProcess W env) s = .ok s') :
    (settles W env batch s).map Settled.cpnId = batch ∧
      ∀ p ∈ settles W env batch s, ∃ v u,
        settle W env v p.cpnId = .ok (p.otherBranch, p.ids, u) := by
  induction batch generalizing s with
  | nil => simp [settles]
  | cons c batch ih =>
      rw [List.foldlM_cons] at h
      obtain ⟨u, hpost, hrest⟩ := bind_eq_ok.mp h
      obtain ⟨otherBranch, ids, v, hsettle, _⟩ := postProcess_ok hpost
      obtain ⟨hids, hall⟩ := ih hrest
      have hcons : settles W env (c :: batch) s =
          ⟨c, otherBranch, ids⟩ :: settles W env batch u := by
        rw [settles, hsettle, hpost]
      rw [hcons]
      refine ⟨by rw [List.map_cons, hids], ?_⟩
      intro p hp
      rcases List.mem_cons.mp hp with rfl | hp
      · exact ⟨s, v, hsettle⟩
      · exact hall p hp

theorem settles_append {batch batch' : List CpnId} {s s' : Canvas}
    (h : batch.foldlM (postProcess W env) s = .ok s') :
    settles W env (batch ++ batch') s = settles W env batch s ++ settles W env batch' s' := by
  induction batch generalizing s with
  | nil =>
      obtain rfl : s = s' := by simpa using h
      rfl
  | cons c batch ih =>
      rw [List.foldlM_cons] at h
      obtain ⟨u, hpost, hrest⟩ := bind_eq_ok.mp h
      obtain ⟨otherBranch, ids, v, hsettle, _⟩ := postProcess_ok hpost
      rw [List.cons_append, settles, settles, hsettle, hpost]
      dsimp only
      rw [ih hrest, List.cons_append]

/-- Without an exception goto, a batch extends the path by pushing ids. -/
theorem settles_path {batch : List CpnId} {s s' : Canvas}
    (h : batch.foldlM (postProcess W env) s = .ok s')
    (hstays : ∀ p ∈ settles W env batch s, p.otherBranch = false) :
    s'.path = pushAll s.path ((settles W env batch s).flatMap Settled.ids) := by
  induction batch generalizing s with
  | nil =>
      obtain rfl : s = s' := by simpa using h
      rfl
  | cons c batch ih =>
      rw [List.foldlM_cons] at h
      obtain ⟨u, hpost, hrest⟩ := bind_eq_ok.mp h
      obtain ⟨otherBranch, ids, v, hsettle, hu⟩ := postProcess_ok hpost
      have hcons : settles W env (c :: batch) s =
          ⟨c, otherBranch, ids⟩ :: settles W env batch u := by
        rw [settles, hsettle, hpost]
      rw [hcons] at hstays ⊢
      obtain rfl : otherBranch = false := hstays _ List.mem_cons_self
      have hupath : u.path = pushAll s.path ids := by
        rw [hu, ← settle_path hsettle]
        rfl
      rw [ih hrest fun p hp => hstays p (List.mem_cons_of_mem _ hp), hupath,
        List.flatMap_cons, pushAll_append]

namespace Step

variable {s s' : RunState}

/-- The entries of a pass are settled in some state, in the order of the batch. -/
theorem settles_ok (h : Step W env s s') :
    ∃ batch, BatchOf W env s s' batch ∧ (passSettles W env s).map Settled.cpnId = batch ∧
      ∀ p ∈ passSettles W env s, ∃ v u,
        settle W env v p.cpnId = .ok (p.otherBranch, p.ids, u) := by
  obtain ⟨batch, u, hrun, hposts, hbatch, _⟩ := h.exists_runBatch
  have heq : passSettles W env s = settles W env batch u := by
    rw [passSettles, hrun]
  rw [heq]
  exact ⟨batch, hbatch, settles_spec hposts⟩

theorem executed_eq (h : Step W env s s') (hstays : StaysOnPath W env s)
    {batch : List CpnId} (hbatch : BatchOf W env s s' batch) :
    s'.executed = s.executed ++ batch ∧
      s'.pending = pushed (s.executed ++ batch) (passAppends W env s) := by
  obtain ⟨batch', u, hrun, hposts, hbatchOf, hu⟩ := h.exists_runBatch
  obtain rfl : batch = batch' := hbatch.unique hbatchOf
  have heq : passSettles W env s = settles W env batch u := by
    rw [passSettles, hrun]
  have hpath : s'.canvas.path = pushAll (s.executed ++ batch) (passAppends W env s) := by
    rw [passAppends, heq, ← hu]
    exact settles_path hposts fun p hp => hstays p (heq ▸ hp)
  have hidx : s'.idx = (s.executed ++ batch).length := by
    rw [hbatch.idx, List.length_append]
  rw [RunState.executed, RunState.pending, hpath, hidx, ← append_pushed]
  exact ⟨List.take_left, List.drop_left⟩

end Step

/-- If no component has an `exception_goto`, none is taken. -/
theorem staysOnPath_of_noGoto (hgoto : ∀ c cpn, W.getComponent c = some cpn →
    cpn.exceptionGoto = []) {s s' : RunState} (h : Step W env s s') :
    StaysOnPath W env s := by
  obtain ⟨_, _, _, hsettle⟩ := h.settles_ok
  intro p hp
  obtain ⟨v, u, hp⟩ := hsettle p hp
  exact otherBranch_of_noGoto hp (hgoto p.cpnId)

end RagFlow.Agent
