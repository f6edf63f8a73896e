/-
# Workflows without branching and nesting

In a plain workflow every component is followed by its whole downstream list,
the graph of downstream edges is acyclic and rooted at `begin`, and references
point to ancestors. For such workflows a pass has a simple description: the
executed part grows by the admitted batch, and the pending entries are the
downstream lists of the batch, pushed one after the other.
-/

import RagFlow.Agent.Batch

namespace RagFlow.Agent

open RagFlow.Math Relation

variable {W : Workflow} {env : Env}

/-- No component sends the run elsewhere when it fails. -/
def Workflow.NoGoto (W : Workflow) : Prop :=
  ∀ c cpn, W.getComponent c = some cpn → cpn.exceptionGoto = []

/-- An acyclic workflow rooted at `begin`, with references to ancestors only and
without components that choose, nest, ask the user or go elsewhere on errors.
An id that reads as a UserFillUp id counts as such a component, as it does in
the source. -/
structure Workflow.Plain (W : Workflow) : Prop where
  kind : ∀ c cpn, W.getComponent c = some cpn → cpn.obj.isPlain
  goto : W.NoGoto
  fillUp : ∀ c ∈ W.ids, isUserFillUpId c = false
  acyclic : ∀ a, ¬ TransGen W.Edge a a
  reachable : ∀ c ∈ W.ids, ReflTransGen W.Edge "begin" c
  refers : ∀ b a, W.Refers b a → TransGen W.Edge a b

/-- What a listing shows at once: the components are plain, a rank grows along
every edge, and every component but `begin` has a predecessor, references being
to direct predecessors. -/
theorem Workflow.Plain.of_rank (rank : CpnId → ℕ)
    (hkind : ∀ e ∈ W.components,
      e.2.obj.isPlain ∧ e.2.exceptionGoto = [] ∧ isUserFillUpId e.1 = false)
    (hrank : ∀ e ∈ W.components, ∀ b ∈ e.2.downstream, rank e.1 < rank b)
    (hreach : ∀ c ∈ W.ids, c = "begin" ∨ ∃ a ∈ W.ids, c ∈ W.downstream a)
    (hrefs : ∀ e ∈ W.components, ∀ r ∈ e.2.inputElements,
      ∀ a, r = some a → e.1 ∈ W.downstream a) : W.Plain := by
  have hgrows : ∀ a b, W.Edge a b → rank a < rank b := by
    intro a b hedge
    obtain ⟨cpn, hcpn⟩ := Option.isSome_iff_exists.mp (mem_ids_iff.mp hedge.mem_ids)
    have hmem := mem_components_of_getComponent hcpn
    rw [Edge, downstream_eq hcpn] at hedge
    exact hrank _ hmem b hedge
  have htrans : ∀ a b, TransGen W.Edge a b → rank a < rank b := by
    intro a b h
    induction h with
    | single hedge => exact hgrows _ _ hedge
    | tail _ hedge ih => exact ih.trans (hgrows _ _ hedge)
  have hreachable : ∀ bound, ∀ c ∈ W.ids, rank c ≤ bound →
      ReflTransGen W.Edge "begin" c := by
    intro bound
    induction bound with
    | zero =>
        intro c hc hbound
        rcases hreach c hc with rfl | ⟨a, _, hedge⟩
        · exact .refl
        · have := hgrows a c hedge
          omega
    | succ bound ih =>
        intro c hc hbound
        rcases hreach c hc with rfl | ⟨a, ha, hedge⟩
        · exact .refl
        · have := hgrows a c hedge
          exact (ih a ha (by omega)).tail hedge
  refine ⟨?_, ?_, ?_, fun a h => lt_irrefl _ (htrans a a h),
    fun c hc => hreachable (rank c) c hc le_rfl, ?_⟩
  · intro c cpn hcpn
    exact (hkind _ (mem_components_of_getComponent hcpn)).1
  · intro c cpn hcpn
    exact (hkind _ (mem_components_of_getComponent hcpn)).2.1
  · intro c hc
    obtain ⟨e, he, rfl⟩ := List.mem_map.mp hc
    exact (hkind e he).2.2
  · rintro b a ⟨cpn, hcpn, ha⟩
    exact .single (hrefs _ (mem_components_of_getComponent hcpn) _ ha a rfl)

/-- `begin` starts `search` and `answer` together, and `answer`, which reads
`search`, also follows it. -/
def triangle : Workflow where
  components := [("begin", .simple .begin ["search", "answer"] []),
    ("search", .simple (.other "Retrieval") ["answer"] []),
    ("answer", .simple (.other "LLM") [] ["search"])]
  nodup := by decide

theorem triangle_plain : triangle.Plain :=
  .of_rank (fun c => if c = "begin" then 0 else if c = "search" then 1 else 2)
    (by decide) (by decide) (by decide) (by decide)

/-- The stored path names components of the workflow. -/
def Canvas.PathIn (W : Workflow) (s : Canvas) : Prop := ∀ c ∈ s.path, c ∈ W.ids

theorem Canvas.fresh_pathIn (W : Workflow) : Canvas.fresh.PathIn W := fun _ h =>
  absurd h List.not_mem_nil

/-! ## Starting a run -/

/-- The entries of the stored path count as executed when a run starts. -/
theorem startRun_of_pathIn (hfill : ∀ c ∈ W.ids, isUserFillUpId c = false) {s : Canvas}
    (h : s.PathIn W) :
    (startRun s).executed = s.path ∧ (startRun s).pending = ["begin"] := by
  have hlast : s.path.getLast?.any isUserFillUpId = false := by
    cases hl : s.path.getLast? with
    | none => rfl
    | some c => simpa using hfill c (h c (List.mem_of_getLast? hl))
  have hpath : (startRun s).canvas.path = s.path ++ ["begin"] := by
    simp [startRun, hlast]
  have hidx : (startRun s).idx = s.path.length := by
    simp [startRun, hlast]
  constructor
  · rw [RunState.executed, hpath, hidx, List.take_left]
  · rw [RunState.pending, hpath, hidx, List.drop_left]

/-- Behind the stored path, the executed part lists the created tasks. -/
theorem executed_eq (hgoto : W.NoGoto) {s t : RunState} {n : ℕ}
    (h : Run (Step W env) s n t) (hlog : s.canvas.log = []) :
    t.executed = s.executed ++ createdIds t.canvas.log := by
  refine h.invariant (P := fun _ u => u.executed = s.executed ++ createdIds u.canvas.log) ?_ ?_
  · simp [hlog, createdIds]
  · intro k u v _ hu hstep
    obtain ⟨batch, hbatch⟩ := hstep.exists_batch
    rw [hbatch.executed hgoto, hu, hbatch.createdIds, List.append_assoc]

/-- Between two batches every created task has finished. -/
theorem mem_finishedIds_iff {s t : RunState} {n : ℕ} (h : Run (Step W env) s n t)
    (hlog : s.canvas.log = []) {c : CpnId} :
    c ∈ finishedIds t.canvas.log ↔ c ∈ createdIds t.canvas.log := by
  refine h.invariant
    (P := fun _ u => c ∈ finishedIds u.canvas.log ↔ c ∈ createdIds u.canvas.log) ?_ ?_
  · simp [hlog, createdIds, finishedIds]
  · intro k u v _ hu hstep
    obtain ⟨batch, hbatch⟩ := hstep.exists_batch
    rw [hbatch.mem_finishedIds, hbatch.createdIds, List.mem_append, hu]

/-! ## References -/

theorem ready_of_refers {head : Option CpnId} {before : List CpnId} {c : CpnId}
    {cpn : Component} (hcpn : W.getComponent c = some cpn)
    (h : ∀ a, W.Refers c a → a ∈ before) : ready head before cpn := by
  simp only [ready, Bool.or_eq_true, missesReference, Bool.not_eq_true', List.any_eq_false]
  right
  intro ele hele
  cases ele with
  | none => simp
  | some r => simp [h r ⟨cpn, hcpn, hele⟩]

/-- If nothing is missing, nothing is popped. -/
theorem selectBatch_eq_self {before pending batch : List CpnId}
    (h : selectBatch W before pending = .ok batch)
    (hrefs : ∀ c ∈ pending, ∀ a, W.Refers c a → a ∈ before) : batch = pending := by
  induction pending generalizing before batch with
  | nil => simpa [selectBatch, eq_comm] using h
  | cons c rest ih =>
      rw [selectBatch] at h
      split at h
      · cases h
      · rename_i cpn hcpn
        have hready : ready (before ++ [c]).head? before cpn :=
          ready_of_refers hcpn (hrefs c List.mem_cons_self)
        rw [if_pos hready] at h
        obtain ⟨kept, hkept, rfl⟩ := map_eq_ok.mp h
        rw [ih hkept fun d hd a ha =>
          List.mem_append_left _ (hrefs d (List.mem_cons_of_mem c hd) a ha)]

namespace Workflow.Plain

variable (hW : W.Plain)

include hW

/-- `begin` has no incoming edge, and so it refers to nothing. -/
theorem not_edge_begin (a : CpnId) : ¬ W.Edge a "begin" := fun h =>
  hW.acyclic a ((TransGen.single h).trans_left (hW.reachable a h.mem_ids))

theorem not_refers_begin (a : CpnId) : ¬ W.Refers "begin" a := by
  intro h
  obtain ⟨b, _, hedge⟩ := TransGen.tail'_iff.mp (hW.refers _ _ h)
  exact hW.not_edge_begin b hedge

theorem kind_of_parent {cpn : Component} {pid : CpnId} {parent : Component}
    (h : W.getParent cpn = .ok (some (pid, parent))) : parent.obj.isPlain := by
  unfold Workflow.getParent at h
  split at h
  · cases h
  · split at h
    · cases h
    · rename_i hparent
      cases h
      exact hW.kind _ _ hparent

theorem leafSuccessors_eq {cpn : Component} {ids : List CpnId}
    (h : leafSuccessors W cpn = .ok ids) : ids = cpn.downstream := by
  unfold leafSuccessors at h
  split at h
  · rename_i hleaf
    rw [hleaf]
    split at h
    · cases h
    · cases h
      rfl
    · rename_i pid parent hparent
      -- a plain parent has no `get_start`
      have hkind := hW.kind_of_parent hparent
      obtain ⟨start, hstart, _⟩ := map_eq_ok.mp h
      unfold startOf Workflow.getStart at hstart
      cases hobj : parent.obj <;> simp_all [Obj.isPlain]
  · cases h
    rfl

/-- A plain component is followed by its downstream list. -/
theorem successors_eq {c : CpnId} {cpn : Component} {data : Data} {ids : List CpnId}
    (hcpn : W.getComponent c = some cpn) (h : successors W c cpn false data = .ok ids) :
    ids = cpn.downstream := by
  have hkind := hW.kind c cpn hcpn
  unfold successors at h
  simp only [Bool.false_eq_true, if_false] at h
  split at h
  · simp_all [Obj.isPlain]
  · simp_all [Obj.isPlain]
  · simp_all [Obj.isPlain]
  · simp_all [Obj.isPlain]
  · split at h
    · cases h
    · cases h
    · rename_i hparent
      simpa [Obj.isPlain] using hW.kind_of_parent hparent
    · exact hW.leafSuccessors_eq h
  · exact hW.leafSuccessors_eq h

/-- The pending entries after a pass. -/
theorem pending_eq {s s' : RunState} {batch : List CpnId} (h : BatchOf W env s s' batch) :
    s'.pending = pushed (s.executed ++ batch) (batch.flatMap W.downstream) := by
  obtain ⟨u, hu, _, hposts⟩ := h.invoked
  have hpath : s'.canvas.path = pushAll (s.executed ++ batch) (batch.flatMap W.downstream) := by
    refine foldlM_induction
      (P := fun done v => v.path = pushAll (s.executed ++ batch) (done.flatMap W.downstream))
      hposts (by simpa using hu) ?_
    intro done c v w _ hv hpost
    obtain ⟨cpn, isEnd, data, ids, hcpn, hend, hids, hpath⟩ := postProcess_path hpost (hW.goto c)
    have hkind := hW.kind c cpn hcpn
    have hnesting : cpn.obj.isNesting = false := by
      cases hobj : cpn.obj <;> simp_all [Obj.isPlain, Obj.isNesting]
    rw [hend hnesting] at hids
    rw [hpath, hv, hW.successors_eq hcpn hids, List.flatMap_append, pushAll_append]
    simp [Workflow.downstream_eq hcpn]
  have hexec := h.executed hW.goto
  have hsplit := s'.executed_append_pending
  rw [hexec, hpath, ← append_pushed] at hsplit
  exact List.append_cancel_left hsplit

/-- Pending entries succeed entries of the batch. -/
theorem exists_edge_of_pending {s s' : RunState} {batch : List CpnId}
    (h : BatchOf W env s s' batch) {c : CpnId} (hc : c ∈ s'.pending) :
    ∃ b ∈ batch, W.Edge b c := by
  rw [hW.pending_eq h] at hc
  exact List.mem_flatMap.mp (mem_of_mem_pushed hc)

/-- A successor of an entry of the batch is pending next, or it closed the
batch itself. -/
theorem pending_or_mem_of_edge {s s' : RunState} {batch : List CpnId}
    (h : BatchOf W env s s' batch) {b c : CpnId} (hb : b ∈ batch) (hedge : W.Edge b c) :
    c ∈ s'.pending ∨ c ∈ batch := by
  rw [hW.pending_eq h]
  rcases mem_pushed_or_last (l := s.executed ++ batch)
      (List.mem_flatMap.mpr ⟨b, hb, hedge⟩) with hnew | hlast
  · exact .inl hnew
  · right
    rw [List.getLast?_append_of_ne_nil _ (List.ne_nil_of_mem hb)] at hlast
    exact List.mem_of_getLast? hlast

/-- The entries of the n-th batch end walks of length n. -/
theorem walk_of_pending {s : Canvas} (hs : s.PathIn W) {n : ℕ} {t : RunState}
    (h : Run (Step W env) (startRun s) n t) :
    ∀ c ∈ t.pending, Run W.Edge "begin" n c := by
  refine h.invariant (P := fun k u => ∀ c ∈ u.pending, Run W.Edge "begin" k c) ?_ ?_
  · rw [(startRun_of_pathIn hW.fillUp hs).2]
    intro c hc
    obtain rfl := List.mem_singleton.mp hc
    exact .refl
  · intro k u v _ hu hstep c hc
    obtain ⟨batch, hbatch⟩ := hstep.exists_batch
    obtain ⟨b, hb, hedge⟩ := hW.exists_edge_of_pending hbatch hc
    exact .tail (hu b ((selectBatch_sublist hbatch.admitted).1.subset hb)) hedge

end Workflow.Plain

end RagFlow.Agent
