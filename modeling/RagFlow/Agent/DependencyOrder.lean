/-
# In which order components are invoked

The check of `_run_batch` looks for a reference on the whole path in front of an
entry. That part of the path also names components of the batch that is being
put together, which have not run yet, and everything left by earlier runs of the
canvas. So the order of invocations depends on the shape of the graph alone:
references are always respected when every referenced component is nearer to
`begin` than the component that reads it, on every walk, and otherwise some run
reads a variable too early.
-/

import RagFlow.Agent.Plain

namespace RagFlow.Agent

open RagFlow.Math Relation

variable {W : Workflow} {env : Env}

/-- Whenever a component's task is created, the components it references have
finished in the same run. -/
def DependencyOrder (W : Workflow) (log : List Event) : Prop :=
  ∀ pre b post, log = pre ++ Event.created b :: post →
    ∀ a, W.Refers b a → Event.finished a ∈ pre

/-- Every walk from `begin` to a component is longer than some walk to each of
the components it references. -/
def Workflow.RefsNearer (W : Workflow) : Prop :=
  ∀ b a, W.Refers b a → ∀ n, Run W.Edge "begin" n b → ∃ m < n, Run W.Edge "begin" m a

/-- A workflow whose downstream lists name components, without components that
belong in an Iteration or a Loop. -/
structure Workflow.Runnable (W : Workflow) : Prop where
  closed : ∀ a b, W.Edge a b → b ∈ W.ids
  top : ∀ c cpn, W.getComponent c = some cpn → cpn.parentId = none
  noExit : ∀ c cpn, W.getComponent c = some cpn → cpn.obj ≠ .exitLoop

theorem DependencyOrder.append {log more : List Event} {batch : List CpnId}
    (h : DependencyOrder W log) (hmore : createdIds more = [])
    (hbatch : ∀ b ∈ batch, ∀ a, W.Refers b a → Event.finished a ∈ log) :
    DependencyOrder W (log ++ (batch.map .created ++ more)) := by
  intro pre b post heq a ha
  rcases List.append_eq_append_iff.mp heq with ⟨rest, hpre, hrest⟩ | ⟨rest, hlog, hrest⟩
  · -- the task is created in the batch
    rw [hpre]
    refine List.mem_append_left _ (hbatch b ?_ a ha)
    have hb : b ∈ createdIds (batch.map .created ++ more) := by
      rw [mem_createdIds, hrest]
      simp
    simpa [createdIds_append, hmore] using hb
  · cases rest with
    | nil =>
        rw [List.append_nil] at hlog
        rw [List.nil_append] at hrest
        rw [hlog] at hbatch
        refine hbatch b ?_ a ha
        have hb : b ∈ createdIds (batch.map .created ++ more) := by
          rw [mem_createdIds, ← hrest]
          simp
        simpa [createdIds_append, hmore] using hb
    | cons e rest =>
        obtain ⟨rfl, _⟩ := List.cons_eq_cons.mp hrest
        exact h pre b rest hlog a ha

/-! ## Layers -/

/-- What holds before the n-th batch: components with a shorter walk have been
invoked, and those with a shortest walk of length n are pending. -/
structure Layer (W : Workflow) (n : ℕ) (t : RunState) : Prop where
  created : ∀ m < n, ∀ c, Run W.Edge "begin" m c → c ∈ createdIds t.canvas.log
  pending : ∀ c, Run W.Edge "begin" n c → (∀ m < n, ¬ Run W.Edge "begin" m c) →
    c ∈ t.pending

namespace Workflow.Plain

variable (hW : W.Plain)

include hW

theorem layer_start {s : Canvas} (hs : s.PathIn W) : Layer W 0 (startRun s) := by
  refine ⟨fun m hm => absurd hm (Nat.not_lt_zero m), ?_⟩
  intro c hc _
  rw [Run.zero_iff] at hc
  rw [hc, (startRun_of_pathIn hW.fillUp hs).2]
  exact List.mem_cons_self

/-- A batch from which nothing is popped leads to the next layer. -/
theorem layer_step {s : Canvas} (hs : s.PathIn W) {n : ℕ} {t t' : RunState}
    {batch : List CpnId} (hrun : Run (Step W env) (startRun s) n t)
    (hlayer : Layer W n t) (hbatch : BatchOf W env t t' batch)
    (hall : batch = t.pending) : Layer W (n + 1) t' := by
  have hwalk := hW.walk_of_pending hs hrun
  have hcreated : ∀ m < n + 1, ∀ c, Run W.Edge "begin" m c →
      c ∈ RagFlow.Agent.createdIds t'.canvas.log := by
    intro m hm c hc
    rw [hbatch.createdIds, List.mem_append]
    by_cases hshort : ∃ k < n, Run W.Edge "begin" k c
    · obtain ⟨k, hk, hck⟩ := hshort
      exact .inl (hlayer.created k hk c hck)
    · have hmn : m = n := by
        by_contra hne
        exact hshort ⟨m, by omega, hc⟩
      rw [hmn] at hc
      right
      rw [hall]
      exact hlayer.pending c hc fun k hk hck => hshort ⟨k, hk, hck⟩
  refine ⟨hcreated, ?_⟩
  intro c hc hshortest
  obtain ⟨b, hb, hedge⟩ := Run.succ_iff.mp hc
  have hbp : b ∈ t.pending :=
    hlayer.pending b hb fun m hm hbm => hshortest (m + 1) (by omega) (.tail hbm hedge)
  rcases hW.pending_or_mem_of_edge hbatch (hall ▸ hbp) hedge with hnext | hmem
  · exact hnext
  · rw [hall] at hmem
    exact absurd (hwalk c hmem) (hshortest n (Nat.lt_succ_self n))

/-- With nearer references nothing is popped, and every batch respects the
order. -/
theorem layer_of_run (hnear : W.RefsNearer) {s : Canvas} (hs : s.PathIn W) {n : ℕ}
    {t : RunState} (h : Run (Step W env) (startRun s) n t) :
    Layer W n t ∧ DependencyOrder W t.canvas.log := by
  have hstart := startRun_of_pathIn hW.fillUp hs
  refine h.invariant
    (P := fun k u => Layer W k u ∧ DependencyOrder W u.canvas.log)
    ⟨hW.layer_start hs, ?_⟩ ?_
  · intro pre b post heq
    have hnil : (startRun s).canvas.log = [] := rfl
    rw [hnil] at heq
    simp at heq
  · rintro k u v hrun ⟨hlayer, horder⟩ hstep
    obtain ⟨batch, hbatch⟩ := hstep.exists_batch
    have hcreated : ∀ c ∈ u.pending, ∀ a, W.Refers c a →
        a ∈ createdIds u.canvas.log := by
      intro c hc a ha
      obtain ⟨m, hm, ham⟩ := hnear c a ha k (hW.walk_of_pending hs hrun c hc)
      exact hlayer.created m hm a ham
    have hall : batch = u.pending := by
      apply selectBatch_eq_self hbatch.admitted
      intro c hc a ha
      rw [executed_eq hW.goto hrun rfl]
      exact List.mem_append_right _ (hcreated c hc a ha)
    refine ⟨hW.layer_step hs hrun hlayer hbatch hall, ?_⟩
    obtain ⟨tasks, posts, hlog, _, htasks, hposts⟩ := hbatch.log
    rw [hlog]
    apply horder.append
    · exact createdIds_eq_nil fun e he => (List.mem_append.mp he).elim
        (fun he => .inl (htasks e he).1) (fun he => .inr (hposts e he).1)
    · intro b hb a ha
      apply mem_finishedIds.mp
      rw [mem_finishedIds_iff hrun rfl]
      exact hcreated b (hall ▸ hb) a ha

/-- The components invoked before the n-th batch end shorter walks. -/
theorem walk_of_created {s : Canvas} (hs : s.PathIn W) {n : ℕ} {t : RunState}
    (h : Run (Step W env) (startRun s) n t) :
    ∀ c ∈ createdIds t.canvas.log, ∃ m < n, Run W.Edge "begin" m c := by
  refine h.invariant
    (P := fun k u => ∀ c ∈ createdIds u.canvas.log, ∃ m < k, Run W.Edge "begin" m c) ?_ ?_
  · intro c hc
    have hnil : (startRun s).canvas.log = [] := rfl
    rw [hnil] at hc
    cases hc
  · intro k u v hrun hu hstep c hc
    obtain ⟨batch, hbatch⟩ := hstep.exists_batch
    rw [hbatch.createdIds, List.mem_append] at hc
    rcases hc with hc | hc
    · obtain ⟨m, hm, hwalk⟩ := hu c hc
      exact ⟨m, hm.trans (Nat.lt_succ_self k), hwalk⟩
    · have hpending := (selectBatch_sublist hbatch.admitted).1.subset hc
      exact ⟨k, Nat.lt_succ_self k, hW.walk_of_pending hs hrun c hpending⟩

end Workflow.Plain

/-! ## A quiet run -/

/-- Nothing has failed, and no variable has a value. -/
structure Canvas.Blank (s : Canvas) : Prop where
  error : s.error = none
  outputs : ∀ c key v, s.data.outputs c key = some v → v = .none

theorem Canvas.Blank.errorOf {s : Canvas} (h : s.Blank) (c : CpnId) : s.errorOf c = none := by
  unfold Canvas.errorOf
  cases hv : s.data.outputs c "_ERROR" with
  | none => rfl
  | some v =>
      rw [h.outputs c _ v hv]
      rfl

theorem Canvas.Blank.not_stream {s : Canvas} (h : s.Blank) (c : CpnId) (key : String) :
    s.data.output c key ≠ .stream := by
  unfold Data.output
  cases hv : s.data.outputs c key with
  | none => simp
  | some v =>
      rw [h.outputs c _ v hv]
      simp

theorem startRun_blank (s : Canvas) : (startRun s).canvas.Blank := by
  refine ⟨rfl, ?_⟩
  intro c key v h
  obtain ⟨w, _, hw⟩ := Option.map_eq_some_iff.mp h
  exact hw.symm

theorem selectBatch_isOk (before : List CpnId) {pending : List CpnId}
    (h : ∀ c ∈ pending, c ∈ W.ids) :
    ∃ batch, selectBatch W before pending = .ok batch := by
  induction pending generalizing before with
  | nil => exact ⟨[], rfl⟩
  | cons c rest ih =>
      obtain ⟨cpn, hcpn⟩ := Option.isSome_iff_exists.mp
        (Workflow.mem_ids_iff.mp (h c List.mem_cons_self))
      have hrest : ∀ d ∈ rest, d ∈ W.ids := fun d hd => h d (List.mem_cons_of_mem c hd)
      rw [selectBatch, hcpn]
      dsimp only
      by_cases hready : ready (before ++ [c]).head? before cpn
      · obtain ⟨batch, hbatch⟩ := ih (before ++ [c]) hrest
        rw [if_pos hready, hbatch]
        exact ⟨c :: batch, rfl⟩
      · rw [if_neg hready]
        exact ih before hrest

namespace Workflow.Plain

variable (hW : W.Plain) (hrun : W.Runnable)

include hW

theorem runTask_quiet {c : CpnId} (hc : c ∈ W.ids) (inputs : Data) (s : Canvas) :
    runTask W .quiet inputs s c = s.record (.finished c) := by
  obtain ⟨cpn, hcpn⟩ := Option.isSome_iff_exists.mp (mem_ids_iff.mp hc)
  have hkind := hW.kind c cpn hcpn
  have hbody : invokeBody W .quiet c cpn inputs s = (s, none) := by
    unfold invokeBody
    cases hobj : cpn.obj <;> simp_all [Obj.isPlain, Env.quiet]
  simp [runTask, hcpn, invoke, hbody]

theorem tasks_quiet {tasks : List CpnId} (htasks : ∀ c ∈ tasks, c ∈ W.ids)
    (inputs : Data) (s : Canvas) :
    tasks.foldl (runTask W .quiet inputs) s =
      { s with log := s.log ++ tasks.map .finished } := by
  induction tasks generalizing s with
  | nil => simp
  | cons c tasks ih =>
      rw [List.foldl_cons, hW.runTask_quiet (htasks c List.mem_cons_self),
        ih fun d hd => htasks d (List.mem_cons_of_mem c hd)]
      simp [Canvas.record]

include hrun

theorem postProcess_quiet {c : CpnId} (hc : c ∈ W.ids) {s : Canvas} (hs : s.Blank) :
    postProcess W .quiet s c = .ok { s with path := pushAll s.path (W.downstream c) } := by
  obtain ⟨cpn, hcpn⟩ := Option.isSome_iff_exists.mp (mem_ids_iff.mp hc)
  have hkind := hW.kind c cpn hcpn
  have hdrain : drain .quiet c cpn s = .ok s := by
    unfold drain
    split
    · rename_i hstream
      exact absurd hstream (hs.not_stream c "content")
    · rfl
  have hdrop : dropStream c cpn s = s := by
    unfold dropStream
    split
    · rfl
    · rfl
    · rename_i hstream _ _ _
      exact absurd hstream (hs.not_stream c "content")
    · rfl
  have herror : handleError c cpn s = (false, s) := by
    simp [handleError, hs.errorOf]
  have hend : endOf W .quiet c cpn s = .ok (false, s) := by
    unfold endOf
    cases hobj : cpn.obj <;> simp_all [Obj.isPlain]
  have hleaf : leafSuccessors W cpn = .ok cpn.downstream := by
    have hparent : W.getParent cpn = .ok none := by
      simp [getParent, hrun.top c cpn hcpn]
    by_cases hnil : cpn.downstream = []
    · simp [leafSuccessors, hnil, hparent]
    · simp [leafSuccessors, hnil]
  have hsucc : successors W c cpn false s.data = .ok cpn.downstream := by
    have hexit := hrun.noExit c cpn hcpn
    unfold successors
    cases hobj : cpn.obj <;> simp_all [Obj.isPlain]
  unfold postProcess settle
  rw [hcpn]
  simp [hdrain, herror, hdrop, hend, hsucc, downstream_eq hcpn, bind, Except.bind, pure,
    Except.pure]

theorem posts_quiet {batch : List CpnId} (hbatch : ∀ c ∈ batch, c ∈ W.ids) {s : Canvas}
    (hs : s.Blank) :
    batch.foldlM (postProcess W .quiet) s =
      .ok { s with path := pushAll s.path (batch.flatMap W.downstream) } := by
  induction batch generalizing s with
  | nil => rfl
  | cons c batch ih =>
      rw [List.foldlM_cons, hW.postProcess_quiet hrun (hbatch c List.mem_cons_self) hs]
      have hs' : Canvas.Blank { s with path := pushAll s.path (W.downstream c) } :=
        ⟨hs.error, hs.outputs⟩
      have hrest := ih (fun d hd => hbatch d (List.mem_cons_of_mem c hd)) hs'
      rw [List.flatMap_cons, pushAll_append]
      exact hrest

/-- A quiet pass over known components leads to another one. -/
theorem step_quiet {s : RunState} (hs : s.canvas.Blank) (hpending : s.pending ≠ [])
    (hknown : ∀ c ∈ s.pending, c ∈ W.ids) :
    ∃ s', Step W .quiet s s' ∧ s'.canvas.Blank ∧ ∀ c ∈ s'.pending, c ∈ W.ids := by
  obtain ⟨batch, hselect⟩ := selectBatch_isOk s.executed hknown
  have hbatch : ∀ c ∈ batch, c ∈ W.ids := fun c hc =>
    hknown c ((selectBatch_sublist hselect).1.subset hc)
  let created : Canvas := startBatch s.executed batch s.canvas
  let invoked : Canvas := { created with log := created.log ++ batch.map Event.finished }
  have hinvoked : invoked.Blank := ⟨hs.error, hs.outputs⟩
  let posted : Canvas :=
    { invoked with path := pushAll invoked.path (batch.flatMap W.downstream) }
  have hrunBatch : runBatch W .quiet s.executed s.pending s.canvas = .ok (batch, invoked) := by
    have htasks := hW.tasks_quiet hbatch s.canvas.data created
    simp only [runBatch, hselect]
    show Except.ok (batch, batch.foldl _ created) = _
    rw [htasks]
  have hposts := hW.posts_quiet hrun hbatch hinvoked
  let next : RunState := ⟨posted, s.executed.length + batch.length⟩
  have hnext : ∀ c ∈ next.pending, c ∈ W.ids := by
    intro c hc
    have hpath : next.pending =
        pushed (s.executed ++ batch) (batch.flatMap W.downstream) := by
      rw [pushed, List.length_append]
      rfl
    rw [hpath] at hc
    obtain ⟨b, _, hedge⟩ := List.mem_flatMap.mp (mem_of_mem_pushed hc)
    exact hrun.closed b c hedge
  have hquiet : next.pending.any (asksUser W) = false := by
    rw [List.any_eq_false]
    intro c hc
    obtain ⟨cpn, hcpn⟩ := Option.isSome_iff_exists.mp (mem_ids_iff.mp (hnext c hc))
    have hkind := hW.kind c cpn hcpn
    cases hobj : cpn.obj <;> simp_all [asksUser, Obj.isUserFillUp, Obj.isPlain]
  refine ⟨next, ⟨hpending, ?_⟩, ⟨hs.error, hs.outputs⟩, hnext⟩
  have herror : posted.error.isSome = false := by
    rw [show posted.error = s.canvas.error from rfl, hs.error]
    rfl
  unfold step
  rw [hrunBatch]
  show (batch.foldlM (postProcess W .quiet) invoked >>= _) = _
  rw [hposts]
  show (if posted.error.isSome then _ else if next.pending.any (asksUser W) then _ else _) = _
  rw [herror, hquiet]
  rfl

/-- The canvas as an earlier run that invoked every component left it. -/
theorem exists_layer {n : ℕ} {b : CpnId} (hwalk : Run W.Edge "begin" n b)
    (hids : b ∈ W.ids) (hshortest : ∀ m < n, ¬ Run W.Edge "begin" m b) :
    ∃ t, Run (Step W .quiet) (startRun { Canvas.fresh with path := W.ids }) n t ∧
      Layer W n t ∧ t.canvas.Blank ∧ ∀ c ∈ t.pending, c ∈ W.ids := by
  let s : Canvas := { Canvas.fresh with path := W.ids }
  have hs : s.PathIn W := fun c hc => hc
  have hstart := startRun_of_pathIn hW.fillUp hs
  suffices ∀ k ≤ n, ∃ t, Run (Step W .quiet) (startRun s) k t ∧ Layer W k t ∧
      t.canvas.Blank ∧ ∀ c ∈ t.pending, c ∈ W.ids from this n le_rfl
  intro k
  induction k with
  | zero =>
      intro _
      refine ⟨startRun s, .refl, hW.layer_start hs, startRun_blank s, ?_⟩
      rw [hstart.2]
      intro c hc
      rw [List.mem_singleton] at hc
      subst hc
      rcases ReflTransGen.cases_head (hwalk.reflTransGen) with heq | ⟨d, hedge, _⟩
      · exact heq ▸ hids
      · exact hedge.mem_ids
  | succ k ih =>
      intro hk
      obtain ⟨t, ht, hlayer, hblank, hknown⟩ := ih (by omega)
      -- a walk of length `n` to `b` passes through the k-th layer
      obtain ⟨c, hck, hcb⟩ := hwalk.splitAt (k := k) (by omega)
      have hc : c ∈ t.pending := by
        apply hlayer.pending c hck
        intro m hm hcm
        have := hcm.trans hcb
        exact hshortest (m + (n - k)) (by omega) this
      obtain ⟨t', hstep, hblank', hknown'⟩ :=
        hW.step_quiet hrun hblank (List.ne_nil_of_mem hc) hknown
      obtain ⟨batch, hbatch⟩ := hstep.exists_batch
      refine ⟨t', .tail ht hstep, ?_, hblank', hknown'⟩
      apply hW.layer_step hs ht hlayer hbatch
      apply selectBatch_eq_self hbatch.admitted
      rintro d _ a ha
      rw [executed_eq hW.goto ht rfl, hstart.1]
      obtain ⟨e, hae, _⟩ := TransGen.head'_iff.mp (hW.refers d a ha)
      exact List.mem_append_left _ hae.mem_ids

end Workflow.Plain

/-! ## The order and the graph -/

/-- Every run, on any canvas and in any environment, respects the order of
references in all the states it goes through. -/
def Workflow.Ordered (W : Workflow) : Prop :=
  ∀ env s, s.PathIn W → ∀ n t, Run (Step W env) (startRun s) n t →
    DependencyOrder W t.canvas.log

theorem ordered_of_refsNearer (hW : W.Plain) (hnear : W.RefsNearer) : W.Ordered :=
  fun _ _ hs _ _ h => (hW.layer_of_run hnear hs h).2

/-- A component that is no farther from `begin` than one it references is
invoked too early in a quiet run on a path that names everything. -/
theorem refsNearer_of_ordered (hW : W.Plain) (hrun : W.Runnable) (hordered : W.Ordered) :
    W.RefsNearer := by
  intro b a hrefers n hwalk
  by_contra hfar
  have hfar : ∀ m < n, ¬ Run W.Edge "begin" m a := fun m hm ham => hfar ⟨m, hm, ham⟩
  -- the shortest walk to `b` is no longer than the given one
  classical
  have hex : ∃ k, Run W.Edge "begin" k b := ⟨n, hwalk⟩
  let k := Nat.find hex
  have hk : Run W.Edge "begin" k b := Nat.find_spec hex
  have hkn : k ≤ n := Nat.find_min' hex hwalk
  have hmin : ∀ m < k, ¬ Run W.Edge "begin" m b := fun m hm => Nat.find_min hex hm
  obtain ⟨cpn, hcpn, _⟩ := id hrefers
  have hids : b ∈ W.ids := Workflow.mem_ids_iff.mpr (by simp [hcpn])
  obtain ⟨t, ht, hlayer, hblank, hknown⟩ := hW.exists_layer hrun hk hids hmin
  have hb : b ∈ t.pending := hlayer.pending b hk hmin
  obtain ⟨t', hstep, _, _⟩ := hW.step_quiet hrun hblank (List.ne_nil_of_mem hb) hknown
  obtain ⟨batch, hbatch⟩ := hstep.exists_batch
  have hstart := startRun_of_pathIn hW.fillUp
    (s := { Canvas.fresh with path := W.ids }) fun c hc => hc
  have hmem : b ∈ batch := by
    apply mem_selectBatch hbatch.admitted hb hcpn
    intro more
    apply ready_of_refers hcpn
    intro d hd
    obtain ⟨e, hde, _⟩ := TransGen.head'_iff.mp (hW.refers b d hd)
    rw [executed_eq hW.goto ht rfl, hstart.1]
    simp [hde.mem_ids]
  obtain ⟨tasks, posts, hlog, _⟩ := hbatch.log
  obtain ⟨pre, post, hsplit⟩ := List.append_of_mem hmem
  have hfinished : Event.finished a ∈ t.canvas.log ++ pre.map Event.created := by
    have htail : DependencyOrder W t'.canvas.log :=
      hordered .quiet _ (fun c hc => hc) (k + 1) t' (.tail ht hstep)
    apply htail _ b (post.map .created ++ (tasks ++ posts)) _ a hrefers
    rw [hlog, hsplit]
    simp
  have hcreated : a ∈ createdIds t.canvas.log := by
    rw [← mem_finishedIds_iff ht rfl, mem_finishedIds]
    simpa using hfinished
  obtain ⟨m, hm, ham⟩ := hW.walk_of_created (fun c hc => hc) ht a hcreated
  exact hfar m (by omega) ham

/-- References are respected when they point to components nearer to `begin`,
and, if the workflow can be run at all, only then. -/
theorem ordered_iff_refsNearer (hW : W.Plain) :
    (W.RefsNearer → W.Ordered) ∧ (W.Runnable → (W.Ordered ↔ W.RefsNearer)) :=
  ⟨ordered_of_refsNearer hW, fun hrun =>
    ⟨refsNearer_of_ordered hW hrun, ordered_of_refsNearer hW⟩⟩

/-- A chain: the answer reads the search in front of it. -/
def chain : Workflow where
  components := [("begin", .simple .begin ["search"] []),
    ("search", .simple (.other "Retrieval") ["answer"] []),
    ("answer", .simple (.other "LLM") [] ["search"])]
  nodup := by decide

theorem chain_plain : chain.Plain :=
  .of_rank (fun c => if c = "begin" then 0 else if c = "search" then 1 else 2)
    (by decide) (by decide) (by decide) (by decide)

theorem chain_refsNearer : chain.RefsNearer := by
  rintro b a ⟨cpn, hcpn, ha⟩ n hwalk
  have hmem := Workflow.mem_components_of_getComponent hcpn
  have hba : b = "answer" ∧ a = "search" := by
    simp only [chain, List.mem_cons, Prod.mk.injEq, List.not_mem_nil, or_false] at hmem
    rcases hmem with ⟨-, rfl⟩ | ⟨-, rfl⟩ | ⟨rfl, rfl⟩ <;> simp_all [Component.simple]
  obtain ⟨rfl, rfl⟩ := hba
  match n with
  | 0 =>
      rw [Run.zero_iff] at hwalk
      exact absurd hwalk (by decide)
  | 1 =>
      obtain ⟨c, hc, hedge⟩ := Run.succ_iff.mp hwalk
      rw [Run.zero_iff] at hc
      subst hc
      exact absurd hedge (show "answer" ∉ chain.downstream "begin" by decide)
  | n + 2 =>
      exact ⟨1, by omega, .single (show "search" ∈ chain.downstream "begin" by decide)⟩

theorem chain_ordered : chain.Ordered :=
  (ordered_iff_refsNearer chain_plain).1 chain_refsNearer

/-- In the triangle, the variables of `answer` are read before `search` has
run, in a run without errors. -/
theorem triangle_out_of_order :
    triangle.Plain ∧ ∃ t, run triangle .quiet 5 .fresh = some (.ok (.finished t)) ∧
      t.error = none ∧ ¬ DependencyOrder triangle t.log := by
  refine ⟨triangle_plain, _, rfl, rfl, ?_⟩
  intro h
  have hfinished := h [.created "begin", .finished "begin", .created "search"] "answer" _ rfl
    "search" ⟨_, rfl, List.mem_cons_self⟩
  simp at hfinished

end RagFlow.Agent
