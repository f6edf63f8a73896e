/-
# One component in a pass

The item components of Iterations and Loops keep a cursor between invocations,
and an Iteration collects outputs of its body. To follow them through a pass one
needs the state in which the task of the component starts, and the fact that
everything else in the pass leaves its cursor, its part of the log and the
outputs of interest alone. A visit cuts a pass at the task and at the
post-processing of one component.
-/

import RagFlow.Agent.Appends

namespace RagFlow.Agent

open RagFlow.Math

variable {W : Workflow} {env : Env}

/-! ## What an item component does, from the log -/

/-- The values that the item component `c` has handed out. -/
def itemsOf (c : CpnId) (log : List Event) : List Value :=
  log.filterMap fun
    | .item d v _ => if d = c then some v else none
    | _ => none

/-- The answers of `end()` of the item component `c`. -/
def endsOf (c : CpnId) (log : List Event) : List Bool :=
  log.filterMap fun
    | .ended d b => if d = c then some b else none
    | _ => none

/-- The values of the termination condition of the loop item `c`. -/
def conditionsOf (c : CpnId) (log : List Event) : List Bool :=
  log.filterMap fun
    | .condition d b => if d = c then some b else none
    | _ => none

theorem itemsOf_append (c : CpnId) (l l' : List Event) :
    itemsOf c (l ++ l') = itemsOf c l ++ itemsOf c l' := List.filterMap_append

theorem endsOf_append (c : CpnId) (l l' : List Event) :
    endsOf c (l ++ l') = endsOf c l ++ endsOf c l' := List.filterMap_append

theorem conditionsOf_append (c : CpnId) (l l' : List Event) :
    conditionsOf c (l ++ l') = conditionsOf c l ++ conditionsOf c l' := List.filterMap_append

/-! ## Leaving a component alone -/

/-- The component bodies and the texts of Messages write no output of the
components in `D`. -/
structure Env.Spares (env : Env) (D : Set CpnId) : Prop where
  invoke : ∀ time c inputs data, ∀ d ∈ D, ∀ key,
    (env.invoke time c inputs data).1.outputs d key = data.outputs d key
  stream : ∀ time c data data' text, env.stream time c data = .ok (data', text) →
    ∀ d ∈ D, ∀ key, data'.outputs d key = data.outputs d key

/-- Nothing happens to the cursor of `c`, to its part of the log, apart from
tasks being created, and to the outputs of the components in `D`. -/
structure Untouched (c : CpnId) (D : Set CpnId) (s s' : Canvas) : Prop where
  cursor : s'.cursor c = s.cursor c
  log : ∃ τ, s'.log = s.log ++ τ ∧ ∀ e ∈ τ, e.cpnId = c → ∃ d, e = .created d
  outputs : ∀ d ∈ D, ∀ key, s'.data.outputs d key = s.data.outputs d key

namespace Untouched

variable {c : CpnId} {D : Set CpnId} {s s' s'' : Canvas}

theorem refl : Untouched c D s s := ⟨rfl, ⟨[], by simp, by simp⟩, fun _ _ _ => rfl⟩

theorem trans (h : Untouched c D s s') (h' : Untouched c D s' s'') : Untouched c D s s'' := by
  obtain ⟨τ, hτ, hall⟩ := h.log
  obtain ⟨τ', hτ', hall'⟩ := h'.log
  refine ⟨h'.cursor.trans h.cursor, ⟨τ ++ τ', ?_, ?_⟩,
    fun d hd key => (h'.outputs d hd key).trans (h.outputs d hd key)⟩
  · rw [hτ', hτ, List.append_assoc]
  · intro e he
    rcases List.mem_append.mp he with he | he
    · exact hall e he
    · exact hall' e he

/-- What is read off the log about `c` alone, task creation apart, is what it was. -/
theorem filterMap_log {β : Type} (h : Untouched c D s s') {f : Event → Option β}
    (hother : ∀ e, e.cpnId ≠ c → f e = none) (hcreated : ∀ d, f (.created d) = none) :
    s'.log.filterMap f = s.log.filterMap f := by
  obtain ⟨τ, hτ, hall⟩ := h.log
  have hnone : τ.filterMap f = [] := by
    apply List.filterMap_eq_nil_iff.mpr
    intro e he
    by_cases hc : e.cpnId = c
    · obtain ⟨d, rfl⟩ := hall e he hc
      exact hcreated d
    · exact hother e hc
  rw [hτ, List.filterMap_append, hnone, List.append_nil]

theorem itemsOf_eq (h : Untouched c D s s') : itemsOf c s'.log = itemsOf c s.log := by
  apply h.filterMap_log
  · intro e hne
    cases e with
    | item d v i => exact if_neg hne
    | _ => rfl
  · exact fun _ => rfl

theorem endsOf_eq (h : Untouched c D s s') : endsOf c s'.log = endsOf c s.log := by
  apply h.filterMap_log
  · intro e hne
    cases e with
    | ended d b => exact if_neg hne
    | _ => rfl
  · exact fun _ => rfl

theorem conditionsOf_eq (h : Untouched c D s s') :
    conditionsOf c s'.log = conditionsOf c s.log := by
  apply h.filterMap_log
  · intro e hne
    cases e with
    | condition d b => exact if_neg hne
    | _ => rfl
  · exact fun _ => rfl

end Untouched

/-! ## Which outputs a task writes -/

theorem outputs_setOutput {data : Data} {c d : CpnId} (hne : d ≠ c) (key key' : String)
    (v : Value) : (data.setOutput c key v).outputs d key' = data.outputs d key' := by
  simp [Data.setOutput, hne]

theorem collateAll_outputs {pid d : CpnId} (hne : d ≠ pid) (key : String)
    (os : List CollatedOutput) (data : Data) :
    (collateAll pid data os).1.outputs d key = data.outputs d key := by
  induction os generalizing data with
  | nil => rfl
  | cons o os ih =>
      rw [collateAll]
      split
      · rw [ih, outputs_setOutput hne]
      · split
        · rfl
        · rw [ih, outputs_setOutput hne]

theorem handOut_outputs {c d : CpnId} (hne : d ≠ c) (key : String) (arr : List Value)
    (s : Canvas) : (handOut c arr s).1.data.outputs d key = s.data.outputs d key := by
  unfold handOut
  dsimp only
  split
  · rfl
  · split
    · rfl
    · show ((s.data.setOutput c "item" _).setOutput c "index" _).outputs d key = _
      rw [outputs_setOutput hne, outputs_setOutput hne]

/-- `d` is not the Iteration to which the item component `cpn` belongs. -/
def NotCollecting (W : Workflow) (cpn : Component) (d : CpnId) : Prop :=
  ∀ parent, W.getParent cpn = .ok (some (d, parent)) →
    ∀ itemsRef outputs, parent.obj ≠ .iteration itemsRef outputs

theorem iterationItemInvoke_outputs {c d : CpnId} {cpn : Component} (hne : d ≠ c)
    (hparent : NotCollecting W cpn d) (key : String) (s : Canvas) :
    (iterationItemInvoke W env c cpn s).1.data.outputs d key = s.data.outputs d key := by
  unfold iterationItemInvoke cancel
  split
  · exact outputs_setOutput hne _ _ _
  split
  · rfl
  · rename_i pid _ _ _ _ _ _ _ _ hget
    have hpid : d ≠ pid := by
      rintro rfl
      exact hparent _ hget _ _ rfl
    split
    · rfl
    · split
      · exact outputs_setOutput hne _ _ _
      · have hcollate : ∀ outputs, (collate W pid outputs (s.cursor c) s.data).1.outputs d key =
            s.data.outputs d key := by
          intro outputs
          unfold collate outputCollation
          split_ifs
          · exact collateAll_outputs hpid key _ _
          · rfl
        split
        · rename_i heq
          rw [← hcollate, heq]
        · rename_i heq
          rw [← hcollate, heq]
          dsimp only
          split
          · exact outputs_setOutput hne _ _ _
          · exact handOut_outputs hne key _ _
    · rfl
  · rfl

theorem loopItemInvoke_outputs {c d : CpnId} {cpn : Component} (hne : d ≠ c) (key : String)
    (s : Canvas) :
    (loopItemInvoke W env c cpn s).1.data.outputs d key = s.data.outputs d key := by
  unfold loopItemInvoke cancel
  split
  · exact outputs_setOutput hne _ _ _
  split
  · rfl
  · split
    · rfl
    · split
      · exact outputs_setOutput hne _ _ _
      · rfl
  · rfl

theorem loopInvoke_outputs {c d : CpnId} (hne : d ≠ c) (key : String) (s : Canvas)
    (vs : List LoopVariable) :
    (loopInvoke W env c s vs).1.data.outputs d key = s.data.outputs d key := by
  induction vs generalizing s with
  | nil => rfl
  | cons v vs ih =>
      rw [loopInvoke]
      split
      · rfl
      · rw [ih]
        exact outputs_setOutput hne _ _ _

/-- A task writes its own outputs, those of its parent if it is an IterationItem,
and what component bodies write. -/
theorem invoke_outputs {D : Set CpnId} (henv : env.Spares D) {c d : CpnId} {cpn : Component}
    (hd : d ∈ D) (hne : d ≠ c) (hparent : cpn.obj = .iterationItem → NotCollecting W cpn d)
    (inputs : Data) (s : Canvas) (key : String) :
    (invoke W env c cpn inputs s).data.outputs d key = s.data.outputs d key := by
  have hbody : (invokeBody W env c cpn inputs s).1.data.outputs d key =
      s.data.outputs d key := by
    unfold invokeBody
    split
    · rename_i hobj
      exact iterationItemInvoke_outputs hne (hparent hobj) key s
    · exact loopItemInvoke_outputs hne key s
    · unfold iterationInvoke cancel
      split
      · exact outputs_setOutput hne _ _ _
      · split
        · rfl
        · rfl
        · exact outputs_setOutput hne _ _ _
    · split
      · exact outputs_setOutput hne _ _ _
      · exact loopInvoke_outputs hne key s _
    · rfl
    · exact henv.invoke _ _ _ _ d hd key
  unfold invoke
  split
  · rename_i heq
    rwa [heq] at hbody
  · rename_i heq
    rw [heq] at hbody
    split
    · rw [← hbody]
      exact outputs_setOutput hne _ _ _
    · rw [← hbody]
      exact outputs_setOutput hne _ _ _

/-! ## The rest of a pass -/

/-- Components that are neither in `D` nor collect outputs for one in `D`. -/
def Foreign (W : Workflow) (D : Set CpnId) (e : CpnId) : Prop :=
  e ∉ D ∧ ∀ cpn, W.getComponent e = some cpn → cpn.obj = .iterationItem →
    ∀ d ∈ D, NotCollecting W cpn d

/-- The post-processing of `e` writes outputs of `e` only, apart from what the
text of a Message does. -/
theorem postProcess_outputs {D : Set CpnId} (henv : env.Spares D) {d e : CpnId} (hd : d ∈ D)
    (hne : d ≠ e) {s s' : Canvas} (h : postProcess W env s e = .ok s') (key : String) :
    s'.data.outputs d key = s.data.outputs d key := by
  obtain ⟨otherBranch, ids, u, hsettle, rfl⟩ := postProcess_ok h
  obtain ⟨cpn, w, isEnd, _, hw, hend, _, _⟩ := settle_ok hsettle
  have hu : u.data = (dropStream e cpn (handleError e cpn w).2).data := endOf_data hend
  have hdrain : w.data.outputs d key = s.data.outputs d key := by
    unfold drain at hw
    split at hw
    · obtain ⟨⟨data, text⟩, hstream, rfl⟩ := map_eq_ok.mp hw
      show (data.setOutput e "content" _).outputs d key = _
      rw [outputs_setOutput hne]
      exact henv.stream _ _ _ _ _ hstream d hd key
    · cases hw
      rfl
  have hhandle : (handleError e cpn w).2.data = w.data := by
    obtain ⟨error, ⟨heq, _⟩ | ⟨heq, _⟩⟩ := handleError_eq e cpn w
    · rw [heq]
    · rw [heq]
  have hdrop : (dropStream e cpn (handleError e cpn w).2).data.outputs d key =
      w.data.outputs d key := by
    unfold dropStream
    split
    · rw [hhandle]
    · rw [hhandle]
    · show ((handleError e cpn w).2.data.setOutput e "content" _).outputs d key = _
      rw [outputs_setOutput hne, hhandle]
    · rw [hhandle]
  have hall : u.data.outputs d key = s.data.outputs d key := by
    rw [hu, hdrop, hdrain]
  split_ifs <;> exact hall

section Others

variable {c e : CpnId} {D : Set CpnId} (henv : env.Spares D) (hne : e ≠ c)
  (hforeign : Foreign W D e)

include henv hne hforeign

theorem runTask_untouched (inputs : Data) (s : Canvas) :
    Untouched c D s (runTask W env inputs s e) := by
  unfold runTask
  split
  · exact .refl
  · rename_i cpn hcpn
    have hframe : TaskFrame e s (invoke W env e cpn inputs s) := invoke_frame e cpn inputs s
    obtain ⟨τ, hτ, hitems⟩ := hframe.log
    refine ⟨hframe.cursor c hne.symm, ⟨τ ++ [.finished e], ?_, ?_⟩, ?_⟩
    · rw [Canvas.record, hτ, List.append_assoc]
    · intro ev hev hc
      rcases List.mem_append.mp hev with hev | hev
      · obtain ⟨v, i, rfl⟩ := hitems ev hev
        exact absurd hc hne
      · obtain rfl := List.mem_singleton.mp hev
        exact absurd hc hne
    · intro d hd key
      apply invoke_outputs henv hd _ fun hobj => hforeign.2 cpn hcpn hobj d hd
      rintro rfl
      exact hforeign.1 hd

theorem postProcess_untouched {s s' : Canvas} (h : postProcess W env s e = .ok s') :
    Untouched c D s s' := by
  have hframe := postProcess_frame h
  obtain ⟨τ, hτ, hposts⟩ := hframe.log
  refine ⟨hframe.cursor c hne.symm, ⟨τ, hτ, fun ev hev hc => ?_⟩, ?_⟩
  · exact absurd ((hposts ev hev).2.symm.trans hc) hne
  · intro d hd key
    have hde : d ≠ e := by
      rintro rfl
      exact hforeign.1 hd
    exact postProcess_outputs henv hd hde h key

end Others

section Lists

variable {c : CpnId} {D : Set CpnId} (henv : env.Spares D) {es : List CpnId} (hc : c ∉ es)
  (hforeign : ∀ e ∈ es, Foreign W D e)

include henv hc hforeign

theorem tasks_untouched (inputs : Data) (s : Canvas) :
    Untouched c D s (es.foldl (runTask W env inputs) s) := by
  refine foldl_induction (P := fun _ u => Untouched c D s u) .refl ?_
  intro done e u hinit h
  have hmem : e ∈ es := hinit.subset (by simp)
  have hne : e ≠ c := fun heq => hc (heq ▸ hmem)
  exact h.trans (runTask_untouched henv hne (hforeign e hmem) inputs u)

theorem posts_untouched {s s' : Canvas} (h : es.foldlM (postProcess W env) s = .ok s') :
    Untouched c D s s' := by
  refine foldlM_induction (P := fun _ u => Untouched c D s u) h .refl ?_
  intro done e u v hinit hu hpost
  have hmem : e ∈ es := hinit.subset (by simp)
  have hne : e ≠ c := fun heq => hc (heq ▸ hmem)
  exact hu.trans (postProcess_untouched henv hne (hforeign e hmem) hpost)

end Lists

theorem startBatch_untouched (c : CpnId) (D : Set CpnId) (executed batch : List CpnId)
    (s : Canvas) : Untouched c D s (startBatch executed batch s) := by
  refine ⟨rfl, ⟨batch.map .created, rfl, fun e he _ => ?_⟩, fun _ _ _ => rfl⟩
  obtain ⟨d, _, rfl⟩ := List.mem_map.mp he
  exact ⟨d, rfl⟩

/-! ## Visits -/

/-- The canvas on which the task of `c` starts in the pass from `s`, if the pass
invokes `c`. -/
def taskStart (W : Workflow) (env : Env) (s : RunState) (c : CpnId) : Option Canvas :=
  match selectBatch W s.executed s.pending with
  | .error _ => none
  | .ok batch =>
      if c ∈ batch then
        some (((env.gather s.canvas.time batch).takeWhile (· ≠ c)).foldl
          (runTask W env s.canvas.data) (startBatch s.executed batch s.canvas))
      else none

/-- A pass seen from a component invoked in it: its task starts on `v`, and its
post-processing leads from `w` to `w'`. -/
structure Visit (W : Workflow) (env : Env) (c : CpnId) (D : Set CpnId) (s s' : RunState)
    (v w w' : Canvas) : Prop where
  start : taskStart W env s c = some v
  post : postProcess W env w c = .ok w'
  settled : ∀ p ∈ passSettles W env s, p.cpnId = c →
    ∃ u, settle W env w c = .ok (p.otherBranch, p.ids, u)
  before : Untouched c D s.canvas v
  between : Untouched c D (runTask W env s.canvas.data v c) w
  after : Untouched c D w' s'.canvas
  error : w'.error = none

variable {s s' : RunState} {batch : List CpnId}

/-- An element that occurs once splits a list. -/
theorem split_of_count {c : CpnId} {l : List CpnId} (h : l.count c = 1) :
    ∃ pre post, l = pre ++ c :: post ∧ c ∉ pre ∧ c ∉ post := by
  have hmem : c ∈ l := List.count_pos_iff.mp (by omega)
  obtain ⟨pre, post, rfl, hpre⟩ := List.eq_append_cons_of_mem hmem
  refine ⟨pre, post, rfl, hpre, fun hpost => ?_⟩
  have hcount := List.count_pos_iff.mpr hpost
  rw [List.count_append, List.count_cons_self] at h
  omega

theorem Step.visit (h : Step W env s s') (hbatch : BatchOf W env s s' batch) {c : CpnId}
    (hc : batch.count c = 1) {D : Set CpnId} (henv : env.Spares D)
    (hforeign : ∀ e ∈ batch, e ≠ c → Foreign W D e) :
    ∃ v w w', Visit W env c D s s' v w w' := by
  obtain ⟨batch', u, hrun, hposts, hbatch', _⟩ := h.exists_runBatch
  obtain rfl : batch = batch' := hbatch.unique hbatch'
  obtain ⟨_, hu⟩ := runBatch_eq hrun
  have hperm := env.gather_perm s.canvas.time batch
  obtain ⟨pre, post, htasks, hpre, hpost⟩ :=
    split_of_count ((hperm.count_eq c).trans hc)
  obtain ⟨bpre, bpost, hsplit, hbpre, hbpost⟩ := split_of_count hc
  have hothers : ∀ es : List CpnId, c ∉ es → (∀ e ∈ es, e ∈ batch) →
      ∀ e ∈ es, Foreign W D e := fun es hces hes e he =>
    hforeign e (hes e he) fun heq => hces (heq ▸ he)
  have hmem : ∀ e, e ∈ pre ++ c :: post → e ∈ batch := fun e he =>
    gather_mem.mp (htasks ▸ he)
  let v := pre.foldl (runTask W env s.canvas.data) (startBatch s.executed batch s.canvas)
  have hv : taskStart W env s c = some v := by
    have htake : (pre ++ c :: post).takeWhile (· ≠ c) = pre := by
      rw [List.takeWhile_append_of_pos]
      · simp
      · intro e he
        simpa using fun heq : e = c => hpre (heq ▸ he)
    have hcb : c ∈ batch := List.count_pos_iff.mp (by omega)
    simp only [taskStart, hbatch.admitted, htasks, htake, v, if_pos hcb]
  rw [htasks, List.foldl_append, List.foldl_cons] at hu
  rw [hsplit, List.foldlM_append] at hposts
  obtain ⟨w, hw, hposts⟩ := bind_eq_ok.mp hposts
  rw [List.foldlM_cons] at hposts
  obtain ⟨w', hw', hafter⟩ := bind_eq_ok.mp hposts
  have herror : w'.error = none := by
    by_contra hsome
    have hlast := posts_error hafter (Option.isSome_iff_ne_none.mpr hsome)
    rw [hbatch.error] at hlast
    cases hlast
  refine ⟨v, w, w', hv, hw', ?_, ?_, ?_, ?_, herror⟩
  · have heq : passSettles W env s = settles W env bpre u ++ settles W env (c :: bpost) w := by
      rw [passSettles, hrun, ← settles_append hw, ← hsplit]
    obtain ⟨otherBranch, ids, x, hsettle, _⟩ := postProcess_ok hw'
    have hcons : settles W env (c :: bpost) w =
        ⟨c, otherBranch, ids⟩ :: settles W env bpost w' := by
      rw [settles, hsettle, hw']
    intro p hp hpc
    rw [heq, hcons] at hp
    rcases List.mem_append.mp hp with hp | hp
    · have hmem := List.mem_map_of_mem (f := Settled.cpnId) hp
      rw [(settles_spec hw).1, hpc] at hmem
      exact absurd hmem hbpre
    · rcases List.mem_cons.mp hp with rfl | hp
      · exact ⟨x, hsettle⟩
      · have hmem := List.mem_map_of_mem (f := Settled.cpnId) hp
        rw [(settles_spec hafter).1, hpc] at hmem
        exact absurd hmem hbpost
  · apply (startBatch_untouched c D s.executed batch s.canvas).trans
    exact tasks_untouched henv hpre
      (hothers pre hpre fun e he => hmem e (by simp [he])) _ _
  · have htail := tasks_untouched henv hpost
      (hothers post hpost fun e he => hmem e (by simp [he])) s.canvas.data
      (runTask W env s.canvas.data v c)
    rw [← hu] at htail
    exact htail.trans (posts_untouched henv hbpre
      (hothers bpre hbpre fun e he => by simp [hsplit, he]) hw)
  · exact posts_untouched henv hbpost
      (hothers bpost hbpost fun e he => by simp [hsplit, he]) hafter

/-- A pass in which `c` is not invoked leaves it alone. -/
theorem Step.untouched (h : Step W env s s') (hbatch : BatchOf W env s s' batch) {c : CpnId}
    (hc : c ∉ batch) {D : Set CpnId} (henv : env.Spares D)
    (hforeign : ∀ e ∈ batch, Foreign W D e) : Untouched c D s.canvas s'.canvas := by
  obtain ⟨batch', u, hrun, hposts, hbatch', _⟩ := h.exists_runBatch
  obtain rfl : batch = batch' := hbatch.unique hbatch'
  obtain ⟨_, hu⟩ := runBatch_eq hrun
  have hgather : c ∉ env.gather s.canvas.time batch := fun hmem => hc (gather_mem.mp hmem)
  have htasks := tasks_untouched henv hgather (fun e he => hforeign e (gather_mem.mp he))
    s.canvas.data (startBatch s.executed batch s.canvas)
  rw [← hu] at htasks
  exact ((startBatch_untouched c D s.executed batch s.canvas).trans htasks).trans
    (posts_untouched henv hc hforeign hposts)

end RagFlow.Agent
