/-
# What a batch does

Specifications of the three parts of a batch: the selection of its entries, the
concurrent invocations, and the post-processing. Each says once what the part
can change and what it must leave alone, and `Step.exists_batch` puts them
together into the effect of one pass on the executed and the pending part of
the path, on the log and on the cursors.
-/

import RagFlow.Agent.Canvas
import RagFlow.Math.Except
import RagFlow.Math.Run

namespace RagFlow.Agent

open RagFlow.Math

variable {W : Workflow} {env : Env}

/-! ## Reading the log -/

/-- The component whose task this event created. -/
def Event.createdId? : Event → Option CpnId
  | .created c => some c
  | _ => none

/-- The component whose invocation this event ended. -/
def Event.finishedId? : Event → Option CpnId
  | .finished c => some c
  | _ => none

/-- The component an event is about. -/
def Event.cpnId : Event → CpnId
  | .created c | .finished c | .item c _ _ | .condition c _ | .ended c _ => c

/-- Events that happen while a task runs. -/
def Event.isTask : Event → Bool
  | .finished _ | .item _ _ _ => true
  | _ => false

/-- Events that happen while a batch is post-processed. -/
def Event.isPost : Event → Bool
  | .condition _ _ | .ended _ _ => true
  | _ => false

/-- The components invoked so far, in the order in which their tasks were
created. -/
def createdIds (log : List Event) : List CpnId := log.filterMap Event.createdId?

/-- The components whose invocations have returned, in that order. -/
def finishedIds (log : List Event) : List CpnId := log.filterMap Event.finishedId?

theorem createdIds_append (l l' : List Event) :
    createdIds (l ++ l') = createdIds l ++ createdIds l' :=
  List.filterMap_append

theorem finishedIds_append (l l' : List Event) :
    finishedIds (l ++ l') = finishedIds l ++ finishedIds l' :=
  List.filterMap_append

@[simp]
theorem createdIds_map_created (cs : List CpnId) : createdIds (cs.map .created) = cs := by
  induction cs with
  | nil => rfl
  | cons c cs ih => simpa [createdIds, Event.createdId?] using ih

@[simp]
theorem finishedIds_map_created (cs : List CpnId) : finishedIds (cs.map .created) = [] := by
  induction cs with
  | nil => rfl
  | cons c cs ih => simp [finishedIds, Event.finishedId?]

theorem mem_createdIds {log : List Event} {c : CpnId} :
    c ∈ createdIds log ↔ Event.created c ∈ log := by
  simp only [createdIds, List.mem_filterMap]
  constructor
  · rintro ⟨e, he, heq⟩
    cases e <;> simp_all [Event.createdId?]
  · intro h
    exact ⟨_, h, rfl⟩

theorem mem_finishedIds {log : List Event} {c : CpnId} :
    c ∈ finishedIds log ↔ Event.finished c ∈ log := by
  simp only [finishedIds, List.mem_filterMap]
  constructor
  · rintro ⟨e, he, heq⟩
    cases e <;> simp_all [Event.finishedId?]
  · intro h
    exact ⟨_, h, rfl⟩

theorem createdIds_eq_nil {log : List Event} (h : ∀ e ∈ log, e.isTask ∨ e.isPost) :
    createdIds log = [] := by
  rw [createdIds, List.filterMap_eq_nil_iff]
  intro e he
  cases e with
  | created c => simpa [Event.isTask, Event.isPost] using h _ he
  | _ => rfl

theorem finishedIds_eq_nil {log : List Event} (h : ∀ e ∈ log, e.isPost) :
    finishedIds log = [] := by
  rw [finishedIds, List.filterMap_eq_nil_iff]
  intro e he
  cases e with
  | finished c => simpa [Event.isPost] using h _ he
  | _ => rfl

/-! ## One task -/

/-- What the invocation of `c` may change: the variables, its own cursor, and
the log by the items it hands out. -/
structure TaskFrame (c : CpnId) (s s' : Canvas) : Prop where
  path : s'.path = s.path
  error : s'.error = s.error
  cursor : ∀ d ≠ c, s'.cursor d = s.cursor d
  log : ∃ τ, s'.log = s.log ++ τ ∧ ∀ e ∈ τ, ∃ v i, e = .item c v i

namespace TaskFrame

variable {c : CpnId} {s s' s'' : Canvas}

theorem refl : TaskFrame c s s := ⟨rfl, rfl, fun _ _ => rfl, [], by simp, by simp⟩

theorem trans (h : TaskFrame c s s') (h' : TaskFrame c s' s'') : TaskFrame c s s'' := by
  obtain ⟨τ, hτ, hitems⟩ := h.log
  obtain ⟨τ', hτ', hitems'⟩ := h'.log
  refine ⟨h'.path.trans h.path, h'.error.trans h.error,
    fun d hd => (h'.cursor d hd).trans (h.cursor d hd), τ ++ τ', ?_, ?_⟩
  · rw [hτ', hτ, List.append_assoc]
  · intro e he
    rcases List.mem_append.mp he with he | he
    · exact hitems e he
    · exact hitems' e he

theorem ofData (data : Data) : TaskFrame c s { s with data := data } :=
  ⟨rfl, rfl, fun _ _ => rfl, [], by simp, by simp⟩

theorem ofOutput (d : CpnId) (key : String) (v : Value) : TaskFrame c s (s.setOutput d key v) :=
  ofData _

theorem ofCursor (i : Cursor) : TaskFrame c s (s.setCursor c i) :=
  ⟨rfl, rfl, fun _ hd => Function.update_of_ne hd _ _, [], by simp [Canvas.setCursor], by simp⟩

theorem ofItem (v : Value) (i : ℤ) : TaskFrame c s (s.record (.item c v i)) :=
  ⟨rfl, rfl, fun _ _ => rfl, [.item c v i], rfl, by simp⟩

end TaskFrame

theorem handOut_frame (c : CpnId) (arr : List Value) (s : Canvas) :
    TaskFrame c s (handOut c arr s).1 := by
  unfold handOut
  dsimp only
  split
  · exact .ofCursor _
  · split
    · exact .refl
    · exact (((TaskFrame.ofOutput c "item" _).trans (.ofOutput c "index" _)).trans
        (.ofCursor _)).trans (.ofItem _ _)

theorem iterationItemInvoke_frame (c : CpnId) (cpn : Component) (s : Canvas) :
    TaskFrame c s (iterationItemInvoke W env c cpn s).1 := by
  unfold iterationItemInvoke cancel
  split
  · exact .ofOutput c _ _
  split
  · exact .refl
  · split
    · exact .refl
    · split
      · exact .ofOutput c _ _
      · split
        · exact .ofData _
        · dsimp only
          split
          · exact (TaskFrame.ofData _).trans (.ofOutput c _ _)
          · exact (TaskFrame.ofData _).trans (handOut_frame c _ _)
    · exact .ofCursor _
  · exact .refl

theorem loopItemInvoke_frame (c : CpnId) (cpn : Component) (s : Canvas) :
    TaskFrame c s (loopItemInvoke W env c cpn s).1 := by
  unfold loopItemInvoke cancel
  split
  · exact .ofOutput c _ _
  split
  · exact .refl
  · split
    · exact .ofCursor _
    · split
      · exact .ofOutput c _ _
      · exact .ofCursor _
  · exact .refl

theorem iterationInvoke_frame (c : CpnId) (itemsRef : VarRef) (s : Canvas) :
    TaskFrame c s (iterationInvoke W env c itemsRef s).1 := by
  unfold iterationInvoke cancel
  split
  · exact .ofOutput c _ _
  · split
    · exact .refl
    · exact .refl
    · exact .ofOutput c _ _

theorem loopInvoke_frame (c : CpnId) (s : Canvas) (vs : List LoopVariable) :
    TaskFrame c s (loopInvoke W env c s vs).1 := by
  induction vs generalizing s with
  | nil => exact .refl
  | cons v vs ih =>
      rw [loopInvoke]
      split
      · exact .refl
      · exact (TaskFrame.ofOutput c _ _).trans (ih _)

theorem invokeBody_frame (c : CpnId) (cpn : Component) (inputs : Data) (s : Canvas) :
    TaskFrame c s (invokeBody W env c cpn inputs s).1 := by
  unfold invokeBody
  split
  · exact iterationItemInvoke_frame c cpn s
  · exact loopItemInvoke_frame c cpn s
  · exact iterationInvoke_frame c _ s
  · split
    · exact .ofOutput c _ _
    · exact loopInvoke_frame c s _
  · exact .refl
  · exact .ofData _

theorem invoke_frame (c : CpnId) (cpn : Component) (inputs : Data) (s : Canvas) :
    TaskFrame c s (invoke W env c cpn inputs s) := by
  have hbody : TaskFrame c s (invokeBody W env c cpn inputs s).1 := invokeBody_frame c cpn inputs s
  unfold invoke
  split
  · rename_i heq
    rwa [heq] at hbody
  · rename_i heq
    rw [heq] at hbody
    split <;> exact hbody.trans (.ofOutput c _ _)

/-! ## The concurrent invocations of a batch -/

/-- What the tasks of a batch may change, `done` being the tasks that ran. -/
structure TasksFrame (done : List CpnId) (s s' : Canvas) : Prop where
  path : s'.path = s.path
  error : s'.error = s.error
  cursor : ∀ d ∉ done, s'.cursor d = s.cursor d
  log : ∃ τ, s'.log = s.log ++ τ ∧ finishedIds τ = done ∧
    ∀ e ∈ τ, e.isTask ∧ e.cpnId ∈ done

theorem TasksFrame.refl {s : Canvas} : TasksFrame [] s s :=
  ⟨rfl, rfl, fun _ _ => rfl, [], by simp, rfl, by simp⟩

theorem TasksFrame.snoc {done : List CpnId} {s s' : Canvas} {c : CpnId} {cpn : Component}
    (inputs : Data) (h : TasksFrame done s s') (hcpn : W.getComponent c = some cpn) :
    TasksFrame (done ++ [c]) s (runTask W env inputs s' c) := by
  have htask : TaskFrame c s' (invoke W env c cpn inputs s') := invoke_frame c cpn inputs s'
  obtain ⟨τ, hτ, hfinished, htasks⟩ := h.log
  obtain ⟨items, hitems, hitem⟩ := htask.log
  have hitemIds : finishedIds items = [] := by
    rw [finishedIds, List.filterMap_eq_nil_iff]
    intro e he
    obtain ⟨v, i, rfl⟩ := hitem e he
    rfl
  have hrun : runTask W env inputs s' c =
      (invoke W env c cpn inputs s').record (.finished c) := by
    rw [runTask, hcpn]
  rw [hrun]
  refine ⟨htask.path.trans h.path, htask.error.trans h.error, ?_,
    τ ++ (items ++ [.finished c]), ?_, ?_, ?_⟩
  · intro d hd
    have hne : d ≠ c := fun heq => hd (by simp [heq])
    have hdone : d ∉ done := fun hmem => hd (List.mem_append_left _ hmem)
    exact (htask.cursor d hne).trans (h.cursor d hdone)
  · rw [Canvas.record, hitems, hτ]
    simp only [List.append_assoc]
  · rw [finishedIds_append, finishedIds_append, hfinished, hitemIds]
    rfl
  · intro e he
    rcases List.mem_append.mp he with he | he
    · exact ⟨(htasks e he).1, List.mem_append_left _ (htasks e he).2⟩
    · rcases List.mem_append.mp he with he | he
      · obtain ⟨v, i, rfl⟩ := hitem e he
        simp [Event.isTask, Event.cpnId]
      · obtain rfl := List.mem_singleton.mp he
        simp [Event.isTask, Event.cpnId]

theorem tasks_frame (inputs : Data) (s : Canvas) (tasks : List CpnId)
    (hknown : ∀ c ∈ tasks, (W.getComponent c).isSome) :
    TasksFrame tasks s (tasks.foldl (runTask W env inputs) s) := by
  refine foldl_induction (P := fun done u => TasksFrame done s u) .refl ?_
  intro done c u hinit h
  have hmem : c ∈ tasks := hinit.subset (by simp)
  obtain ⟨cpn, hcpn⟩ := Option.isSome_iff_exists.mp (hknown c hmem)
  exact h.snoc inputs hcpn

/-! ## Selecting the entries of a batch -/

/-- Only components are admitted, and only pending ones. -/
theorem selectBatch_sublist {before pending batch : List CpnId}
    (h : selectBatch W before pending = .ok batch) :
    batch.Sublist pending ∧ ∀ c ∈ batch, (W.getComponent c).isSome := by
  induction pending generalizing before batch with
  | nil =>
      obtain rfl : [] = batch := by simpa [selectBatch] using h
      simp
  | cons c rest ih =>
      rw [selectBatch] at h
      split at h
      · cases h
      · rename_i cpn hcpn
        split at h
        · obtain ⟨kept, hkept, rfl⟩ := map_eq_ok.mp h
          obtain ⟨hsub, hknown⟩ := ih hkept
          refine ⟨hsub.cons_cons c, ?_⟩
          intro d hd
          rcases List.mem_cons.mp hd with rfl | hd
          · simp [hcpn]
          · exact hknown d hd
        · obtain ⟨hsub, hknown⟩ := ih h
          exact ⟨hsub.cons c, hknown⟩

/-- An admitted entry passed the check against the entries in front of it. -/
theorem selectBatch_ready {before pending batch : List CpnId}
    (h : selectBatch W before pending = .ok batch) {pre post : List CpnId} {c : CpnId}
    (hbatch : batch = pre ++ c :: post) :
    ∃ cpn, W.getComponent c = some cpn ∧
      ready (before ++ pre ++ [c]).head? (before ++ pre) cpn := by
  induction pending generalizing before batch pre with
  | nil =>
      obtain rfl : [] = batch := by simpa [selectBatch] using h
      simp at hbatch
  | cons d rest ih =>
      rw [selectBatch] at h
      split at h
      · cases h
      · rename_i cpn hcpn
        split at h
        · rename_i hready
          obtain ⟨kept, hkept, rfl⟩ := map_eq_ok.mp h
          cases pre with
          | nil =>
              obtain ⟨rfl, rfl⟩ := List.cons_eq_cons.mp hbatch
              exact ⟨cpn, hcpn, by simpa using hready⟩
          | cons p pre =>
              obtain ⟨rfl, hkept'⟩ := List.cons_eq_cons.mp hbatch
              simpa using ih hkept hkept'
        · exact ih h hbatch

/-- The check only gets easier behind a longer path with the same head. -/
theorem ready_mono {head : Option CpnId} {before before' : List CpnId} {cpn : Component}
    (hsub : ∀ c ∈ before, c ∈ before') (h : ready head before cpn) :
    ready head before' cpn := by
  simp only [ready, Bool.or_eq_true, missesReference, Bool.not_eq_true', List.any_eq_false]
    at h ⊢
  refine h.imp id fun h ele hele => ?_
  have hele := h ele hele
  cases ele with
  | none => simp
  | some r =>
      simp only [Bool.and_eq_true, Bool.not_eq_true', decide_eq_false_iff_not, not_and,
        Bool.not_eq_false] at hele ⊢
      intro hr
      exact hele fun hmem => hr (hsub r hmem)

/-- A ready entry is admitted wherever it stands among the pending ones. -/
theorem mem_selectBatch {before pending batch : List CpnId}
    (h : selectBatch W before pending = .ok batch) {c : CpnId} {cpn : Component}
    (hc : c ∈ pending) (hcpn : W.getComponent c = some cpn)
    (hready : ∀ more, ready (before ++ more ++ [c]).head? (before ++ more) cpn) :
    c ∈ batch := by
  induction pending generalizing before batch with
  | nil => simp at hc
  | cons d rest ih =>
      rw [selectBatch] at h
      split at h
      · cases h
      · rename_i cpn' hcpn'
        split at h
        · obtain ⟨kept, hkept, rfl⟩ := map_eq_ok.mp h
          rcases List.mem_cons.mp hc with rfl | hc
          · exact List.mem_cons_self
          · refine List.mem_cons_of_mem _ (ih hkept hc fun more => ?_)
            simpa using hready (d :: more)
        · rename_i hblocked
          rcases List.mem_cons.mp hc with rfl | hc
          · obtain rfl : cpn' = cpn := Option.some.inj (hcpn'.symm.trans hcpn)
            exact absurd (by simpa using hready []) hblocked
          · exact ih h hc hready

/-! ## The post-processing -/

/-- What the post-processing of `c` may change: its own cursor, the error of the
run, the end of the path, and the log by answers of `end()`. -/
structure PostFrame (c : CpnId) (s s' : Canvas) : Prop where
  cursor : ∀ d ≠ c, s'.cursor d = s.cursor d
  log : ∃ τ, s'.log = s.log ++ τ ∧ ∀ e ∈ τ, e.isPost ∧ e.cpnId = c

/-- Reading a deferred text changes variables only. -/
theorem drain_ok {c : CpnId} {cpn : Component} {s s' : Canvas}
    (h : drain env c cpn s = .ok s') : ∃ data, s' = { s with data := data } := by
  unfold drain at h
  split at h
  · obtain ⟨⟨data, text⟩, _, rfl⟩ := map_eq_ok.mp h
    exact ⟨_, rfl⟩
  · cases h
    exact ⟨s.data, rfl⟩

theorem dropStream_eq (c : CpnId) (cpn : Component) (s : Canvas) :
    ∃ data, dropStream c cpn s = { s with data := data } := by
  unfold dropStream
  split
  · exact ⟨s.data, rfl⟩
  · exact ⟨s.data, rfl⟩
  · exact ⟨_, rfl⟩
  · exact ⟨s.data, rfl⟩

/-- The error branch only sets the error of the run, or extends the path. -/
theorem handleError_eq (c : CpnId) (cpn : Component) (s : Canvas) :
    ∃ error, (handleError c cpn s).2 = { s with error := error } ∧
        (handleError c cpn s).1 = false ∨
      (handleError c cpn s).2 = { s with path := s.path ++ cpn.exceptionGoto } ∧
        (handleError c cpn s).1 = true ∧ cpn.exceptionGoto ≠ [] := by
  unfold handleError
  split
  · exact ⟨s.error, .inl ⟨rfl, rfl⟩⟩
  · rename_i message _
    split
    · exact ⟨some message, .inl ⟨rfl, rfl⟩⟩
    · split_ifs with hgoto
      · exact ⟨s.error, .inr ⟨rfl, rfl, hgoto⟩⟩
      · exact ⟨s.error, .inl ⟨rfl, rfl⟩⟩
      · exact ⟨some message, .inl ⟨rfl, rfl⟩⟩

/-- What comes before `end()` is asked leaves the log and the cursors alone. -/
theorem beforeEnd_frame {c : CpnId} {cpn : Component} {s d : Canvas}
    (h : drain env c cpn s = .ok d) :
    (dropStream c cpn (handleError c cpn d).2).cursor = s.cursor ∧
      (dropStream c cpn (handleError c cpn d).2).log = s.log := by
  obtain ⟨data, rfl⟩ := drain_ok h
  obtain ⟨data', hdrop⟩ := dropStream_eq c cpn (handleError c cpn { s with data := data }).2
  obtain ⟨error, ⟨herror, _⟩ | ⟨herror, _⟩⟩ := handleError_eq c cpn { s with data := data }
  all_goals
    rw [hdrop, herror]
    exact ⟨rfl, rfl⟩

/-- `end()` leaves the path alone. -/
theorem endOf_frame {c : CpnId} {cpn : Component} {s s' : Canvas} {isEnd : Bool}
    (h : endOf W env c cpn s = .ok (isEnd, s')) :
    PostFrame c s s' ∧ s'.path = s.path ∧ s'.error = s.error := by
  unfold endOf at h
  split at h
  · cases h
    exact ⟨⟨fun _ _ => rfl, _, rfl, by simp [Event.isPost, Event.cpnId]⟩, rfl, rfl⟩
  · split at h
    · cases h
      exact ⟨⟨fun _ _ => rfl, _, rfl, by simp [Event.isPost, Event.cpnId]⟩, rfl, rfl⟩
    · obtain ⟨⟨b, u⟩, hu, heq⟩ := map_eq_ok.mp h
      cases heq
      unfold loopItemCheck at hu
      split at hu
      · obtain ⟨b', _, heq⟩ := map_eq_ok.mp hu
        cases heq
        split_ifs
        · refine ⟨⟨fun d hd => Function.update_of_ne hd _ _,
            [.condition c isEnd, .ended c isEnd], ?_, ?_⟩, rfl, rfl⟩
          · simp [Canvas.record, Canvas.setCursor]
          · simp [Event.isPost, Event.cpnId]
        · refine ⟨⟨fun _ _ => rfl, [.condition c isEnd, .ended c isEnd], ?_, ?_⟩, rfl, rfl⟩
          · simp [Canvas.record]
          · simp [Event.isPost, Event.cpnId]
      · cases hu
      · cases hu
  · cases h
    exact ⟨⟨fun _ _ => rfl, [], by simp, by simp⟩, rfl, rfl⟩

/-- `end()` leaves the variables alone. -/
theorem endOf_data {c : CpnId} {cpn : Component} {s s' : Canvas} {isEnd : Bool}
    (h : endOf W env c cpn s = .ok (isEnd, s')) : s'.data = s.data := by
  unfold endOf at h
  split at h
  · cases h
    rfl
  · split at h
    · cases h
      rfl
    · obtain ⟨⟨b, u⟩, hu, heq⟩ := map_eq_ok.mp h
      cases heq
      unfold loopItemCheck at hu
      split at hu
      · obtain ⟨b', _, heq⟩ := map_eq_ok.mp hu
        cases heq
        split_ifs <;> rfl
      · cases hu
      · cases hu
  · cases h
    rfl

/-- The parts of a successful post-processing step, before the path grows. -/
theorem settle_ok {s u : Canvas} {c : CpnId} {otherBranch : Bool} {ids : List CpnId}
    (h : settle W env s c = .ok (otherBranch, ids, u)) :
    ∃ cpn d isEnd, W.getComponent c = some cpn ∧ drain env c cpn s = .ok d ∧
      endOf W env c cpn (dropStream c cpn (handleError c cpn d).2) = .ok (isEnd, u) ∧
      successors W c cpn isEnd u.data = .ok ids ∧ otherBranch = (handleError c cpn d).1 := by
  unfold settle at h
  split at h
  · cases h
  · rename_i cpn hcpn
    obtain ⟨d, hd, h⟩ := bind_eq_ok.mp h
    obtain ⟨⟨isEnd, v⟩, hend, h⟩ := bind_eq_ok.mp h
    obtain ⟨ids', hids, h⟩ := bind_eq_ok.mp h
    cases h
    exact ⟨cpn, d, isEnd, hcpn, hd, hend, hids, rfl⟩

theorem postProcess_ok {s s' : Canvas} {c : CpnId} (h : postProcess W env s c = .ok s') :
    ∃ otherBranch ids u, settle W env s c = .ok (otherBranch, ids, u) ∧
      s' = if otherBranch then u else { u with path := pushAll u.path ids } := by
  obtain ⟨⟨otherBranch, ids, u⟩, hsettle, h⟩ := bind_eq_ok.mp h
  exact ⟨otherBranch, ids, u, hsettle, (pure_eq_ok.mp h).symm⟩

theorem settle_frame {s u : Canvas} {c : CpnId} {otherBranch : Bool} {ids : List CpnId}
    (h : settle W env s c = .ok (otherBranch, ids, u)) : PostFrame c s u := by
  obtain ⟨cpn, d, isEnd, _, hd, hend, _, _⟩ := settle_ok h
  obtain ⟨hcursor, hlog⟩ := beforeEnd_frame hd
  have hframe := (endOf_frame hend).1
  refine ⟨fun e he => ?_, ?_⟩
  · rw [hframe.cursor e he, hcursor]
  · rw [← hlog]
    exact hframe.log

theorem postProcess_frame {s s' : Canvas} {c : CpnId} (h : postProcess W env s c = .ok s') :
    PostFrame c s s' := by
  obtain ⟨otherBranch, ids, u, hsettle, rfl⟩ := postProcess_ok h
  have hu := settle_frame hsettle
  split_ifs
  · exact hu
  · exact ⟨hu.cursor, hu.log⟩

/-- Once the run has an error it keeps one. -/
theorem handleError_error {c : CpnId} {cpn : Component} {s : Canvas}
    (h : s.error.isSome ∨ (s.errorOf c).isSome ∧ cpn.exceptionMethod = none) :
    (handleError c cpn s).2.error.isSome := by
  unfold handleError
  split
  · rename_i hnone
    rcases h with h | ⟨h, _⟩
    · exact h
    · rw [hnone] at h
      cases h
  · split
    · rfl
    · rename_i hmethod
      have hs : s.error.isSome := by
        rcases h with h | ⟨_, h⟩
        · exact h
        · rw [h] at hmethod
          cases hmethod
      split_ifs
      · exact hs
      · exact hs
      · rfl

theorem postProcess_error {s s' : Canvas} {c : CpnId} (h : postProcess W env s c = .ok s')
    (herror : s.error.isSome ∨ ∃ cpn, W.getComponent c = some cpn ∧
      cpn.obj.isNesting ∧ cpn.exceptionMethod = none ∧ (s.errorOf c).isSome) :
    s'.error.isSome := by
  obtain ⟨otherBranch, ids, u, hsettle, rfl⟩ := postProcess_ok h
  obtain ⟨cpn, d, isEnd, hcpn, hd, hend, _, _⟩ := settle_ok hsettle
  have hhandle : (handleError c cpn d).2.error.isSome := by
    apply handleError_error
    rcases herror with herror | ⟨cpn', hcpn', hkind, hmethod, herror⟩
    · obtain ⟨data, rfl⟩ := drain_ok hd
      exact .inl herror
    · obtain rfl : cpn = cpn' := Option.some.inj (hcpn.symm.trans hcpn')
      have hsame : s = d := by
        unfold drain at hd
        split at hd
        · rename_i hobj _
          rw [hobj] at hkind
          cases hkind
        · cases hd
          rfl
      exact .inr ⟨hsame ▸ herror, hmethod⟩
  have hu : u.error.isSome := by
    obtain ⟨data, hdrop⟩ := dropStream_eq c cpn (handleError c cpn d).2
    rw [(endOf_frame hend).2.2, hdrop]
    exact hhandle
  split_ifs <;> exact hu

theorem posts_error {s s' : Canvas} {batch : List CpnId}
    (h : batch.foldlM (postProcess W env) s = .ok s') (herror : s.error.isSome) :
    s'.error.isSome :=
  foldlM_induction (P := fun _ u => u.error.isSome) h herror
    fun _ _ _ _ _ hu hpost => postProcess_error hpost (.inl hu)

/-- Only item components are ever at their end. -/
theorem endOf_of_not_nesting {c : CpnId} {cpn : Component} {s s' : Canvas} {isEnd : Bool}
    (h : endOf W env c cpn s = .ok (isEnd, s')) (hkind : cpn.obj.isNesting = false) :
    isEnd = false := by
  unfold endOf at h
  split at h
  · rename_i hobj
    simp [hobj, Obj.isNesting] at hkind
  · rename_i hobj
    simp [hobj, Obj.isNesting] at hkind
  · cases h
    rfl

/-- Unless an exception goto is taken, the path is left to the successors. -/
theorem settle_path {s u : Canvas} {c : CpnId} {ids : List CpnId}
    (h : settle W env s c = .ok (false, ids, u)) : u.path = s.path := by
  obtain ⟨cpn, d, isEnd, hcpn, hd, hend, _, hflag⟩ := settle_ok h
  obtain ⟨data, rfl⟩ := drain_ok hd
  obtain ⟨data', hdrop⟩ := dropStream_eq c cpn (handleError c cpn { s with data := data }).2
  have hpath := (endOf_frame hend).2.1
  obtain ⟨error, ⟨herror, _⟩ | ⟨_, htrue, _⟩⟩ := handleError_eq c cpn { s with data := data }
  · rw [hdrop, herror] at hpath
    exact hpath
  · rw [htrue] at hflag
    cases hflag

theorem otherBranch_of_noGoto {s u : Canvas} {c : CpnId} {otherBranch : Bool}
    {ids : List CpnId} (h : settle W env s c = .ok (otherBranch, ids, u))
    (hgoto : ∀ cpn, W.getComponent c = some cpn → cpn.exceptionGoto = []) :
    otherBranch = false := by
  obtain ⟨cpn, d, isEnd, hcpn, _, _, _, rfl⟩ := settle_ok h
  obtain ⟨error, ⟨_, hflag⟩ | ⟨_, _, hne⟩⟩ := handleError_eq c cpn d
  · exact hflag
  · exact absurd (hgoto cpn hcpn) hne

theorem postProcess_path {s s' : Canvas} {c : CpnId} (h : postProcess W env s c = .ok s')
    (hgoto : ∀ cpn, W.getComponent c = some cpn → cpn.exceptionGoto = []) :
    ∃ cpn isEnd data ids, W.getComponent c = some cpn ∧
      (cpn.obj.isNesting = false → isEnd = false) ∧
      successors W c cpn isEnd data = .ok ids ∧ s'.path = pushAll s.path ids := by
  obtain ⟨otherBranch, ids, u, hsettle, rfl⟩ := postProcess_ok h
  obtain ⟨cpn, d, isEnd, hcpn, _, hend, hids, _⟩ := settle_ok hsettle
  obtain rfl := otherBranch_of_noGoto hsettle hgoto
  have hpath := settle_path hsettle
  exact ⟨cpn, isEnd, u.data, ids, hcpn, endOf_of_not_nesting hend, hids, by simp [hpath]⟩

/-- What the post-processing of a batch may change, `done` being the entries
processed. -/
structure PostsFrame (done : List CpnId) (s s' : Canvas) : Prop where
  cursor : ∀ d ∉ done, s'.cursor d = s.cursor d
  log : ∃ τ, s'.log = s.log ++ τ ∧ ∀ e ∈ τ, e.isPost ∧ e.cpnId ∈ done

theorem posts_frame {s s' : Canvas} {batch : List CpnId}
    (h : batch.foldlM (postProcess W env) s = .ok s') : PostsFrame batch s s' := by
  refine foldlM_induction (P := fun done u => PostsFrame done s u) h
    ⟨fun _ _ => rfl, [], by simp, by simp⟩ ?_
  intro done c u v _ hdone hpost
  have hframe := postProcess_frame hpost
  obtain ⟨τ, hτ, hall⟩ := hdone.log
  obtain ⟨τ', hτ', hall'⟩ := hframe.log
  refine ⟨?_, τ ++ τ', ?_, ?_⟩
  · intro d hd
    have hne : d ≠ c := fun heq => hd (by simp [heq])
    have hnot : d ∉ done := fun hmem => hd (List.mem_append_left _ hmem)
    exact (hframe.cursor d hne).trans (hdone.cursor d hnot)
  · rw [hτ', hτ, List.append_assoc]
  · intro e he
    rcases List.mem_append.mp he with he | he
    · exact ⟨(hall e he).1, List.mem_append_left _ (hall e he).2⟩
    · exact ⟨(hall' e he).1, by simp [(hall' e he).2]⟩

/-! ## One pass of the run -/

/-- The effect of a pass that is followed by another one: a batch is admitted,
its tasks are created, they run, and they are post-processed. -/
structure BatchOf (W : Workflow) (env : Env) (s s' : RunState) (batch : List CpnId) :
    Prop where
  admitted : selectBatch W s.executed s.pending = .ok batch
  idx : s'.idx = s.executed.length + batch.length
  error : s'.canvas.error = none
  /-- The canvas between the invocations and the post-processing. -/
  invoked : ∃ u : Canvas,
    u.path = s.executed ++ batch ∧
    TasksFrame (env.gather s.canvas.time batch)
      (startBatch s.executed batch s.canvas) u ∧
    batch.foldlM (postProcess W env) u = .ok s'.canvas
  quiet : s'.pending.any (asksUser W) = false

theorem gather_mem {env : Env} {time : ℕ} {tasks : List CpnId} {c : CpnId} :
    c ∈ env.gather time tasks ↔ c ∈ tasks :=
  (env.gather_perm time tasks).mem_iff

theorem runBatch_eq {executed pending batch : List CpnId} {s u : Canvas}
    (h : runBatch W env executed pending s = .ok (batch, u)) :
    selectBatch W executed pending = .ok batch ∧
      u = (env.gather s.time batch).foldl (runTask W env s.data)
        (startBatch executed batch s) := by
  unfold runBatch at h
  split at h
  · cases h
  · obtain ⟨batch', hselect, heq⟩ := map_eq_ok.mp h
    cases heq
    exact ⟨hselect, rfl⟩

theorem runBatch_ok {executed pending batch : List CpnId} {s u : Canvas}
    (h : runBatch W env executed pending s = .ok (batch, u)) :
    selectBatch W executed pending = .ok batch ∧
      TasksFrame (env.gather s.time batch) (startBatch executed batch s) u := by
  obtain ⟨hselect, rfl⟩ := runBatch_eq h
  refine ⟨hselect, tasks_frame _ _ _ ?_⟩
  intro c hc
  exact (selectBatch_sublist hselect).2 c (gather_mem.mp hc)

/-- A pass that leads to another one, by its parts. -/
theorem Step.exists_runBatch {s s' : RunState} (h : Step W env s s') :
    ∃ batch u, runBatch W env s.executed s.pending s.canvas = .ok (batch, u) ∧
      batch.foldlM (postProcess W env) u = .ok s'.canvas ∧
      BatchOf W env s s' batch ∧ u.path = s.executed ++ batch := by
  obtain ⟨_, h⟩ := h
  unfold step at h
  obtain ⟨⟨batch, u⟩, hbatch, h⟩ := bind_eq_ok.mp h
  obtain ⟨v, hposts, h⟩ := bind_eq_ok.mp h
  obtain ⟨hselect, htasks⟩ := runBatch_ok hbatch
  split at h
  · cases h
  · rename_i herror
    dsimp only at h
    split at h
    · cases h
    · rename_i hquiet
      cases h
      exact ⟨batch, u, hbatch, hposts, ⟨hselect, rfl, by simpa using herror,
        ⟨u, htasks.path, htasks, hposts⟩, by simpa using hquiet⟩, htasks.path⟩

theorem Step.exists_batch {s s' : RunState} (h : Step W env s s') :
    ∃ batch, BatchOf W env s s' batch := by
  obtain ⟨batch, _, _, _, hbatch, _⟩ := h.exists_runBatch
  exact ⟨batch, hbatch⟩

namespace BatchOf

variable {s s' : RunState} {batch : List CpnId}

/-- The batch of a pass is determined. -/
theorem unique {batch' : List CpnId} (h : BatchOf W env s s' batch)
    (h' : BatchOf W env s s' batch') : batch = batch' := by
  have heq := h.admitted.symm.trans h'.admitted
  cases heq
  rfl

/-- The log of a pass: first every task is created, then the tasks end in some
order, and what the post-processing records comes last. -/
theorem log (h : BatchOf W env s s' batch) :
    ∃ tasks posts, s'.canvas.log = s.canvas.log ++ (batch.map .created ++ (tasks ++ posts)) ∧
      finishedIds tasks = env.gather s.canvas.time batch ∧
      (∀ e ∈ tasks, e.isTask ∧ e.cpnId ∈ batch) ∧ ∀ e ∈ posts, e.isPost ∧ e.cpnId ∈ batch := by
  obtain ⟨u, _, htasks, hposts⟩ := h.invoked
  obtain ⟨tasks, hlog, hfinished, htask⟩ := htasks.log
  obtain ⟨posts, hlog', hpost⟩ := (posts_frame hposts).log
  refine ⟨tasks, posts, ?_, hfinished, ?_, hpost⟩
  · rw [hlog', hlog, startBatch]
    simp only [List.append_assoc]
  · intro e he
    exact ⟨(htask e he).1, gather_mem.mp (htask e he).2⟩

theorem createdIds (h : BatchOf W env s s' batch) :
    createdIds s'.canvas.log = createdIds s.canvas.log ++ batch := by
  obtain ⟨tasks, posts, hlog, _, htasks, hposts⟩ := h.log
  have hrest : RagFlow.Agent.createdIds (tasks ++ posts) = [] :=
    createdIds_eq_nil fun e he => (List.mem_append.mp he).elim
      (fun he => .inl (htasks e he).1) (fun he => .inr (hposts e he).1)
  rw [hlog, createdIds_append, createdIds_append, createdIds_map_created, hrest,
    List.append_nil]

theorem mem_finishedIds (h : BatchOf W env s s' batch) {c : CpnId} :
    c ∈ finishedIds s'.canvas.log ↔ c ∈ finishedIds s.canvas.log ∨ c ∈ batch := by
  obtain ⟨tasks, posts, hlog, hfinished, _, hposts⟩ := h.log
  have hnone := finishedIds_eq_nil fun e he => (hposts e he).1
  rw [hlog, finishedIds_append, finishedIds_append, finishedIds_append,
    finishedIds_map_created, hnone, hfinished, List.nil_append, List.append_nil,
    List.mem_append, gather_mem]

theorem path_extends (h : BatchOf W env s s' batch)
    (hgoto : ∀ c cpn, W.getComponent c = some cpn → cpn.exceptionGoto = []) :
    ∃ ids, s'.canvas.path = pushAll (s.executed ++ batch) ids := by
  obtain ⟨u, hu, _, hposts⟩ := h.invoked
  refine foldlM_induction (P := fun _ v => ∃ ids, v.path = pushAll (s.executed ++ batch) ids)
    hposts ⟨[], hu⟩ ?_
  rintro done c v w _ ⟨ids, hids⟩ hpost
  obtain ⟨_, _, _, more, _, _, _, hpath⟩ := postProcess_path hpost (hgoto c)
  exact ⟨ids ++ more, by rw [hpath, hids, pushAll_append]⟩

/-- The executed part grows by the batch. -/
theorem executed (h : BatchOf W env s s' batch)
    (hgoto : ∀ c cpn, W.getComponent c = some cpn → cpn.exceptionGoto = []) :
    s'.executed = s.executed ++ batch := by
  obtain ⟨ids, hids⟩ := h.path_extends hgoto
  have hlen : s'.idx = (s.executed ++ batch).length := by
    rw [h.idx, List.length_append]
  rw [RunState.executed, hids, hlen, ← append_pushed, List.take_left]

end BatchOf

/-! ## Runs -/

theorem Step.unique {s t u : RunState} (ht : Step W env s t) (hu : Step W env s u) : t = u := by
  have h := ht.2.symm.trans hu.2
  cases h
  rfl

theorem Step.log_extends {s s' : RunState} (h : Step W env s s') :
    s.canvas.log <+: s'.canvas.log := by
  obtain ⟨batch, hbatch⟩ := h.exists_batch
  obtain ⟨tasks, posts, hlog, _⟩ := hbatch.log
  exact ⟨_, hlog.symm⟩

/-- `passes` is the run relation, computed. -/
theorem passes_eq_some_iff {n : ℕ} {s t : RunState} :
    passes W env n s = some t ↔ Run (Step W env) s n t := by
  induction n generalizing s with
  | zero => simp [passes, eq_comm]
  | succ n ih =>
      constructor
      · intro h
        rw [passes] at h
        split_ifs at h with hpending
        split at h
        · rename_i s' hstep
          exact (ih.mp h).head ⟨hpending, hstep⟩
        · cases h
      · intro h
        obtain ⟨m, hfirst, hrest⟩ := (show Run (Step W env) s (1 + n) t by
          rwa [Nat.add_comm]).split
        obtain ⟨u, hu, hstep⟩ := Run.succ_iff.mp hfirst
        obtain rfl := Run.zero_iff.mp hu
        rw [passes, if_neg hstep.1, hstep.2]
        exact ih.mpr hrest

/-- The state after `k` passes, if there are that many. -/
def stateAfter (W : Workflow) (env : Env) (s : RunState) (k : ℕ) : RunState :=
  (passes W env k s).getD s

theorem stateAfter_of_run {s t : RunState} {k : ℕ} (h : Run (Step W env) s k t) :
    stateAfter W env s k = t := by
  rw [stateAfter, passes_eq_some_iff.mpr h]
  rfl

theorem step_stateAfter {s t : RunState} {n k : ℕ} (h : Run (Step W env) s n t) (hk : k < n) :
    Step W env (stateAfter W env s k) (stateAfter W env s (k + 1)) := by
  obtain ⟨u, hu, _⟩ := h.splitAt (k := k + 1) hk
  obtain ⟨v, hv, hstep⟩ := Run.succ_iff.mp hu
  rwa [stateAfter_of_run hv, stateAfter_of_run hu]

/-- The run from `s` goes on until its path is used up: no pass fails, ends the
run with an error, or stops to ask the user. -/
def Live (W : Workflow) (env : Env) (s : RunState) : Prop :=
  ∀ k t, Run (Step W env) s k t → t.pending ≠ [] → ∃ u, Step W env t u

/-- A run that has used up its path after `n` passes has passed through nothing
but the `n` states before. -/
theorem run_of_done {s t u : RunState} {n k : ℕ} (h : Run (Step W env) s n t)
    (hdone : t.pending = []) (hu : Run (Step W env) s k u) :
    k < n ∧ u = stateAfter W env s k ∨ u = t := by
  rcases lt_trichotomy k n with hlt | rfl | hgt
  · exact .inl ⟨hlt, (stateAfter_of_run hu).symm⟩
  · exact .inr (hu.unique (fun h h' => h.unique h') h)
  · obtain ⟨m, hm, _⟩ := hu.splitAt (k := n + 1) hgt
    obtain ⟨v, hv, hstep⟩ := Run.succ_iff.mp hm
    obtain rfl := hv.unique (fun h h' => h.unique h') h
    exact absurd hdone hstep.1

theorem live_of_done {s t : RunState} {n : ℕ} (h : Run (Step W env) s n t)
    (hdone : t.pending = []) : Live W env s := by
  intro k u hu hpending
  rcases run_of_done h hdone hu with ⟨hk, rfl⟩ | rfl
  · exact ⟨_, step_stateAfter h hk⟩
  · exact absurd hdone hpending

end RagFlow.Agent
