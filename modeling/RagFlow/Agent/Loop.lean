/-
# Loops

A Loop is left to its item component as well, which counts its invocations in
the same kind of cursor. The cursor goes to the end mark when the Loop ends, it
stays where it is when an ExitLoop leaves, and in neither case it is set back to
0. This module counts how often `end()` lets the run into the body before the
Loop ends, from any state of the cursor on.
-/

import RagFlow.Agent.Iteration

namespace RagFlow.Agent

open RagFlow.Math

variable {W : Workflow} {env : Env}

/-- A Loop `id` with its item component. -/
structure LoopComponent (W : Workflow) where
  id : CpnId
  item : CpnId
  maximumLoopCount : ℕ
  loop : ∃ cpn loopVariables condition operator, W.getComponent id = some cpn ∧
    cpn.obj = .loop loopVariables condition operator maximumLoopCount
  item_kind : ∃ cpn, W.getComponent item = some cpn ∧ cpn.obj = .loopItem ∧
    cpn.parentId = some id

namespace LoopComponent

variable (L : LoopComponent W)

/-- The cursor after an invocation of the item component. -/
def advance (i : Cursor) : Cursor :=
  if (L.maximumLoopCount : ℤ) ≤ i.1 then .stop else i.next

theorem getParent_item {cpn : Component} (hcpn : W.getComponent L.item = some cpn) :
    ∃ parent loopVariables condition operator,
      W.getParent cpn = .ok (some (L.id, parent)) ∧
        parent.obj = .loop loopVariables condition operator L.maximumLoopCount := by
  obtain ⟨cpn', hcpn', _, hparentId⟩ := L.item_kind
  obtain rfl : cpn = cpn' := Option.some.inj (hcpn.symm.trans hcpn')
  obtain ⟨parent, loopVariables, condition, operator, hparent, hobj⟩ := L.loop
  refine ⟨parent, loopVariables, condition, operator, ?_, hobj⟩
  rw [Workflow.getParent, hparentId]
  simp [hparent]

/-- The task of the item component moves its cursor and hands out nothing. -/
theorem item_task (hcancel : ∀ time i, env.isCanceled time i = false) (inputs : Data)
    (v : Canvas) :
    runTask W env inputs v L.item =
      (v.setCursor L.item (L.advance (v.cursor L.item))).record (.finished L.item) := by
  obtain ⟨cpn, hcpn, hobj, _⟩ := L.item_kind
  obtain ⟨parent, loopVariables, condition, operator, hget, hloop⟩ := L.getParent_item hcpn
  have hbody : invokeBody W env L.item cpn inputs v =
      (v.setCursor L.item (L.advance (v.cursor L.item)), none) := by
    obtain ⟨obj, downstream, parentId, inputElements, method, goto, default⟩ := parent
    obtain rfl : obj = _ := hloop
    simp only [invokeBody, hobj, loopItemInvoke, hcancel, hget, Bool.and_false,
      Bool.false_eq_true, if_false, advance]
    split_ifs <;> rfl
  rw [runTask, hcpn]
  simp only [invoke, hbody]

/-- The post-processing of the item component: at the end mark it only says so,
and otherwise the Loop ends if the termination condition is true. -/
theorem settle_item {w u : Canvas} {otherBranch : Bool} {ids : List CpnId}
    (h : settle W env w L.item = .ok (otherBranch, ids, u)) :
    ((w.cursor L.item).1 = -1 ∧ u.cursor = w.cursor ∧ u.log = w.log ++ [.ended L.item true]) ∨
    (w.cursor L.item).1 ≠ -1 ∧ ∃ b,
      u.log = w.log ++ [.condition L.item b, .ended L.item b] ∧
      (b = false → u.cursor = w.cursor) := by
  obtain ⟨cpn, d, isEnd, hcpn, hd, hend, _, _⟩ := settle_ok h
  obtain ⟨cpn', hcpn', hobj, _⟩ := L.item_kind
  obtain rfl : cpn = cpn' := Option.some.inj (hcpn.symm.trans hcpn')
  obtain ⟨hcursor, hlog⟩ := beforeEnd_frame hd
  simp only [endOf, hobj, hcursor] at hend
  by_cases hstop : (w.cursor L.item).1 = -1
  · rw [if_pos hstop] at hend
    cases hend
    exact .inl ⟨hstop, hcursor, by rw [← hlog]; rfl⟩
  · rw [if_neg hstop] at hend
    refine .inr ⟨hstop, ?_⟩
    obtain ⟨x, hx, heq⟩ := map_eq_ok.mp hend
    cases heq
    unfold loopItemCheck at hx
    split at hx
    · obtain ⟨b, _, heq⟩ := map_eq_ok.mp hx
      cases heq
      refine ⟨b, ?_, ?_⟩
      · rw [← hlog]
        split_ifs <;> simp [Canvas.record, Canvas.setCursor]
      · rintro rfl
        exact hcursor
    · cases hx
    · cases hx

/-- A pass that invokes the item component once: the cursor moves; behind the
maximum the Loop ends, and otherwise the termination condition decides. -/
theorem item_pass (hcancel : ∀ time i, env.isCanceled time i = false) {s s' : RunState}
    {v w w' : Canvas} (hvisit : Visit W env L.item ∅ s s' v w w') :
    ((L.maximumLoopCount : ℤ) ≤ (s.canvas.cursor L.item).1 ∧
      endsOf L.item s'.canvas.log = endsOf L.item s.canvas.log ++ [true] ∧
      conditionsOf L.item s'.canvas.log = conditionsOf L.item s.canvas.log) ∨
    (s.canvas.cursor L.item).1 < L.maximumLoopCount ∧ ∃ b,
      endsOf L.item s'.canvas.log = endsOf L.item s.canvas.log ++ [b] ∧
      conditionsOf L.item s'.canvas.log = conditionsOf L.item s.canvas.log ++ [b] ∧
      (b = false → (s'.canvas.cursor L.item).1 = (s.canvas.cursor L.item).1 + 1) := by
  obtain ⟨otherBranch, ids, u, hsettle, hw'⟩ := postProcess_ok hvisit.post
  have hw'cursor : w'.cursor = u.cursor := by
    rw [hw']
    split_ifs <;> rfl
  have hw'log : w'.log = u.log := by
    rw [hw']
    split_ifs <;> rfl
  have hbetween := hvisit.between
  rw [L.item_task hcancel] at hbetween
  have hwcursor : w.cursor L.item = L.advance (s.canvas.cursor L.item) := by
    rw [hbetween.cursor, ← hvisit.before.cursor]
    exact Function.update_self _ _ _
  have hwends : endsOf L.item w.log = endsOf L.item s.canvas.log := by
    rw [hbetween.endsOf_eq, ← hvisit.before.endsOf_eq, Canvas.record, endsOf_append]
    exact List.append_nil _
  have hwconditions : conditionsOf L.item w.log = conditionsOf L.item s.canvas.log := by
    rw [hbetween.conditionsOf_eq, ← hvisit.before.conditionsOf_eq, Canvas.record,
      conditionsOf_append]
    exact List.append_nil _
  have hlow := (s.canvas.cursor L.item).2
  by_cases hmax : (L.maximumLoopCount : ℤ) ≤ (s.canvas.cursor L.item).1
  · have hstop : (w.cursor L.item).1 = -1 := by
      rw [hwcursor, advance, if_pos hmax]
      rfl
    rcases L.settle_item hsettle with ⟨_, _, hlog⟩ | ⟨hne, _⟩
    · refine .inl ⟨hmax, ?_, ?_⟩
      · rw [hvisit.after.endsOf_eq, hw'log, hlog, endsOf_append, hwends]
        simp [endsOf]
      · rw [hvisit.after.conditionsOf_eq, hw'log, hlog, conditionsOf_append, hwconditions]
        exact List.append_nil _
    · exact absurd hstop hne
  · have hnext : (w.cursor L.item).1 = (s.canvas.cursor L.item).1 + 1 := by
      rw [hwcursor, advance, if_neg hmax]
      rfl
    rcases L.settle_item hsettle with ⟨hstop, _⟩ | ⟨_, b, hlog, hcursor⟩
    · omega
    · refine .inr ⟨by omega, b, ?_, ?_, ?_⟩
      · rw [hvisit.after.endsOf_eq, hw'log, hlog, endsOf_append, hwends]
        simp [endsOf]
      · rw [hvisit.after.conditionsOf_eq, hw'log, hlog, conditionsOf_append, hwconditions]
        simp [conditionsOf]
      · intro hb
        rw [hvisit.after.cursor, hw'cursor, hcursor hb, hnext]

/-- The cursor counts the answers of `end()` since the state `s`, as long as the
termination condition has not been true. -/
structure Counts (s t : RunState) (ends conditions : List Bool) : Prop where
  endsOf_eq : endsOf L.item t.canvas.log = endsOf L.item s.canvas.log ++ ends
  conditionsOf_eq : conditionsOf L.item t.canvas.log =
    conditionsOf L.item s.canvas.log ++ conditions
  running : true ∉ conditions → true ∉ ends →
    (t.canvas.cursor L.item).1 = (s.canvas.cursor L.item).1 + ends.length ∧
      ∀ i < ends.length, (s.canvas.cursor L.item).1 + i < L.maximumLoopCount
  stopped : true ∉ conditions → ∀ j, ends = List.replicate j false ++ [true] →
    (∀ i < j, (s.canvas.cursor L.item).1 + i < L.maximumLoopCount) ∧
      L.maximumLoopCount ≤ (s.canvas.cursor L.item).1 + j

theorem Counts.refl (s : RunState) : L.Counts s s [] [] := by
  refine ⟨by simp, by simp, fun _ _ => by simp, fun _ j hj => ?_⟩
  simp at hj

theorem Counts.step (hcancel : ∀ time i, env.isCanceled time i = false) {s t u : RunState}
    {ends conditions : List Bool} (h : L.Counts s t ends conditions) (hstep : Step W env t u)
    (honce : ∀ batch, selectBatch W t.executed t.pending = .ok batch → batch.count L.item ≤ 1) :
    ∃ ends' conditions', L.Counts s u ends' conditions' := by
  obtain ⟨batch, hbatch⟩ := hstep.exists_batch
  have hforeign : ∀ e ∈ batch, Foreign W ∅ e := fun e _ => ⟨by simp, by simp⟩
  have hspares : env.Spares ∅ := ⟨by simp, by simp⟩
  by_cases hmem : L.item ∈ batch
  · have hcount : batch.count L.item = 1 :=
      le_antisymm (honce batch hbatch.admitted) (List.count_pos_iff.mpr hmem)
    obtain ⟨v, w, w', hvisit⟩ := hstep.visit hbatch hcount hspares fun e he _ => hforeign e he
    rcases L.item_pass hcancel hvisit with ⟨hmax, hends, hconditions⟩ |
      ⟨hlt, b, hends, hconditions, hcursor⟩
    · -- behind the maximum
      refine ⟨ends ++ [true], conditions, ?_, ?_, ?_, ?_⟩
      · rw [hends, h.endsOf_eq, List.append_assoc]
      · rw [hconditions, h.conditionsOf_eq]
      · intro _ hnot
        simp at hnot
      · intro hc j hj
        obtain ⟨rfl, _⟩ := List.append_inj' hj rfl
        obtain ⟨hcur, hall⟩ := h.running hc (by simp)
        rw [hcur] at hmax
        simp only [List.length_replicate] at hall hmax
        exact ⟨hall, hmax⟩
    · refine ⟨ends ++ [b], conditions ++ [b], ?_, ?_, ?_, ?_⟩
      · rw [hends, h.endsOf_eq, List.append_assoc]
      · rw [hconditions, h.conditionsOf_eq, List.append_assoc]
      · intro hc he
        simp only [List.mem_append, List.mem_singleton, not_or] at hc he
        have hb : b = false := by simpa using Ne.symm hc.2
        obtain ⟨hcur, hall⟩ := h.running hc.1 he.1
        refine ⟨?_, ?_⟩
        · rw [hcursor hb, hcur]
          simp only [List.length_append, List.length_singleton]
          push_cast
          omega
        · intro i hi
          rw [List.length_append, List.length_singleton] at hi
          rcases Nat.lt_succ_iff_lt_or_eq.mp hi with hi | rfl
          · exact hall i hi
          · omega
      · intro hc j hj
        obtain ⟨_, hb⟩ := List.append_inj' hj rfl
        obtain rfl : b = true := by simpa using hb
        simp at hc
  · have huntouched := hstep.untouched hbatch hmem hspares hforeign
    refine ⟨ends, conditions, ?_, ?_, ?_, h.stopped⟩
    · rw [huntouched.endsOf_eq, h.endsOf_eq]
    · rw [huntouched.conditionsOf_eq, h.conditionsOf_eq]
    · intro hc he
      rw [huntouched.cursor]
      exact h.running hc he

theorem counts_of_run (hcancel : ∀ time i, env.isCanceled time i = false) {s t : RunState}
    {n : ℕ} (h : Run (Step W env) s n t)
    (honce : ∀ k u, k < n → Run (Step W env) s k u → ∀ batch,
      selectBatch W u.executed u.pending = .ok batch → batch.count L.item ≤ 1) :
    ∃ ends conditions, L.Counts s t ends conditions := by
  induction h with
  | refl => exact ⟨[], [], .refl L s⟩
  | @tail n m t hrun hstep ih =>
      obtain ⟨ends, conditions, hm⟩ := ih fun k u hk => honce k u (by omega)
      exact hm.step L hcancel hstep (honce n m (Nat.lt_succ_self n) hrun)

/-- From the state `s` of an entry on, `end()` lets the run into the body `j`
times and then ends the Loop, the termination condition having never been true.
Then `j` is the maximum if and only if the cursor was 0 at the entry, or the
maximum is 0 and the cursor was not at the end mark. -/
theorem loop_bound_iff (hcancel : ∀ time i, env.isCanceled time i = false) {s t : RunState}
    {n j : ℕ} (h : Run (Step W env) s n t)
    (honce : ∀ k u, k < n → Run (Step W env) s k u → ∀ batch,
      selectBatch W u.executed u.pending = .ok batch → batch.count L.item ≤ 1)
    (hends : endsOf L.item t.canvas.log =
      endsOf L.item s.canvas.log ++ (List.replicate j false ++ [true]))
    {conditions : List Bool} (hconditions : conditionsOf L.item t.canvas.log =
      conditionsOf L.item s.canvas.log ++ conditions) (hfalse : true ∉ conditions) :
    j = L.maximumLoopCount ↔ (s.canvas.cursor L.item).1 = 0 ∨
      L.maximumLoopCount = 0 ∧ (s.canvas.cursor L.item).1 ≠ -1 := by
  obtain ⟨ends, conditions', hcounts⟩ := L.counts_of_run hcancel h honce
  obtain rfl : conditions' = conditions :=
    List.append_cancel_left (hcounts.conditionsOf_eq.symm.trans hconditions)
  have heq : ends = List.replicate j false ++ [true] :=
    List.append_cancel_left (hcounts.endsOf_eq.symm.trans hends)
  obtain ⟨hall, hmax⟩ := hcounts.stopped hfalse j heq
  have hlow := (s.canvas.cursor L.item).2
  have hlast : 0 < j → (s.canvas.cursor L.item).1 + (j - 1 : ℕ) < L.maximumLoopCount :=
    fun hj => hall (j - 1) (by omega)
  omega

end LoopComponent

/-- A Loop, to be left when `xs` is empty and after one round at the latest, in
the body of an Iteration. -/
def loopTwice : Workflow where
  components := [("begin", .simple .begin ["outer"] []),
    ("outer", .simple (.iteration (.global "xs") []) [] []),
    ("outerItem", .nestedIn "outer" .iterationItem ["loop"]),
    ("loop", .nestedIn "outer" (.loop []
      [⟨some (.global "xs"), some .empty, .constant (.str "")⟩] .and 1) ["after"]),
    ("loopItem", .nestedIn "loop" .loopItem ["llm"]),
    ("llm", .nestedIn "loop" (.other "LLM") []),
    ("after", .nestedIn "outer" (.other "LLM") [])]
  nodup := by decide

def loopTwiceLoop : LoopComponent loopTwice where
  id := "loop"
  item := "loopItem"
  maximumLoopCount := 1
  loop := ⟨_, _, _, _, rfl, rfl⟩
  item_kind := ⟨_, rfl, rfl, rfl⟩

/-- The first entry: three passes before, the Loop is pending. -/
def loopTwiceEntry : RunState :=
  stateAfter loopTwice .quiet (startRun (.withItems [.num 1, .num 2])) 3

theorem loop_bound_loopTwice :
    1 = loopTwiceLoop.maximumLoopCount ↔
      (loopTwiceEntry.canvas.cursor "loopItem").1 = 0 ∨
        loopTwiceLoop.maximumLoopCount = 0 ∧
          (loopTwiceEntry.canvas.cursor "loopItem").1 ≠ -1 := by
  have hrun : Run (Step loopTwice .quiet) loopTwiceEntry 4
      (stateAfter loopTwice .quiet loopTwiceEntry 4) := passes_eq_some_iff.mp rfl
  have hconditions :
      conditionsOf "loopItem" (stateAfter loopTwice .quiet loopTwiceEntry 4).canvas.log =
        conditionsOf "loopItem" loopTwiceEntry.canvas.log ++ [false] := rfl
  apply loopTwiceLoop.loop_bound_iff (fun _ _ => rfl) hrun (j := 1) _ rfl hconditions
    (by decide)
  intro k u hk hu batch hbatch
  rw [← stateAfter_of_run hu] at hbatch
  match k with
  | 0 | 1 | 2 | 3 =>
      cases hbatch
      decide

/-- In a run without errors that enters the Loop twice, its body is executed
once, as the maximum says, and then twice. -/
theorem loopTwice_exceeds_maximum :
    ∃ t, run loopTwice .quiet 25 (.withItems [.num 1, .num 2]) = some (.ok (.finished t)) ∧
      t.error = none ∧ (createdIds t.log).count "loop" = 2 ∧
      conditionsOf "loopItem" t.log = [false, false, false] ∧
      endsOf "loopItem" t.log = [false, true] ++ [false, false, true] ∧
      (createdIds t.log).count "llm" ≠ 2 * loopTwiceLoop.maximumLoopCount :=
  ⟨_, rfl, rfl, rfl, rfl, rfl, by decide⟩

end RagFlow.Agent
