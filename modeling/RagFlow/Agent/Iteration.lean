/-
# Iterations

An Iteration is entered once and then left to its item component, which is
pushed again by the leaf of the body and moves its cursor through the list. The
cursor survives the end of the Iteration as the mark -1, and nothing sets it back
when the Iteration is entered again. This module follows one entry into an
Iteration whose body is a chain, whatever else runs at the same time, and shows
for which cursors the list is covered once.
-/

import RagFlow.Agent.ChainIteration

namespace RagFlow.Agent

open RagFlow.Math

variable {W : Workflow} {env : Env}

namespace ChainIteration

variable (L : ChainIteration W)

/-! ## One entry -/

/-- A pass while the Iteration is in progress: no exception goto is taken,
nothing from outside appends a component of the zone (so the Iteration is not
entered a second time), the pending component of the zone is not popped, and the
items are still `arr` when the item component looks at them. -/
structure Calm (env : Env) (arr : List Value) (s : RunState) : Prop where
  stays : StaysOnPath W env s
  outside : ∀ p ∈ passSettles W env s, p.cpnId ∉ L.zone → ∀ z ∈ L.zone, z ∉ p.ids
  admitted : ∀ batch, selectBatch W s.executed s.pending = .ok batch →
    ∀ z ∈ L.zone, z ∈ s.pending → z ∈ batch
  items : ∀ v, taskStart W env s L.item = some v →
    getVariableValue env.host (known W) v.data L.itemsRef = .ok (.list arr)

/-- The pass that enters the Iteration: it is invoked once, nothing of its zone
is pending, and nothing else appends a component of the zone. -/
structure Entry (env : Env) (s : RunState) : Prop where
  stays : StaysOnPath W env s
  once : ∀ batch, selectBatch W s.executed s.pending = .ok batch → batch.count L.id = 1
  free : ∀ z ∈ L.zone, z ∉ s.pending
  outside : ∀ p ∈ passSettles W env s, p.cpnId ≠ L.id → ∀ z ∈ L.zone, z ∉ p.ids

/-- The value that the output `o` of the body has when the item component is
invoked in the pass from `s`. -/
def handedBack (env : Env) (s : RunState) (o : CollatedOutput) : Value :=
  ((taskStart W env s L.item).map fun v => v.data.output o.cpnId o.var).getD .none

/-- The state after `k` passes, as long as the item component has not stopped,
relative to the state after the entry. -/
structure Trace (env : Env) (arr : List Value) (ρ : ℕ → RunState) (k : ℕ) : Prop where
  pending : (ρ k).pending.filter (· ∈ L.zone) = [L.token k]
  cursor : ((ρ k).canvas.cursor L.item).1 = ((ρ 0).canvas.cursor L.item).1 + L.rounds k
  items : itemsOf L.item (ρ k).canvas.log = itemsOf L.item (ρ 0).canvas.log ++
    (List.range (L.rounds k)).map fun i : ℕ =>
      (pyIndex arr (((ρ 0).canvas.cursor L.item).1 + i)).getD .none
  ends : endsOf L.item (ρ k).canvas.log =
    endsOf L.item (ρ 0).canvas.log ++ List.replicate (L.rounds k) false
  collected : ∀ o ∈ L.outputs, Collectable (ρ k).canvas.data L.id o.key ∧
    collected (ρ k).canvas.data L.id o.key = collected (ρ 0).canvas.data L.id o.key ++
      ((List.range (L.rounds k)).filter fun i : ℕ =>
        0 < ((ρ 0).canvas.cursor L.item).1 + i).map fun i =>
          L.handedBack env (ρ (i * L.zone.length)) o

/-- The post-processing of the Iteration itself appends its item component. -/
theorem settle_id {w u : Canvas} {otherBranch : Bool} {ids : List CpnId}
    (h : settle W env w L.id = .ok (otherBranch, ids, u)) : ids = [L.item] := by
  obtain ⟨cpn, d, isEnd, hcpn, hd, hend, hids, _⟩ := settle_ok h
  obtain ⟨cpn', hcpn', hobj⟩ := L.iteration
  obtain rfl : cpn = cpn' := Option.some.inj (hcpn.symm.trans hcpn')
  simp only [endOf, hobj] at hend
  cases hend
  simp only [successors, hobj, L.start cpn hcpn, Bool.false_eq_true, if_false] at hids
  cases hids
  rfl

/-- The post-processing of a body component appends the next one. -/
theorem settle_body {k : ℕ} (hk : k % L.zone.length ≠ 0) {w u : Canvas} {otherBranch : Bool}
    {ids : List CpnId} (h : settle W env w (L.token k) = .ok (otherBranch, ids, u)) :
    ids = [L.token (k + 1)] := by
  obtain ⟨cpn, d, isEnd, hcpn, hd, hend, hids, _⟩ := settle_ok h
  have hbody : L.token k ∈ L.body := by
    rcases List.mem_cons.mp (L.token_mem k) with heq | hmem
    · exact absurd (L.token_eq_item_iff.mp heq) hk
    · exact hmem
  obtain ⟨cpn', hcpn', hplain⟩ := L.body_kind _ hbody
  obtain rfl : cpn = cpn' := Option.some.inj (hcpn.symm.trans hcpn')
  have hnesting : cpn.obj.isNesting = false := by
    cases hobj : cpn.obj <;> simp_all [Obj.isPlain, Obj.isNesting]
  rw [endOf_of_not_nesting hend hnesting] at hids
  have hleaf := L.leafSuccessors_token hcpn
  obtain ⟨parent, hparent, hparentObj⟩ := L.iteration
  have hparentId : cpn.parentId = some L.id := (L.nested _ _ hcpn).mpr (L.token_mem k)
  have hget : W.getParent cpn = .ok (some (L.id, parent)) := by
    rw [Workflow.getParent, hparentId]
    simp [hparent]
  -- an ExitLoop inside an Iteration is a component like any other
  have hsucc : successors W (L.token k) cpn false u.data = leafSuccessors W cpn := by
    obtain ⟨obj, downstream, parentId, inputElements, method, goto, default⟩ := parent
    obtain rfl : obj = .iteration L.itemsRef L.outputs := hparentObj
    cases hobj : cpn.obj <;> simp_all [successors, Obj.isPlain]
  rw [hsucc, hleaf] at hids
  cases hids
  rfl

theorem token_ne_succ (k : ℕ) : L.token (k + 1) ≠ L.token k := by
  intro heq
  rw [L.token_eq (L.mod_lt (k + 1)), L.token_eq (L.mod_lt k)] at heq
  have hmod := (List.Nodup.getElem_inj_iff L.nodup).mp heq
  have hlen := L.length_pos
  rw [L.mod_succ] at hmod
  split_ifs at hmod <;> omega

variable {L} {arr : List Value}

theorem Calm.not_mem {s s' : RunState} (hcalm : L.Calm env arr s) (h : Step W env s s')
    {batch : List CpnId} (hbatch : BatchOf W env s s' batch) : L.id ∉ batch := by
  intro hid
  obtain ⟨batch', hbatch', hmap, hsettle⟩ := h.settles_ok
  obtain rfl : batch = batch' := hbatch.unique hbatch'
  rw [← hmap] at hid
  obtain ⟨p, hp, hpid⟩ := List.mem_map.mp hid
  obtain ⟨w, u, hw⟩ := hsettle p hp
  rw [hpid] at hw
  apply hcalm.outside p hp (hpid ▸ L.outside) L.item List.mem_cons_self
  rw [L.settle_id hw]
  exact List.mem_singleton_self _

/-- After the entry, the item component is the only one of the zone that is
pending; its cursor is as it was. -/
theorem Entry.trace {σ : ℕ → RunState} (hentry : L.Entry env (σ 0))
    (h : Step W env (σ 0) (σ 1)) :
    (σ 1).pending.filter (· ∈ L.zone) = [L.item] ∧
      Untouched L.item ∅ (σ 0).canvas (σ 1).canvas := by
  obtain ⟨batch, hbatch, hmap, hsettle⟩ := h.settles_ok
  have hfree : ∀ z ∈ L.zone, z ∉ batch := fun z hz hmem =>
    hentry.free z hz ((selectBatch_sublist hbatch.admitted).1.subset hmem)
  constructor
  · apply L.pending_next h hbatch hentry.stays (hentry.once batch hbatch.admitted)
      _ hentry.outside (hfree _ List.mem_cons_self)
    intro p hp hpid
    obtain ⟨w, u, hw⟩ := hsettle p hp
    rw [hpid] at hw
    rw [L.settle_id hw]
    simp [zone]
  · apply h.untouched hbatch (hfree _ List.mem_cons_self) ⟨by simp, by simp⟩
    intro e _
    exact ⟨by simp, by simp⟩

namespace Trace

variable {ρ : ℕ → RunState} {k : ℕ}

theorem zero (hpending : (ρ 0).pending.filter (· ∈ L.zone) = [L.item])
    (hcollect : ∀ o ∈ L.outputs, Collectable (ρ 0).canvas.data L.id o.key) :
    L.Trace env arr ρ 0 := by
  have htoken : L.token 0 = L.item := L.token_eq_item_iff.mpr (Nat.zero_mod _)
  have hrounds : L.rounds 0 = 0 := by simp [rounds]
  refine ⟨by rw [hpending, htoken], ?_, ?_, ?_, ?_⟩
  · simp [hrounds]
  · simp [hrounds]
  · simp [hrounds]
  · intro o ho
    exact ⟨hcollect o ho, by simp [hrounds]⟩

variable (T : L.Trace env arr ρ k) (hcalm : L.Calm env arr (ρ k))
  (h : Step W env (ρ k) (ρ (k + 1)))

include T hcalm h

/-- The component of the zone that is pending is the only one in the batch, and
what it appends of the zone is pending next. -/
theorem batch : ∃ batch, BatchOf W env (ρ k) (ρ (k + 1)) batch ∧
    batch.count (L.token k) = 1 ∧ (∀ y ∈ L.zone, y ∈ batch → y = L.token k) ∧
    ((∀ p ∈ passSettles W env (ρ k), p.cpnId = L.token k → p.ids = [L.token (k + 1)]) →
      (ρ (k + 1)).pending.filter (· ∈ L.zone) = [L.token (k + 1)]) := by
  obtain ⟨batch, hbatch, hmap, _⟩ := h.settles_ok
  have hmem : L.token k ∈ (ρ k).pending := by
    have hfilter : L.token k ∈ (ρ k).pending.filter (· ∈ L.zone) := by
      rw [T.pending]
      exact List.mem_singleton_self _
    exact (List.mem_filter.mp hfilter).1
  have hin := hcalm.admitted batch hbatch.admitted _ (L.token_mem k) hmem
  obtain ⟨hcount, honly⟩ := L.batch_of_pending hbatch.admitted T.pending hin
  refine ⟨batch, hbatch, hcount, honly, fun hids => ?_⟩
  apply L.pending_next h hbatch hcalm.stays hcount
  · intro p hp hpid
    rw [hids p hp hpid]
    simp [L.token_mem (k + 1)]
  · intro p hp hne z hz
    by_cases hzone : p.cpnId ∈ L.zone
    · have hpb : p.cpnId ∈ batch := by
        rw [← hmap]
        exact List.mem_map_of_mem hp
      exact absurd (honly _ hzone hpb) hne
    · exact hcalm.outside p hp hzone z hz
  · intro hnext
    exact L.token_ne_succ k (honly _ (L.token_mem (k + 1)) hnext)

/-- A pass in the body only moves the token. -/
theorem succ_body (henv : env.Spares {L.id, L.item}) (hk : k % L.zone.length ≠ 0) :
    L.Trace env arr ρ (k + 1) := by
  obtain ⟨batch, hbatch, _, honly, hnext⟩ := T.batch hcalm h
  have hitem : L.item ∉ batch := by
    intro hmem
    exact hk (L.token_eq_item_iff.mp (honly _ List.mem_cons_self hmem).symm)
  have huntouched := h.untouched hbatch hitem henv fun e he =>
    L.foreign (fun heq => hitem (heq ▸ he))
      (fun heq => hcalm.not_mem h hbatch (heq ▸ he))
  have hrounds : L.rounds (k + 1) = L.rounds k := by
    rw [L.rounds_succ, if_neg hk]
  refine ⟨?_, ?_, ?_, ?_, ?_⟩
  · apply hnext
    intro p hp hpid
    obtain ⟨_, _, _, hsettle⟩ := h.settles_ok
    obtain ⟨w, u, hw⟩ := hsettle p hp
    rw [hpid] at hw
    exact L.settle_body hk hw
  · rw [huntouched.cursor, hrounds, T.cursor]
  · rw [huntouched.itemsOf_eq, hrounds, T.items]
  · rw [huntouched.endsOf_eq, hrounds, T.ends]
  · intro o ho
    have houtputs := huntouched.outputs L.id (Set.mem_insert _ _) o.key
    rw [hrounds]
    exact ⟨collectable_congr houtputs (T.collected o ho).1,
      (collected_congr houtputs).trans (T.collected o ho).2⟩

/-- A pass that invokes the item component: it hands out the item under the
cursor and goes on, or stops behind the last item. -/
theorem item_pass (henv : env.Spares {L.id, L.item})
    (hcancel : ∀ time i, env.isCanceled time i = false) (hk : k % L.zone.length = 0) :
    ∃ v, taskStart W env (ρ k) L.item = some v ∧
      (∀ x, ((ρ k).canvas.cursor L.item).1 < arr.length →
        pyIndex arr ((ρ k).canvas.cursor L.item).1 = some x →
        L.ItemPass (ρ k) (ρ (k + 1)) v (((ρ k).canvas.cursor L.item).1 + 1) [x] ∧
          (ρ (k + 1)).pending.filter (· ∈ L.zone) = [L.token (k + 1)]) ∧
      ((arr.length : ℤ) ≤ ((ρ k).canvas.cursor L.item).1 →
        L.ItemPass (ρ k) (ρ (k + 1)) v (-1) []) ∧
      (((ρ k).canvas.cursor L.item).1 < arr.length →
        pyIndex arr ((ρ k).canvas.cursor L.item).1 ≠ none) := by
  obtain ⟨batch, hbatch, hcount, _, hnext⟩ := T.batch hcalm h
  have htoken : L.token k = L.item := L.token_eq_item_iff.mpr hk
  rw [htoken] at hcount hnext
  obtain ⟨v, w, w', hvisit⟩ := h.visit hbatch hcount henv fun e he hne =>
    L.foreign hne fun heq => hcalm.not_mem h hbatch (heq ▸ he)
  have hin : L.id ∈ ({L.id, L.item} : Set CpnId) := Set.mem_insert _ _
  obtain ⟨hhand, hstop, hraise⟩ := L.item_task hcancel (hcalm.items v hvisit.start)
    (fun o ho => collectable_congr (hvisit.before.outputs _ hin o.key) (T.collected o ho).1)
    (ρ k).canvas.data
  rw [hvisit.before.cursor] at hhand hstop hraise
  have hcollect := fun o ho => (T.collected o ho).1
  refine ⟨v, hvisit.start, fun x hlt hx => ?_, fun hle => ?_, fun hlt hx => ?_⟩
  · have htask := hhand x hlt hx
    refine ⟨L.itemPass_of_task henv hvisit hcollect htask, hnext ?_⟩
    intro p hp hpid
    obtain ⟨u, hsettle⟩ := hvisit.settled p hp hpid
    have hne : (w.cursor L.item).1 ≠ -1 := by
      rw [hvisit.between.cursor, htask.cursor]
      have := ((ρ k).canvas.cursor L.item).2
      omega
    rw [(L.settle_item hsettle).2.2 hne]
    have hmod : (k + 1) % L.zone.length = 1 % L.zone.length := by
      rw [Nat.add_mod, hk, Nat.zero_add, Nat.mod_mod]
    rw [token, token, hmod]
  · exact L.itemPass_of_task henv hvisit hcollect (hstop hle)
  · exact L.not_error_item hvisit (hraise hlt hx)

/-- A pass that hands out an item continues the trace. -/
theorem succ_item (henv : env.Spares {L.id, L.item})
    (hcancel : ∀ time i, env.isCanceled time i = false) (hk : k % L.zone.length = 0)
    (hlt : ((ρ k).canvas.cursor L.item).1 < arr.length) : L.Trace env arr ρ (k + 1) := by
  obtain ⟨v, hv, hhand, _, hraise⟩ := T.item_pass hcalm h henv hcancel hk
  obtain ⟨x, hx⟩ := Option.ne_none_iff_exists'.mp (hraise hlt)
  obtain ⟨hpass, hnext⟩ := hhand x hlt hx
  have hrounds : L.rounds (k + 1) = L.rounds k + 1 := by
    rw [L.rounds_succ, if_pos hk]
  have hmul : L.rounds k * L.zone.length = k := by
    rw [rounds, if_pos hk]
    exact Nat.div_mul_cancel (Nat.dvd_of_mod_eq_zero hk)
  refine ⟨hnext, ?_, ?_, ?_, ?_⟩
  · rw [hpass.cursor, hrounds, T.cursor]
    push_cast
    omega
  · rw [hpass.items, hrounds, T.items, List.range_succ, List.map_append, ← List.append_assoc,
      List.map_singleton, ← T.cursor, hx]
    rfl
  · have hne : ((ρ k).canvas.cursor L.item).1 + 1 ≠ -1 := by
      have := ((ρ k).canvas.cursor L.item).2
      omega
    rw [hpass.ends, hrounds, T.ends, List.replicate_succ', decide_eq_false hne,
      List.append_assoc]
  · intro o ho
    refine ⟨(hpass.collected o ho).1, ?_⟩
    rw [(hpass.collected o ho).2, hrounds, (T.collected o ho).2, List.range_succ,
      List.filter_append, List.map_append, ← List.append_assoc, T.cursor]
    congr 1
    have hback : L.handedBack env (ρ (L.rounds k * L.zone.length)) o =
        v.data.output o.cpnId o.var := by
      rw [handedBack, hmul, hv]
      rfl
    by_cases hpos : 0 < ((ρ 0).canvas.cursor L.item).1 + (L.rounds k : ℤ)
    · simp [hpos, hback]
    · simp [hpos]

end Trace

theorem rounds_mul_of_mod {k : ℕ} (hk : k % L.zone.length = 0) :
    L.rounds k * L.zone.length = k := by
  rw [rounds, if_pos hk]
  exact Nat.div_mul_cancel (Nat.dvd_of_mod_eq_zero hk)

/-- After the invocation behind `n` full rounds, `n + 1` rounds have begun. -/
theorem rounds_mul_succ (n : ℕ) : L.rounds (n * L.zone.length + 1) = n + 1 := by
  rw [L.rounds_succ, if_pos (Nat.mul_mod_left _ _), L.rounds_mul]

theorem endsOf_extends {ρ : ℕ → RunState} {i j : ℕ} (hij : i ≤ j)
    (hsteps : ∀ k < j, Step W env (ρ k) (ρ (k + 1))) (c : CpnId) :
    endsOf c (ρ i).canvas.log <+: endsOf c (ρ j).canvas.log := by
  induction j, hij using Nat.le_induction with
  | base => exact List.prefix_rfl
  | succ j hij ih =>
      exact (ih fun k hk => hsteps k (by omega)).trans
        ((Step.log_extends (hsteps j (Nat.lt_succ_self j))).filterMap _)

theorem replicate_prefix_eq {i j : ℕ}
    (h : List.replicate i false ++ [true] <+: List.replicate j false ++ [true]) : i = j := by
  obtain ⟨rest, hrest⟩ := h
  induction i generalizing j with
  | zero =>
      cases j with
      | zero => rfl
      | succ j => simp [List.replicate_succ] at hrest
  | succ i ih =>
      cases j with
      | zero => simp [List.replicate_succ] at hrest
      | succ j =>
          have hrest : List.replicate i false ++ [true] ++ rest =
              List.replicate j false ++ [true] := by
            simpa [List.replicate_succ] using hrest
          rw [ih hrest]

theorem map_pyIndex_range (arr : List Value) :
    ((List.range arr.length).map fun i : ℕ => (pyIndex arr (0 + (i : ℤ))).getD .none) = arr := by
  apply List.ext_getElem
  · simp
  · intro i h _
    have hi : i < arr.length := by simpa using h
    simp [pyIndex, hi]

theorem map_range_succ {β : Type} (f : ℕ → β) (n : ℕ) :
    (((List.range n).filter fun i : ℕ => 0 < (0 : ℤ) + i).map f) ++
      (if 0 < (n : ℤ) then [f n] else []) = (List.range n).map fun i => f (i + 1) := by
  cases n with
  | zero => rfl
  | succ n =>
      have hfilter : (List.range (n + 1)).filter (fun i : ℕ => 0 < (0 : ℤ) + i) =
          (List.range n).map Nat.succ := by
        rw [List.range_succ_eq_map, List.filter_cons_of_neg (by simp)]
        apply List.filter_eq_self.mpr
        intro i hi
        obtain ⟨j, _, rfl⟩ := List.mem_map.mp hi
        simp
      rw [hfilter, if_pos (by omega), List.map_map, List.range_succ, List.map_append]
      rfl

/-- A component of the zone is pending in every state from the entry at `s` up
to `k` passes later. -/
def InProgress (L : ChainIteration W) (env : Env) (s : RunState) (k : ℕ) : Prop :=
  ∀ j t, 0 < j → j ≤ k → Run (Step W env) s j t → ∃ z ∈ L.zone, z ∈ t.pending

/-- An entry at `s`, in a run that goes on until its path is used up and is not
cancelled, to be left to itself as long as it is in progress. -/
structure Undisturbed (L : ChainIteration W) (env : Env) (arr : List Value) (s : RunState) :
    Prop where
  entry : L.Entry env s
  live : Live W env s
  uncancelled : ∀ time i, env.isCanceled time i = false
  spares : env.Spares {L.id, L.item}
  collectable : ∀ t, Step W env s t → ∀ o ∈ L.outputs, Collectable t.canvas.data L.id o.key
  calm : ∀ k t, 0 < k → Run (Step W env) s k t → L.InProgress env s k → L.Calm env arr t

/-- The claim of an Iteration for one entry: there are as many passes as it takes
to run the body once for every element; in these the item component hands out
the elements in order, each once, and then it is at its end; and every collated
output gains, for each element in order, the value its source had when the item
component was invoked the next time. -/
structure Covers (L : ChainIteration W) (env : Env) (arr : List Value) (s : RunState) :
    Prop where
  passes : ∃ t, Run (Step W env) s (arr.length * L.zone.length + 2) t
  items : itemsOf L.item (stateAfter W env s (arr.length * L.zone.length + 2)).canvas.log =
    itemsOf L.item s.canvas.log ++ arr
  ends : endsOf L.item (stateAfter W env s (arr.length * L.zone.length + 2)).canvas.log =
    endsOf L.item s.canvas.log ++ (List.replicate arr.length false ++ [true])
  collected : ∀ o ∈ L.outputs,
    collected (stateAfter W env s (arr.length * L.zone.length + 2)).canvas.data L.id o.key =
      collected (stateAfter W env s 1).canvas.data L.id o.key ++
        (List.range arr.length).map fun i =>
          L.handedBack env (stateAfter W env s ((i + 1) * L.zone.length + 1)) o

namespace Undisturbed

variable {s : RunState} (h : L.Undisturbed env arr s)

include h

/-- The first pass enters the Iteration and leaves the item component alone. -/
theorem start : Run (Step W env) s 1 (stateAfter W env s 1) ∧
    L.Trace env arr (fun k => stateAfter W env s (k + 1)) 0 ∧
    Untouched L.item ∅ s.canvas (stateAfter W env s 1).canvas := by
  have hpending : s.pending ≠ [] := by
    intro hnil
    have honce := h.entry.once [] (by rw [hnil]; rfl)
    simp at honce
  obtain ⟨t, ht⟩ := h.live 0 s .refl hpending
  have hrun : Run (Step W env) s 1 t := .single ht
  have hstart : stateAfter W env s 0 = s := rfl
  rw [stateAfter_of_run hrun]
  have hentry0 : L.Entry env (stateAfter W env s 0) := hstart ▸ h.entry
  have hentry := hentry0.trace (σ := stateAfter W env s)
    (by rw [hstart, stateAfter_of_run hrun]; exact ht)
  rw [stateAfter_of_run hrun, hstart] at hentry
  refine ⟨hrun, .zero ?_ ?_, hentry.2⟩
  · show (stateAfter W env s 1).pending.filter (· ∈ L.zone) = _
    rw [stateAfter_of_run hrun]
    exact hentry.1
  · show ∀ o ∈ L.outputs, Collectable (stateAfter W env s 1).canvas.data L.id o.key
    rw [stateAfter_of_run hrun]
    exact h.collectable t ht

/-- As long as the cursor is in front of the end of the list, the run goes on
and so does the trace. -/
theorem trace {n : ℕ} (hlt : ∀ k < n, k % L.zone.length = 0 →
      (s.canvas.cursor L.item).1 + L.rounds k < arr.length) :
    Run (Step W env) s (n + 2) (stateAfter W env s (n + 2)) ∧
      L.Calm env arr (stateAfter W env s (n + 1)) ∧
      L.Trace env arr (fun k => stateAfter W env s (k + 1)) n := by
  obtain ⟨hstart, start, huntouched⟩ := h.start
  suffices Run (Step W env) s (n + 1) (stateAfter W env s (n + 1)) ∧
      L.InProgress env s (n + 1) ∧ L.Trace env arr (fun k => stateAfter W env s (k + 1)) n by
    obtain ⟨hrun, hprogress, T⟩ := this
    obtain ⟨z, _, hz⟩ := hprogress (n + 1) _ (by omega) le_rfl hrun
    obtain ⟨u, hu⟩ := h.live _ _ hrun (List.ne_nil_of_mem hz)
    have hnext : Run (Step W env) s (n + 2) u := .tail hrun hu
    rw [stateAfter_of_run hnext]
    exact ⟨hnext, h.calm (n + 1) _ (by omega) hrun hprogress, T⟩
  have hpending : ∀ k, L.Trace env arr (fun k => stateAfter W env s (k + 1)) k →
      ∃ z ∈ L.zone, z ∈ (stateAfter W env s (k + 1)).pending := by
    intro k T
    have hmem : L.token k ∈ (stateAfter W env s (k + 1)).pending.filter (· ∈ L.zone) := by
      rw [T.pending]
      exact List.mem_singleton_self _
    exact ⟨_, L.token_mem k, (List.mem_filter.mp hmem).1⟩
  induction n with
  | zero =>
      refine ⟨hstart, fun j t hj hj' ht => ?_, start⟩
      obtain rfl : j = 1 := by omega
      rw [← stateAfter_of_run ht]
      exact hpending 0 start
  | succ n ih =>
      obtain ⟨hrun, hprogress, T⟩ := ih fun k hk => hlt k (by omega)
      obtain ⟨z, _, hz⟩ := hpending n T
      obtain ⟨u, hu⟩ := h.live _ _ hrun (List.ne_nil_of_mem hz)
      have hnext : Run (Step W env) s (n + 1 + 1) u := .tail hrun hu
      have hcalm := h.calm (n + 1) _ (by omega) hrun hprogress
      rw [← stateAfter_of_run hnext] at hu hnext
      have T' : L.Trace env arr (fun k => stateAfter W env s (k + 1)) (n + 1) := by
        by_cases hk : n % L.zone.length = 0
        · apply T.succ_item hcalm hu h.spares h.uncancelled hk
          rw [T.cursor]
          show ((stateAfter W env s 1).canvas.cursor L.item).1 + _ < _
          rw [huntouched.cursor]
          exact hlt n (Nat.lt_succ_self n) hk
        · exact T.succ_body hcalm hu h.spares hk
      refine ⟨hnext, fun j t hj hj' ht => ?_, T'⟩
      rcases Nat.lt_or_ge j (n + 1 + 1) with hlt | hge
      · exact hprogress j t hj (by omega) ht
      · obtain rfl : j = n + 1 + 1 := by omega
        rw [← stateAfter_of_run ht]
        exact hpending (n + 1) T'

/-- What the item component has done when it stops, after `n` full rounds. -/
theorem stop {n : ℕ} (hlt : ∀ j < n, (s.canvas.cursor L.item).1 + j < arr.length)
    (hle : (arr.length : ℤ) ≤ (s.canvas.cursor L.item).1 + n) :
    Run (Step W env) s (n * L.zone.length + 2) (stateAfter W env s (n * L.zone.length + 2)) ∧
      L.Trace env arr (fun k => stateAfter W env s (k + 1)) (n * L.zone.length) ∧
      ∃ v, taskStart W env (stateAfter W env s (n * L.zone.length + 1)) L.item = some v ∧
        L.ItemPass (stateAfter W env s (n * L.zone.length + 1))
          (stateAfter W env s (n * L.zone.length + 2)) v (-1) [] := by
  obtain ⟨hrun, hcalm, T⟩ := h.trace (n := n * L.zone.length) fun k hk hmod => by
    apply hlt
    have hmul := rounds_mul_of_mod (L := L) hmod
    rw [← hmul] at hk
    exact Nat.lt_of_mul_lt_mul_right hk
  have hstep := step_stateAfter hrun (k := n * L.zone.length + 1) (by omega)
  obtain ⟨v, hv, _, hstop, _⟩ :=
    T.item_pass hcalm hstep h.spares h.uncancelled (Nat.mul_mod_left _ _)
  refine ⟨hrun, T, v, hv, hstop ?_⟩
  rw [T.cursor, L.rounds_mul]
  show (arr.length : ℤ) ≤ ((stateAfter W env s 1).canvas.cursor L.item).1 + n
  rw [h.start.2.2.cursor]
  exact hle

/-- From the cursor 0, the list is covered. -/
theorem covers_of_zero (hcursor : (s.canvas.cursor L.item).1 = 0) : L.Covers env arr s := by
  have huntouched := h.start.2.2
  have hcursor1 : ((stateAfter W env s 1).canvas.cursor L.item).1 = 0 := by
    rw [huntouched.cursor, hcursor]
  obtain ⟨hrun, T, v, hv, hpass⟩ := h.stop (n := arr.length) (fun j hj => by omega) (by omega)
  have hback : ∀ o, L.handedBack env (stateAfter W env s (arr.length * L.zone.length + 1)) o =
      v.data.output o.cpnId o.var := by
    intro o
    rw [handedBack, hv]
    rfl
  have hcursorN : ((stateAfter W env s (arr.length * L.zone.length + 1)).canvas.cursor
      L.item).1 = arr.length := by
    rw [T.cursor, L.rounds_mul]
    show ((stateAfter W env s 1).canvas.cursor L.item).1 + _ = _
    omega
  refine ⟨⟨_, hrun⟩, ?_, ?_, ?_⟩
  · rw [hpass.items, List.append_nil, T.items, L.rounds_mul, ← huntouched.itemsOf_eq]
    show _ ++ (List.range arr.length).map (fun i : ℕ =>
      (pyIndex arr (((stateAfter W env s 1).canvas.cursor L.item).1 + i)).getD .none) = _
    rw [hcursor1, map_pyIndex_range]
  · rw [hpass.ends, T.ends, L.rounds_mul, ← huntouched.endsOf_eq, List.append_assoc]
    rfl
  · intro o ho
    rw [(hpass.collected o ho).2, (T.collected o ho).2, L.rounds_mul, List.append_assoc, hcursorN]
    rw [hcursor1, ← hback, ← map_range_succ fun i =>
      L.handedBack env (stateAfter W env s (i * L.zone.length + 1)) o]

/-- From the end mark, one item too many is handed out, or the run fails. -/
theorem not_covers_of_stop (hcursor : (s.canvas.cursor L.item).1 = -1) :
    ¬ L.Covers env arr s := by
  intro hcovers
  have huntouched := h.start.2.2
  obtain ⟨_, _, T⟩ := h.trace (n := arr.length * L.zone.length + 1) fun k hk hmod => by
    have hmul := rounds_mul_of_mod (L := L) hmod
    have hlen := L.length_pos
    have hle : L.rounds k ≤ arr.length := by
      by_contra hgt
      have hmore : (arr.length + 1) * L.zone.length ≤ L.rounds k * L.zone.length :=
        Nat.mul_le_mul_right _ (by omega)
      rw [hmul, Nat.add_mul] at hmore
      omega
    omega
  have hlength := congrArg List.length hcovers.items
  rw [T.items, rounds_mul_succ, ← huntouched.itemsOf_eq] at hlength
  simp at hlength

/-- From a cursor further on, the item component stops too early. -/
theorem covers_of_pos (hcursor : 0 < (s.canvas.cursor L.item).1) :
    L.Covers env arr s ↔ arr = [] ∧ L.outputs = [] := by
  have huntouched := h.start.2.2
  obtain ⟨κ, hκ⟩ := Int.eq_ofNat_of_zero_le hcursor.le
  have hcursor1 : ((stateAfter W env s 1).canvas.cursor L.item).1 = κ := by
    rw [huntouched.cursor, hκ]
  obtain ⟨hrun, T, v, hv, hpass⟩ := h.stop (n := arr.length - κ) (fun j hj => by omega)
    (by omega)
  have hends : endsOf L.item
      (stateAfter W env s ((arr.length - κ) * L.zone.length + 2)).canvas.log =
      endsOf L.item s.canvas.log ++ (List.replicate (arr.length - κ) false ++ [true]) := by
    rw [hpass.ends, T.ends, L.rounds_mul, ← huntouched.endsOf_eq, List.append_assoc]
    rfl
  constructor
  · intro hcovers
    obtain ⟨t, ht⟩ := hcovers.passes
    have hle : (arr.length - κ) * L.zone.length ≤ arr.length * L.zone.length :=
      Nat.mul_le_mul_right _ (Nat.sub_le _ _)
    have hinit := endsOf_extends (ρ := stateAfter W env s)
      (i := (arr.length - κ) * L.zone.length + 2)
      (j := arr.length * L.zone.length + 2) (by omega) (fun k hk => step_stateAfter ht hk) L.item
    rw [hends, hcovers.ends, List.prefix_append_right_inj] at hinit
    have hnil : arr.length = 0 := by
      have := replicate_prefix_eq hinit
      omega
    have harr : arr = [] := List.length_eq_zero_iff.mp hnil
    refine ⟨harr, ?_⟩
    by_contra hne
    obtain ⟨o, ho⟩ := List.exists_mem_of_ne_nil _ hne
    have hgain := (hpass.collected o ho).2
    have hsame := hcovers.collected o ho
    subst harr
    simp only [List.length_nil, Nat.zero_sub, Nat.zero_mul, Nat.zero_add, hcursor1] at hgain hsame
    rw [hgain, if_pos (by omega)] at hsame
    simp at hsame
  · rintro ⟨rfl, hout⟩
    simp only [List.length_nil, Nat.zero_sub, Nat.zero_mul] at hpass hrun hends T
    refine ⟨⟨_, by simpa using hrun⟩, ?_, by simpa using hends, by simp [hout]⟩
    have hitems := hpass.items
    rw [huntouched.itemsOf_eq] at hitems
    simpa using hitems

end Undisturbed

/-- An entry into an Iteration covers its list exactly once if and only if the
cursor of the item component is 0 when it is entered, apart from an empty list
without collated outputs, on which a cursor further on stops as well. -/
theorem covers_iff {s : RunState} (h : L.Undisturbed env arr s) : L.Covers env arr s ↔
    (s.canvas.cursor L.item).1 = 0 ∨
      0 < (s.canvas.cursor L.item).1 ∧ arr = [] ∧ L.outputs = [] := by
  have hbound := (s.canvas.cursor L.item).2
  rcases lt_trichotomy (s.canvas.cursor L.item).1 0 with hneg | hzero | hpos
  · have hnot := h.not_covers_of_stop (by omega)
    refine ⟨fun hcovers => absurd hcovers hnot, ?_⟩
    rintro (hzero | ⟨hpos, _⟩) <;> omega
  · exact ⟨fun _ => .inl hzero, fun _ => h.covers_of_zero hzero⟩
  · rw [h.covers_of_pos hpos]
    refine ⟨fun h => .inr ⟨hpos, h⟩, ?_⟩
    rintro (hzero | ⟨_, h⟩)
    · omega
    · exact h

end ChainIteration

/-- A component nested in an Iteration or a Loop. -/
def Component.nestedIn (pid : CpnId) (obj : Obj) (downstream : List CpnId) : Component :=
  { Component.simple obj downstream [] with parentId := some pid }

/-- An Iteration over the global `xs` with one component in its body. -/
def single : Workflow where
  components := [("begin", .simple .begin ["iteration"] []),
    ("iteration", .simple (.iteration (.global "xs") [⟨"answers", "llm", "content"⟩]) [] []),
    ("item", .nestedIn "iteration" .iterationItem ["llm"]),
    ("llm", .nestedIn "iteration" (.other "LLM") [])]
  nodup := by decide

/-- A canvas with the global `xs`. -/
def Canvas.withItems (items : List Value) : Canvas :=
  { Canvas.fresh with
    data := ⟨fun _ _ => none, fun key => if key = "xs" then some (.list items) else none⟩ }

def singleIteration : ChainIteration single where
  id := "iteration"
  item := "item"
  body := ["llm"]
  itemsRef := .global "xs"
  outputs := [⟨"answers", "llm", "content"⟩]
  iteration := ⟨_, rfl, rfl⟩
  start := by
    intro cpn hcpn
    cases hcpn
    rfl
  item_kind := ⟨_, rfl, rfl, rfl⟩
  body_kind := by
    intro c hc
    obtain rfl := List.mem_singleton.mp hc
    exact ⟨_, rfl, rfl⟩
  nested := by
    intro c cpn hcpn
    have hmem := Workflow.mem_components_of_getComponent hcpn
    simp only [single, List.mem_cons, Prod.mk.injEq, List.not_mem_nil, or_false] at hmem
    rcases hmem with ⟨rfl, rfl⟩ | ⟨rfl, rfl⟩ | ⟨rfl, rfl⟩ | ⟨rfl, rfl⟩ <;> decide
  nonempty := by decide
  chain := List.isChain_cons_cons.mpr ⟨rfl, .singleton _⟩
  leaf := by
    intro c hc
    cases hc
    rfl
  nodup := by decide
  outside := by decide
  keys := by decide
  sources := by decide

theorem Env.quiet_spares (D : Set CpnId) : Env.quiet.Spares D := by
  refine ⟨fun _ _ _ _ _ _ _ => rfl, ?_⟩
  intro time c data data' text h d _ key
  cases h
  rfl

/-- The pass that enters the Iteration, in a run over one item. -/
def singleEntry : RunState := stateAfter single .quiet (startRun (.withItems [.num 1])) 1

theorem singleEntry_calm {k : ℕ} (hpos : 0 < k) (hk : k < 4) :
    singleIteration.Calm .quiet [.num 1] (stateAfter single .quiet singleEntry k) := by
  match k with
  | 1 | 2 | 3 =>
      refine ⟨?_, ?_, ?_, ?_⟩
      · intro p hp
        obtain rfl := List.mem_singleton.mp hp
        rfl
      · intro p hp hne
        obtain rfl := List.mem_singleton.mp hp
        exact absurd (by decide) hne
      · intro batch hbatch
        cases hbatch
        decide
      · intro v hv
        cases hv <;> rfl

theorem singleEntry_undisturbed :
    singleIteration.Undisturbed .quiet [.num 1] singleEntry := by
  have hrun : Run (Step single .quiet) singleEntry 4 (stateAfter single .quiet singleEntry 4) :=
    passes_eq_some_iff.mp rfl
  have hdone : (stateAfter single .quiet singleEntry 4).pending = [] := rfl
  refine ⟨⟨?_, ?_, ?_, ?_⟩, live_of_done hrun hdone, fun _ _ => rfl, Env.quiet_spares _, ?_, ?_⟩
  · intro p hp
    obtain rfl := List.mem_singleton.mp hp
    rfl
  · intro batch hbatch
    cases hbatch
    rfl
  · decide
  · intro p hp hne
    obtain rfl := List.mem_singleton.mp hp
    exact absurd rfl hne
  · intro t ht o ho
    obtain rfl : stateAfter single .quiet singleEntry 1 = t := stateAfter_of_run (.single ht)
    obtain rfl := List.mem_singleton.mp ho
    exact .inr rfl
  · intro k t hk ht hprogress
    rcases run_of_done hrun hdone ht with ⟨hlt, rfl⟩ | rfl
    · exact singleEntry_calm hk hlt
    · obtain ⟨z, _, hz⟩ := hprogress k _ hk le_rfl ht
      rw [hdone] at hz
      cases hz

/-- The first entry of a run over one item. -/
theorem covers_single : singleIteration.Covers .quiet [.num 1] singleEntry ↔
    (singleEntry.canvas.cursor "item").1 = 0 ∨
      0 < (singleEntry.canvas.cursor "item").1 ∧ [Value.num 1] = [] ∧
        singleIteration.outputs = [] :=
  ChainIteration.covers_iff singleEntry_undisturbed

/-- An Iteration over the global `xs` in the body of an Iteration over it. -/
def twice : Workflow where
  components := [("begin", .simple .begin ["outer"] []),
    ("outer", .simple (.iteration (.global "xs") []) [] []),
    ("outerItem", .nestedIn "outer" .iterationItem ["inner"]),
    ("inner", .nestedIn "outer" (.iteration (.global "xs") []) ["after"]),
    ("innerItem", .nestedIn "inner" .iterationItem ["llm"]),
    ("llm", .nestedIn "inner" (.other "LLM") []),
    ("after", .nestedIn "outer" (.other "LLM") [])]
  nodup := by decide

/-- In a run without errors that enters the inner Iteration twice, the second
entry hands out the last item first. -/
theorem twice_repeats_item :
    ∃ t, run twice .quiet 25 (.withItems [.num 1, .num 2]) = some (.ok (.finished t)) ∧
      t.error = none ∧ (createdIds t.log).count "inner" = 2 ∧
      itemsOf "innerItem" t.log = [.num 1, .num 2] ++ [.num 2, .num 1, .num 2] ∧
      endsOf "innerItem" t.log = [false, false, true] ++ [false, false, false, true] ∧
      itemsOf "innerItem" t.log ≠ (List.replicate 2 [.num 1, .num 2]).flatten := by
  refine ⟨_, rfl, rfl, rfl, rfl, rfl, ?_⟩
  intro heq
  have hlength := congrArg List.length heq
  cases hlength

end RagFlow.Agent
