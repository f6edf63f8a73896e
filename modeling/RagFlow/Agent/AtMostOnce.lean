/-
# How often a component is invoked

An id is appended to the path unless it is the last entry already. If the same
id stands further back on the path, it is appended once more, and nothing later
removes the second copy: a reference that was satisfied stays satisfied. So a
component is invoked twice exactly when some pass appends an id that is live on
the path: already invoked in this run, or pending with its references in front.
-/

import RagFlow.Agent.Appends
import RagFlow.Agent.Plain

namespace RagFlow.Agent

open RagFlow.Math

variable {W : Workflow} {env : Env}

section Live

variable (W : Workflow) (env : Env)

/-- Each of the ids in turn is the last entry of the path, or it is not live on
it: not one of the components `own` that this run has invoked, and not a pending
entry that will be admitted. -/
def NoneLive (own base ids : List CpnId) : Prop :=
  ∀ pre c post, ids = pre ++ c :: post →
    (pushAll base pre).getLast? = some c ∨
      c ∉ own ∧ ∀ live, selectBatch W base (pushed base pre) = .ok live → c ∉ live

/-- The pass from `s` to `s'` appends no id that is live on the path. -/
def AppendsNoneLive (s s' : RunState) : Prop :=
  NoneLive W (createdIds s'.canvas.log) s'.executed (passAppends W env s)

end Live

/-! ## What stays admissible -/

/-- A further copy of `c` behind `base` will be admitted wherever it stands. -/
def Admissible (W : Workflow) (base : List CpnId) (c : CpnId) : Prop :=
  ∃ cpn, W.getComponent c = some cpn ∧
    ∀ more, ready (base ++ more ++ [c]).head? (base ++ more) cpn

theorem Admissible.append {base : List CpnId} {c : CpnId} (h : Admissible W base c)
    (more : List CpnId) : Admissible W (base ++ more) c := by
  obtain ⟨cpn, hcpn, hready⟩ := h
  refine ⟨cpn, hcpn, fun rest => ?_⟩
  simpa only [List.append_assoc] using hready (more ++ rest)

theorem admissible_of_mem_selectBatch {base pending batch : List CpnId}
    (h : selectBatch W base pending = .ok batch) {c : CpnId} (hc : c ∈ batch) :
    Admissible W (base ++ batch) c := by
  obtain ⟨pre, post, hsplit⟩ := List.append_of_mem hc
  obtain ⟨cpn, hcpn, hready⟩ := selectBatch_ready h hsplit
  refine ⟨cpn, hcpn, fun more => ?_⟩
  have hhead : (base ++ batch ++ more ++ [c]).head? = (base ++ pre ++ [c]).head? := by
    have hlist : base ++ batch ++ more ++ [c] =
        (base ++ pre ++ [c]) ++ (post ++ more ++ [c]) := by
      simp [hsplit]
    rw [hlist, List.head?_append_of_ne_nil _ (by simp)]
  rw [hhead]
  apply ready_mono _ hready
  intro d hd
  rw [hsplit]
  rcases List.mem_append.mp hd with hd | hd <;> simp [hd]

theorem selectBatch_append {base p q batch : List CpnId}
    (h : selectBatch W base (p ++ q) = .ok batch) :
    ∃ a b, selectBatch W base p = .ok a ∧ selectBatch W (base ++ a) q = .ok b ∧ batch = a ++ b := by
  induction p generalizing base batch with
  | nil => exact ⟨[], batch, rfl, by simpa using h, rfl⟩
  | cons c p ih =>
      rw [List.cons_append, selectBatch] at h
      split at h
      · cases h
      · rename_i cpn hcpn
        split at h
        · rename_i hready
          obtain ⟨kept, hkept, rfl⟩ := map_eq_ok.mp h
          obtain ⟨a, b, ha, hb, rfl⟩ := ih hkept
          refine ⟨c :: a, b, ?_, by simpa using hb, rfl⟩
          rw [selectBatch, hcpn]
          exact (if_pos hready).trans (by rw [ha]; rfl)
        · rename_i hblocked
          obtain ⟨a, b, ha, hb, rfl⟩ := ih h
          refine ⟨a, b, ?_, hb, rfl⟩
          rw [selectBatch, hcpn]
          exact (if_neg hblocked).trans ha

/-- If the invoked components stay admissible, the next batch repeats none of
them, nor itself, exactly when no id was appended while it was live. -/
theorem nodup_append_iff {own base ids batch : List CpnId} (hown : own.Nodup)
    (hadm : ∀ c ∈ own, Admissible W base c)
    (hbatch : selectBatch W base (pushed base ids) = .ok batch) :
    (own ++ batch).Nodup ↔ NoneLive W own base ids := by
  induction ids using List.reverseRecOn generalizing batch with
  | nil =>
      obtain rfl : [] = batch := by simpa [selectBatch] using hbatch
      simpa [NoneLive] using hown
  | append_singleton ids c ih =>
      have hsnoc : NoneLive W own base (ids ++ [c]) ↔ NoneLive W own base ids ∧
          ((pushAll base ids).getLast? = some c ∨
            c ∉ own ∧ ∀ live, selectBatch W base (pushed base ids) = .ok live → c ∉ live) :=
        forall_split_snoc
      rw [pushed_append_singleton] at hbatch
      by_cases hlast : (pushAll base ids).getLast? = some c
      · rw [if_pos hlast] at hbatch
        rw [hsnoc, ih hbatch]
        exact ⟨fun h => ⟨h, .inl hlast⟩, fun h => h.1⟩
      · rw [if_neg hlast] at hbatch
        obtain ⟨a, b, ha, hb, rfl⟩ := selectBatch_append hbatch
        have hfresh : (c ∉ own ∧
            ∀ live, selectBatch W base (pushed base ids) = .ok live → c ∉ live) ↔
            c ∉ own ++ a := by
          rw [List.mem_append, not_or, ha]
          refine and_congr_right fun _ => ⟨fun h => h a rfl, fun h live hlive => ?_⟩
          cases hlive
          exact h
        have hlive : c ∈ own ++ a → Admissible W (base ++ a) c := by
          intro hc
          rcases List.mem_append.mp hc with hc | hc
          · exact (hadm c hc).append a
          · exact admissible_of_mem_selectBatch ha hc
        rw [hsnoc, ← ih ha, hfresh, or_iff_right hlast, ← List.append_assoc]
        rw [selectBatch] at hb
        split at hb
        · cases hb
        · rename_i cpn hcpn
          split at hb
          · obtain rfl : [c] = b := by simpa [selectBatch, Except.map] using hb
            rw [List.nodup_append_comm, List.singleton_append, List.nodup_cons]
            exact and_comm
          · rename_i hblocked
            obtain rfl : [] = b := by simpa [selectBatch] using hb
            rw [List.append_nil]
            refine ⟨fun h => ⟨h, fun hc => ?_⟩, fun h => h.1⟩
            obtain ⟨cpn', hcpn', hready⟩ := hlive hc
            obtain rfl : cpn = cpn' := Option.some.inj (hcpn.symm.trans hcpn')
            exact hblocked (by simpa using hready [])

/-! ## Runs -/

theorem createdIds_runBatch {executed pending batch : List CpnId} {s u : Canvas}
    (h : runBatch W env executed pending s = .ok (batch, u)) :
    createdIds u.log = createdIds s.log ++ batch := by
  obtain ⟨tasks, hlog, _, htasks⟩ := (runBatch_ok h).2.log
  have hnone : createdIds tasks = [] := createdIds_eq_nil fun e he => .inl (htasks e he).1
  rw [hlog, startBatch, createdIds_append, createdIds_append, createdIds_map_created, hnone,
    List.append_nil]

/-- What has been invoked in a run stays admissible. -/
theorem admissible_of_created (hgoto : W.NoGoto) {s t : RunState} {n : ℕ}
    (h : Run (Step W env) s n t) (hlog : s.canvas.log = []) :
    ∀ c ∈ createdIds t.canvas.log, Admissible W t.executed c := by
  refine h.invariant
    (P := fun _ u => ∀ c ∈ createdIds u.canvas.log, Admissible W u.executed c) ?_ ?_
  · intro c hc
    rw [hlog] at hc
    cases hc
  · intro k u v _ hu hstep c hc
    obtain ⟨batch, hbatch⟩ := hstep.exists_batch
    rw [hbatch.createdIds, List.mem_append] at hc
    rw [hbatch.executed hgoto]
    rcases hc with hc | hc
    · exact (hu c hc).append batch
    · exact admissible_of_mem_selectBatch hbatch.admitted hc

/-- A run starts with a single entry. -/
theorem startRun_pending_length (s : Canvas) : (startRun s).pending.length ≤ 1 := by
  have hidx : (startRun s).idx = (startRun s).canvas.path.length - 1 := rfl
  rw [RunState.pending, List.length_drop, hidx]
  omega

/-- In the n-th batch of a run, some component is invoked for the second time
in this run, or one was before, exactly when an earlier pass appended an id that
was live on the path. -/
theorem createdIds_nodup_iff (hgoto : W.NoGoto) {s : Canvas} {n : ℕ} {t : RunState}
    (h : Run (Step W env) (startRun s) n t) {batch : List CpnId} {u : Canvas}
    (hbatch : runBatch W env t.executed t.pending t.canvas = .ok (batch, u)) :
    (createdIds u.log).Nodup ↔ ∀ k < n, ∀ v v', Run (Step W env) (startRun s) k v →
      Step W env v v' → AppendsNoneLive W env v v' := by
  induction h generalizing batch u with
  | refl =>
      have hlen := ((selectBatch_sublist (runBatch_ok hbatch).1).1.length_le).trans
        (startRun_pending_length s)
      rw [createdIds_runBatch hbatch]
      have hnil : createdIds (startRun s).canvas.log = [] := rfl
      rw [hnil, List.nil_append]
      refine ⟨fun _ k hk => absurd hk (Nat.not_lt_zero k), fun _ => ?_⟩
      match batch with
      | [] => exact List.nodup_nil
      | [c] => exact List.nodup_singleton c
      | _ :: _ :: _ => simp at hlen
  | @tail n m t hrun hstep ih =>
      obtain ⟨batch', u', hrunBatch, _, hbatchOf, _⟩ := hstep.exists_runBatch
      have hcreated : createdIds t.canvas.log = createdIds u'.log := by
        rw [hbatchOf.createdIds, createdIds_runBatch hrunBatch]
      have hselect := (runBatch_ok hbatch).1
      obtain ⟨hexecuted, hpending⟩ :=
        hstep.executed_eq (staysOnPath_of_noGoto hgoto hstep) hbatchOf
      rw [hpending, ← hexecuted] at hselect
      have hadm := admissible_of_created hgoto (hrun.tail hstep) rfl
      have hlast : (createdIds t.canvas.log).Nodup →
          ((createdIds t.canvas.log ++ batch).Nodup ↔ AppendsNoneLive W env m t) :=
        fun hown => nodup_append_iff hown hadm hselect
      have hsucc : (∀ k < n + 1, ∀ v v', Run (Step W env) (startRun s) k v →
          Step W env v v' → AppendsNoneLive W env v v') ↔
            (createdIds t.canvas.log).Nodup ∧ AppendsNoneLive W env m t := by
        rw [hcreated, ih hrunBatch]
        constructor
        · intro hall
          exact ⟨fun k hk => hall k (by omega), hall n (Nat.lt_succ_self n) m t hrun hstep⟩
        · rintro ⟨hall, hm⟩ k hk v v' hv hv'
          rcases Nat.lt_succ_iff_lt_or_eq.mp hk with hlt | rfl
          · exact hall k hlt v v' hv hv'
          · obtain rfl := hv.unique (fun h h' => h.unique h') hrun
            obtain rfl := Step.unique hv' hstep
            exact hm
      rw [createdIds_runBatch hbatch, hsucc]
      constructor
      · intro hnodup
        have hown : (createdIds t.canvas.log).Nodup := hnodup.of_append_left
        exact ⟨hown, (hlast hown).mp hnodup⟩
      · rintro ⟨hown, hm⟩
        exact (hlast hown).mpr hm

theorem createdIds_nodup_triangle :
    ∃ t batch u, passes triangle .quiet 1 (startRun .fresh) = some t ∧
      runBatch triangle .quiet t.executed t.pending t.canvas = .ok (batch, u) ∧
      ((createdIds u.log).Nodup ↔ ∀ k < 1, ∀ v v',
        Run (Step triangle .quiet) (startRun .fresh) k v → Step triangle .quiet v v' →
          AppendsNoneLive triangle .quiet v v') :=
  ⟨_, _, _, rfl, rfl,
    createdIds_nodup_iff triangle_plain.goto (passes_eq_some_iff.mp rfl) rfl⟩

/-- The triangle without the reference, and with the answer started first. -/
def detour : Workflow where
  components := [("begin", .simple .begin ["answer", "search"] []),
    ("search", .simple (.other "Retrieval") ["answer"] []),
    ("answer", .simple (.other "LLM") [] [])]
  nodup := by decide

theorem detour_plain : detour.Plain :=
  .of_rank (fun c => if c = "begin" then 0 else if c = "search" then 1 else 2)
    (by decide) (by decide) (by decide) (by decide)

/-- In the detour, `answer` is invoked twice, in a run without errors. -/
theorem detour_invokes_twice :
    detour.Plain ∧ ∃ t, run detour .quiet 5 .fresh = some (.ok (.finished t)) ∧
      t.error = none ∧ createdIds t.log = ["begin", "answer", "search", "answer"] ∧
      ¬ (createdIds t.log).Nodup :=
  ⟨detour_plain, _, rfl, rfl, rfl, by decide⟩

end RagFlow.Agent
