/-
# Chains of components in an Iteration

An Iteration whose body is a chain has one pending component at a time: the item
component, then each component of the body, whose leaf hands back to the item
component. This module counts the passes around that chain, and says what one
pass through the item component does to the cursor, the collated outputs and the
trace, whatever else runs in the same batch.
-/

import RagFlow.Agent.Visit

namespace RagFlow.Agent

open RagFlow.Math

variable {W : Workflow} {env : Env}

/-! ## Collating outputs -/

/-- The list collected in an output so far; a missing output is an empty one. -/
def collected (data : Data) (pid : CpnId) (key : String) : List Value :=
  match data.output pid key with
  | .list items => items
  | _ => []

/-- An output that can be appended to. -/
def Collectable (data : Data) (pid : CpnId) (key : String) : Prop :=
  (∃ items, data.output pid key = .list items) ∨ (data.output pid key).truthy = false

theorem output_congr {data data' : Data} {d : CpnId} {key : String}
    (h : data'.outputs d key = data.outputs d key) : data'.output d key = data.output d key := by
  rw [Data.output, Data.output, h]

theorem collected_congr {data data' : Data} {d : CpnId} {key : String}
    (h : data'.outputs d key = data.outputs d key) :
    collected data' d key = collected data d key := by
  rw [collected, collected, output_congr h]

theorem collectable_congr {data data' : Data} {d : CpnId} {key : String}
    (h : data'.outputs d key = data.outputs d key) (hc : Collectable data d key) :
    Collectable data' d key := by
  rwa [Collectable, output_congr h]

theorem collected_of_list {data : Data} {pid : CpnId} {key : String} {items : List Value}
    (h : data.output pid key = .list items) : collected data pid key = items := by
  rw [collected, h]

theorem collateAll_cons {pid : CpnId} {data : Data} {o : CollatedOutput}
    {os : List CollatedOutput} (h : Collectable data pid o.key) :
    collateAll pid data (o :: os) = collateAll pid (data.setOutput pid o.key
      (.list (collected data pid o.key ++ [data.output o.cpnId o.var]))) os := by
  rw [collateAll]
  split
  · rename_i res hres
    rw [collected_of_list hres]
  · rename_i res hnot
    have hfalsy : (data.output pid o.key).truthy = false := by
      rcases h with ⟨items, hitems⟩ | hfalsy
      · exact absurd hitems (hnot items)
      · exact hfalsy
    have hnil : collected data pid o.key = [] := by
      unfold collected
      split
      · rename_i items hitems
        exact absurd hitems (hnot items)
      · rfl
    rw [hfalsy, hnil]
    rfl

/-- Collation appends one value to every collated output and fails on none. -/
theorem collateAll_ok {pid : CpnId} {os : List CollatedOutput} (data : Data)
    (hkeys : (os.map CollatedOutput.key).Nodup) (hsource : ∀ o ∈ os, o.cpnId ≠ pid)
    (hcollect : ∀ o ∈ os, Collectable data pid o.key) :
    (collateAll pid data os).2 = none ∧
      (∀ o ∈ os, (collateAll pid data os).1.output pid o.key =
        .list (collected data pid o.key ++ [data.output o.cpnId o.var])) ∧
      ∀ key ∉ os.map CollatedOutput.key,
        (collateAll pid data os).1.outputs pid key = data.outputs pid key := by
  induction os generalizing data with
  | nil => simp [collateAll]
  | cons o os ih =>
      rw [List.map_cons, List.nodup_cons] at hkeys
      have ho := hcollect o List.mem_cons_self
      let data' := data.setOutput pid o.key
        (.list (collected data pid o.key ++ [data.output o.cpnId o.var]))
      have hother : ∀ key ≠ o.key, data'.outputs pid key = data.outputs pid key := by
        intro key hne
        simp [data', Data.setOutput, hne]
      have hne : ∀ o' ∈ os, o'.key ≠ o.key := fun o' ho' heq =>
        hkeys.1 (heq ▸ List.mem_map_of_mem ho')
      obtain ⟨hnone, hlists, hrest⟩ := ih data' hkeys.2
        (fun o' ho' => hsource o' (List.mem_cons_of_mem o ho'))
        (fun o' ho' => collectable_congr (hother _ (hne o' ho'))
          (hcollect o' (List.mem_cons_of_mem o ho')))
      rw [collateAll_cons ho]
      refine ⟨hnone, ?_, ?_⟩
      · intro o' ho'
        rcases List.mem_cons.mp ho' with rfl | ho'
        · rw [output_congr (hrest o'.key hkeys.1)]
          exact Data.setOutput_self _ _ _ _
        · have hread : data'.output o'.cpnId o'.var = data.output o'.cpnId o'.var :=
            output_congr (outputs_setOutput (hsource o' (List.mem_cons_of_mem o ho')) _ _ _)
          rw [hlists o' ho', hread, collected_congr (hother _ (hne o' ho'))]
      · intro key hkey
        rw [List.map_cons, List.mem_cons, not_or] at hkey
        rw [hrest key hkey.2, hother key hkey.1]

/-- If one entry appends a single id of a kind and the others append none, the
batch appends one id of that kind. -/
theorem filter_appends {p : CpnId → Bool} {ps : List Settled} {q next : CpnId}
    (hq : (ps.map Settled.cpnId).count q = 1)
    (hids : ∀ r ∈ ps, r.cpnId = q → r.ids.filter p = [next])
    (hothers : ∀ r ∈ ps, r.cpnId ≠ q → r.ids.filter p = []) :
    (ps.flatMap Settled.ids).filter p = [next] := by
  induction ps with
  | nil => simp at hq
  | cons r ps ih =>
      rw [List.flatMap_cons, List.filter_append]
      by_cases hr : r.cpnId = q
      · rw [List.map_cons, hr, List.count_cons_self] at hq
        have hrest : (ps.flatMap Settled.ids).filter p = [] := by
          rw [List.filter_flatMap, List.flatMap_eq_nil_iff]
          intro r' hr'
          apply hothers r' (List.mem_cons_of_mem r hr')
          intro heq
          have hmem := List.mem_map_of_mem (f := Settled.cpnId) hr'
          have := List.count_pos_iff.mpr (heq ▸ hmem)
          omega
        rw [hids r List.mem_cons_self hr, hrest, List.append_nil]
      · rw [List.map_cons, List.count_cons_of_ne hr] at hq
        rw [hothers r List.mem_cons_self hr, List.nil_append]
        exact ih hq (fun r' hr' => hids r' (List.mem_cons_of_mem r hr'))
          fun r' hr' => hothers r' (List.mem_cons_of_mem r hr')

/-! ## Iterations over a chain -/

/-- An Iteration `id` with its item component, whose body is a chain of plain
components that ends in a leaf. -/
structure ChainIteration (W : Workflow) where
  id : CpnId
  item : CpnId
  body : List CpnId
  itemsRef : VarRef
  outputs : List CollatedOutput
  iteration : ∃ cpn, W.getComponent id = some cpn ∧ cpn.obj = .iteration itemsRef outputs
  start : ∀ cpn, W.getComponent id = some cpn → startOf W id cpn = .ok item
  item_kind : ∃ cpn, W.getComponent item = some cpn ∧ cpn.obj = .iterationItem ∧
    cpn.exceptionMethod = none
  body_kind : ∀ c ∈ body, ∃ cpn, W.getComponent c = some cpn ∧ cpn.obj.isPlain
  nested : ∀ c cpn, W.getComponent c = some cpn →
    (cpn.parentId = some id ↔ c ∈ item :: body)
  nonempty : body ≠ []
  chain : (item :: body).IsChain fun a b => W.downstream a = [b]
  leaf : ∀ c, (item :: body).getLast? = some c → W.downstream c = []
  nodup : (item :: body).Nodup
  outside : id ∉ item :: body
  keys : (outputs.map CollatedOutput.key).Nodup
  sources : ∀ o ∈ outputs, o.cpnId ∈ item :: body

namespace ChainIteration

variable (L : ChainIteration W)

/-- The components nested in the Iteration, in the order in which they run. -/
def zone : List CpnId := L.item :: L.body

/-- The component of the zone that is pending after `k` passes. -/
def token (k : ℕ) : CpnId := L.zone.getD (k % L.zone.length) L.item

/-- How often the item component has been invoked after `k` passes. -/
def rounds (k : ℕ) : ℕ :=
  if k % L.zone.length = 0 then k / L.zone.length else k / L.zone.length + 1

theorem length_pos : 1 < L.zone.length := by
  have := List.length_pos_of_ne_nil L.nonempty
  simp only [zone, List.length_cons]
  omega

theorem token_eq {k : ℕ} (h : k % L.zone.length < L.zone.length) :
    L.token k = L.zone[k % L.zone.length] := by
  rw [token, List.getD_eq_getElem?_getD, List.getElem?_eq_getElem h, Option.getD_some]

theorem mod_lt (k : ℕ) : k % L.zone.length < L.zone.length :=
  Nat.mod_lt k (by have := L.length_pos; omega)

theorem token_mem (k : ℕ) : L.token k ∈ L.zone := by
  rw [L.token_eq (L.mod_lt k)]
  exact List.getElem_mem _

/-- The token is at the item component at the start of each round. -/
theorem token_eq_item_iff {k : ℕ} : L.token k = L.item ↔ k % L.zone.length = 0 := by
  have h0 : 0 < L.zone.length := by have := L.length_pos; omega
  have hitem : L.zone[0] = L.item := rfl
  rw [L.token_eq (L.mod_lt k), ← hitem]
  exact List.Nodup.getElem_inj_iff L.nodup

/-- One step further along the body, or back to the item component. -/
theorem mod_succ (k : ℕ) : (k + 1) % L.zone.length =
    if k % L.zone.length + 1 < L.zone.length then k % L.zone.length + 1 else 0 := by
  have hlt := L.mod_lt k
  rw [Nat.add_mod, Nat.mod_eq_of_lt L.length_pos]
  split_ifs with h
  · exact Nat.mod_eq_of_lt h
  · have heq : k % L.zone.length + 1 = L.zone.length := by omega
    rw [heq, Nat.mod_self]

theorem rounds_succ (k : ℕ) :
    L.rounds (k + 1) = if k % L.zone.length = 0 then L.rounds k + 1 else L.rounds k := by
  have hlt := L.mod_lt k
  have hlen := L.length_pos
  have hdiv : (k + 1) / L.zone.length =
      if k % L.zone.length + 1 < L.zone.length then k / L.zone.length
      else k / L.zone.length + 1 := by
    rw [Nat.succ_div]
    have hdvd : L.zone.length ∣ k + 1 ↔ ¬ k % L.zone.length + 1 < L.zone.length := by
      rw [Nat.dvd_iff_mod_eq_zero, L.mod_succ k]
      split_ifs with h
      · simp [h]
      · simp [h]
    by_cases h : k % L.zone.length + 1 < L.zone.length
    · simp [hdvd, h]
    · simp [hdvd, h]
  rw [rounds, rounds, L.mod_succ k, hdiv]
  by_cases h : k % L.zone.length + 1 < L.zone.length
  · rw [if_pos h, if_pos h, if_neg (Nat.succ_ne_zero _)]
    split_ifs <;> rfl
  · rw [if_neg h, if_neg h, if_pos rfl, if_neg (show k % L.zone.length ≠ 0 by omega)]
    rw [if_neg (show k % L.zone.length ≠ 0 by omega)]

theorem rounds_mul (n : ℕ) : L.rounds (n * L.zone.length) = n := by
  have hlen := L.length_pos
  simp [rounds, Nat.mul_div_cancel _ (show 0 < L.zone.length by omega)]

/-- The successor of the token. -/
theorem leafSuccessors_token {k : ℕ} {cpn : Component}
    (hcpn : W.getComponent (L.token k) = some cpn) :
    leafSuccessors W cpn = .ok [L.token (k + 1)] := by
  have hlt := L.mod_lt k
  have hdown : cpn.downstream = W.downstream (L.token k) := (W.downstream_eq hcpn).symm
  by_cases h : k % L.zone.length + 1 < L.zone.length
  · have hnext : L.token (k + 1) = L.zone[k % L.zone.length + 1] := by
      have hmod : (k + 1) % L.zone.length = k % L.zone.length + 1 := by
        rw [L.mod_succ, if_pos h]
      rw [L.token_eq (L.mod_lt (k + 1))]
      simp only [hmod]
    have hchain := List.isChain_iff_getElem.mp L.chain (k % L.zone.length) h
    rw [L.token_eq hlt] at hdown
    have hnil : cpn.downstream = [L.zone[k % L.zone.length + 1]] := hdown.trans hchain
    rw [leafSuccessors, if_neg (by simp [hnil]), hnil, hnext]
  · have hlast : L.zone.getLast? = some (L.token k) := by
      rw [L.token_eq hlt, List.getLast?_eq_getElem?]
      have heq : L.zone.length - 1 = k % L.zone.length := by omega
      rw [heq, List.getElem?_eq_getElem hlt]
    have hnil : cpn.downstream = [] := hdown.trans (L.leaf _ hlast)
    have hnext : L.token (k + 1) = L.item := by
      rw [L.token_eq_item_iff, L.mod_succ, if_neg h]
    obtain ⟨parent, hparent, _⟩ := L.iteration
    have hparentId : cpn.parentId = some L.id := (L.nested _ _ hcpn).mpr (L.token_mem k)
    have hget : W.getParent cpn = .ok (some (L.id, parent)) := by
      rw [Workflow.getParent, hparentId]
      simp [hparent]
    rw [leafSuccessors, if_pos hnil, hget, hnext]
    simp only [L.start parent hparent]
    rfl

theorem getComponent_of_mem {z : CpnId} (hz : z ∈ L.zone) :
    ∃ cpn, W.getComponent z = some cpn := by
  rcases List.mem_cons.mp hz with rfl | hz
  · obtain ⟨cpn, hcpn, _⟩ := L.item_kind
    exact ⟨cpn, hcpn⟩
  · obtain ⟨cpn, hcpn, _⟩ := L.body_kind z hz
    exact ⟨cpn, hcpn⟩

theorem mem_bodyIds {z : CpnId} (hz : z ∈ L.zone) : z ∈ bodyIds W L.id := by
  obtain ⟨cpn, hcpn⟩ := L.getComponent_of_mem hz
  apply List.mem_map.mpr
  refine ⟨(z, cpn), List.mem_filter.mpr ⟨?_, ?_⟩, rfl⟩
  · exact Workflow.mem_components_of_getComponent hcpn
  · simpa using (L.nested z cpn hcpn).mpr hz

/-- Nothing but the item component and the Iteration writes their outputs. -/
theorem foreign {e : CpnId} (hitem : e ≠ L.item) (hid : e ≠ L.id) :
    Foreign W {L.id, L.item} e := by
  refine ⟨by simp [hitem, hid], ?_⟩
  intro cpn hcpn hobj d hd parent hparent itemsRef outputs hiter
  have hparentId := Workflow.parentId_of_getParent hparent
  have hget := Workflow.getComponent_of_getParent hparent
  rcases hd with rfl | rfl
  · have hzone := (L.nested e cpn hcpn).mp hparentId
    rcases List.mem_cons.mp hzone with rfl | hbody
    · exact hitem rfl
    · obtain ⟨cpn', hcpn', hplain⟩ := L.body_kind e hbody
      rw [hcpn] at hcpn'
      cases hcpn'
      rw [hobj] at hplain
      cases hplain
  · obtain ⟨cpn', hcpn', hitemObj, _⟩ := L.item_kind
    rw [hget] at hcpn'
    cases hcpn'
    rw [hiter] at hitemObj
    cases hitemObj

/-! ## The item component -/

/-- The collation of a chain appends to every collated output, from the second
element on. -/
theorem collate_ok (data : Data) (idx : Cursor)
    (hcollect : ∀ o ∈ L.outputs, Collectable data L.id o.key) :
    (collate W L.id L.outputs idx data).2 = none ∧ ∀ o ∈ L.outputs,
      Collectable (collate W L.id L.outputs idx data).1 L.id o.key ∧
        collected (collate W L.id L.outputs idx data).1 L.id o.key =
          collected data L.id o.key ++
            (if 0 < idx.1 then [data.output o.cpnId o.var] else []) := by
  unfold collate
  by_cases hidx : 0 < idx.1
  · simp only [if_pos hidx]
    have hmem : ∀ o, o ∈ (bodyIds W L.id).flatMap
        (fun cid => L.outputs.filter fun o => o.cpnId == cid) → o ∈ L.outputs := by
      intro o ho
      obtain ⟨cid, _, ho⟩ := List.mem_flatMap.mp ho
      exact (List.mem_filter.mp ho).1
    have hall : ∀ o ∈ L.outputs, o ∈ (bodyIds W L.id).flatMap
        (fun cid => L.outputs.filter fun o => o.cpnId == cid) := by
      intro o ho
      apply List.mem_flatMap.mpr
      exact ⟨o.cpnId, L.mem_bodyIds (L.sources o ho), List.mem_filter.mpr ⟨ho, by simp⟩⟩
    have hnodup : ((bodyIds W L.id).flatMap
        (fun cid => L.outputs.filter fun o => o.cpnId == cid)).Nodup := by
      apply List.nodup_flatMap.mpr
      refine ⟨fun cid _ => (L.keys.of_map _).filter _, ?_⟩
      have hids : (bodyIds W L.id).Nodup :=
        W.nodup.sublist ((List.filter_sublist (l := W.components)).map _)
      refine hids.imp fun {a b} hab o ha hb => ?_
      have ha := (List.mem_filter.mp ha).2
      have hb := (List.mem_filter.mp hb).2
      exact hab ((by simpa using ha : o.cpnId = a).symm.trans (by simpa using hb))
    have hkeys := hnodup.map_on fun o ho o' ho' heq =>
      List.inj_on_of_nodup_map L.keys (hmem o ho) (hmem o' ho') heq
    have hsource : ∀ o ∈ L.outputs, o.cpnId ≠ L.id := fun o ho heq =>
      L.outside (heq ▸ L.sources o ho)
    obtain ⟨hnone, hlists, _⟩ := collateAll_ok data hkeys
      (fun o ho => hsource o (hmem o ho)) (fun o ho => hcollect o (hmem o ho))
    refine ⟨hnone, fun o ho => ?_⟩
    have hlist := hlists o (hall o ho)
    exact ⟨.inl ⟨_, hlist⟩, collected_of_list hlist⟩
  · simp only [if_neg hidx]
    exact ⟨trivial, fun o ho => ⟨hcollect o ho, (List.append_nil _).symm⟩⟩

/-- The invocation of the item component, when the items are a list, nothing is
cancelled, and the collated outputs are lists. -/
theorem iterationItemInvoke_eq (hcancel : ∀ time i, env.isCanceled time i = false)
    {arr : List Value} {v : Canvas} {cpn : Component}
    (hcpn : W.getComponent L.item = some cpn)
    (harr : getVariableValue env.host (known W) v.data L.itemsRef = .ok (.list arr))
    (hcollect : ∀ o ∈ L.outputs, Collectable v.data L.id o.key) :
    iterationItemInvoke W env L.item cpn v = handOut L.item arr
      { v with data := (collate W L.id L.outputs (v.cursor L.item) v.data).1 } := by
  obtain ⟨parent, hparent, hobj⟩ := L.iteration
  have hparentId : cpn.parentId = some L.id :=
    (L.nested _ _ hcpn).mpr List.mem_cons_self
  have hget : W.getParent cpn = .ok (some (L.id, parent)) := by
    rw [Workflow.getParent, hparentId]
    simp [hparent]
  have hnone := (L.collate_ok v.data (v.cursor L.item) hcollect).1
  obtain ⟨obj, downstream, parentId, inputElements, method, goto, default⟩ := parent
  obtain rfl : obj = .iteration L.itemsRef L.outputs := hobj
  unfold iterationItemInvoke
  simp only [hcancel, hget, harr, Bool.and_false, if_false, Bool.false_eq_true]
  split
  · rename_i data e heq
    rw [heq] at hnone
    cases hnone
  · rename_i data heq
    rw [heq]

/-- What the invocation of the item component leaves, as far as it can be seen
from outside: its cursor, the values handed out, and the outputs of the
Iteration. -/
structure ItemTask (v v' : Canvas) (next : ℤ) (items : List Value) : Prop where
  cursor : (v'.cursor L.item).1 = next
  items : itemsOf L.item v'.log = itemsOf L.item v.log ++ items
  ends : endsOf L.item v'.log = endsOf L.item v.log
  outputs : ∀ key, v'.data.outputs L.id key =
    (collate W L.id L.outputs (v.cursor L.item) v.data).1.outputs L.id key

theorem item_task (hcancel : ∀ time i, env.isCanceled time i = false) {arr : List Value}
    {v : Canvas}
    (harr : getVariableValue env.host (known W) v.data L.itemsRef = .ok (.list arr))
    (hcollect : ∀ o ∈ L.outputs, Collectable v.data L.id o.key) (inputs : Data) :
    (∀ x, (v.cursor L.item).1 < arr.length → pyIndex arr (v.cursor L.item).1 = some x →
      L.ItemTask v (runTask W env inputs v L.item) ((v.cursor L.item).1 + 1) [x]) ∧
    ((arr.length : ℤ) ≤ (v.cursor L.item).1 →
      L.ItemTask v (runTask W env inputs v L.item) (-1) []) ∧
    ((v.cursor L.item).1 < arr.length → pyIndex arr (v.cursor L.item).1 = none →
      ((runTask W env inputs v L.item).errorOf L.item).isSome) := by
  obtain ⟨cpn, hcpn, hobj, hmethod⟩ := L.item_kind
  have hne : L.id ≠ L.item := fun heq => L.outside (heq ▸ List.mem_cons_self)
  let d := (collate W L.id L.outputs (v.cursor L.item) v.data).1
  have hbody : invokeBody W env L.item cpn inputs v = handOut L.item arr { v with data := d } := by
    rw [invokeBody, hobj]
    exact L.iterationItemInvoke_eq hcancel hcpn harr hcollect
  have htask : runTask W env inputs v L.item =
      (invoke W env L.item cpn inputs v).record (.finished L.item) := by
    rw [runTask, hcpn]
  refine ⟨?_, ?_, ?_⟩
  · intro x hlt hx
    have hhand : handOut L.item arr { v with data := d } =
        (((({ v with data := d } : Canvas).setOutput L.item "item" x).setOutput L.item "index"
          (.num (v.cursor L.item).1)).setCursor L.item (v.cursor L.item).next
            |>.record (.item L.item x (v.cursor L.item).1), none) := by
      unfold handOut
      dsimp only
      rw [if_neg (by omega), hx]
    rw [htask, invoke, hbody, hhand]
    refine ⟨?_, ?_, ?_, fun key => ?_⟩
    · simp [Canvas.record, Canvas.setCursor]
    · simp [Canvas.record, Canvas.setCursor, Canvas.setOutput, itemsOf]
    · simp [Canvas.record, Canvas.setCursor, Canvas.setOutput, endsOf]
    · show ((d.setOutput L.item "item" x).setOutput L.item "index" _).outputs L.id key = _
      rw [outputs_setOutput hne, outputs_setOutput hne]
  · intro hle
    have hhand : handOut L.item arr { v with data := d } =
        (({ v with data := d } : Canvas).setCursor L.item .stop, none) := by
      unfold handOut
      dsimp only
      rw [if_pos hle]
    rw [htask, invoke, hbody, hhand]
    refine ⟨?_, ?_, ?_, fun key => rfl⟩
    · simp [Canvas.record, Canvas.setCursor]
    · simp [Canvas.record, Canvas.setCursor, itemsOf]
    · simp [Canvas.record, Canvas.setCursor, endsOf]
  · intro hlt hx
    have hhand : handOut L.item arr { v with data := d } =
        ({ v with data := d }, some "list index out of range") := by
      unfold handOut
      dsimp only
      rw [if_neg (by omega), hx]
    rw [htask, invoke, hbody, hhand]
    simp [hmethod, Canvas.errorOf, Canvas.record, Canvas.setOutput, Data.setOutput,
      Value.truthy]

/-- The post-processing of the item component asks whether the cursor is at the
end mark, and goes on to the body if it is not. -/
theorem settle_item {w u : Canvas} {otherBranch : Bool} {ids : List CpnId}
    (h : settle W env w L.item = .ok (otherBranch, ids, u)) :
    u.cursor = w.cursor ∧
      u.log = w.log ++ [.ended L.item (decide ((w.cursor L.item).1 = -1))] ∧
      ((w.cursor L.item).1 ≠ -1 → ids = [L.token 1]) := by
  obtain ⟨cpn, d, isEnd, hcpn, hd, hend, hids, _⟩ := settle_ok h
  obtain ⟨cpn', hcpn', hobj, _⟩ := L.item_kind
  obtain rfl : cpn = cpn' := Option.some.inj (hcpn.symm.trans hcpn')
  obtain ⟨hcursor, hlog⟩ := beforeEnd_frame hd
  simp only [endOf, hobj] at hend
  cases hend
  refine ⟨hcursor, ?_, ?_⟩
  · simp only [Canvas.record, hlog, hcursor]
  · intro hne
    rw [hcursor, decide_eq_false hne] at hids
    simp only [successors, hobj, Bool.false_eq_true, if_false] at hids
    have htoken : L.token 0 = L.item := L.token_eq_item_iff.mpr (Nat.zero_mod _)
    rw [L.leafSuccessors_token (k := 0) (by rw [htoken, hcpn])] at hids
    cases hids
    rfl

/-- What a pass that invokes the item component leaves; `v` is the canvas on
which its task started. -/
structure ItemPass (s s' : RunState) (v : Canvas) (next : ℤ) (items : List Value) : Prop where
  cursor : (s'.canvas.cursor L.item).1 = next
  items : itemsOf L.item s'.canvas.log = itemsOf L.item s.canvas.log ++ items
  ends : endsOf L.item s'.canvas.log = endsOf L.item s.canvas.log ++ [decide (next = -1)]
  collected : ∀ o ∈ L.outputs, Collectable s'.canvas.data L.id o.key ∧
    collected s'.canvas.data L.id o.key = collected s.canvas.data L.id o.key ++
      (if 0 < (s.canvas.cursor L.item).1 then [v.data.output o.cpnId o.var] else [])

section Pass

variable {s s' : RunState} {batch : List CpnId} {v w w' : Canvas}

theorem itemPass_of_task (henv : env.Spares {L.id, L.item})
    (hvisit : Visit W env L.item {L.id, L.item} s s' v w w') {next : ℤ} {items : List Value}
    (hcollect : ∀ o ∈ L.outputs, Collectable s.canvas.data L.id o.key)
    (htask : L.ItemTask v (runTask W env s.canvas.data v L.item) next items) :
    L.ItemPass s s' v next items := by
  obtain ⟨otherBranch, ids, u, hsettle, hw'⟩ := postProcess_ok hvisit.post
  obtain ⟨hcursor, hlog, _⟩ := L.settle_item hsettle
  have hne : L.id ≠ L.item := fun heq => L.outside (heq ▸ List.mem_cons_self)
  have hw'cursor : w'.cursor = w.cursor := by
    rw [hw', ← hcursor]
    split_ifs <;> rfl
  have hw'log : w'.log = w.log ++ [.ended L.item (decide ((w.cursor L.item).1 = -1))] := by
    rw [hw', ← hlog]
    split_ifs <;> rfl
  have hnext : (w.cursor L.item).1 = next := by
    rw [hvisit.between.cursor]
    exact htask.cursor
  refine ⟨?_, ?_, ?_, ?_⟩
  · rw [hvisit.after.cursor, hw'cursor]
    exact hnext
  · rw [hvisit.after.itemsOf_eq, hw'log, itemsOf_append, hvisit.between.itemsOf_eq,
      htask.items, hvisit.before.itemsOf_eq]
    exact List.append_nil _
  · rw [hvisit.after.endsOf_eq, hw'log, endsOf_append, hvisit.between.endsOf_eq,
      htask.ends, hvisit.before.endsOf_eq, hnext]
    simp [endsOf]
  · intro o ho
    have hin : L.id ∈ ({L.id, L.item} : Set CpnId) := Set.mem_insert _ _
    have hv : v.data.outputs L.id o.key = s.canvas.data.outputs L.id o.key :=
      hvisit.before.outputs _ hin _
    have hcol := (L.collate_ok v.data (v.cursor L.item) fun o' ho' =>
      collectable_congr (hvisit.before.outputs _ hin _) (hcollect o' ho')).2 o ho
    have hs' : s'.canvas.data.outputs L.id o.key =
        (collate W L.id L.outputs (v.cursor L.item) v.data).1.outputs L.id o.key := by
      rw [hvisit.after.outputs _ hin, postProcess_outputs henv hin hne hvisit.post,
        hvisit.between.outputs _ hin, htask.outputs]
    refine ⟨collectable_congr hs' hcol.1, ?_⟩
    rw [collected_congr hs', hcol.2, collected_congr hv, hvisit.before.cursor]

/-- An exception in the item component ends the run. -/
theorem not_error_item (hvisit : Visit W env L.item {L.id, L.item} s s' v w w')
    (herror : ((runTask W env s.canvas.data v L.item).errorOf L.item).isSome) : False := by
  obtain ⟨cpn, hcpn, hobj, hmethod⟩ := L.item_kind
  have hw : (w.errorOf L.item).isSome := by
    rw [Canvas.errorOf, hvisit.between.outputs L.item (by simp)]
    exact herror
  have hw' := postProcess_error hvisit.post
    (.inr ⟨cpn, hcpn, by rw [hobj]; rfl, hmethod, hw⟩)
  rw [hvisit.error] at hw'
  cases hw'

/-- The zone components of a batch, when one of them is pending and admitted. -/
theorem batch_of_pending (hselect : selectBatch W s.executed s.pending = .ok batch) {z : CpnId}
    (hpending : s.pending.filter (· ∈ L.zone) = [z]) (hz : z ∈ batch) :
    batch.count z = 1 ∧ ∀ y ∈ L.zone, y ∈ batch → y = z := by
  have hsub := ((selectBatch_sublist hselect).1.filter (· ∈ L.zone))
  rw [hpending] at hsub
  have hzone : z ∈ L.zone := by
    have hmem : z ∈ s.pending.filter (· ∈ L.zone) := by
      rw [hpending]
      exact List.mem_singleton_self z
    simpa using (List.mem_filter.mp hmem).2
  have hfilter : batch.filter (· ∈ L.zone) = [z] := by
    apply hsub.eq_of_length_le
    have hmem : z ∈ batch.filter (· ∈ L.zone) := List.mem_filter.mpr ⟨hz, by simpa using hzone⟩
    exact List.length_pos_of_mem hmem
  constructor
  · rw [← List.count_filter (p := (· ∈ L.zone)) (by simpa using hzone), hfilter]
    exact List.count_singleton_self
  · intro y hy hmem
    have hyf : y ∈ batch.filter (· ∈ L.zone) := List.mem_filter.mpr ⟨hmem, by simpa using hy⟩
    rw [hfilter] at hyf
    exact List.mem_singleton.mp hyf

/-- If one entry of a batch appends one component of the zone, and the others
append none, then this component is pending next. -/
theorem pending_next (h : Step W env s s') (hbatch : BatchOf W env s s' batch)
    (hstays : StaysOnPath W env s) {q next : CpnId} (hq : batch.count q = 1)
    (hids : ∀ p ∈ passSettles W env s, p.cpnId = q → p.ids.filter (· ∈ L.zone) = [next])
    (hothers : ∀ p ∈ passSettles W env s, p.cpnId ≠ q → ∀ z ∈ L.zone, z ∉ p.ids)
    (hnext : next ∉ batch) : s'.pending.filter (· ∈ L.zone) = [next] := by
  obtain ⟨batch', hbatch', hmap, _⟩ := h.settles_ok
  obtain rfl : batch = batch' := hbatch.unique hbatch'
  have happends := filter_appends (p := (· ∈ L.zone)) (hmap ▸ hq) hids fun r hr hne => by
    rw [List.filter_eq_nil_iff]
    intro c hc
    simpa using fun hz => hothers r hr hne c hz hc
  obtain ⟨_, hpending⟩ := h.executed_eq hstays hbatch
  rw [hpending]
  apply filter_pushed_eq_singleton happends
  have hne : batch ≠ [] := by
    rintro rfl
    simp at hq
  rw [List.getLast?_append_of_ne_nil _ hne]
  exact fun hlast => hnext (List.mem_of_getLast? hlast)

end Pass

end ChainIteration

end RagFlow.Agent
