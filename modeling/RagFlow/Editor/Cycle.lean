/-
# Connections that keep the canvas free of cycles

A connection is accepted only if a search from its target does not come to its source. The searches
upstream and downstream remember nothing of where they have been, so it is this test that makes
them end.
-/

import RagFlow.Editor.AddNode
import RagFlow.Math.Search

namespace RagFlow.Editor

open RagFlow.Math

/-! ## The test -/

/-- `RestrictedUpstreamMap`: what an operator must not be connected to. -/
def restrictedUpstreamMap : Operator → Option (List Operator)
  | .retrieval => some [.begin, .retrieval]
  | .message => some [.begin, .message, .retrieval, .rewriteQuestion, .categorize]
  | .rewriteQuestion => some [.begin, .message, .rewriteQuestion]
  | .duckDuckGo | .wikipedia | .pubMed | .arXiv | .google | .bing | .googleScholar | .gitHub
  | .searXNG => some [.begin, .retrieval]
  | .note => some []
  | .excelProcessor => none
  | _ => some [.begin]

section Validate

variable (getOutgoers : Node → List Node → List Edge → List Node)

/-- `getOutgoers` of the flow library returns the nodes that edges from the given one lead to. -/
def ReturnsTargets : Prop :=
  ∀ node nodes edges n, n ∈ getOutgoers node nodes edges ↔
    n ∈ nodes ∧ ∃ e ∈ edges, e.source = node.id ∧ e.target = n.id

/-- `hasCycle`, with as much depth as there are nodes, and one more. -/
def hasCycle (s : RFState) (source : String) (node : Node) : Option Bool :=
  (search (fun node => getOutgoers node s.nodes s.edges) Node.id source (s.nodes.length + 1) node
    []).map Prod.fst

/-- `hasCanvasCycle`, which is true where there is no cycle. -/
def hasCanvasCycle (s : RFState) (connection : Connection) : Option Bool :=
  match s.getNode connection.target with
  | none => some false
  | some target =>
    if target.id = connection.source then some false
    else (hasCycle getOutgoers s connection.source target).map fun cyclic => !cyclic

def getOperatorTypeFromId (s : RFState) (id : String) : Option Operator :=
  (s.getNode id).bind Node.label

def getParentIdById (s : RFState) (id : String) : Option String :=
  (s.getNode id).bind Node.parentId

def isSameNodeChild (s : RFState) (connection : Connection) : Bool :=
  let sourceParentId := getParentIdById s connection.source
  let targetParentId := getParentIdById s connection.target
  if (truthy sourceParentId).isSome || (truthy targetParentId).isSome then
    sourceParentId = targetParentId
  else true

def isValidConnection (s : RFState) (connection : Connection) : Option Bool :=
  if connection.target ≠ connection.source ∧
      (((getOperatorTypeFromId s connection.source).bind restrictedUpstreamMap).any
        fun restricted =>
          restricted.all fun x => some x ≠ getOperatorTypeFromId s connection.target) ∧
      isSameNodeChild s connection then
    hasCanvasCycle getOutgoers s connection
  else some false

end Validate

/-! ## The nodes upstream -/

/-- The sources of the edges that lead to a node. -/
def upstreamNodeIds (edges : List Edge) (nodeId : String) : List String :=
  (edges.filter fun x => x.target = nodeId).map (·.source)

/-- All node ids upstream. The recursion is that downstream the other way round. -/
def filterAllUpstreamNodeIds (edges : List Edge) : ℕ → List String → Option (List String)
  | 0, _ => none
  | fuel + 1, nodeIds =>
    nodeIds.foldlM (fun pre nodeId =>
      (filterAllUpstreamNodeIds edges fuel (upstreamNodeIds edges nodeId)).map fun above =>
        pushNew pre (upstreamNodeIds edges nodeId ++ above)) []

/-! ## Edges and ways -/

/-- An edge leads from one node to the other. -/
def Leads (edges : List Edge) (a b : String) : Prop := ∃ e ∈ edges, e.source = a ∧ e.target = b

/-- The edges go round in no circle. -/
def Acyclic (edges : List Edge) : Prop := ∀ a, ¬ Relation.TransGen (Leads edges) a a

/-- The edges have both ends at nodes of the store. -/
def AmongNodes (s : RFState) : Prop :=
  ∀ e ∈ s.edges, e.source ∈ s.nodes.map Node.id ∧ e.target ∈ s.nodes.map Node.id

/-- An accepted connection of two nodes. -/
def ConnectStep (getOutgoers : Node → List Node → List Edge → List Node)
    (addEdge : Connection → List Edge → List Edge) (s t : RFState) : Prop :=
  ∃ connection : Connection, connection.source ∈ s.nodes.map Node.id ∧
    connection.target ∈ s.nodes.map Node.id ∧
    isValidConnection getOutgoers s connection = some true ∧
    t = { s with edges := addEdge connection s.edges }

section Traversal

variable {edges : List Edge} {predicate : Edge → Bool} {fuel : ℕ} {nodeIds ids pre : List String}
  {a b x : String}

theorem Leads.of_downstream (h : Downstream edges predicate a b) : Leads edges a b := by
  obtain ⟨e, he, hsource, -, htarget⟩ := h
  exact ⟨e, he, hsource, htarget⟩

theorem Acyclic.downstream (h : Acyclic edges) (predicate : Edge → Bool) (a : String) :
    ¬ Relation.TransGen (Downstream edges predicate) a a := fun hcircle =>
  h a (Relation.TransGen.mono (fun _ _ => Leads.of_downstream) _ _ hcircle)

theorem nodup_pushNew (h : pre.Nodup) : (pushNew pre ids).Nodup := by
  unfold pushNew
  induction ids generalizing pre with
  | nil => exact h
  | cons y ids ih =>
      rw [List.foldl_cons]
      split_ifs with hmem
      · exact ih h
      · refine ih (List.nodup_append.mpr ⟨h, List.nodup_singleton y, ?_⟩)
        rintro x hx _ hy rfl
        rw [List.mem_singleton.mp hy] at hx
        exact hmem hx

/-- No id is listed twice. -/
theorem nodup_filterAllDownstreamNodeIds
    (h : filterAllDownstreamNodeIds edges predicate fuel nodeIds = some ids) : ids.Nodup := by
  cases fuel with
  | zero => cases h
  | succ fuel =>
      rw [filterAllDownstreamNodeIds] at h
      have hpre : ([] : List String).Nodup := List.nodup_nil
      generalize ([] : List String) = pre at h hpre
      induction nodeIds generalizing pre with
      | nil =>
          obtain rfl := Option.some.inj h
          exact hpre
      | cons a nodeIds ih =>
          rw [List.foldlM_cons] at h
          cases hbelow : filterAllDownstreamNodeIds edges predicate fuel
              (downstreamNodeIds edges predicate a) with
          | none => simp [hbelow] at h
          | some below =>
              rw [hbelow] at h
              exact ih _ h (nodup_pushNew hpre)

/-- Without circles the recursion ends, with each node downstream once. -/
theorem Acyclic.filterAllDownstreamNodeIds (h : Acyclic edges) (predicate : Edge → Bool)
    (nodeIds : List String) :
    ∃ fuel ids, filterAllDownstreamNodeIds edges predicate fuel nodeIds = some ids ∧ ids.Nodup ∧
      ∀ x, x ∈ ids ↔ ∃ a ∈ nodeIds, Relation.TransGen (Downstream edges predicate) a x := by
  have hsome : (Editor.filterAllDownstreamNodeIds edges predicate (edges.length + 2)
      nodeIds).isSome := by
    refine filterAllDownstreamNodeIds_isSome_iff.mpr ⟨Nat.succ_pos _, fun a _ n b hrun => ?_⟩
    have hle := Run.length_le_of_acyclic (h.downstream predicate) (edges.map (·.source))
      (fun a b ⟨e, he, hsource, _⟩ => List.mem_map.mpr ⟨e, he, hsource⟩) hrun
    rw [List.length_map] at hle
    omega
  obtain ⟨ids, hids⟩ := Option.isSome_iff_exists.mp hsome
  exact ⟨_, ids, hids, nodup_filterAllDownstreamNodeIds hids,
    fun x => mem_filterAllDownstreamNodeIds hids⟩

/-! ### Upstream -/

/-- The edge the other way round. -/
def Edge.reverse (e : Edge) : Edge := { e with source := e.target, target := e.source }

theorem upstreamNodeIds_eq (edges : List Edge) (nodeId : String) :
    upstreamNodeIds edges nodeId =
      downstreamNodeIds (edges.map Edge.reverse) (fun _ => true) nodeId := by
  rw [upstreamNodeIds, downstreamNodeIds, List.filter_map, List.map_map]
  refine congrArg _ (List.filter_congr fun e _ => ?_)
  exact (Bool.and_true _).symm

theorem filterAllUpstreamNodeIds_eq (edges : List Edge) (fuel : ℕ) (nodeIds : List String) :
    filterAllUpstreamNodeIds edges fuel nodeIds =
      filterAllDownstreamNodeIds (edges.map Edge.reverse) (fun _ => true) fuel nodeIds := by
  induction fuel generalizing nodeIds with
  | zero => rfl
  | succ fuel ih =>
      rw [filterAllUpstreamNodeIds, Editor.filterAllDownstreamNodeIds]
      simp only [ih, upstreamNodeIds_eq]

theorem downstream_reverse_iff :
    Downstream (edges.map Edge.reverse) (fun _ => true) a b ↔ Leads edges b a := by
  constructor
  · rintro ⟨e, he, rfl, -, rfl⟩
    obtain ⟨e', he', rfl⟩ := List.mem_map.mp he
    exact ⟨e', he', rfl, rfl⟩
  · rintro ⟨e, he, rfl, rfl⟩
    exact ⟨e.reverse, List.mem_map_of_mem he, rfl, rfl, rfl⟩

theorem transGen_reverse_iff :
    Relation.TransGen (Downstream (edges.map Edge.reverse) fun _ => true) a b ↔
      Relation.TransGen (Leads edges) b a := by
  have hrel : Downstream (edges.map Edge.reverse) (fun _ => true) =
      Function.swap (Leads edges) := by
    funext x y
    exact propext downstream_reverse_iff
  rw [hrel, Relation.transGen_swap]

theorem Acyclic.reverse (h : Acyclic edges) : Acyclic (edges.map Edge.reverse) := by
  intro a hcircle
  refine h a (transGen_reverse_iff.mp ?_)
  refine Relation.TransGen.mono (fun x y hstep => ?_) _ _ hcircle
  obtain ⟨e, he, hsource, htarget⟩ := hstep
  exact ⟨e, he, hsource, rfl, htarget⟩

theorem Acyclic.filterAllUpstreamNodeIds (h : Acyclic edges) (nodeIds : List String) :
    ∃ fuel ids, filterAllUpstreamNodeIds edges fuel nodeIds = some ids ∧ ids.Nodup ∧
      ∀ x, x ∈ ids ↔ ∃ a ∈ nodeIds, Relation.TransGen (Leads edges) x a := by
  obtain ⟨fuel, ids, hids, hnodup, hmem⟩ :=
    h.reverse.filterAllDownstreamNodeIds (fun _ => true) nodeIds
  refine ⟨fuel, ids, (filterAllUpstreamNodeIds_eq edges fuel nodeIds).trans hids, hnodup, ?_⟩
  intro x
  simp only [hmem, transGen_reverse_iff]

end Traversal

/-! ## What is accepted -/

section Accept

variable {getOutgoers : Node → List Node → List Edge → List Node} {s : RFState}
  {connection : Connection} {edges : List Edge}

theorem leads_append_iff {id a b : String} :
    Leads (edges ++ [{ connection with id := id }]) a b ↔
      Leads edges a b ∨ a = connection.source ∧ b = connection.target := by
  simp only [Leads, List.mem_append, List.mem_singleton, or_and_right, exists_or,
    exists_eq_left, eq_comm]

theorem acyclic_append_iff (h : Acyclic edges) (id : String) :
    Acyclic (edges ++ [{ connection with id := id }]) ↔
      ¬ Relation.ReflTransGen (Leads edges) connection.target connection.source := by
  have hrel : Leads (edges ++ [{ connection with id := id }]) = fun a b =>
      Leads edges a b ∨ a = connection.source ∧ b = connection.target := by
    funext a b
    exact propext leads_append_iff
  rw [Acyclic, hrel]
  exact acyclic_or_iff h

/-- The test comes to an end, and accepts a connection exactly if no way leads back. -/
theorem hasCanvasCycle_spec (hget : ReturnsTargets getOutgoers) (hnodes : AmongNodes s)
    (htarget : connection.target ∈ s.nodes.map Node.id) :
    ∃ accepted, hasCanvasCycle getOutgoers s connection = some accepted ∧
      (accepted = true ↔
        ¬ Relation.ReflTransGen (Leads s.edges) connection.target connection.source) := by
  have hsome : (s.getNode connection.target).isSome := by
    obtain ⟨n, hn, hid⟩ := List.mem_map.mp htarget
    rw [RFState.getNode, List.find?_isSome]
    exact ⟨n, hn, decide_eq_true hid⟩
  obtain ⟨target, hnode⟩ := Option.isSome_iff_exists.mp hsome
  have hmem : target ∈ s.nodes := List.mem_of_find?_eq_some hnode
  have hid : target.id = connection.target := by simpa using List.find?_some hnode
  rw [hasCanvasCycle, hnode]
  dsimp only
  by_cases hself : target.id = connection.source
  · rw [if_pos hself]
    refine ⟨false, rfl, iff_of_false Bool.false_ne_true (not_not.mpr ?_)⟩
    rw [← hid, hself]
  · have hleads : ∀ x ∈ s.nodes, ∀ k,
        Leads s.edges x.id k ↔ ∃ y ∈ getOutgoers x s.nodes s.edges, y.id = k := by
      intro x _ k
      constructor
      · rintro ⟨e, he, hsource, rfl⟩
        obtain ⟨y, hy, hyid⟩ := List.mem_map.mp (hnodes e he).2
        exact ⟨y, (hget _ _ _ _).mpr ⟨hy, e, he, hsource, hyid.symm⟩, hyid⟩
      · rintro ⟨y, hy, rfl⟩
        obtain ⟨-, e, he, hsource, htarget⟩ := (hget _ _ _ _).mp hy
        exact ⟨e, he, hsource, htarget⟩
    obtain ⟨found, visited, hsearch, hfound⟩ : ∃ found visited,
        search (fun node => getOutgoers node s.nodes s.edges) Node.id connection.source
          (s.nodes.length + 1) target [] = some (found, visited) ∧
        (found = true ↔ Relation.TransGen (Leads s.edges) target.id connection.source) :=
      search_iff (fun x _ y hy => ((hget x s.nodes s.edges y).mp hy).1) hleads hmem
    rw [if_neg hself, hasCycle, hsearch]
    refine ⟨!found, rfl, ?_⟩
    rw [Bool.not_eq_true', ← Bool.not_eq_true, hfound, Relation.reflTransGen_iff_eq_or_transGen,
      not_or, hid]
    exact (and_iff_right fun heq => hself (hid.trans heq.symm)).symm

/-- A valid connection has passed the test for cycles. -/
theorem hasCanvasCycle_of_isValidConnection
    (h : isValidConnection getOutgoers s connection = some true) :
    hasCanvasCycle getOutgoers s connection = some true := by
  rw [isValidConnection] at h
  split_ifs at h with hvalid
  · exact h
  · cases Option.some.inj h

/-- An accepted connection keeps the edges among the nodes and free of cycles. -/
theorem ConnectStep.keeps {addEdge : Connection → List Edge → List Edge}
    (hget : ReturnsTargets getOutgoers) (hadd : AppendsEdge addEdge) {t : RFState}
    (hacyclic : Acyclic s.edges) (hnodes : AmongNodes s)
    (hstep : ConnectStep getOutgoers addEdge s t) : Acyclic t.edges ∧ AmongNodes t := by
  obtain ⟨connection, hsource, htarget, hvalid, rfl⟩ := hstep
  rcases hadd connection s.edges with hsame | ⟨id, hnew⟩
  · rw [hsame]
    exact ⟨hacyclic, hnodes⟩
  · rw [hnew]
    constructor
    · obtain ⟨accepted, haccepted, hiff⟩ := hasCanvasCycle_spec hget hnodes htarget
      rw [hasCanvasCycle_of_isValidConnection hvalid] at haccepted
      exact (acyclic_append_iff hacyclic id).mpr (hiff.mp (Option.some.inj haccepted).symm)
    · intro e he
      rcases List.mem_append.mp he with hold | hlast
      · exact hnodes e hold
      · rw [List.mem_singleton.mp hlast]
        exact ⟨hsource, htarget⟩

/-- The test accepts a connection exactly if the edges stay free of cycles, and so the searches
upstream and downstream end after any number of accepted connections, with each node once. -/
theorem accepted_connections_stay_acyclic
    (getOutgoers : Node → List Node → List Edge → List Node) (hget : ReturnsTargets getOutgoers) :
    (∀ s connection, Acyclic s.edges → AmongNodes s → connection.source ∈ s.nodes.map Node.id →
      connection.target ∈ s.nodes.map Node.id →
      ∃ accepted, hasCanvasCycle getOutgoers s connection = some accepted ∧
        ∀ id, accepted = true ↔ Acyclic (s.edges ++ [{ connection with id := id }])) ∧
    ∀ addEdge, AppendsEdge addEdge → ∀ s₀ n s, Acyclic s₀.edges → AmongNodes s₀ →
      Run (ConnectStep getOutgoers addEdge) s₀ n s →
      Acyclic s.edges ∧ ∀ nodeIds,
        (∃ fuel ids, filterAllUpstreamNodeIds s.edges fuel nodeIds = some ids ∧ ids.Nodup ∧
          ∀ x, x ∈ ids ↔ ∃ a ∈ nodeIds, Relation.TransGen (Leads s.edges) x a) ∧
        ∀ predicate, ∃ fuel ids,
          filterAllDownstreamNodeIds s.edges predicate fuel nodeIds = some ids ∧ ids.Nodup ∧
          ∀ x, x ∈ ids ↔ ∃ a ∈ nodeIds, Relation.TransGen (Downstream s.edges predicate) a x := by
  constructor
  · intro s connection hacyclic hnodes _ htarget
    obtain ⟨accepted, haccepted, hiff⟩ := hasCanvasCycle_spec hget hnodes htarget
    exact ⟨accepted, haccepted, fun id => hiff.trans (acyclic_append_iff hacyclic id).symm⟩
  · intro addEdge hadd s₀ n s hacyclic hnodes hrun
    have hkept : Acyclic s.edges ∧ AmongNodes s :=
      hrun.invariant (P := fun _ s => Acyclic s.edges ∧ AmongNodes s) ⟨hacyclic, hnodes⟩
        fun _ _ _ _ h hstep => hstep.keeps hget hadd h.1 h.2
    exact ⟨hkept.1, fun nodeIds => ⟨hkept.1.filterAllUpstreamNodeIds nodeIds, fun predicate =>
      hkept.1.filterAllDownstreamNodeIds predicate nodeIds⟩⟩

/-- `getOutgoers` as the flow library has it. -/
def flowOutgoers (node : Node) (nodes : List Node) (edges : List Edge) : List Node :=
  nodes.filter fun n => edges.any fun e => e.source = node.id && e.target = n.id

theorem flowOutgoers_returnsTargets : ReturnsTargets flowOutgoers := by
  intro node nodes edges n
  simp [flowOutgoers]

/-- Two nodes without an edge, of which the first is then connected to the second. -/
def pairState : RFState where
  nodes := [canvasNode "a" .agent none, canvasNode "b" .message none]
  edges := []

theorem accepted_connection_pair :
    (∃ accepted, hasCanvasCycle flowOutgoers pairState ⟨"a", "b", none, none⟩ = some accepted ∧
      ∀ id, accepted = true ↔ Acyclic (pairState.edges ++ [⟨⟨"a", "b", none, none⟩, id⟩])) ∧
    Acyclic (flowAddEdge ⟨"a", "b", none, none⟩ pairState.edges) := by
  have hempty : Acyclic pairState.edges := by
    intro a hcircle
    obtain ⟨b, ⟨e, he, -⟩, -⟩ := Relation.TransGen.head'_iff.mp hcircle
    exact absurd he List.not_mem_nil
  have hamong : AmongNodes pairState := fun e he => absurd he List.not_mem_nil
  have hmain := accepted_connections_stay_acyclic flowOutgoers flowOutgoers_returnsTargets
  refine ⟨hmain.1 pairState ⟨"a", "b", none, none⟩ hempty hamong (by decide) (by decide), ?_⟩
  exact (hmain.2 flowAddEdge flowAddEdge_appends pairState 1 _ hempty hamong
    (.single ⟨⟨"a", "b", none, none⟩, by decide, by decide, by decide, rfl⟩)).1

end Accept

end RagFlow.Editor
