/-
# References between the nodes of the editor

An edge names the nodes at its ends, and a node the group that it is in. Deleting a group
keeps an edge between two of its children, because it asks for edges that have one child at
both ends. Deleting an agent collects a single edge from the nodes below it, because it pushes
an edge only while all that were pushed before have its id.
-/

import RagFlow.Editor.Store

namespace RagFlow.Editor

open RagFlow.Math

/-- Both ends of every edge, and the parent of every node, are nodes of the store. -/
structure Referential (s : RFState) : Prop where
  source : ∀ e ∈ s.edges, e.source ∈ s.nodes.map Node.id
  target : ∀ e ∈ s.edges, e.target ∈ s.nodes.map Node.id
  parent : ∀ n ∈ s.nodes, ∀ p, n.parentId = some p → p ∈ s.nodes.map Node.id

/-- The operations of the store, with what `humanId` returns to those that call it. -/
inductive StoreOp where
  | addNode (node : Node)
  | addEdge (connection : Connection)
  | duplicateNode (id : String) (humanId : ℕ → String)
  | deleteEdgeById (id : String)
  | deleteNodeById (id : String)
  | deleteIterationNodeById (id : String)
  | deleteAgentToolNodeById (id : String)

/-- `addEdge` of the flow library appends an edge for the connection, unless there is one. -/
def AppendsEdge (addEdge : Connection → List Edge → List Edge) : Prop :=
  ∀ connection edges, addEdge connection edges = edges ∨
    ∃ id, addEdge connection edges = edges ++ [{ connection with id := id }]

def StoreOp.apply (addEdge : Connection → List Edge → List Edge) (s : RFState) :
    StoreOp → RFState
  | .addNode node => s.addNode node
  | .addEdge connection => { s with edges := addEdge connection s.edges }
  | .duplicateNode id humanId => s.duplicateNode id humanId
  | .deleteEdgeById id => s.deleteEdgeById id
  | .deleteNodeById id => s.deleteNodeById id
  | .deleteIterationNodeById id => s.deleteIterationNodeById id
  | .deleteAgentToolNodeById id => s.deleteAgentToolNodeById id

/-! ## Deletions that leave nothing behind -/

/-- An agent or a tool below the agent. -/
def Below (edges : List Edge) (id x : String) : Prop :=
  Relation.TransGen (Downstream edges isAgentEdge) id x

/-- There are ways down of any length, so that the recursion does not end. -/
def Endless (edges : List Edge) (id : String) : Prop :=
  ∀ k, ∃ n b, k ≤ n ∧ Run (Downstream edges isAgentEdge) id n b

/-- The first edge of the list at the first node that the agent leads to. -/
def firstEdgeBelow (edges : List Edge) (id : String) : Option Edge :=
  (downstreamNodeIds edges isAgentEdge id).head?.bind fun x => edges.find? (·.touches x)

/-- The nodes below the agent have no edges except with the agent itself, and that one edge
that is collected; neither they nor the agent have children. -/
structure AgentApart (s : RFState) (id : String) : Prop where
  edges : ∀ e ∈ s.edges, ∀ x, Below s.edges id x → e.touches x = true →
    e.touches id = true ∨ ∃ first, firstEdgeBelow s.edges id = some first ∧ e.id = first.id
  children : ∀ n ∈ s.nodes, ∀ p, n.parentId = some p → p = id ∨ Below s.edges id p →
    n.id = id ∨ Below s.edges id n.id

/-- The node is an agent that is apart, or another node without children. -/
def NodeApart (s : RFState) (id : String) : Prop :=
  if (s.getNode id).bind Node.label = some .agent then Endless s.edges id ∨ AgentApart s id
  else ∀ n ∈ s.nodes, n.parentId = some id → n.id = id

/-- The children of the group have no edges except with the group itself, and no children. -/
structure GroupApart (s : RFState) (id : String) : Prop where
  edges : ∀ e ∈ s.edges, ∀ child ∈ s.nodes, child.parentId = some id →
    e.touches child.id = true → e.touches id = true ∨ e.source = child.id ∧ e.target = child.id
  children : ∀ n ∈ s.nodes, ∀ child ∈ s.nodes, child.parentId = some id →
    n.parentId = some child.id → n.id = id ∨ n.parentId = some id

/-- Nodes come with a parent that is there, edges with ends that are there, and what is deleted
is apart from what stays. -/
def StoreOp.Orderly (s : RFState) : StoreOp → Prop
  | addNode node => ∀ p, node.parentId = some p → p ∈ s.nodes.map Node.id
  | addEdge connection =>
    connection.source ∈ s.nodes.map Node.id ∧ connection.target ∈ s.nodes.map Node.id
  | duplicateNode _ _ => True
  | deleteEdgeById _ => True
  | deleteNodeById id => NodeApart s id
  | deleteIterationNodeById id => GroupApart s id
  | deleteAgentToolNodeById id =>
    ∀ edge, s.edges.find? (fun x => x.source = id && x.sourceHandle = some NodeHandleId.tool) =
      some edge → NodeApart (s.deleteEdgeById edge.id) edge.target

/-! ## What the operations keep -/

variable {s : RFState} {id : String} {edges pre relatedEdges : List Edge} {first : Edge}

theorem referential_initialGraph : Referential initialGraph where
  source := by simp [initialGraph]
  target := by simp [initialGraph]
  parent := by simp [initialGraph]

/-- Fewer edges and more nodes, whose parents are there, do no harm. -/
theorem Referential.extend (hs : Referential s) {added : List Node} {edges : List Edge}
    (hedges : ∀ e ∈ edges, e ∈ s.edges)
    (hadded : ∀ n ∈ added, ∀ p, n.parentId = some p → p ∈ (s.nodes ++ added).map Node.id) :
    Referential { nodes := s.nodes ++ added, edges := edges } where
  source e he := by
    rw [List.map_append]
    exact List.mem_append_left _ (hs.source e (hedges e he))
  target e he := by
    rw [List.map_append]
    exact List.mem_append_left _ (hs.target e (hedges e he))
  parent n hn p hp := by
    rcases List.mem_append.mp hn with hold | hnew
    · rw [List.map_append]
      exact List.mem_append_left _ (hs.parent n hold p hp)
    · exact hadded n hnew p hp

theorem Referential.deleteEdgeById (hs : Referential s) (id : String) :
    Referential (s.deleteEdgeById id) where
  source e he := hs.source e (List.mem_filter.mp he).1
  target e he := hs.target e (List.mem_filter.mp he).1
  parent := hs.parent

/-- What is kept refers to what is kept. -/
theorem Referential.filter (hs : Referential s) {keep : Node → Bool} {keepEdge : Edge → Bool}
    (hsource : ∀ e ∈ s.edges, keepEdge e = true → ∀ n ∈ s.nodes, n.id = e.source → keep n = true)
    (htarget : ∀ e ∈ s.edges, keepEdge e = true → ∀ n ∈ s.nodes, n.id = e.target → keep n = true)
    (hparent : ∀ n ∈ s.nodes, keep n = true → ∀ m ∈ s.nodes, n.parentId = some m.id →
      keep m = true) :
    Referential { nodes := s.nodes.filter keep, edges := s.edges.filter keepEdge } where
  source e he := by
    obtain ⟨hmem, hkeep⟩ := List.mem_filter.mp he
    obtain ⟨n, hn, hid⟩ := List.mem_map.mp (hs.source e hmem)
    exact List.mem_map.mpr ⟨n, List.mem_filter.mpr ⟨hn, hsource e hmem hkeep n hn hid⟩, hid⟩
  target e he := by
    obtain ⟨hmem, hkeep⟩ := List.mem_filter.mp he
    obtain ⟨n, hn, hid⟩ := List.mem_map.mp (hs.target e hmem)
    exact List.mem_map.mpr ⟨n, List.mem_filter.mpr ⟨hn, htarget e hmem hkeep n hn hid⟩, hid⟩
  parent n hn p hp := by
    obtain ⟨hmem, hkeep⟩ := List.mem_filter.mp hn
    obtain ⟨m, hm, rfl⟩ := List.mem_map.mp (hs.parent n hmem p hp)
    exact List.mem_map.mpr ⟨m, List.mem_filter.mpr ⟨hm, hparent n hmem hkeep m hm hp⟩, rfl⟩

theorem Referential.duplicateNode (hs : Referential s) (id : String) (humanId : ℕ → String) :
    Referential (s.duplicateNode id humanId) := by
  rw [RFState.duplicateNode]
  split
  · exact hs.extend (fun _ he => he) (by simp)
  case h_2 node hnode =>
    have hmem : node ∈ s.nodes := List.mem_of_find?_eq_some hnode
    have hparent : ∀ p, node.parentId = some p → ∀ added : List Node,
        p ∈ (s.nodes ++ added).map Node.id := by
      intro p hp added
      rw [List.map_append]
      exact List.mem_append_left _ (hs.parent node hmem p hp)
    split_ifs with hiteration
    · refine hs.extend (fun _ he => he) fun n hn p hp => ?_
      rcases List.mem_cons.mp hn with rfl | hchild
      · exact hparent p hp _
      · obtain ⟨i, hi, rfl⟩ := List.mem_mapIdx.mp hchild
        obtain rfl := Option.some.inj hp
        simp
    · refine hs.extend (fun _ he => he) fun n hn p hp => ?_
      obtain rfl := List.mem_singleton.mp hn
      exact hparent p hp _

/-! ### Deleting an agent -/

theorem prefix_pushRelated : pre <+: pushRelated pre relatedEdges := by
  unfold pushRelated
  induction relatedEdges generalizing pre with
  | nil => exact List.prefix_refl pre
  | cons x relatedEdges ih =>
      rw [List.foldl_cons]
      split_ifs
      · exact (List.prefix_append pre [x]).trans ih
      · exact ih

theorem prefix_collected (ids : List String) :
    pre <+: ids.foldl (fun pre cur => pushRelated pre (edges.filter (·.touches cur))) pre := by
  induction ids generalizing pre with
  | nil => exact List.prefix_refl pre
  | cons cur ids ih =>
      rw [List.foldl_cons]
      exact prefix_pushRelated.trans ih

/-- The first node found is the first that the agent leads to. -/
theorem head?_filterAllDownstreamNodeIds {predicate : Edge → Bool} {fuel : ℕ} {ids : List String}
    (h : filterAllDownstreamNodeIds edges predicate fuel [id] = some ids) {x : String}
    (hx : (downstreamNodeIds edges predicate id).head? = some x) : ids.head? = some x := by
  obtain ⟨rest, hrest⟩ := List.head?_eq_some_iff.mp hx
  cases fuel with
  | zero => cases h
  | succ fuel =>
      rw [filterAllDownstreamNodeIds, List.foldlM_cons] at h
      cases hbelow : filterAllDownstreamNodeIds edges predicate fuel
          (downstreamNodeIds edges predicate id) with
      | none => simp [hbelow] at h
      | some below =>
          rw [hbelow] at h
          obtain rfl := Option.some.inj h
          rw [hrest]
          have hpush : pushNew [] (x :: rest ++ below) = pushNew [x] (rest ++ below) := rfl
          have hgrows : [x] <+: pushNew [x] (rest ++ below) := prefix_pushNew
          obtain ⟨others, hothers⟩ := hgrows
          show (pushNew [] (x :: rest ++ below)).head? = some x
          rw [hpush, ← hothers]
          rfl

/-- The first edge at the first node below is among the edges that go. -/
theorem mem_deleteAllDownstream {ids : List String} {collected : List Edge}
    (h : deleteAllDownstreamAgentsAndTool id edges = some (ids, collected))
    (hfirst : firstEdgeBelow edges id = some first) : first ∈ collected := by
  obtain ⟨x, hx, hfind⟩ := Option.bind_eq_some_iff.mp hfirst
  obtain ⟨ids', hids, heq⟩ := Option.map_eq_some_iff.mp h
  obtain ⟨rfl, rfl⟩ := Prod.mk.inj heq
  obtain ⟨rest, hrest⟩ := List.head?_eq_some_iff.mp (head?_filterAllDownstreamNodeIds hids hx)
  rw [hrest, List.foldl_cons]
  refine (prefix_collected rest).subset ?_
  have hhead : (edges.filter (·.touches x)).head? = some first := by
    rw [List.head?_filter, hfind]
  obtain ⟨more, hmore⟩ := List.head?_eq_some_iff.mp hhead
  rw [hmore]
  have hpush : pushRelated [] (first :: more) = pushRelated [first] more := rfl
  rw [hpush]
  exact prefix_pushRelated.subset (List.mem_singleton.mpr rfl)

theorem mem_deleteAllDownstream_ids {ids : List String} {collected : List Edge}
    (h : deleteAllDownstreamAgentsAndTool id edges = some (ids, collected)) {x : String} :
    x ∈ ids ↔ Below edges id x := by
  obtain ⟨ids', hids, heq⟩ := Option.map_eq_some_iff.mp h
  obtain ⟨rfl, -⟩ := Prod.mk.inj heq
  rw [mem_filterAllDownstreamNodeIds hids]
  simp [Below]

/-- The recursion that does not end raises. -/
theorem deleteAllDownstream_of_endless (h : Endless edges id) :
    deleteAllDownstreamAgentsAndTool id edges = none := by
  rw [deleteAllDownstreamAgentsAndTool, Option.map_eq_none_iff, ← Option.not_isSome_iff_eq_none]
  intro hsome
  obtain ⟨n, b, hle, hrun⟩ := h (edges.length + 2)
  have := (filterAllDownstreamNodeIds_isSome_iff.mp hsome).2 id
    (List.mem_singleton.mpr rfl) n b hrun
  omega

theorem Referential.deleteAgentDownstreamNodesById (hs : Referential s)
    (h : Endless s.edges id ∨ AgentApart s id) :
    Referential (s.deleteAgentDownstreamNodesById id) := by
  rw [RFState.deleteAgentDownstreamNodesById]
  split
  · exact hs
  case h_2 ids collected hcollected =>
    have hapart : AgentApart s id := by
      refine h.resolve_left fun hendless => ?_
      rw [deleteAllDownstream_of_endless hendless] at hcollected
      cases hcollected
    have hids : ∀ x, x ∈ ids ↔ Below s.edges id x := fun x => mem_deleteAllDownstream_ids hcollected
    -- A kept edge has no end at the agent or below it.
    have hkept : ∀ e ∈ s.edges, (e.source ≠ id && e.target ≠ id &&
        !collected.any (·.id = e.id)) = true → ∀ x, e.touches x = true → x ∉ ids ∧ x ≠ id := by
      intro e he hkeep x htouches
      simp only [Bool.and_eq_true, decide_eq_true_eq, Bool.not_eq_true', List.any_eq_false] at hkeep
      obtain ⟨⟨hsource, htarget⟩, hnew⟩ := hkeep
      have hnot : ¬ e.touches id = true := by simp [Edge.touches, hsource, htarget]
      refine ⟨fun hx => ?_, fun hx => hnot (hx ▸ htouches)⟩
      rcases hapart.edges e he x ((hids x).mp hx) htouches with hagent | ⟨first, hfirst, heq⟩
      · exact hnot hagent
      · exact hnew first (mem_deleteAllDownstream hcollected hfirst) heq.symm
    refine hs.filter (fun e he hkeep n _ hid => ?_) (fun e he hkeep n _ hid => ?_)
      fun n hn hkeep m hm hparent => ?_
    · obtain ⟨hnot, hne⟩ := hkept e he hkeep n.id (by simp [Edge.touches, hid])
      simp only [Bool.and_eq_true, Bool.not_eq_true', List.any_eq_false, decide_eq_true_eq]
      exact ⟨fun x hx heq => hnot (heq ▸ hx), hne⟩
    · obtain ⟨hnot, hne⟩ := hkept e he hkeep n.id (by simp [Edge.touches, hid])
      simp only [Bool.and_eq_true, Bool.not_eq_true', List.any_eq_false, decide_eq_true_eq]
      exact ⟨fun x hx heq => hnot (heq ▸ hx), hne⟩
    · simp only [Bool.and_eq_true, Bool.not_eq_true', List.any_eq_false, decide_eq_true_eq]
        at hkeep ⊢
      have hstays : ¬ (m.id = id ∨ Below s.edges id m.id) := by
        intro hgone
        rcases hapart.children n hn m.id hparent hgone with heq | hbelow
        · exact hkeep.2 heq
        · exact hkeep.1 n.id ((hids n.id).mpr hbelow) rfl
      exact ⟨fun x hx heq => hstays (Or.inr ((hids _).mp (heq ▸ hx))),
        fun heq => hstays (Or.inl heq)⟩

theorem Referential.deleteNodeById (hs : Referential s) (h : NodeApart s id) :
    Referential (s.deleteNodeById id) := by
  rw [RFState.deleteNodeById]
  rw [NodeApart] at h
  split_ifs with hagent
  · exact hs.deleteAgentDownstreamNodesById (by rwa [if_pos hagent] at h)
  · rw [if_neg hagent] at h
    rw [List.filter_filter]
    refine hs.filter (fun e _ hkeep n _ hid => ?_) (fun e _ hkeep n _ hid => ?_)
      fun n hn hkeep m _ hparent => ?_
    · simp only [Bool.and_eq_true, decide_eq_true_eq] at hkeep ⊢
      exact hid ▸ hkeep.2
    · simp only [Bool.and_eq_true, decide_eq_true_eq] at hkeep ⊢
      exact hid ▸ hkeep.1
    · simp only [decide_eq_true_eq] at hkeep ⊢
      exact fun heq => hkeep (h n hn (heq ▸ hparent))

theorem Referential.deleteIterationNodeById (hs : Referential s) (h : GroupApart s id) :
    Referential (s.deleteIterationNodeById id) := by
  have hends : ∀ e ∈ s.edges, (e.source ≠ id && e.target ≠ id &&
      !(s.nodes.filter (·.parentId = some id)).any fun child =>
        e.source = child.id && e.target = child.id) = true →
      ∀ n ∈ s.nodes, e.touches n.id = true → (n.id ≠ id && n.parentId ≠ some id) = true := by
    intro e he hkeep n hn htouches
    simp only [Bool.and_eq_true, decide_eq_true_eq, Bool.not_eq_true', List.any_eq_false,
      List.mem_filter, not_and] at hkeep ⊢
    obtain ⟨⟨hsource, htarget⟩, hloop⟩ := hkeep
    have hnot : ¬ e.touches id = true := by simp [Edge.touches, hsource, htarget]
    refine ⟨fun heq => hnot (heq ▸ htouches), fun hchild => ?_⟩
    rcases h.edges e he n hn hchild htouches with hgroup | ⟨hs', ht'⟩
    · exact hnot hgroup
    · exact hloop n ⟨hn, hchild⟩ hs' ht'
  refine hs.filter (fun e he hkeep n hn hid => ?_) (fun e he hkeep n hn hid => ?_)
    fun n hn hkeep m hm hparent => ?_
  · exact hends e he hkeep n hn (by simp [Edge.touches, hid])
  · exact hends e he hkeep n hn (by simp [Edge.touches, hid])
  · simp only [Bool.and_eq_true, decide_eq_true_eq] at hkeep ⊢
    refine ⟨fun heq => hkeep.2 (heq ▸ hparent), fun hchild => ?_⟩
    rcases h.children n hn m hm hchild hparent with heq | heq
    · exact hkeep.1 heq
    · exact hkeep.2 heq

theorem Referential.deleteAgentToolNodeById (hs : Referential s)
    (h : ∀ edge, s.edges.find? (fun x => x.source = id && x.sourceHandle = some NodeHandleId.tool) =
      some edge → NodeApart (s.deleteEdgeById edge.id) edge.target) :
    Referential (s.deleteAgentToolNodeById id) := by
  rw [RFState.deleteAgentToolNodeById]
  split
  · exact hs
  case h_2 edge hedge => exact (hs.deleteEdgeById edge.id).deleteNodeById (h edge hedge)

theorem Referential.addEdge (hs : Referential s) {addEdge : Connection → List Edge → List Edge}
    (hadd : AppendsEdge addEdge) {connection : Connection}
    (hsource : connection.source ∈ s.nodes.map Node.id)
    (htarget : connection.target ∈ s.nodes.map Node.id) :
    Referential { s with edges := addEdge connection s.edges } := by
  rcases hadd connection s.edges with hsame | ⟨id, hnew⟩
  · rw [hsame]
    exact hs
  · rw [hnew]
    refine ⟨fun e he => ?_, fun e he => ?_, hs.parent⟩
    · rcases List.mem_append.mp he with hold | hlast
      · exact hs.source e hold
      · obtain rfl := List.mem_singleton.mp hlast
        exact hsource
    · rcases List.mem_append.mp he with hold | hlast
      · exact hs.target e hold
      · obtain rfl := List.mem_singleton.mp hlast
        exact htarget

/-! ## Runs -/

/-- An operation that is orderly in the present state. -/
def OrderlyOp (addEdge : Connection → List Edge → List Edge) (s t : RFState) : Prop :=
  ∃ op : StoreOp, op.Orderly s ∧ op.apply addEdge s = t

theorem Referential.step {addEdge : Connection → List Edge → List Edge}
    (hadd : AppendsEdge addEdge) (hs : Referential s) {t : RFState}
    (h : OrderlyOp addEdge s t) : Referential t := by
  obtain ⟨op, horderly, rfl⟩ := h
  cases op with
  | addNode node =>
      refine hs.extend (fun _ he => he) fun n hn p hp => ?_
      obtain rfl := List.mem_singleton.mp hn
      rw [List.map_append]
      exact List.mem_append_left _ (horderly p hp)
  | addEdge connection => exact hs.addEdge hadd horderly.1 horderly.2
  | duplicateNode id humanId => exact hs.duplicateNode id humanId
  | deleteEdgeById id => exact hs.deleteEdgeById id
  | deleteNodeById id => exact hs.deleteNodeById horderly
  | deleteIterationNodeById id => exact hs.deleteIterationNodeById horderly
  | deleteAgentToolNodeById id => exact hs.deleteAgentToolNodeById horderly

/-- In every state that orderly operations reach from the initial canvas, the ends of edges and
the parents of nodes are there. -/
theorem references_hold (addEdge : Connection → List Edge → List Edge)
    (hadd : AppendsEdge addEdge) (n : ℕ) (s : RFState)
    (h : Run (OrderlyOp addEdge) initialGraph n s) : Referential s :=
  h.invariant (P := fun _ s => Referential s) referential_initialGraph
    fun _ _ _ _ hs hstep => hs.step hadd hstep

/-- The connection is there already. -/
def Connection.exists? (connection : Connection) (edges : List Edge) : Bool :=
  edges.any fun e => e.source = connection.source && e.target = connection.target &&
    e.sourceHandle = connection.sourceHandle && e.targetHandle = connection.targetHandle

/-- The id that the flow library gives to an edge. -/
def edgeId (c : Connection) : String :=
  "xy-edge__" ++ c.source ++ c.sourceHandle.getD "" ++ "-" ++ c.target ++ c.targetHandle.getD ""

/-- `addEdge` of the flow library. -/
def flowAddEdge (connection : Connection) (edges : List Edge) : List Edge :=
  if connection.source = "" || connection.target = "" || connection.exists? edges then edges
  else edges ++ [{ connection with id := edgeId connection }]

theorem flowAddEdge_appends : AppendsEdge flowAddEdge := by
  intro connection edges
  rw [flowAddEdge]
  split_ifs
  · exact Or.inl rfl
  · exact Or.inr ⟨_, rfl⟩

def canvasNode (id : String) (label : Operator) (parentId : Option String) : Node where
  id := id
  label := some label
  parentId := parentId
  shared := false

def connect (source target sourceHandle : String) : Connection where
  source := source
  target := target
  sourceHandle := some sourceHandle
  targetHandle := some NodeHandleId.endHandle

def applyAll (ops : List StoreOp) : RFState := ops.foldl (StoreOp.apply flowAddEdge) initialGraph

/-- The store after a message node was connected to the beginning. -/
theorem references_hold_message :
    Referential (applyAll [.addNode (canvasNode "Message:a" .message none),
      .addEdge (connect "begin" "Message:a" "start")]) := by
  have hnode : OrderlyOp flowAddEdge initialGraph
      (applyAll [.addNode (canvasNode "Message:a" .message none)]) :=
    ⟨.addNode (canvasNode "Message:a" .message none), by simp [StoreOp.Orderly, canvasNode], rfl⟩
  have hedge : OrderlyOp flowAddEdge (applyAll [.addNode (canvasNode "Message:a" .message none)])
      (applyAll [.addNode (canvasNode "Message:a" .message none),
        .addEdge (connect "begin" "Message:a" "start")]) :=
    ⟨.addEdge (connect "begin" "Message:a" "start"), ⟨by decide, by decide⟩, rfl⟩
  exact references_hold flowAddEdge flowAddEdge_appends 2 _ (.tail (.single hnode) hedge)

/-- Two connected nodes in an iteration, which is deleted: their edge stays. And an agent with a
sub-agent that has a tool: the edge between these two stays when the agent is deleted. -/
theorem deletions_leave_edges :
    (applyAll [.addNode (canvasNode "Iteration:a" .iteration none),
        .addNode (canvasNode "Message:b" .message (some "Iteration:a")),
        .addNode (canvasNode "Message:c" .message (some "Iteration:a")),
        .addEdge (connect "Message:b" "Message:c" "start"),
        .deleteIterationNodeById "Iteration:a"]).edges.map (·.source) = ["Message:b"] ∧
      ¬ Referential (applyAll [.addNode (canvasNode "Iteration:a" .iteration none),
        .addNode (canvasNode "Message:b" .message (some "Iteration:a")),
        .addNode (canvasNode "Message:c" .message (some "Iteration:a")),
        .addEdge (connect "Message:b" "Message:c" "start"),
        .deleteIterationNodeById "Iteration:a"]) ∧
      ¬ Referential (applyAll [.addNode (canvasNode "Agent:a" .agent none),
        .addNode (canvasNode "Agent:b" .agent none), .addNode (canvasNode "Tool:c" .tool none),
        .addEdge (connect "Agent:a" "Agent:b" NodeHandleId.agentBottom),
        .addEdge (connect "Agent:b" "Tool:c" NodeHandleId.tool), .deleteNodeById "Agent:a"]) := by
  refine ⟨by decide, fun h => ?_, fun h => ?_⟩
  · exact absurd (h.source _ (List.mem_singleton.mpr rfl)) (by decide)
  · exact absurd (h.source _ (List.mem_singleton.mpr rfl)) (by decide)

end RagFlow.Editor
