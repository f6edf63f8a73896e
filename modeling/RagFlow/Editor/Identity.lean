/-
# Who is who on the canvas

Ids are told apart by what `humanId` returned for them. The module's own start nodes got
theirs once, so a second iteration brings a second node with the id of the first start node.
The copy of a loop is a node of its own, without the children of the loop, and so without a
start node.
-/

import RagFlow.Editor.AddNode

namespace RagFlow.Editor

open RagFlow.Math

/-- The node is a start node of the given type in the group. -/
def Node.isStartIn (start : Operator) (group : String) (x : Node) : Bool :=
  x.label = some start && x.parentId = some group

/-- `x` is a start node of the group `g`. -/
def Starts (x g : Node) : Prop :=
  ∃ start, startOf g.label = some start ∧ x.isStartIn start g.id = true

/-- Ids are distinct, and every group has exactly one start node. -/
structure WellIdentified (nodes : List Node) : Prop where
  ids : (nodes.map Node.id).Nodup
  starts : ∀ g ∈ nodes, ∀ start, startOf g.label = some start →
    nodes.countP (Node.isStartIn start g.id) = 1

/-! ## Operations that are safe -/

/-- A start node that is deleted goes together with its group. -/
def StartsGoTogether (s : RFState) (gone : Node → Prop) : Prop :=
  ∀ x ∈ s.nodes, ∀ g ∈ s.nodes, Starts x g → gone x → gone g

/-- What `deleteNodeById` deletes: the node, and what is below it if it is an agent. -/
def DeletedBy (s : RFState) (id : String) (x : Node) : Prop :=
  x.id = id ∨ (s.getNode id).bind Node.label = some .agent ∧ Below s.edges id x.id

/-- The node is below one of the selected agents, along the selected edges. -/
def BelowSelected (s : RFState) (ids : List String) (edges : List Edge) (x : Node) : Prop :=
  ∃ id ∈ ids, (s.getNode id).bind Node.label = some .agent ∧ Below edges id x.id

/-- No second group of a type while the module's start node is in use, no start node is added to
a group or copied in it, neither a loop nor an iteration with a group in it is copied, and no
start node is deleted without its group. -/
def EditorOp.Safe (s : EditorState) : EditorOp → Prop
  | .addCanvasNode type params _ =>
    (type = .iteration ∨ type = .loop → ∀ n ∈ s.store.nodes, n.id ≠ s.startId type) ∧
      ∀ g ∈ s.store.nodes, startOf g.label = some type →
        ∀ node, params.nodeId.bind s.store.getNode = some node → node.parentId ≠ some g.id
  | .duplicateNode id => ∀ node, s.store.getNode id = some node →
    node.label ≠ some .loop ∧ (∀ g ∈ s.store.nodes, ¬ Starts node g) ∧
      (node.label = some .iteration →
        ∀ child ∈ s.store.nodes, child.parentId = some node.id → startOf child.label = none)
  | .deleteNodeById id => StartsGoTogether s.store (DeletedBy s.store id)
  | .deleteIterationNodeById id =>
    ∀ x ∈ s.store.nodes, ∀ g ∈ s.store.nodes, Starts x g → x.id = id →
      g.id = id ∨ g.parentId = some id
  | .deleteAgentToolNodeById id => ∀ edge,
    s.store.edges.find? (fun x => x.source = id && x.sourceHandle = some NodeHandleId.tool) =
      some edge →
    StartsGoTogether (s.store.deleteEdgeById edge.id)
      (DeletedBy (s.store.deleteEdgeById edge.id) edge.target)
  | .deleteElements ids edges => ∀ x ∈ s.store.nodes, ∀ g ∈ s.store.nodes, Starts x g →
    x.label = some .loopStart ∧ x.id ∈ ids ∨ BelowSelected s.store ids edges x →
      g.id ∈ ids ∨ BelowSelected s.store ids edges g
  | .onNodesChange => True

/-- A safe operation, for which `humanId` returns strings that it has not returned before. -/
def SafeOp (addEdge : Connection → List Edge → List Edge) (s t : EditorState) : Prop :=
  ∃ (op : EditorOp) (humanId : ℕ → String), Function.Injective humanId ∧
    (∀ i, humanId i ∉ s.drawn) ∧ op.Safe s ∧ op.apply addEdge humanId s = t

/-! ## Ids -/

/-- An id that is made of a string that `humanId` has returned, or the one of the first node. -/
def Known (drawn : List String) (id : String) : Prop :=
  id = beginId ∨ ∃ label suffix, ':' ∉ label.toList ∧ suffix ∈ drawn ∧ id = nodeId label suffix

/-- The ids in the store are known, and an entry that is a start node of the module has its
id. -/
structure Tracked (s : EditorState) : Prop where
  ids : ∀ n ∈ s.store.nodes, Known s.drawn n.id
  parents : ∀ n ∈ s.store.nodes, ∀ p, n.parentId = some p → Known s.drawn p
  iterationStart : Known s.drawn s.iterationStartId
  loopStart : Known s.drawn s.loopStartId
  shared : ∀ n ∈ s.store.nodes, n.shared = true →
    n.label = some .iterationStart ∧ n.id = s.iterationStartId ∨
      n.label = some .loopStart ∧ n.id = s.loopStartId

theorem toList_nodeId (label suffix : String) :
    (nodeId label suffix).toList = label.toList ++ ':' :: suffix.toList := by
  rw [nodeId, String.toList_append, String.toList_append]
  simp

/-- An id tells what `humanId` returned for it. -/
theorem suffix_eq_of_nodeId_eq {l₁ l₂ s₁ s₂ : String} (h₁ : ':' ∉ l₁.toList)
    (h₂ : ':' ∉ l₂.toList) (h : nodeId l₁ s₁ = nodeId l₂ s₂) : s₁ = s₂ := by
  have hrest : ∀ {l s : String}, ':' ∉ l.toList →
      (nodeId l s).toList.dropWhile (· ≠ ':') = ':' :: s.toList := by
    intro l s hl
    rw [toList_nodeId, List.dropWhile_append_of_pos]
    · simp
    · intro c hc
      simpa using fun heq : c = ':' => hl (heq ▸ hc)
  have heq := (hrest (s := s₁) h₁).symm.trans ((congrArg _ (congrArg _ h)).trans (hrest h₂))
  exact String.toList_inj.mp (List.cons.inj heq).2

theorem beginId_ne_nodeId (label suffix : String) : beginId ≠ nodeId label suffix := by
  intro h
  have hmem : ':' ∈ beginId.toList := by
    rw [h, toList_nodeId]
    simp
  exact absurd hmem (by decide)

theorem not_known_nodeId {drawn : List String} {label suffix : String} (hlabel : ':' ∉ label.toList)
    (hsuffix : suffix ∉ drawn) : ¬ Known drawn (nodeId label suffix) := by
  rintro (hbegin | ⟨label', suffix', hlabel', hdrawn, heq⟩)
  · exact beginId_ne_nodeId label suffix hbegin.symm
  · exact hsuffix (suffix_eq_of_nodeId_eq hlabel hlabel' heq ▸ hdrawn)

theorem known_nodeId {drawn : List String} {label suffix : String} (hlabel : ':' ∉ label.toList)
    (hsuffix : suffix ∈ drawn) : Known drawn (nodeId label suffix) :=
  Or.inr ⟨label, suffix, hlabel, hsuffix, rfl⟩

theorem Known.of_subset {drawn more : List String} {id : String} (h : Known drawn id)
    (hsubset : drawn ⊆ more) : Known more id := by
  rcases h with hbegin | ⟨label, suffix, hlabel, hdrawn, heq⟩
  · exact Or.inl hbegin
  · exact Or.inr ⟨label, suffix, hlabel, hsubset hdrawn, heq⟩

theorem Known.mono {drawn more : List String} {id : String} (h : Known drawn id) :
    Known (drawn ++ more) id := h.of_subset (List.subset_append_left _ _)

theorem colon_not_mem_value (op : Operator) : ':' ∉ op.value.toList := by
  cases op <;> decide +kernel

theorem colon_not_mem_labelText (label : Option Operator) : ':' ∉ (labelText label).toList := by
  cases label with
  | none => decide
  | some op => exact colon_not_mem_value op

/-! ## Lists of nodes -/

theorem isStartIn_iff {start : Operator} {group : String} {x : Node} :
    x.isStartIn start group = true ↔ x.label = some start ∧ x.parentId = some group := by
  rw [Node.isStartIn, Bool.and_eq_true, decide_eq_true_eq, decide_eq_true_eq]

theorem startOf_eq_some {label : Option Operator} {start : Operator}
    (h : startOf label = some start) :
    label = some .iteration ∧ start = .iterationStart ∨
      label = some .loop ∧ start = .loopStart := by
  unfold startOf at h
  split at h
  · exact Or.inl ⟨rfl, (Option.some.inj h).symm⟩
  · exact Or.inr ⟨rfl, (Option.some.inj h).symm⟩
  · cases h

theorem startOf_eq_none {label : Option Operator} (hiteration : label ≠ some .iteration)
    (hloop : label ≠ some .loop) : startOf label = none := by
  rw [Option.eq_none_iff_forall_ne_some]
  intro start h
  rcases startOf_eq_some h with ⟨heq, -⟩ | ⟨heq, -⟩
  · exact hiteration heq
  · exact hloop heq

section Nodes

variable {nodes added : List Node} {drawn : List String}

/-- Adding nodes of which only new groups are in want of a start node. -/
theorem WellIdentified.append (h : WellIdentified nodes) (hnew : (added.map Node.id).Nodup)
    (hapart : ∀ n ∈ nodes, ∀ m ∈ added, n.id ≠ m.id)
    (hold : ∀ g ∈ nodes, ∀ x ∈ added, ¬ Starts x g)
    (hgroups : ∀ g ∈ added, ∀ start, startOf g.label = some start →
      nodes.countP (Node.isStartIn start g.id) = 0 ∧
        added.countP (Node.isStartIn start g.id) = 1) : WellIdentified (nodes ++ added) where
  ids := by
    rw [List.map_append, List.nodup_append]
    refine ⟨h.ids, hnew, fun a ha b hb => ?_⟩
    obtain ⟨n, hn, rfl⟩ := List.mem_map.mp ha
    obtain ⟨m, hm, rfl⟩ := List.mem_map.mp hb
    exact hapart n hn m hm
  starts g hg start hstart := by
    rw [List.countP_append]
    rcases List.mem_append.mp hg with hin | hin
    · have hnone : added.countP (Node.isStartIn start g.id) = 0 :=
        List.countP_eq_zero.mpr fun x hx hstarts => hold g hin x hx ⟨start, hstart, hstarts⟩
      rw [h.starts g hin start hstart, hnone]
    · obtain ⟨hnone, hone⟩ := hgroups g hin start hstart
      rw [hnone, hone]

/-- Adding a node that is no group and belongs to none as its start node. -/
theorem WellIdentified.append_singleton (h : WellIdentified nodes) {new : Node}
    (hapart : ∀ n ∈ nodes, n.id ≠ new.id) (hold : ∀ g ∈ nodes, ¬ Starts new g)
    (hnogroup : startOf new.label = none) : WellIdentified (nodes ++ [new]) := by
  refine h.append (List.nodup_singleton _) ?_ ?_ ?_
  · intro n hn m hm
    obtain rfl := List.mem_singleton.mp hm
    exact hapart n hn
  · intro g hg x hx
    obtain rfl := List.mem_singleton.mp hx
    exact hold g hg
  · intro g hg start hstart
    obtain rfl := List.mem_singleton.mp hg
    rw [hnogroup] at hstart
    cases hstart

/-- Adding a group together with its start node. -/
theorem WellIdentified.append_group (h : WellIdentified nodes) {group start : Node}
    (hlabel : start.label = startOf group.label) (hparent : start.parentId = some group.id)
    (hnogroup : startOf start.label = none) (hne : group.id ≠ start.id)
    (hgroup : ∀ n ∈ nodes, n.id ≠ group.id) (hstart : ∀ n ∈ nodes, n.id ≠ start.id)
    (hparents : ∀ n ∈ nodes, n.parentId ≠ some group.id) (hold : ∀ g ∈ nodes, ¬ Starts group g) :
    WellIdentified (nodes ++ [group, start]) := by
  refine h.append ?_ ?_ ?_ ?_
  · simpa using hne
  · intro n hn m hm
    rcases List.mem_pair.mp hm with rfl | rfl
    · exact hgroup n hn
    · exact hstart n hn
  · intro g hg x hx
    rcases List.mem_pair.mp hx with rfl | rfl
    · exact hold g hg
    · rintro ⟨kind, -, hstarts⟩
      have hid : some group.id = some g.id := hparent.symm.trans (isStartIn_iff.mp hstarts).2
      exact hgroup g hg (Option.some.inj hid).symm
  · intro g hg kind hkind
    rcases List.mem_pair.mp hg with rfl | rfl
    · have hnone : nodes.countP (Node.isStartIn kind g.id) = 0 :=
        List.countP_eq_zero.mpr fun x hx hstarts => hparents x hx (isStartIn_iff.mp hstarts).2
      have hself : ¬ g.isStartIn kind g.id = true := by
        intro hstarts
        have hsame : start.label = g.label :=
          (hlabel.trans hkind).trans (isStartIn_iff.mp hstarts).1.symm
        rw [hsame, hkind] at hnogroup
        cases hnogroup
      have hone : start.isStartIn kind g.id = true :=
        isStartIn_iff.mpr ⟨hlabel.trans hkind, hparent⟩
      refine ⟨hnone, ?_⟩
      rw [List.countP_cons_of_neg hself, List.countP_cons_of_pos hone, List.countP_nil]
    · rw [hnogroup] at hkind
      cases hkind

/-- Deleting nodes, start nodes together with their groups. -/
theorem WellIdentified.filter (h : WellIdentified nodes) {keep : Node → Bool}
    (hkeep : ∀ x ∈ nodes, ∀ g ∈ nodes, Starts x g → keep g = true → keep x = true) :
    WellIdentified (nodes.filter keep) where
  ids := h.ids.sublist (List.filter_sublist.map Node.id)
  starts g hg start hstart := by
    obtain ⟨hmem, hkept⟩ := List.mem_filter.mp hg
    rw [List.countP_filter, ← h.starts g hmem start hstart]
    refine List.countP_congr fun x hx => ?_
    rw [Bool.and_eq_true]
    exact ⟨And.left, fun hstarts => ⟨hstarts, hkeep x hx g hmem ⟨start, hstart, hstarts⟩ hkept⟩⟩

/-- The same node, as an object of its own perhaps. -/
structure SameNode (n m : Node) : Prop where
  id : n.id = m.id
  label : n.label = m.label
  parentId : n.parentId = m.parentId
  shared : n.shared = true → m.shared = true

theorem SameNode.refl (n : Node) : SameNode n n := ⟨rfl, rfl, rfl, fun h => h⟩

theorem sameNode_unshared (n : Node) : SameNode { n with shared := false } n :=
  ⟨rfl, rfl, rfl, by simp⟩

theorem WellIdentified.map (h : WellIdentified nodes) {f : Node → Node}
    (hf : ∀ n ∈ nodes, SameNode (f n) n) : WellIdentified (nodes.map f) where
  ids := by
    have hids : (nodes.map f).map Node.id = nodes.map Node.id := by
      rw [List.map_map]
      exact List.map_congr_left fun n hn => (hf n hn).id
    rw [hids]
    exact h.ids
  starts g hg start hstart := by
    obtain ⟨n, hn, rfl⟩ := List.mem_map.mp hg
    rw [(hf n hn).label] at hstart
    rw [(hf n hn).id, List.countP_map, ← h.starts n hn start hstart]
    refine List.countP_congr fun x hx => ?_
    simp only [Function.comp_apply, Node.isStartIn, (hf x hx).label, (hf x hx).parentId]

end Nodes

/-! ## Deletions -/

section Delete

variable {s : RFState} {id : String}

theorem eq_of_id_eq (h : WellIdentified s.nodes) {n m : Node} (hn : n ∈ s.nodes) (hm : m ∈ s.nodes)
    (hid : n.id = m.id) : n = m :=
  List.inj_on_of_nodup_map h.ids hn hm hid

theorem getNode_eq_some (h : WellIdentified s.nodes) {n : Node} (hn : n ∈ s.nodes) :
    s.getNode n.id = some n := by
  have hsome : (s.getNode n.id).isSome := by
    rw [RFState.getNode, List.find?_isSome]
    exact ⟨n, hn, by simp⟩
  obtain ⟨m, hm⟩ := Option.isSome_iff_exists.mp hsome
  have hid : m.id = n.id := by simpa using List.find?_some hm
  rw [hm, eq_of_id_eq h (List.mem_of_find?_eq_some hm) hn hid]

theorem mem_of_getNode {n : Node} (h : s.getNode id = some n) : n ∈ s.nodes ∧ n.id = id :=
  ⟨List.mem_of_find?_eq_some h, by simpa using List.find?_some h⟩

/-- `deleteNodeById` deletes what it is to delete, or nothing where the recursion does not
end. -/
theorem deleteNodeById_nodes (s : RFState) (id : String) :
    ∃ keep : Node → Bool, (s.deleteNodeById id).nodes = s.nodes.filter keep ∧
      ((∀ x, keep x = true) ∨ ∀ x, keep x = true ↔ ¬ DeletedBy s id x) := by
  rw [RFState.deleteNodeById]
  split_ifs with hagent
  · rw [RFState.deleteAgentDownstreamNodesById]
    split
    · exact ⟨fun _ => true, (List.filter_true s.nodes).symm, Or.inl fun _ => rfl⟩
    case h_2 ids collected hcollected =>
      refine ⟨_, rfl, Or.inr fun x => ?_⟩
      simp only [Bool.and_eq_true, Bool.not_eq_true', List.any_eq_false, decide_eq_true_eq,
        DeletedBy, hagent, true_and, not_or, ← mem_deleteAllDownstream_ids hcollected]
      constructor
      · rintro ⟨hnot, hne⟩
        exact ⟨hne, fun hx => hnot x.id hx rfl⟩
      · rintro ⟨hne, hnot⟩
        exact ⟨fun y hy heq => hnot (heq ▸ hy), hne⟩
  · refine ⟨_, rfl, Or.inr fun x => ?_⟩
    simp [DeletedBy, hagent]

theorem WellIdentified.deleteNodeById (h : WellIdentified s.nodes)
    (hstarts : StartsGoTogether s (DeletedBy s id)) :
    WellIdentified (s.deleteNodeById id).nodes := by
  obtain ⟨keep, hnodes, hall | hkeep⟩ := deleteNodeById_nodes s id
  · rw [hnodes]
    exact h.filter fun x _ _ _ _ _ => hall x
  · rw [hnodes]
    refine h.filter fun x hx g hg hxg hkept => ?_
    exact (hkeep x).mpr fun hgone => (hkeep g).mp hkept (hstarts x hx g hg hxg hgone)

theorem WellIdentified.deleteIterationNodeById (h : WellIdentified s.nodes)
    (hstarts : ∀ x ∈ s.nodes, ∀ g ∈ s.nodes, Starts x g → x.id = id →
      g.id = id ∨ g.parentId = some id) : WellIdentified (s.deleteIterationNodeById id).nodes := by
  refine h.filter fun x hx g hg hxg hkept => ?_
  simp only [Bool.and_eq_true, decide_eq_true_eq] at hkept ⊢
  constructor
  · intro hid
    rcases hstarts x hx g hg hxg hid with hgroup | hparent
    · exact hkept.1 hgroup
    · exact hkept.2 hparent
  · intro hparent
    obtain ⟨start, -, hstart⟩ := hxg
    rw [Node.isStartIn, Bool.and_eq_true, decide_eq_true_eq, decide_eq_true_eq] at hstart
    exact hkept.1 (Option.some.inj (hstart.2.symm.trans hparent))

/-! ### What is selected -/

theorem any_pushNode {pre : List Node} {x : Node} (hx : s.getNode x.id = some x) (id : String) :
    (pushNode s pre id).any (·.id = x.id) = true ↔ pre.any (·.id = x.id) = true ∨ x.id = id := by
  rw [pushNode]
  by_cases hid : x.id = id
  · subst hid
    rw [hx]
    dsimp only
    split_ifs with hall
    · simp
    · simpa using hall
  · cases hcurrent : s.getNode id with
    | none => simp [hid]
    | some currentNode =>
        have hne : currentNode.id ≠ x.id := by
          rw [(mem_of_getNode hcurrent).2]
          exact Ne.symm hid
        dsimp only
        split_ifs <;> simp [hid, hne]

/-- The nodes below an agent are added. -/
theorem any_pushNodes {pre : List Node} {ids : List String} {x : Node}
    (hx : s.getNode x.id = some x) :
    (ids.foldl (pushNode s) pre).any (·.id = x.id) = true ↔
      pre.any (·.id = x.id) = true ∨ x.id ∈ ids := by
  induction ids generalizing pre with
  | nil => simp
  | cons id ids ih => rw [List.foldl_cons, ih, any_pushNode hx, List.mem_cons, or_assoc]

/-- Which nodes the key deletes. -/
theorem handleBeforeDelete_nodes {nodes deleted : List Node} {edges deletedEdges : List Edge}
    (h : handleBeforeDelete s nodes edges = some (deleted, deletedEdges)) {x : Node}
    (hx : s.getNode x.id = some x) :
    deleted.any (·.id = x.id) = true ↔ (toBeDeletedNodes nodes).any (·.id = x.id) = true ∨
      ∃ node ∈ nodes, (s.getNode node.id).bind Node.label = some .agent ∧
        Below edges node.id x.id := by
  rw [handleBeforeDelete] at h
  generalize toBeDeletedEdges s nodes edges = startEdges at h
  generalize toBeDeletedNodes nodes = start at h ⊢
  have hagents : (∃ node ∈ nodes, (s.getNode node.id).bind Node.label = some .agent ∧
      Below edges node.id x.id) ↔
      ∃ node ∈ nodes.filter fun node => (s.getNode node.id).bind Node.label = some .agent,
        Below edges node.id x.id := by
    simp [and_assoc]
  rw [hagents]
  clear hagents
  generalize (nodes.filter fun node => (s.getNode node.id).bind Node.label = some .agent) = agents
    at h ⊢
  induction agents generalizing start startEdges with
  | nil =>
      obtain ⟨rfl, -⟩ := Prod.mk.inj (Option.some.inj h)
      simp
  | cons agent agents ih =>
      rw [List.foldlM_cons] at h
      cases hbelow : deleteAllDownstreamAgentsAndTool agent.id edges with
      | none => simp [hbelow] at h
      | some found =>
          rw [hbelow] at h
          refine (ih _ _ h).trans ?_
          rw [any_pushNodes hx, mem_deleteAllDownstream_ids hbelow, List.exists_mem_cons_iff,
            or_assoc]

variable {ids : List String} {edges : List Edge} {x g : Node}

theorem mem_selected (h : WellIdentified s.nodes) :
    x ∈ ids.filterMap s.getNode ↔ x ∈ s.nodes ∧ x.id ∈ ids := by
  rw [List.mem_filterMap]
  constructor
  · rintro ⟨id, hid, hnode⟩
    obtain ⟨hx, rfl⟩ := mem_of_getNode hnode
    exact ⟨hx, hid⟩
  · rintro ⟨hx, hid⟩
    exact ⟨x.id, hid, getNode_eq_some h hx⟩

theorem belowSelected_iff (h : WellIdentified s.nodes) :
    (∃ node ∈ ids.filterMap s.getNode,
      (s.getNode node.id).bind Node.label = some .agent ∧ Below edges node.id x.id) ↔
      BelowSelected s ids edges x := by
  constructor
  · rintro ⟨node, hnode, hagent, hbelow⟩
    exact ⟨node.id, ((mem_selected h).mp hnode).2, hagent, hbelow⟩
  · rintro ⟨id, hid, hagent, hbelow⟩
    obtain ⟨node, hnode, -⟩ := Option.bind_eq_some_iff.mp hagent
    obtain ⟨hin, rfl⟩ := mem_of_getNode hnode
    exact ⟨node, (mem_selected h).mpr ⟨hin, hid⟩, hagent, hbelow⟩

/-- A group that is selected is deleted. -/
theorem group_toBeDeleted (h : WellIdentified s.nodes) (hg : g ∈ s.nodes) (hxg : Starts x g)
    (hid : g.id ∈ ids) :
    (toBeDeletedNodes (ids.filterMap s.getNode)).any (·.id = g.id) = true := by
  obtain ⟨start, hstart, -⟩ := hxg
  refine List.any_eq_true.mpr
    ⟨g, List.mem_filter.mpr ⟨(mem_selected h).mpr ⟨hg, hid⟩, ?_⟩, by simp⟩
  rcases startOf_eq_some hstart with ⟨hlabel, -⟩ | ⟨hlabel, -⟩ <;> simp [hlabel]

/-- The start node of an iteration is spared unless the iteration is selected; for the start node
of a loop nothing is done. -/
theorem start_toBeDeleted (h : WellIdentified s.nodes) (hx : x ∈ s.nodes) (hxg : Starts x g)
    (hdeleted : (toBeDeletedNodes (ids.filterMap s.getNode)).any (·.id = x.id) = true) :
    g.id ∈ ids ∨ x.label = some .loopStart ∧ x.id ∈ ids := by
  obtain ⟨start, hstart, hxstart⟩ := hxg
  obtain ⟨hxlabel, hxparent⟩ := isStartIn_iff.mp hxstart
  obtain ⟨y, hy, hyid⟩ := List.any_eq_true.mp hdeleted
  obtain ⟨hyselected, hykept⟩ := List.mem_filter.mp hy
  obtain ⟨hymem, hyids⟩ := (mem_selected h).mp hyselected
  obtain rfl : y = x := eq_of_id_eq h hymem hx (of_decide_eq_true hyid)
  rcases startOf_eq_some hstart with ⟨-, rfl⟩ | ⟨-, rfl⟩
  · have hparent : (ids.filterMap s.getNode).any (fun z => some z.id = y.parentId) = true := by
      by_contra hnone
      rw [Bool.not_eq_true] at hnone
      rw [hxlabel, hnone] at hykept
      exact absurd hykept (by decide)
    obtain ⟨z, hz, hzid⟩ := List.any_eq_true.mp hparent
    have hzg : z.id = g.id := Option.some.inj ((of_decide_eq_true hzid).trans hxparent)
    exact Or.inl (hzg ▸ ((mem_selected h).mp hz).2)
  · exact Or.inr ⟨hxlabel, hyids⟩

theorem WellIdentified.deleteElements (h : WellIdentified s.nodes)
    (hstarts : ∀ x ∈ s.nodes, ∀ g ∈ s.nodes, Starts x g →
      x.label = some .loopStart ∧ x.id ∈ ids ∨ BelowSelected s ids edges x →
        g.id ∈ ids ∨ BelowSelected s ids edges g) :
    WellIdentified (deleteElements s (ids.filterMap s.getNode) edges).nodes := by
  rw [RagFlow.Editor.deleteElements]
  split
  · exact h
  case h_2 deleted deletedEdges hdelete =>
    refine WellIdentified.map (h.filter fun x hx g hg hxg hkept => ?_)
      fun n _ => sameNode_unshared n
    have hgone : ∀ y ∈ s.nodes, deleted.any (·.id = y.id) = true ↔
        (toBeDeletedNodes (ids.filterMap s.getNode)).any (·.id = y.id) = true ∨
          BelowSelected s ids edges y := by
      intro y hy
      rw [handleBeforeDelete_nodes hdelete (getNode_eq_some h hy), belowSelected_iff h]
    by_contra hxgone
    have hxany : deleted.any (·.id = x.id) = true := by simpa using hxgone
    have hgnone : ¬ deleted.any (·.id = g.id) = true := by simpa using hkept
    rw [hgone g hg] at hgnone
    refine hgnone (Or.imp_left (group_toBeDeleted h hg hxg) ?_)
    rcases (hgone x hx).mp hxany with hdirect | hbelow
    · rcases start_toBeDeleted h hx hxg hdirect with hid | hselected
      · exact Or.inl hid
      · exact hstarts x hx g hg hxg (Or.inl hselected)
    · exact hstarts x hx g hg hxg (Or.inr hbelow)

end Delete

/-- A node that was there, or a new one whose ids are known. -/
theorem Tracked.of_nodes {s t : EditorState} (hs : Tracked s)
    (hiteration : t.iterationStartId = s.iterationStartId) (hloop : t.loopStartId = s.loopStartId)
    {more : List String} (hdrawn : t.drawn = s.drawn ++ more)
    (hnodes : ∀ n ∈ t.store.nodes, (∃ m ∈ s.store.nodes, SameNode n m) ∨
      Known t.drawn n.id ∧ (∀ p, n.parentId = some p → Known t.drawn p) ∧
        (n.shared = true → n.label = some .iterationStart ∧ n.id = s.iterationStartId ∨
          n.label = some .loopStart ∧ n.id = s.loopStartId)) : Tracked t where
  ids n hn := by
    rcases hnodes n hn with ⟨m, hm, hsame⟩ | ⟨hknown, -, -⟩
    · rw [hsame.id, hdrawn]
      exact (hs.ids m hm).mono
    · exact hknown
  parents n hn p hp := by
    rcases hnodes n hn with ⟨m, hm, hsame⟩ | ⟨-, hknown, -⟩
    · rw [hdrawn]
      exact (hs.parents m hm p (hsame.parentId ▸ hp)).mono
    · exact hknown p hp
  iterationStart := by
    rw [hiteration, hdrawn]
    exact hs.iterationStart.mono
  loopStart := by
    rw [hloop, hdrawn]
    exact hs.loopStart.mono
  shared n hn hshared := by
    rw [hiteration, hloop]
    rcases hnodes n hn with ⟨m, hm, hsame⟩ | ⟨-, -, hid⟩
    · rw [hsame.id, hsame.label]
      exact hs.shared m hm (hsame.shared hshared)
    · exact hid hshared

/-! ## Copies and new nodes -/

section Create

variable {s : EditorState} {humanId : ℕ → String} {addEdge : Connection → List Edge → List Edge}

/-- A new id is neither that of a node nor that of a parent. -/
theorem Tracked.fresh (ht : Tracked s) (hfresh : ∀ i, humanId i ∉ s.drawn) {label : String}
    (hlabel : ':' ∉ label.toList) (i : ℕ) :
    (∀ n ∈ s.store.nodes, n.id ≠ nodeId label (humanId i)) ∧
      ∀ n ∈ s.store.nodes, n.parentId ≠ some (nodeId label (humanId i)) := by
  have hnew := not_known_nodeId hlabel (hfresh i)
  exact ⟨fun n hn heq => hnew (heq ▸ ht.ids n hn), fun n hn heq => hnew (ht.parents n hn _ heq)⟩

theorem countP_mapIdx {α β : Type*} {f : ℕ → α → β} {p : β → Bool} {q : α → Bool}
    (h : ∀ i x, p (f i x) = q x) (l : List α) : (l.mapIdx f).countP p = l.countP q := by
  rw [List.mapIdx_eq_zipIdx_map, List.countP_map]
  have hq : (p ∘ fun x : α × ℕ => f x.2 x.1) = q ∘ Prod.fst := funext fun x => h x.2 x.1
  rw [hq, ← List.countP_map, List.zipIdx_map_fst]

theorem nodup_mapIdx_nodeId (hinj : Function.Injective humanId) {f : ℕ → Node → Node}
    {label : Node → String} (hlabel : ∀ x, ':' ∉ (label x).toList)
    (hf : ∀ i x, (f i x).id = nodeId (label x) (humanId (i + 1))) (l : List Node) :
    ((l.mapIdx f).map Node.id).Nodup := by
  rw [List.Nodup, List.pairwise_iff_getElem]
  intro i j hi hj hlt heq
  simp only [List.getElem_map, List.getElem_mapIdx, hf] at heq
  have := hinj (suffix_eq_of_nodeId_eq (hlabel _) (hlabel _) heq)
  omega

theorem not_starts_of_label {x g : Node} (hx : x.label ≠ some .iterationStart)
    (hx' : x.label ≠ some .loopStart) : ¬ Starts x g := by
  rintro ⟨start, hstart, hxg⟩
  rcases startOf_eq_some hstart with ⟨-, rfl⟩ | ⟨-, rfl⟩
  · exact hx (isStartIn_iff.mp hxg).1
  · exact hx' (isStartIn_iff.mp hxg).1

theorem WellIdentified.duplicateIterationNode (h : WellIdentified s.store.nodes) (ht : Tracked s)
    (hinj : Function.Injective humanId) (hfresh : ∀ i, humanId i ∉ s.drawn) {node : Node}
    (hnode : node ∈ s.store.nodes) (hlabel : node.label = some .iteration)
    (hchildren : ∀ child ∈ s.store.nodes, child.parentId = some node.id →
      startOf child.label = none) :
    WellIdentified (s.store.duplicateIterationNode node humanId).nodes := by
  have hnew := ht.fresh hfresh (colon_not_mem_labelText node.label) 0
  refine h.append ?_ ?_ ?_ ?_
  · rw [List.map_cons, List.nodup_cons]
    refine ⟨fun hmem => ?_, nodup_mapIdx_nodeId hinj (fun x => colon_not_mem_labelText x.label)
      (fun _ _ => rfl) _⟩
    obtain ⟨copy, hcopy, heq⟩ := List.mem_map.mp hmem
    obtain ⟨i, hi, rfl⟩ := List.mem_mapIdx.mp hcopy
    have := hinj
      (suffix_eq_of_nodeId_eq (colon_not_mem_labelText _) (colon_not_mem_labelText _) heq)
    omega
  · intro n hn m hm
    rcases List.mem_cons.mp hm with rfl | hcopy
    · exact hnew.1 n hn
    · obtain ⟨i, hi, rfl⟩ := List.mem_mapIdx.mp hcopy
      exact (ht.fresh hfresh (colon_not_mem_labelText _) (i + 1)).1 n hn
  · intro g hg m hm
    rcases List.mem_cons.mp hm with rfl | hcopy
    · exact not_starts_of_label (by simp [hlabel]) (by simp [hlabel])
    · obtain ⟨i, hi, rfl⟩ := List.mem_mapIdx.mp hcopy
      rintro ⟨start, -, hstarts⟩
      exact hnew.1 g hg (Option.some.inj (isStartIn_iff.mp hstarts).2).symm
  · intro g hg start hstart
    rcases List.mem_cons.mp hg with rfl | hcopy
    · have hstart' : startOf node.label = some start := hstart
      constructor
      · refine List.countP_eq_zero.mpr fun x hx hstarts => ?_
        exact hnew.2 x hx (isStartIn_iff.mp hstarts).2
      · rw [List.countP_cons, if_neg, Nat.add_zero,
          countP_mapIdx (q := fun x => x.label = some start), List.countP_filter,
          ← h.starts node hnode start hstart']
        · rfl
        · intro i x
          simp [Node.isStartIn]
        · intro hstarts
          exact not_starts_of_label (by simp [hlabel]) (by simp [hlabel])
            ⟨start, hstart, hstarts⟩
    · obtain ⟨i, hi, rfl⟩ := List.mem_mapIdx.mp hcopy
      have hchild := List.getElem_mem hi
      obtain ⟨hmem, hparent⟩ := List.mem_filter.mp hchild
      have hnone := hchildren _ hmem (by simpa using hparent)
      rw [hnone] at hstart
      cases hstart

theorem WellIdentified.duplicateNode (h : WellIdentified s.store.nodes) (ht : Tracked s)
    (hinj : Function.Injective humanId) (hfresh : ∀ i, humanId i ∉ s.drawn) {id : String}
    (hsafe : (EditorOp.duplicateNode id).Safe s) :
    WellIdentified (s.store.duplicateNode id humanId).nodes := by
  rw [RFState.duplicateNode]
  split
  · refine h.append_singleton ?_ (fun g _ => ?_) rfl
    · exact (ht.fresh hfresh (by decide) 0).1
    · exact not_starts_of_label (by simp) (by simp)
  case h_2 node hnode =>
    obtain ⟨hloop, hstarts, hiteration⟩ := hsafe node hnode
    have hmem := (mem_of_getNode hnode).1
    split_ifs with hlabel
    · exact h.duplicateIterationNode ht hinj hfresh hmem hlabel (hiteration hlabel)
    · refine h.append_singleton ?_ hstarts (startOf_eq_none hlabel hloop)
      exact (ht.fresh hfresh (colon_not_mem_labelText node.label) 0).1

/-! ### New nodes -/

/-- The group is resized through a copy of itself. -/
theorem resizeIterationNode_nodes {s : RFState} (h : WellIdentified s.nodes) (parentId : String) :
    ∃ f : Node → Node, (∀ n ∈ s.nodes, SameNode (f n) n) ∧
      (resizeIterationNode s parentId).nodes = s.nodes.map f := by
  rw [resizeIterationNode]
  split
  · exact ⟨id, fun n _ => .refl n, (List.map_id _).symm⟩
  case h_2 parentNode hparent =>
    refine ⟨_, fun n hn => ?_, rfl⟩
    split_ifs with hid
    · rw [eq_of_id_eq h hn (mem_of_getNode hparent).1 hid]
      exact sameNode_unshared parentNode
    · exact .refl n

theorem addToolNode_nodes (s : RFState) (newNode : Node) (source : Option String) :
    (addToolNode addEdge s newNode source).nodes = s.nodes ∨
      (addToolNode addEdge s newNode source).nodes = s.nodes ++ [newNode] := by
  unfold addToolNode
  split
  · dsimp only
    split_ifs
    · exact Or.inl rfl
    · split <;> exact Or.inr rfl
  · exact Or.inl rfl

theorem addChildEdge_nodes (s : RFState) (position : Position) (source : Option String)
    (target : String) (sourceHandle : Option String) :
    (addChildEdge addEdge s position source target sourceHandle).nodes = s.nodes := by
  unfold addChildEdge
  split
  · split_ifs <;> rfl
  · rfl

theorem addGroupNode_nodes (s : EditorState) (type : Operator) (newNode : Node)
    (source : Option String) :
    (addGroupNode addEdge s type newNode source).nodes =
      setSharedParent s.store.nodes (startOf (some type)) newNode.id ++
        [newNode, { id := s.startId type
                    label := startOf (some type)
                    parentId := some newNode.id
                    shared := true }] := by
  unfold addGroupNode
  dsimp only
  split <;> simp [RFState.addNode, connectTo]

theorem resizeParent_nodes {s : RFState} (h : WellIdentified s.nodes) (type : Operator)
    (position : Position) (grows : Bool) (parentId : Option String) :
    ∃ f : Node → Node, (∀ n ∈ s.nodes, SameNode (f n) n) ∧
      (resizeParent s type position grows parentId).nodes = s.nodes.map f := by
  cases parentId with
  | none => exact ⟨id, fun n _ => .refl n, (List.map_id _).symm⟩
  | some parentId =>
      rw [resizeParent]
      split_ifs
      · exact resizeIterationNode_nodes h parentId
      · exact ⟨id, fun n _ => .refl n, (List.map_id _).symm⟩

/-- A node that is not a group is added alone, or it is a tool that the agent has already. -/
theorem placeNode_nodes (addEdge : Connection → List Edge → List Edge) {type : Operator}
    (hiteration : type ≠ .iteration) (hloop : type ≠ .loop) (s : EditorState) (params : AddParams)
    (newNode : Node) :
    (placeNode addEdge s type params newNode).nodes = s.store.nodes ∨
      (placeNode addEdge s type params newNode).nodes = s.store.nodes ++ [newNode] := by
  rw [placeNode, if_neg (not_or.mpr ⟨hiteration, hloop⟩)]
  split_ifs
  · split <;> exact Or.inr rfl
  · exact addToolNode_nodes s.store newNode params.nodeId
  · exact Or.inr (addChildEdge_nodes _ _ _ _ _)

/-- Where the module's start node is not in use, writing into it changes no entry. -/
theorem setSharedParent_eq {nodes : List Node} {type : Operator} (ht : Tracked s)
    (htype : type = .iteration ∨ type = .loop)
    (hunused : ∀ n ∈ s.store.nodes, n.id ≠ s.startId type)
    (hnodes : ∀ n ∈ nodes, ∃ m ∈ s.store.nodes, SameNode n m) (parentId : String) :
    setSharedParent nodes (startOf (some type)) parentId = nodes := by
  refine (List.map_congr_left fun n hn => ?_).trans (List.map_id nodes)
  obtain ⟨m, hm, hsame⟩ := hnodes n hn
  refine if_neg fun hshared => ?_
  rw [Bool.and_eq_true, decide_eq_true_eq] at hshared
  have hlabel : m.label = startOf (some type) := hsame.label ▸ hshared.2
  have hid := hunused m hm
  rcases ht.shared m hm (hsame.shared hshared.1) with ⟨hkind, heq⟩ | ⟨hkind, heq⟩
  · rcases htype with rfl | rfl
    · exact hid heq
    · exact absurd (hkind.symm.trans hlabel) (by decide)
  · rcases htype with rfl | rfl
    · exact absurd (hkind.symm.trans hlabel) (by decide)
    · exact hid heq

theorem known_startId (ht : Tracked s) (type : Operator) : Known s.drawn (s.startId type) := by
  rw [EditorState.startId]
  split_ifs
  · exact ht.iterationStart
  · exact ht.loopStart

theorem mem_of_map_sameNode {nodes : List Node} {f : Node → Node}
    (hf : ∀ n ∈ nodes, SameNode (f n) n) : ∀ n ∈ nodes.map f, ∃ m ∈ nodes, SameNode n m := by
  intro n hn
  obtain ⟨m, hm, rfl⟩ := List.mem_map.mp hn
  exact ⟨m, hm, hf m hm⟩

/-- The nodes after a safe `addCanvasNode`: those from before, and perhaps the new one, with the
start node if it is a group. -/
theorem addCanvasNode_nodes (addEdge : Connection → List Edge → List Edge)
    (h : WellIdentified s.store.nodes) (ht : Tracked s) (type : Operator) (params : AddParams)
    (grows : Bool) (humanId : ℕ → String)
    (hunused : type = .iteration ∨ type = .loop → ∀ n ∈ s.store.nodes, n.id ≠ s.startId type) :
    ∃ f : Node → Node, (∀ n ∈ s.store.nodes, SameNode (f n) n) ∧ ∃ added,
      (addCanvasNode addEdge s type params grows humanId).store.nodes =
        s.store.nodes.map f ++ added ∧
      let new := newCanvasNode s.store type params.nodeId (humanId 0)
      ((type = .iteration ∨ type = .loop) ∧
          added = [new, { id := s.startId type
                          label := startOf (some type)
                          parentId := some new.id
                          shared := true }] ∨
        (type ≠ .iteration ∧ type ≠ .loop) ∧ (added = [] ∨ added = [new])) := by
  obtain ⟨f, hf, hbase⟩ := resizeParent_nodes h type params.position grows
    (newCanvasNode s.store type params.nodeId (humanId 0)).parentId
  refine ⟨f, hf, ?_⟩
  rw [addCanvasNode]
  by_cases htype : type = .iteration ∨ type = .loop
  · refine ⟨_, ?_, Or.inl ⟨htype, rfl⟩⟩
    dsimp only
    rw [placeNode, if_pos htype, addGroupNode_nodes]
    dsimp only
    rw [hbase, setSharedParent_eq ht htype (hunused htype) (mem_of_map_sameNode hf)]
    rfl
  · obtain ⟨hiteration, hloop⟩ := not_or.mp htype
    dsimp only
    rcases placeNode_nodes addEdge hiteration hloop
      { s with store := resizeParent s.store type params.position grows
                (newCanvasNode s.store type params.nodeId (humanId 0)).parentId } params
      (newCanvasNode s.store type params.nodeId (humanId 0)) with hnone | hone
    · refine ⟨[], ?_, Or.inr ⟨⟨hiteration, hloop⟩, Or.inl rfl⟩⟩
      rw [hnone, List.append_nil]
      exact hbase
    · refine ⟨_, ?_, Or.inr ⟨⟨hiteration, hloop⟩, Or.inr rfl⟩⟩
      rw [hone]
      exact congrArg (· ++ _) hbase

/-- The parent of a new node is that of its source node. -/
theorem source_of_parentId {s : RFState} {type : Operator} {source : Option String}
    {suffix parent : String}
    (h : (newCanvasNode s type source suffix).parentId = some parent) :
    ∃ node, source.bind s.getNode = some node ∧ node.parentId = some parent := by
  have hfilter := Option.filter_eq_some_iff.mp h
  exact Option.bind_eq_some_iff.mp hfilter.1

theorem WellIdentified.addCanvasNode (h : WellIdentified s.store.nodes) (ht : Tracked s)
    (hfresh : ∀ i, humanId i ∉ s.drawn) {type : Operator} {params : AddParams} {grows : Bool}
    (hsafe : (EditorOp.addCanvasNode type params grows).Safe s) :
    WellIdentified (addCanvasNode addEdge s type params grows humanId).store.nodes := by
  obtain ⟨f, hf, added, hnodes, hadded⟩ :=
    addCanvasNode_nodes addEdge h ht type params grows humanId hsafe.1
  have hnew := ht.fresh hfresh (colon_not_mem_value type) 0
  have hbase := h.map hf
  have hmem := mem_of_map_sameNode hf
  have hnotstart : ∀ g ∈ s.store.nodes.map f,
      ¬ Starts (newCanvasNode s.store type params.nodeId (humanId 0)) g := by
    rintro g hg ⟨start, hstart, hxg⟩
    obtain ⟨m, hm, hsame⟩ := hmem g hg
    obtain ⟨hlabel, hparent⟩ := isStartIn_iff.mp hxg
    obtain rfl := Option.some.inj hlabel
    obtain ⟨node, hnode, hnodeparent⟩ := source_of_parentId hparent
    refine hsafe.2 m hm (hsame.label ▸ hstart) node hnode ?_
    rw [hnodeparent, hsame.id]
  rw [hnodes]
  rcases hadded with ⟨htype, rfl⟩ | ⟨⟨hiteration, hloop⟩, rfl | rfl⟩
  · refine hbase.append_group rfl rfl ?_ ?_ ?_ ?_ ?_ hnotstart
    · rcases htype with rfl | rfl <;> rfl
    · intro heq
      have hid : nodeId type.value (humanId 0) = s.startId type := heq
      exact not_known_nodeId (colon_not_mem_value type) (hfresh 0) (hid ▸ known_startId ht type)
    · intro n hn
      obtain ⟨m, hm, hsame⟩ := hmem n hn
      exact hsame.id ▸ hnew.1 m hm
    · intro n hn
      obtain ⟨m, hm, hsame⟩ := hmem n hn
      exact hsame.id ▸ hsafe.1 htype m hm
    · intro n hn
      obtain ⟨m, hm, hsame⟩ := hmem n hn
      exact hsame.parentId ▸ hnew.2 m hm
  · rwa [List.append_nil]
  · refine hbase.append_singleton (fun n hn => ?_) hnotstart ?_
    · obtain ⟨m, hm, hsame⟩ := hmem n hn
      exact hsame.id ▸ hnew.1 m hm
    · refine startOf_eq_none (fun heq => hiteration ?_) fun heq => hloop ?_
      · exact Option.some.inj heq
      · exact Option.some.inj heq

end Create

/-! ## Where the ids come from -/

section Track

variable {s t : EditorState} {addEdge : Connection → List Edge → List Edge}
  {humanId : ℕ → String}

/-- Deletions leave nodes that were there. -/
theorem Tracked.withStore (hs : Tracked s) {store : RFState}
    (h : ∀ n ∈ store.nodes, ∃ m ∈ s.store.nodes, SameNode n m) : Tracked (s.withStore store) :=
  hs.of_nodes rfl rfl (List.append_nil _).symm fun n hn => Or.inl (h n hn)

theorem deleteNodeById_subset {s : RFState} {id : String} :
    ∀ n ∈ (s.deleteNodeById id).nodes, n ∈ s.nodes := by
  obtain ⟨keep, hnodes, -⟩ := deleteNodeById_nodes s id
  intro n hn
  rw [hnodes] at hn
  exact (List.mem_filter.mp hn).1

theorem deleteAgentToolNodeById_subset {s : RFState} {id : String} :
    ∀ n ∈ (s.deleteAgentToolNodeById id).nodes, n ∈ s.nodes := by
  intro n hn
  rw [RFState.deleteAgentToolNodeById] at hn
  split at hn
  · exact hn
  case h_2 edge _ => exact deleteNodeById_subset (s := s.deleteEdgeById edge.id) n hn

theorem deleteElements_sameNode {s : RFState} {nodes : List Node} {edges : List Edge} :
    ∀ n ∈ (deleteElements s nodes edges).nodes, ∃ m ∈ s.nodes, SameNode n m := by
  intro n hn
  rw [deleteElements] at hn
  split at hn
  · exact ⟨n, hn, .refl n⟩
  · obtain ⟨m, hm, rfl⟩ := List.mem_map.mp hn
    exact ⟨m, (List.mem_filter.mp hm).1, sameNode_unshared m⟩

/-- Copies are objects of their own, with ids and parents that were there or are drawn now. -/
theorem duplicateNode_nodes (s : RFState) (id : String) (humanId : ℕ → String) :
    ∃ added, (s.duplicateNode id humanId).nodes = s.nodes ++ added ∧ ∀ n ∈ added,
      n.shared = false ∧ Known ((List.range (duplicateDraws s id)).map humanId) n.id ∧
      ∀ p, n.parentId = some p → (∃ m ∈ s.nodes, m.parentId = some p) ∨
        Known ((List.range (duplicateDraws s id)).map humanId) p := by
  have hdrawn : ∀ {i}, i < duplicateDraws s id →
      humanId i ∈ (List.range (duplicateDraws s id)).map humanId := fun hi =>
    List.mem_map_of_mem (List.mem_range.mpr hi)
  unfold RFState.duplicateNode duplicateDraws at *
  cases hnode : s.getNode id with
  | none =>
      simp only [hnode] at hdrawn
      refine ⟨_, rfl, fun n hn => ?_⟩
      obtain rfl := List.mem_singleton.mp hn
      exact ⟨rfl, known_nodeId (by decide) (hdrawn Nat.one_pos), by simp⟩
  | some node =>
      simp only [hnode] at hdrawn ⊢
      have hmem := (mem_of_getNode hnode).1
      split_ifs at hdrawn ⊢ with hlabel
      · refine ⟨_, rfl, fun n hn => ?_⟩
        have hgroup := known_nodeId (colon_not_mem_labelText node.label)
          (hdrawn (Nat.succ_pos _))
        rcases List.mem_cons.mp hn with rfl | hcopy
        · exact ⟨rfl, hgroup, fun p hp => Or.inl ⟨node, hmem, hp⟩⟩
        · obtain ⟨i, hi, rfl⟩ := List.mem_mapIdx.mp hcopy
          refine ⟨rfl, ?_, ?_⟩
          · exact known_nodeId (colon_not_mem_labelText _) (hdrawn (Nat.succ_lt_succ hi))
          · rintro p ⟨⟩
            exact Or.inr hgroup
      · refine ⟨_, rfl, fun n hn => ?_⟩
        obtain rfl := List.mem_singleton.mp hn
        exact ⟨rfl, known_nodeId (colon_not_mem_labelText _) (hdrawn Nat.one_pos),
          fun p hp => Or.inl ⟨node, hmem, hp⟩⟩

theorem Tracked.duplicateNode (hs : Tracked s) (id : String) :
    Tracked ((EditorOp.duplicateNode id).apply addEdge humanId s) := by
  obtain ⟨added, hnodes, hadded⟩ := duplicateNode_nodes s.store id humanId
  have hlater : ∀ {x}, Known ((List.range (duplicateDraws s.store id)).map humanId) x →
      Known (s.drawn ++ (List.range (duplicateDraws s.store id)).map humanId) x := fun h =>
    h.of_subset (List.subset_append_right _ _)
  refine hs.of_nodes rfl rfl rfl fun n hn => ?_
  have hn' : n ∈ s.store.nodes ++ added := hnodes ▸ hn
  rcases List.mem_append.mp hn' with hold | hnew
  · exact Or.inl ⟨n, hold, .refl n⟩
  · obtain ⟨hshared, hid, hparents⟩ := hadded n hnew
    refine Or.inr ⟨hlater hid, fun p hp => ?_, fun h => ?_⟩
    · rcases hparents p hp with ⟨m, hm, hparent⟩ | hparent
      · exact (hs.parents m hm p hparent).mono
      · exact hlater hparent
    · rw [hshared] at h
      cases h

theorem Tracked.addCanvasNode (hs : Tracked s) (h : WellIdentified s.store.nodes) {type : Operator}
    {params : AddParams} {grows : Bool}
    (hsafe : (EditorOp.addCanvasNode type params grows).Safe s) :
    Tracked (addCanvasNode addEdge s type params grows humanId) := by
  obtain ⟨f, hf, added, hnodes, hadded⟩ :=
    addCanvasNode_nodes addEdge h hs type params grows humanId hsafe.1
  have hnew : Known (s.drawn ++ [humanId 0]) (nodeId type.value (humanId 0)) :=
    known_nodeId (colon_not_mem_value type) (by simp)
  have hparent : ∀ p, (newCanvasNode s.store type params.nodeId (humanId 0)).parentId = some p →
      Known (s.drawn ++ [humanId 0]) p := by
    intro p hp
    obtain ⟨node, hnode, hnodeparent⟩ := source_of_parentId hp
    obtain ⟨_, _, hget⟩ := Option.bind_eq_some_iff.mp hnode
    exact (hs.parents node (mem_of_getNode hget).1 p hnodeparent).mono
  refine hs.of_nodes rfl rfl rfl fun n hn => ?_
  rw [hnodes] at hn
  rcases List.mem_append.mp hn with hold | hmem
  · exact Or.inl (mem_of_map_sameNode hf n hold)
  · rcases hadded with ⟨htype, rfl⟩ | ⟨-, rfl | rfl⟩
    · rcases List.mem_pair.mp hmem with rfl | rfl
      · exact Or.inr ⟨hnew, hparent, by simp [newCanvasNode]⟩
      · refine Or.inr ⟨(known_startId hs type).mono, ?_, fun _ => ?_⟩
        · rintro p ⟨⟩
          exact hnew
        · rcases htype with rfl | rfl
          · exact Or.inl ⟨rfl, rfl⟩
          · exact Or.inr ⟨rfl, rfl⟩
    · cases hmem
    · obtain rfl := List.mem_singleton.mp hmem
      exact Or.inr ⟨hnew, hparent, by simp [newCanvasNode]⟩

end Track

/-! ## Runs -/

section Runs

variable {s t : EditorState} {addEdge : Connection → List Edge → List Edge}

/-- Every safe operation keeps the ids apart and the groups with their start nodes. -/
theorem SafeOp.keeps (hstep : SafeOp addEdge s t) (h : WellIdentified s.store.nodes)
    (hs : Tracked s) : WellIdentified t.store.nodes ∧ Tracked t := by
  obtain ⟨op, humanId, hinj, hfresh, hsafe, rfl⟩ := hstep
  cases op with
  | addCanvasNode type params grows =>
      exact ⟨h.addCanvasNode hs hfresh hsafe, hs.addCanvasNode h hsafe⟩
  | duplicateNode id => exact ⟨h.duplicateNode hs hinj hfresh hsafe, hs.duplicateNode id⟩
  | deleteNodeById id =>
      exact ⟨h.deleteNodeById hsafe,
        hs.withStore fun n hn => ⟨n, deleteNodeById_subset n hn, .refl n⟩⟩
  | deleteIterationNodeById id =>
      exact ⟨h.deleteIterationNodeById hsafe,
        hs.withStore fun n hn => ⟨n, (List.mem_filter.mp hn).1, .refl n⟩⟩
  | deleteAgentToolNodeById id =>
      refine ⟨?_, hs.withStore fun n hn => ⟨n, deleteAgentToolNodeById_subset n hn, .refl n⟩⟩
      show WellIdentified (s.store.deleteAgentToolNodeById id).nodes
      rw [RFState.deleteAgentToolNodeById]
      split
      · exact h
      case h_2 edge hedge =>
        exact WellIdentified.deleteNodeById (s := s.store.deleteEdgeById edge.id) h
          (hsafe edge hedge)
  | deleteElements ids edges =>
      exact ⟨h.deleteElements hsafe, hs.withStore deleteElements_sameNode⟩
  | onNodesChange =>
      have hsame : ∀ n ∈ s.store.nodes, SameNode { n with shared := false } n := fun n _ =>
        sameNode_unshared n
      exact ⟨h.map hsame, hs.withStore (mem_of_map_sameNode hsame)⟩

theorem wellIdentified_initialGraph : WellIdentified initialGraph.nodes where
  ids := by decide
  starts g hg start hstart := by
    obtain rfl := List.mem_singleton.mp hg
    cases hstart

theorem tracked_editorStart (first second : String) : Tracked (editorStart first second) where
  ids n hn := by
    obtain rfl := List.mem_singleton.mp hn
    exact Or.inl rfl
  parents n hn p hp := by
    obtain rfl := List.mem_singleton.mp hn
    cases hp
  iterationStart := known_nodeId (colon_not_mem_value _) (by simp [editorStart])
  loopStart := known_nodeId (colon_not_mem_value _) (by simp [editorStart])
  shared n hn hshared := by
    obtain rfl := List.mem_singleton.mp hn
    cases hshared

/-- In every state that safe operations reach from the initial canvas, ids are distinct and each
iteration and each loop has exactly one start node. -/
theorem identities_hold (addEdge : Connection → List Edge → List Edge) (first second : String)
    (n : ℕ) (s : EditorState) (h : Run (SafeOp addEdge) (editorStart first second) n s) :
    WellIdentified s.store.nodes := by
  have hinv := h.invariant (P := fun _ s => WellIdentified s.store.nodes ∧ Tracked s)
    ⟨wellIdentified_initialGraph, tracked_editorStart first second⟩
    fun _ _ _ _ hs hstep => hstep.keeps hs.1 hs.2
  exact hinv.1

end Runs

/-- A call of `addCanvasNode` from the toolbar. -/
def toolbar (type : Operator) : EditorOp :=
  .addCanvasNode type
    { nodeId := none, position := .right, id := none, isFromConnectionDrag := false } false

/-- Names for one operation. -/
def names (prefixed : String) (i : ℕ) : String := prefixed ++ String.ofList (List.replicate i 'x')

theorem names_injective (prefixed : String) : Function.Injective (names prefixed) := by
  intro i j h
  have hlist := congrArg String.toList h
  simp only [names, String.toList_append, String.toList_ofList] at hlist
  simpa using congrArg List.length hlist

/-- One iteration, with its start node. -/
theorem identities_hold_iteration :
    WellIdentified
      ((toolbar .iteration).apply flowAddEdge (names "c") (editorStart "a" "b")).store.nodes := by
  have hfresh : ∀ i, names "c" i ∉ (editorStart "a" "b").drawn := by
    intro i hmem
    have hhead : ∀ w ∈ (editorStart "a" "b").drawn, w.toList.head? ≠ some 'c' := by decide
    exact hhead _ hmem (by simp [names])
  have hsafe : (toolbar .iteration).Safe (editorStart "a" "b") :=
    ⟨fun _ => by decide, by decide⟩
  exact identities_hold flowAddEdge "a" "b" 1 _
    (.single ⟨toolbar .iteration, names "c", names_injective "c", hfresh, hsafe, rfl⟩)

/-- A second iteration brings a second node with the id of the first start node, and the copy of
a loop has no start node. -/
theorem second_group_repeats_id :
    ¬ WellIdentified ((toolbar .iteration).apply flowAddEdge (names "d")
        ((toolbar .iteration).apply flowAddEdge (names "c") (editorStart "a" "b"))).store.nodes ∧
      ¬ WellIdentified ((EditorOp.duplicateNode "Loop:c").apply flowAddEdge (names "d")
        ((toolbar .loop).apply flowAddEdge (names "c") (editorStart "a" "b"))).store.nodes := by
  constructor
  · intro h
    exact absurd h.ids (by decide)
  · intro h
    have hcopy := h.starts
      { id := "Loop:d", label := some .loop, parentId := none, shared := false } (by decide)
      .loopStart rfl
    exact absurd hcopy (by decide)

end RagFlow.Editor
