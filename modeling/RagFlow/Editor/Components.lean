/-
# The components of a graph are closed

The rules that the editor keeps to when it draws edges, and what they give for the compiled
components: no list of a component names an id that is no component, the sub-agents and tools
below an agent are nested in it once each, and upstream mirrors downstream. The sub-agents below a
component are a tree with the component as its root, so the recursion comes to its end.
-/

import RagFlow.Editor.Dsl
import Mathlib.Data.List.Nodup

namespace RagFlow.Editor

open RagFlow.Math

/-- An edge from a handle `agentBottom` or to a handle `agentTop` makes its target a sub-agent. -/
def IsSubAgent (edges : List Edge) (id : String) : Prop :=
  ∃ e ∈ edges, e.target = id ∧ (e.sourceHandle = some NodeHandleId.agentBottom ∨
    e.targetHandle = some NodeHandleId.agentTop)

/-- The edge leads from an agent down to a sub-agent. -/
structure IsAgentLink {π : Type*} (nodes : List (FlowNode π)) (e : Edge) : Prop where
  source : labelOf nodes e.source = some .agent
  bottom : e.sourceHandle = some NodeHandleId.agentBottom
  top : e.targetHandle = some NodeHandleId.agentTop
  target : labelOf nodes e.target = some .agent

/-- The edge leads from an agent to the node of its tools. -/
structure IsToolLink {π : Type*} (nodes : List (FlowNode π)) (e : Edge) : Prop where
  source : labelOf nodes e.source = some .agent
  handle : e.sourceHandle = some NodeHandleId.tool
  target : labelOf nodes e.target = some .tool

section Decidable

variable {π : Type*} {nodes : List (FlowNode π)} {edges : List Edge} {e : Edge} {id : String}

instance : Decidable (IsSubAgent edges id) :=
  inferInstanceAs (Decidable (∃ e ∈ edges, _))

instance : Decidable (IsAgentLink nodes e) :=
  decidable_of_iff (labelOf nodes e.source = some .agent ∧
      e.sourceHandle = some NodeHandleId.agentBottom ∧
      e.targetHandle = some NodeHandleId.agentTop ∧ labelOf nodes e.target = some .agent)
    ⟨fun ⟨h₁, h₂, h₃, h₄⟩ => ⟨h₁, h₂, h₃, h₄⟩, fun ⟨h₁, h₂, h₃, h₄⟩ => ⟨h₁, h₂, h₃, h₄⟩⟩

instance : Decidable (IsToolLink nodes e) :=
  decidable_of_iff (labelOf nodes e.source = some .agent ∧
      e.sourceHandle = some NodeHandleId.tool ∧ labelOf nodes e.target = some .tool)
    ⟨fun ⟨h₁, h₂, h₃⟩ => ⟨h₁, h₂, h₃⟩, fun ⟨h₁, h₂, h₃⟩ => ⟨h₁, h₂, h₃⟩⟩

end Decidable

/-- The graphs that are compiled. -/
structure Shape {π : Type*} (nodes : List (FlowNode π)) (edges : List Edge) : Prop where
  distinct : (nodes.map (·.id)).Nodup
  named : ∀ n ∈ nodes, (n.label = some .begin ∧ n.id = "begin") ∨
    ∃ type suffix, n.label = some type ∧ n.id = nodeId type.value suffix
  ends : ∀ e ∈ edges, (findNode nodes e.source).isSome ∧ (findNode nodes e.target).isSome
  tools : ∀ e ∈ edges, labelOf nodes e.target = some .tool → IsToolLink nodes e
  subAgents : ∀ e ∈ edges, IsSubAgent edges e.target → IsAgentLink nodes e
  below : ∀ e ∈ edges, IsSubAgent edges e.source → IsToolLink nodes e ∨ IsAgentLink nodes e
  notes : ∀ e ∈ edges, labelOf nodes e.source ≠ some .note ∧ labelOf nodes e.target ≠ some .note

/-- Tool nodes lead nowhere, and a sub-agent has one edge to it: their handles cannot be
connected by hand. -/
structure Treelike {π : Type*} (nodes : List (FlowNode π)) (edges : List Edge) : Prop
    extends Shape nodes edges where
  toolsEnd : ∀ e ∈ edges, labelOf nodes e.source ≠ some .tool
  single : ∀ id, IsSubAgent edges id → (edges.filter fun e => e.target = id).length ≤ 1

/-- The ids that a component lists. -/
def Component.linked {π : Type*} (c : Component π) : List String :=
  c.downstream ++ c.upstream ++ c.params.exceptionGoto ++
    c.params.categoryDescription.entries.flatMap (·.2.toIds)

/-- The tools in the form of a node. -/
def toolsOf {π : Type*} (nodes : List (FlowNode π)) (id : String) : List (Tool π) :=
  ((findNode nodes id).map (·.tools)).getD []

/-- The agents below an agent are nested once each, and every agent's tools once with it. -/
structure NestedOnce {π : Type*} (nodes : List (FlowNode π)) (edges : List Edge) (id : String)
    (tools : List (AgentTool π)) : Prop where
  nodup : (nestedAgentIds tools).Nodup
  mem_iff : ∀ x, x ∈ nestedAgentIds tools ↔ Relation.TransGen (SubAgent nodes edges) id x
  tools_eq : nestedTools tools = (id :: nestedAgentIds tools).flatMap (toolsOf nodes)

structure Closed {π : Type*} (nodes : List (FlowNode π)) (edges : List Edge)
    (components : Dict String (Component π)) : Prop where
  keys : ∀ id c, components.get? id = some c → ∀ x ∈ c.linked, x ∈ components
  nested : ∀ id c, components.get? id = some c → c.componentName = some .agent →
    NestedOnce nodes edges id c.params.tools
  mirrored : ∀ a ca b cb, components.get? a = some ca → components.get? b = some cb →
    (a ∈ cb.upstream ↔ b ∈ ca.downstream ∨ b ∈ ca.params.exceptionGoto)

/-! ## Names -/

theorem isPrefixOf_append_colon {start text rest : List Char} (hcolon : ':' ∉ start)
    (h : start.isPrefixOf (text ++ ':' :: rest)) : start.isPrefixOf text := by
  rw [List.isPrefixOf_iff_prefix] at h ⊢
  have hwhole : text ++ [':'] <+: text ++ ':' :: rest := by simp
  have hnot : ¬ text ++ [':'] <+: start := fun hp => hcolon (hp.subset (by simp))
  rcases List.prefix_or_prefix_of_prefix h hwhole with h | h
  · rcases List.prefix_concat_iff.mp h with rfl | h
    · exact absurd List.prefix_rfl hnot
    · exact h
  · exact absurd h hnot

/-- The id of a node starts with the name of an operator where the name of its own does. -/
theorem startsWith_nodeId {start suffix : String} {type : Operator} (hcolon : ':' ∉ start.toList) :
    startsWith (nodeId type.value suffix) start = start.toList.isPrefixOf type.value.toList := by
  have happend : (nodeId type.value suffix).toList =
      type.value.toList ++ ':' :: suffix.toList := by
    simp [nodeId]
  rw [startsWith, happend, Bool.eq_iff_iff]
  constructor
  · exact isPrefixOf_append_colon hcolon
  · intro h
    rw [List.isPrefixOf_iff_prefix] at h ⊢
    exact h.trans (List.prefix_append _ _)

theorem eq_tool_of_isPrefixOf {type : Operator}
    (h : Operator.tool.value.toList.isPrefixOf type.value.toList) : type = .tool := by
  cases type with
  | tool => rfl
  | _ => exact absurd h (by decide +kernel)

section Names

variable {π : Type*} {nodes : List (FlowNode π)} {edges : List Edge} {n : FlowNode π}

theorem colon_not_mem_agent : ':' ∉ Operator.agent.value.toList := by decide

theorem colon_not_mem_tool : ':' ∉ Operator.tool.value.toList := by decide

theorem Shape.label_of_startsWith_tool (h : Shape nodes edges) (hn : n ∈ nodes)
    (hstart : startsWith n.id Operator.tool.value) : n.label = some .tool := by
  rcases h.named n hn with ⟨-, hid⟩ | ⟨type, suffix, hlabel, hid⟩
  · rw [hid] at hstart
    exact absurd hstart (by decide)
  · rw [hid, startsWith_nodeId colon_not_mem_tool] at hstart
    rw [hlabel, eq_tool_of_isPrefixOf hstart]

theorem Shape.startsWith_of_label (h : Shape nodes edges) (hn : n ∈ nodes) {type : Operator}
    (hcolon : ':' ∉ type.value.toList) (hlabel : n.label = some type) (hbegin : type ≠ .begin) :
    startsWith n.id type.value := by
  rcases h.named n hn with ⟨hbegin', -⟩ | ⟨type', suffix, hlabel', hid⟩
  · exact absurd (Option.some.inj (hlabel.symm.trans hbegin')) hbegin
  · obtain rfl := Option.some.inj (hlabel.symm.trans hlabel')
    rw [hid, startsWith_nodeId hcolon, List.isPrefixOf_iff_prefix]

theorem findNode_eq_some_iff (hdistinct : (nodes.map (·.id)).Nodup) {id : String} :
    findNode nodes id = some n ↔ n ∈ nodes ∧ n.id = id := by
  constructor
  · intro h
    exact ⟨List.mem_of_find?_eq_some h, by simpa using List.find?_some h⟩
  · rintro ⟨hn, rfl⟩
    have hsome : (findNode nodes n.id).isSome := List.find?_isSome.mpr ⟨n, hn, by simp⟩
    obtain ⟨m, hm⟩ := Option.isSome_iff_exists.mp hsome
    have hid : m.id = n.id := by simpa using List.find?_some hm
    rw [hm, List.inj_on_of_nodup_map hdistinct (List.mem_of_find?_eq_some hm) hn hid]

theorem labelOf_eq (hdistinct : (nodes.map (·.id)).Nodup) (hn : n ∈ nodes) :
    labelOf nodes n.id = n.label := by
  rw [labelOf, (findNode_eq_some_iff hdistinct).mpr ⟨hn, rfl⟩, Option.bind_some]

end Names

/-! ## The tree below a component -/

section Tree

variable {π : Type*} {nodes : List (FlowNode π)} {edges : List Edge} {a b c root : String}

theorem Shape.subAgent_link (h : Shape nodes edges) {e : Edge}
    (he : e ∈ bottomSubAgentEdges edges a) : IsAgentLink nodes e := by
  obtain ⟨hedge, -, hhandle⟩ := mem_bottomSubAgentEdges.mp he
  exact h.subAgents e hedge ⟨e, hedge, rfl, Or.inl hhandle⟩

theorem Shape.subAgent_target (h : Shape nodes edges) (hstep : SubAgent nodes edges a b) :
    labelOf nodes b = some .agent := by
  obtain ⟨-, e, he, rfl⟩ := hstep
  exact (h.subAgent_link he).target

/-- An agent of which the code says that it is no sub-agent has nothing above it. -/
theorem Shape.not_subAgent (h : Shape nodes edges) (hroot : isBottomSubAgentNode edges root = false)
    (a : String) : ¬ SubAgent nodes edges a root := by
  rintro ⟨-, e, he, rfl⟩
  have htop := (h.subAgent_link he).top
  have hedge := (mem_bottomSubAgentEdges.mp he).1
  have hfound : isBottomSubAgentNode edges e.target = true :=
    List.any_eq_true.mpr ⟨e, hedge, by simp [htop]⟩
  rw [hroot] at hfound
  exact absurd hfound Bool.false_ne_true

/-- Different edges to sub-agents have different targets. -/
theorem Treelike.targets_ne (h : Treelike nodes edges) :
    (bottomSubAgentEdges edges a).Pairwise fun x y => x.target ≠ y.target := by
  refine List.pairwise_iff_forall_sublist.mpr fun {x y} hsub heq => ?_
  have hx : x ∈ bottomSubAgentEdges edges a := hsub.subset (by simp)
  obtain ⟨hedge, -, hhandle⟩ := mem_bottomSubAgentEdges.mp hx
  have hboth : List.Sublist [x, y] (edges.filter fun e => e.target = x.target) := by
    have := (hsub.trans List.filter_sublist).filter fun e => e.target = x.target
    simpa [heq] using this
  have hlong := hboth.length_le.trans (h.single x.target ⟨x, hedge, rfl, Or.inl hhandle⟩)
  simp at hlong

theorem Treelike.subAgent_unique (h : Treelike nodes edges) (ha : SubAgent nodes edges a c)
    (hb : SubAgent nodes edges b c) : a = b := by
  obtain ⟨-, x, hx, rfl⟩ := ha
  obtain ⟨-, y, hy, heq⟩ := hb
  obtain ⟨hxe, hxs, hhandle⟩ := mem_bottomSubAgentEdges.mp hx
  obtain ⟨hye, hys, -⟩ := mem_bottomSubAgentEdges.mp hy
  have hone := h.single x.target ⟨x, hxe, rfl, Or.inl hhandle⟩
  have hxm : x ∈ edges.filter fun e => e.target = x.target := by simp [hxe]
  have hym : y ∈ edges.filter fun e => e.target = x.target := by simp [hye, heq]
  obtain ⟨z, hz⟩ := List.length_eq_one_iff.mp (hone.antisymm (List.length_pos_of_mem hxm))
  rw [hz, List.mem_singleton] at hxm hym
  rw [← hxs, ← hys, hxm, hym]

variable [EmptyCollection π] {tools : List (AgentTool π)}

/-- The recursion for a component comes to its end. -/
theorem Treelike.isSome_buildAgentTools (h : Treelike nodes edges)
    (hroot : isBottomSubAgentNode edges root = false) :
    (buildAgentTools edges nodes (edges.length + 1) root).isSome := by
  refine isSome_buildAgentTools_iff.mpr fun n b hrun => ?_
  have hsingle : ∀ x y z, SubAgent nodes edges x z → SubAgent nodes edges y z → x = y :=
    fun _ _ _ => h.subAgent_unique
  have hle := hrun.length_le_of_acyclicFrom (edges.map (·.source)) (fun _ _ => SubAgent.source_mem)
    fun a hreach => Run.acyclic_of_tree hsingle (h.toShape.not_subAgent hroot) hreach
  rw [List.length_map] at hle
  omega

/-- Below every agent of the tree, each sub-agent is nested once and with its own tools. -/
theorem Treelike.nestedOnce (h : Treelike nodes edges)
    (hroot : isBottomSubAgentNode edges root = false) {fuel : ℕ}
    (hreach : Relation.ReflTransGen (SubAgent nodes edges) root a)
    (hagent : labelOf nodes a = some .agent)
    (htools : buildAgentTools edges nodes fuel a = some tools) :
    NestedOnce nodes edges a tools := by
  induction fuel generalizing a tools with
  | zero => cases htools
  | succ fuel ih =>
      obtain ⟨node, hnode, hlabel⟩ := Option.bind_eq_some_iff.mp hagent
      have hfound : ∀ e ∈ bottomSubAgentEdges edges a, (findNode nodes e.target).isSome :=
        fun e he => (h.ends e (mem_bottomSubAgentEdges.mp he).1).2
      obtain ⟨below, hbelow, hids, hown⟩ := buildAgentTools_agent hnode hlabel hfound htools
      have hstep : ∀ e ∈ bottomSubAgentEdges edges a, SubAgent nodes edges a e.target :=
        fun e he => ⟨hagent, e, he, rfl⟩
      have hsub : ∀ e ∈ bottomSubAgentEdges edges a,
          NestedOnce nodes edges e.target (below e.target) := fun e he =>
        ih (hreach.tail (hstep e he)) (h.subAgent_target (hstep e he)) (hbelow e he)
      have hmem : ∀ e ∈ bottomSubAgentEdges edges a, ∀ x,
          x ∈ e.target :: nestedAgentIds (below e.target) ↔
            Relation.ReflTransGen (SubAgent nodes edges) e.target x := by
        intro e he x
        rw [List.mem_cons, (hsub e he).mem_iff, Relation.reflTransGen_iff_eq_or_transGen]
      have hsingle : ∀ x y z, SubAgent nodes edges x z → SubAgent nodes edges y z → x = y :=
        fun _ _ _ => h.subAgent_unique
      have hnone := h.toShape.not_subAgent hroot
      constructor
      · rw [hids, List.nodup_flatMap]
        refine ⟨fun e he => ?_, h.targets_ne.imp_of_mem fun {x y} hx hy hne => ?_⟩
        · refine List.nodup_cons.mpr ⟨fun hself => ?_, (hsub e he).nodup⟩
          exact Run.acyclic_of_tree hsingle hnone (hreach.tail (hstep e he))
            ((hsub e he).mem_iff _ |>.mp hself)
        · intro z hz hz'
          exact Run.disjoint_of_tree hsingle hnone hreach (hstep x hx) (hstep y hy) hne
            ((hmem x hx z).mp hz) ((hmem y hy z).mp hz')
      · intro x
        rw [hids, List.mem_flatMap, Relation.TransGen.head'_iff]
        constructor
        · rintro ⟨e, he, hx⟩
          exact ⟨e.target, hstep e he, (hmem e he x).mp hx⟩
        · rintro ⟨b, ⟨-, e, he, rfl⟩, hx⟩
          exact ⟨e, he, (hmem e he x).mpr hx⟩
      · rw [hown, hids, List.flatMap_cons, List.flatMap_assoc]
        have hself : toolsOf nodes a = node.tools := by rw [toolsOf, hnode]; rfl
        rw [hself]
        congr 1
        exact List.flatMap_congr fun e he => (hsub e he).tools_eq

end Tree

/-! ## The lists of a component -/

section Lists

variable {π : Type*} {nodes : List (FlowNode π)} {edges : List Edge} {id x : String}

theorem mem_buildDownstream : x ∈ buildDownstream edges id nodes ↔
    ∃ e ∈ edges, e.source = id ∧ e.target = x ∧ (labelOf nodes id = some .agent →
      startsWith x Operator.tool.value = false ∧
      (startsWith x Operator.agent.value = false ∨
        e.targetHandle ≠ some NodeHandleId.agentTop) ∧
      e.sourceHandle ≠ some NodeHandleId.agentException) := by
  simp only [buildDownstream, List.mem_map, List.mem_filter]
  constructor
  · rintro ⟨e, ⟨he, hcond⟩, rfl⟩
    refine ⟨e, he, ?_⟩
    by_cases hlabel : labelOf nodes id = some .agent <;> simp_all
  · rintro ⟨e, he, hsource, rfl, hcond⟩
    refine ⟨e, ⟨he, ?_⟩, rfl⟩
    by_cases hlabel : labelOf nodes id = some .agent <;> simp_all

theorem mem_buildUpstream : x ∈ buildUpstream edges id ↔
    ∃ e ∈ edges, e.target = id ∧ e.source = x := by
  simp [buildUpstream, and_assoc]

theorem mem_buildAgentExceptionGoto : x ∈ buildAgentExceptionGoto edges id ↔
    ∃ e ∈ edges, e.source = id ∧ e.sourceHandle = some NodeHandleId.agentException ∧
      e.target = x := by
  simp [buildAgentExceptionGoto, and_assoc]

/-- A category leads along edges that leave the node. -/
theorem exists_edge_of_mem_toIds {node : FlowNode π}
    (hx : x ∈ (buildCategorize edges node).entries.flatMap (·.2.toIds)) :
    ∃ e ∈ edges, e.source = node.id ∧ e.target = x := by
  let P (d : Dict String CategoryResult) : Prop :=
    ∀ entry ∈ d.entries, ∃ val, entry.2 = buildCategory edges node.id val
  have hP : P (buildCategorize edges node) := by
    refine foldl_induction (P := fun _ d => P d) (fun _ hentry => absurd hentry List.not_mem_nil) ?_
    intro _ val d _ hd entry hentry
    obtain ⟨name, result⟩ := entry
    rw [Dict.mem_entries_set] at hentry
    split_ifs at hentry
    · exact ⟨val, hentry.symm⟩
    · exact hd _ hentry
  obtain ⟨entry, hentry, hto⟩ := List.mem_flatMap.mp hx
  obtain ⟨val, hval⟩ := hP entry hentry
  rw [hval] at hto
  obtain ⟨e, he, rfl⟩ := List.mem_map.mp hto
  have hleaves := List.mem_filter.mp (List.mem_filter.mp he).1
  exact ⟨e, hleaves.1, by simpa using hleaves.2, rfl⟩

/-- What a component takes from its node and the edges. -/
structure BuiltFrom [EmptyCollection π] (nodes : List (FlowNode π)) (edges : List Edge)
    (n : FlowNode π) (c : Component π) : Prop where
  componentName : c.componentName = n.label
  downstream : c.downstream = buildDownstream edges n.id nodes
  upstream : c.upstream = buildUpstream edges n.id
  exceptionGoto : ∀ x, x ∈ c.params.exceptionGoto ↔
    n.label = some .agent ∧ x ∈ buildAgentExceptionGoto edges n.id
  toIds : ∀ x ∈ c.params.categoryDescription.entries.flatMap (·.2.toIds),
    n.label = some .categorize ∧ x ∈ (buildCategorize edges n).entries.flatMap (·.2.toIds)
  tools : n.label = some .agent →
    buildAgentTools edges nodes (edges.length + 1) n.id = some c.params.tools

variable [EmptyCollection π] {T : Transforms π} {n : FlowNode π} {c : Component π}

theorem builtFrom_of_buildComponent (h : buildComponent T nodes edges n = some c) :
    BuiltFrom nodes edges n c := by
  obtain ⟨params, hparams, rfl⟩ := Option.map_eq_some_iff.mp h
  have hempty : (Dict.empty : Dict String CategoryResult).entries = [] := rfl
  unfold buildParams at hparams
  split at hparams
  case h_1 hlabel =>
    obtain ⟨tools, htools, rfl⟩ := Option.map_eq_some_iff.mp hparams
    exact ⟨rfl, rfl, rfl, by simp [hlabel], by simp [hempty], fun _ => htools⟩
  case h_2 hlabel =>
    obtain rfl := Option.some.inj hparams
    exact ⟨rfl, rfl, rfl, by simp [hlabel], by simp [hlabel], by simp [hlabel]⟩
  case h_9 hagent _ _ _ _ _ _ _ =>
    obtain rfl := Option.some.inj hparams
    have hgoto : ∀ x : String, x ∈ [] ↔
        n.label = some .agent ∧ x ∈ buildAgentExceptionGoto edges n.id := fun x =>
      ⟨fun hx => absurd hx List.not_mem_nil, fun hx => absurd hx.1 hagent⟩
    exact ⟨rfl, rfl, rfl, hgoto, by simp [hempty], fun h => absurd h hagent⟩
  all_goals
    rename_i hlabel
    obtain rfl := Option.some.inj hparams
    exact ⟨rfl, rfl, rfl, by simp [hlabel], by simp [hempty], by simp [hlabel]⟩

theorem isSome_buildComponent (h : n.label = some .agent →
    (buildAgentTools edges nodes (edges.length + 1) n.id).isSome) :
    (buildComponent T nodes edges n).isSome := by
  rw [buildComponent, Option.isSome_map, buildParams]
  split
  case h_1 hlabel => simpa using h hlabel
  all_goals rfl

end Lists

/-! ## Closedness -/

section Graph

variable {π : Type*} {nodes : List (FlowNode π)} {edges : List Edge}

/-- What leads to a node that is no component leads down from an agent, and the code sees it. -/
theorem Shape.hidden_target (h : Shape nodes edges) {e : Edge} (he : e ∈ edges)
    (hhidden : labelOf nodes e.target = some .tool ∨ isBottomSubAgentNode edges e.target) :
    labelOf nodes e.source = some .agent ∧
      e.sourceHandle ≠ some NodeHandleId.agentException ∧
      (startsWith e.target Operator.tool.value ∨
        startsWith e.target Operator.agent.value ∧
          e.targetHandle = some NodeHandleId.agentTop) := by
  have hname : ∀ type : Operator, ':' ∉ type.value.toList → type ≠ .begin →
      labelOf nodes e.target = some type → startsWith e.target type.value := by
    intro type hcolon hbegin hlabel
    obtain ⟨n, hn, hlabel⟩ := Option.bind_eq_some_iff.mp hlabel
    obtain ⟨hmem, hid⟩ := (findNode_eq_some_iff h.distinct).mp hn
    exact hid ▸ h.startsWith_of_label hmem hcolon hlabel hbegin
  rcases hhidden with htool | hsub
  · have hlink := h.tools e he htool
    refine ⟨hlink.source, ?_, Or.inl (hname .tool colon_not_mem_tool nofun htool)⟩
    rw [hlink.handle]
    decide
  · obtain ⟨x, hx, hcond⟩ := List.any_eq_true.mp hsub
    rw [Bool.and_eq_true, decide_eq_true_iff, decide_eq_true_iff] at hcond
    have hlink := h.subAgents e he ⟨x, hx, hcond.1, Or.inr hcond.2⟩
    refine ⟨hlink.source, ?_,
      Or.inr ⟨hname .agent colon_not_mem_agent nofun hlink.target, hlink.top⟩⟩
    rw [hlink.bottom]
    decide

/-- A node that is kept by the code as a component. -/
structure IsKept (edges : List Edge) (n : FlowNode π) : Prop where
  excluded : isExcluded n.label = false
  root : isBottomSubAgentNode edges n.id = false

variable [EmptyCollection π] {T : Transforms π} {components : Dict String (Component π)}

/-- The components of a graph are those of its nodes that are kept. -/
theorem get?_buildDslComponentsByGraph (hdistinct : (nodes.map (·.id)).Nodup)
    (hbuild : buildDslComponentsByGraph T nodes edges = some components) (id : String)
    (c : Component π) : components.get? id = some c ↔
      ∃ n ∈ nodes, n.id = id ∧ IsKept edges n ∧ buildComponent T nodes edges n = some c := by
  have hkeys : ((nodes.filter fun x =>
      !isExcluded x.label && !isBottomSubAgentNode edges x.id).map (·.id)).Nodup :=
    hdistinct.sublist (List.filter_sublist.map _)
  have hnone : (Dict.empty : Dict String (Component π)).get? id = none := rfl
  rw [Dict.get?_fill hkeys hbuild, hnone]
  simp only [List.mem_filter, Bool.and_eq_true, Bool.not_eq_true', reduceCtorEq, and_false,
    or_false]
  constructor
  · rintro ⟨n, ⟨hn, hexcluded, hroot⟩, hid, hc⟩
    exact ⟨n, hn, hid, ⟨hexcluded, hroot⟩, hc⟩
  · rintro ⟨n, hn, hid, hkept, hc⟩
    exact ⟨n, ⟨hn, hkept.excluded, hkept.root⟩, hid, hc⟩

theorem Treelike.isSome_buildComponent (h : Treelike nodes edges) {n : FlowNode π}
    (hkept : IsKept edges n) : (buildComponent T nodes edges n).isSome :=
  RagFlow.Editor.isSome_buildComponent fun _ => h.isSome_buildAgentTools hkept.root

theorem Treelike.mem_components (h : Treelike nodes edges)
    (hbuild : buildDslComponentsByGraph T nodes edges = some components) {n : FlowNode π}
    (hn : n ∈ nodes) (hkept : IsKept edges n) : n.id ∈ components := by
  obtain ⟨c, hc⟩ := Option.isSome_iff_exists.mp (h.isSome_buildComponent (T := T) hkept)
  exact Dict.mem_of_get?
    ((get?_buildDslComponentsByGraph h.distinct hbuild n.id c).mpr ⟨n, hn, rfl, hkept, hc⟩)

/-- In a graph without placeholders, an end of an edge that is neither a Tool nor a sub-agent is
a component. -/
theorem Treelike.end_mem (h : Treelike nodes edges)
    (hplace : ∀ n ∈ nodes, n.label ≠ some .placeholder)
    (hbuild : buildDslComponentsByGraph T nodes edges = some components) {id : String}
    (hfound : (findNode nodes id).isSome) (hnote : labelOf nodes id ≠ some .note)
    (htool : labelOf nodes id ≠ some .tool) (hroot : isBottomSubAgentNode edges id = false) :
    id ∈ components := by
  obtain ⟨n, hfind⟩ := Option.isSome_iff_exists.mp hfound
  obtain ⟨hn, rfl⟩ := (findNode_eq_some_iff h.distinct).mp hfind
  rw [labelOf_eq h.distinct hn] at hnote htool
  exact h.mem_components hbuild hn ⟨by simp [isExcluded, hnote, htool, hplace n hn], hroot⟩

/-- The target of an edge is a component unless the edge leads down to a tool or a sub-agent. -/
theorem Treelike.target_mem (h : Treelike nodes edges)
    (hplace : ∀ n ∈ nodes, n.label ≠ some .placeholder)
    (hbuild : buildDslComponentsByGraph T nodes edges = some components) {e : Edge}
    (he : e ∈ edges) (hshown : ¬ (labelOf nodes e.target = some .tool ∨
      isBottomSubAgentNode edges e.target)) : e.target ∈ components := by
  obtain ⟨htool, hsub⟩ := not_or.mp hshown
  exact h.end_mem hplace hbuild (h.ends e he).2 (h.notes e he).2 htool (by simpa using hsub)

/-- The source of an edge to a component is a component. -/
theorem Treelike.source_mem (h : Treelike nodes edges)
    (hplace : ∀ n ∈ nodes, n.label ≠ some .placeholder)
    (hbuild : buildDslComponentsByGraph T nodes edges = some components) {e : Edge}
    (he : e ∈ edges) (htool : labelOf nodes e.target ≠ some .tool)
    (hroot : isBottomSubAgentNode edges e.target = false) : e.source ∈ components := by
  refine h.end_mem hplace hbuild (h.ends e he).1 (h.notes e he).1 (h.toolsEnd e he) ?_
  -- A sub-agent leads to tools and further sub-agents only.
  by_contra hnot
  have hsub : isBottomSubAgentNode edges e.source = true := by simpa using hnot
  obtain ⟨x, hx, hcond⟩ := List.any_eq_true.mp hsub
  rw [Bool.and_eq_true, decide_eq_true_iff, decide_eq_true_iff] at hcond
  rcases h.below e he ⟨x, hx, hcond.1, Or.inr hcond.2⟩ with hlink | hlink
  · exact htool hlink.target
  · have hfound : isBottomSubAgentNode edges e.target = true :=
      List.any_eq_true.mpr ⟨e, he, by simp [hlink.top]⟩
    rw [hroot] at hfound
    exact Bool.false_ne_true hfound

omit [EmptyCollection π] in
/-- A kept node is no Tool. -/
theorem IsKept.label_ne_tool {n : FlowNode π} (h : IsKept edges n) : n.label ≠ some .tool := by
  intro hlabel
  have := h.excluded
  simp [isExcluded, hlabel] at this

theorem Treelike.keys (h : Treelike nodes edges)
    (hplace : ∀ n ∈ nodes, n.label ≠ some .placeholder)
    (hbuild : buildDslComponentsByGraph T nodes edges = some components) {id : String}
    {c : Component π} (hc : components.get? id = some c) : ∀ x ∈ c.linked, x ∈ components := by
  obtain ⟨n, hn, rfl, hkept, hc⟩ := (get?_buildDslComponentsByGraph h.distinct hbuild id c).mp hc
  have hfrom := builtFrom_of_buildComponent hc
  have hlabel := labelOf_eq h.distinct hn
  intro x hx
  simp only [Component.linked, List.mem_append] at hx
  rcases hx with ((hx | hx) | hx) | hx
  · rw [hfrom.downstream, mem_buildDownstream] at hx
    obtain ⟨e, he, hsource, rfl, hcond⟩ := hx
    refine h.target_mem hplace hbuild he fun hhidden => ?_
    obtain ⟨hagent, -, hseen⟩ := h.hidden_target he hhidden
    obtain ⟨htool, hsub, -⟩ := hcond (hsource ▸ hagent)
    rcases hseen with hstart | ⟨hstart, htop⟩
    · rw [htool] at hstart
      exact Bool.false_ne_true hstart
    · rcases hsub with hsub | hsub
      · rw [hsub] at hstart
        exact Bool.false_ne_true hstart
      · exact hsub htop
  · rw [hfrom.upstream, mem_buildUpstream] at hx
    obtain ⟨e, he, htarget, rfl⟩ := hx
    refine h.source_mem hplace hbuild he ?_ (htarget ▸ hkept.root)
    rw [htarget, hlabel]
    exact hkept.label_ne_tool
  · obtain ⟨-, hx⟩ := (hfrom.exceptionGoto x).mp hx
    obtain ⟨e, he, -, hhandle, rfl⟩ := mem_buildAgentExceptionGoto.mp hx
    exact h.target_mem hplace hbuild he fun hhidden => (h.hidden_target he hhidden).2.1 hhandle
  · obtain ⟨hcategorize, hx⟩ := hfrom.toIds x hx
    obtain ⟨e, he, hsource, rfl⟩ := exists_edge_of_mem_toIds hx
    refine h.target_mem hplace hbuild he fun hhidden => ?_
    have hagent := (h.hidden_target he hhidden).1
    rw [hsource, hlabel, hcategorize] at hagent
    cases hagent

theorem Treelike.mirrored (h : Treelike nodes edges)
    (hbuild : buildDslComponentsByGraph T nodes edges = some components) {a b : String}
    {ca cb : Component π} (ha : components.get? a = some ca) (hb : components.get? b = some cb) :
    a ∈ cb.upstream ↔ b ∈ ca.downstream ∨ b ∈ ca.params.exceptionGoto := by
  obtain ⟨m, hm, rfl, -, hca⟩ := (get?_buildDslComponentsByGraph h.distinct hbuild a ca).mp ha
  obtain ⟨n, hn, rfl, hkept, hcb⟩ := (get?_buildDslComponentsByGraph h.distinct hbuild b cb).mp hb
  have hfrom := builtFrom_of_buildComponent hca
  rw [(builtFrom_of_buildComponent hcb).upstream, hfrom.downstream, hfrom.exceptionGoto,
    mem_buildUpstream, mem_buildDownstream, mem_buildAgentExceptionGoto]
  constructor
  · rintro ⟨e, he, htarget, hsource⟩
    by_cases hexception : m.label = some .agent ∧
        e.sourceHandle = some NodeHandleId.agentException
    · exact Or.inr ⟨hexception.1, e, he, hsource, hexception.2, htarget⟩
    · refine Or.inl ⟨e, he, hsource, htarget, fun hagent => ?_⟩
      rw [labelOf_eq h.distinct hm] at hagent
      refine ⟨?_, ?_, fun hhandle => hexception ⟨hagent, hhandle⟩⟩
      · by_contra hstart
        exact hkept.label_ne_tool (h.label_of_startsWith_tool hn (by simpa using hstart))
      · refine Or.inr fun htop => ?_
        have hfound : isBottomSubAgentNode edges n.id = true :=
          List.any_eq_true.mpr ⟨e, he, by simp [htarget, htop]⟩
        rw [hkept.root] at hfound
        exact Bool.false_ne_true hfound
  · rintro (⟨e, he, hsource, htarget, -⟩ | ⟨-, e, he, hsource, -, htarget⟩)
    · exact ⟨e, he, htarget, hsource⟩
    · exact ⟨e, he, htarget, hsource⟩

/-- A graph without placeholders compiles, and its components are closed. -/
theorem Treelike.closed (h : Treelike nodes edges)
    (hplace : ∀ n ∈ nodes, n.label ≠ some .placeholder) (T : Transforms π) :
    ∃ components, buildDslComponentsByGraph T nodes edges = some components ∧
      Closed nodes edges components := by
  have hsome : (buildDslComponentsByGraph T nodes edges).isSome := by
    refine Dict.isSome_fill fun n hn => h.isSome_buildComponent ?_
    obtain ⟨-, hkept⟩ := List.mem_filter.mp hn
    rw [Bool.and_eq_true, Bool.not_eq_true', Bool.not_eq_true'] at hkept
    exact ⟨hkept.1, hkept.2⟩
  obtain ⟨components, hbuild⟩ := Option.isSome_iff_exists.mp hsome
  refine ⟨components, hbuild, ?_⟩
  constructor
  · intro id c hc
    exact h.keys hplace hbuild hc
  · intro id c hc hagent
    obtain ⟨n, hn, rfl, hkept, hcomp⟩ :=
      (get?_buildDslComponentsByGraph h.distinct hbuild id c).mp hc
    have hfrom := builtFrom_of_buildComponent hcomp
    rw [hfrom.componentName] at hagent
    exact h.nestedOnce hkept.root .refl ((labelOf_eq h.distinct hn).trans hagent)
      (hfrom.tools hagent)
  · intro a ca b cb ha hb
    exact h.mirrored hbuild ha hb

end Graph

/-! ## Placeholders -/

section Placeholders

variable {π : Type*} {nodes : List (FlowNode π)} {edges : List Edge} {id : String}

theorem findNode_filteredNodes (hdistinct : (nodes.map (·.id)).Nodup)
    (h : labelOf nodes id ≠ some .placeholder) :
    findNode (filteredNodes nodes) id = findNode nodes id := by
  have hfiltered : ((filteredNodes nodes).map (·.id)).Nodup :=
    hdistinct.sublist (List.filter_sublist.map _)
  apply Option.ext
  intro n
  rw [findNode_eq_some_iff hfiltered, findNode_eq_some_iff hdistinct, filteredNodes,
    List.mem_filter]
  constructor
  · rintro ⟨⟨hn, -⟩, hid⟩
    exact ⟨hn, hid⟩
  · rintro ⟨hn, rfl⟩
    rw [labelOf_eq hdistinct hn] at h
    exact ⟨⟨hn, by simpa using h⟩, rfl⟩

theorem mem_filteredEdges {e : Edge} : e ∈ filteredEdges nodes edges ↔
    e ∈ edges ∧ labelOf nodes e.source ≠ some .placeholder ∧
      labelOf nodes e.target ≠ some .placeholder := by
  simp [filteredEdges]

/-- The rules hold of what is left without the placeholders. -/
theorem Treelike.filtered (h : Treelike nodes edges) :
    Treelike (filteredNodes nodes) (filteredEdges nodes edges) := by
  have hends : ∀ e ∈ filteredEdges nodes edges,
      findNode (filteredNodes nodes) e.source = findNode nodes e.source ∧
        findNode (filteredNodes nodes) e.target = findNode nodes e.target := by
    intro e he
    obtain ⟨-, hsource, htarget⟩ := mem_filteredEdges.mp he
    exact ⟨findNode_filteredNodes h.distinct hsource, findNode_filteredNodes h.distinct htarget⟩
  have hlabels : ∀ e ∈ filteredEdges nodes edges,
      labelOf (filteredNodes nodes) e.source = labelOf nodes e.source ∧
        labelOf (filteredNodes nodes) e.target = labelOf nodes e.target := by
    intro e he
    exact ⟨congrArg (·.bind (·.label)) (hends e he).1,
      congrArg (·.bind (·.label)) (hends e he).2⟩
  have hsub : ∀ id, IsSubAgent (filteredEdges nodes edges) id → IsSubAgent edges id := by
    rintro id ⟨e, he, hcond⟩
    exact ⟨e, (mem_filteredEdges.mp he).1, hcond⟩
  have htool : ∀ e ∈ filteredEdges nodes edges, IsToolLink nodes e →
      IsToolLink (filteredNodes nodes) e := fun e he hlink =>
    ⟨(hlabels e he).1.trans hlink.source, hlink.handle, (hlabels e he).2.trans hlink.target⟩
  have hagent : ∀ e ∈ filteredEdges nodes edges, IsAgentLink nodes e →
      IsAgentLink (filteredNodes nodes) e := fun e he hlink =>
    ⟨(hlabels e he).1.trans hlink.source, hlink.bottom, hlink.top,
      (hlabels e he).2.trans hlink.target⟩
  have hedge : ∀ e ∈ filteredEdges nodes edges, e ∈ edges := fun e he =>
    (mem_filteredEdges.mp he).1
  constructor
  · constructor
    · exact h.distinct.sublist (List.filter_sublist.map _)
    · exact fun n hn => h.named n (List.mem_of_mem_filter hn)
    · intro e he
      rw [(hends e he).1, (hends e he).2]
      exact h.ends e (hedge e he)
    · intro e he hlabel
      exact htool e he (h.tools e (hedge e he) ((hlabels e he).2.symm.trans hlabel))
    · intro e he hid
      exact hagent e he (h.subAgents e (hedge e he) (hsub _ hid))
    · intro e he hid
      exact (h.below e (hedge e he) (hsub _ hid)).imp (htool e he) (hagent e he)
    · intro e he
      rw [(hlabels e he).1, (hlabels e he).2]
      exact h.notes e (hedge e he)
  · intro e he
    rw [(hlabels e he).1]
    exact h.toolsEnd e (hedge e he)
  · intro id hid
    exact ((List.filter_sublist.filter _).length_le).trans (h.single id (hsub id hid))

/-- No agent and no sub-agent is a placeholder. -/
theorem Shape.subAgent_filtered (h : Shape nodes edges) (a b : String) :
    SubAgent (filteredNodes nodes) (filteredEdges nodes edges) a b ↔
      SubAgent nodes edges a b := by
  have hlabel : ∀ {id}, labelOf nodes id = some .agent → labelOf nodes id ≠ some .placeholder := by
    intro id hid
    rw [hid]
    exact nofun
  have hkept : ∀ {id}, labelOf nodes id ≠ some .placeholder →
      labelOf (filteredNodes nodes) id = labelOf nodes id := by
    intro id hid
    rw [labelOf, labelOf, findNode_filteredNodes h.distinct hid]
  constructor
  · rintro ⟨hagent, e, he, rfl⟩
    obtain ⟨hedge, hsource, hhandle⟩ := mem_bottomSubAgentEdges.mp he
    obtain ⟨hmem, hplace, -⟩ := mem_filteredEdges.mp hedge
    rw [hsource] at hplace
    exact ⟨(hkept hplace).symm.trans hagent, e,
      mem_bottomSubAgentEdges.mpr ⟨hmem, hsource, hhandle⟩, rfl⟩
  · rintro ⟨hagent, e, he, rfl⟩
    have hlink := h.subAgent_link he
    obtain ⟨hedge, hsource, hhandle⟩ := mem_bottomSubAgentEdges.mp he
    refine ⟨(hkept (hlabel hagent)).trans hagent, e, ?_, rfl⟩
    exact mem_bottomSubAgentEdges.mpr
      ⟨mem_filteredEdges.mpr ⟨hedge, hlabel hlink.source, hlabel hlink.target⟩, hsource, hhandle⟩

/-- What is nested in the graph without placeholders is what is nested in the graph. -/
theorem NestedOnce.of_filtered (h : Shape nodes edges) {tools : List (AgentTool π)}
    (hagent : labelOf nodes id = some .agent)
    (hnested : NestedOnce (filteredNodes nodes) (filteredEdges nodes edges) id tools) :
    NestedOnce nodes edges id tools := by
  have hsame : SubAgent (filteredNodes nodes) (filteredEdges nodes edges) =
      SubAgent nodes edges := by
    funext a b
    exact propext (h.subAgent_filtered a b)
  have hmem : ∀ x, x ∈ nestedAgentIds tools ↔
      Relation.TransGen (SubAgent nodes edges) id x := by
    intro x
    rw [hnested.mem_iff, hsame]
  refine ⟨hnested.nodup, hmem, hnested.tools_eq.trans ?_⟩
  refine List.flatMap_congr fun x hx => ?_
  have hlabel : labelOf nodes x = some .agent := by
    rcases List.mem_cons.mp hx with rfl | hx
    · exact hagent
    · obtain ⟨b, -, hstep⟩ := Relation.TransGen.tail'_iff.mp ((hmem x).mp hx)
      exact h.subAgent_target hstep
  rw [toolsOf, toolsOf, findNode_filteredNodes h.distinct (by rw [hlabel]; exact nofun)]

end Placeholders

/-- The components that are compiled from a graph are closed. -/
theorem buildDslData_closed {π : Type*} [EmptyCollection π] {nodes : List (FlowNode π)}
    {edges : List Edge} (h : Treelike nodes edges) (T : Transforms π) :
    ∃ components, buildDslData T nodes edges = some components ∧
      Closed nodes edges components := by
  have hplace : ∀ n ∈ filteredNodes nodes, n.label ≠ some .placeholder := by
    intro n hn
    simpa using (List.mem_filter.mp hn).2
  obtain ⟨components, hbuild, hclosed⟩ := h.filtered.closed hplace T
  refine ⟨components, hbuild, hclosed.keys, fun id c hc hagent => ?_, hclosed.mirrored⟩
  refine NestedOnce.of_filtered h.toShape ?_ (hclosed.nested id c hc hagent)
  obtain ⟨n, hn, rfl, -, hcomp⟩ :=
    (get?_buildDslComponentsByGraph h.filtered.distinct hbuild id c).mp hc
  rw [labelOf_eq h.distinct (List.mem_of_mem_filter hn)]
  exact (builtFrom_of_buildComponent hcomp).componentName.symm.trans hagent

/-! ### Three graphs

An agent with a tool below its sub-agent; an agent with two sub-agents that share a third; and a
Tool node that leads on to a message.
-/

def flowNode (type : Operator) (id : String) : FlowNode (List String) where
  id := id
  label := some type
  parentId := none
  shared := false
  name := id
  tools := []
  items := []
  form := []

def flowEdge (source target sourceHandle targetHandle : String) : Edge where
  source := source
  target := target
  sourceHandle := some sourceHandle
  targetHandle := some targetHandle
  id := source ++ target

def identityTransforms : Transforms (List String) where
  parserParams := id
  tokenChunkerParams := id
  titleChunkerParams := id
  extractorParams := id
  dataOperationsParams := id
  beginParams := id
  removeUselessFieldsFromValues := id

def teamNodes : List (FlowNode (List String)) :=
  [flowNode .begin "begin", flowNode .agent "Agent:a",
    { flowNode .agent "Agent:b" with
      tools := [{ componentName := "Retrieval"
                  name := "Search"
                  id := "Retrieval:r"
                  params := [] }] },
    flowNode .tool "Tool:t"]

def teamEdges : List Edge :=
  [flowEdge "begin" "Agent:a" NodeHandleId.start NodeHandleId.endHandle,
    flowEdge "Agent:a" "Agent:b" NodeHandleId.agentBottom NodeHandleId.agentTop,
    flowEdge "Agent:b" "Tool:t" NodeHandleId.tool NodeHandleId.endHandle]

theorem team_treelike : Treelike teamNodes teamEdges where
  distinct := by decide
  named := by
    intro n hn
    simp only [teamNodes, List.mem_cons, List.not_mem_nil, or_false] at hn
    rcases hn with rfl | rfl | rfl | rfl
    · exact Or.inl ⟨rfl, rfl⟩
    · exact Or.inr ⟨.agent, "a", rfl, by decide⟩
    · exact Or.inr ⟨.agent, "b", rfl, by decide⟩
    · exact Or.inr ⟨.tool, "t", rfl, by decide⟩
  ends := by decide
  tools := by decide
  subAgents := by decide
  below := by decide
  notes := by decide
  toolsEnd := by decide
  single := by
    rintro id ⟨e, he, rfl, -⟩
    revert e
    decide

theorem buildDslData_closed_team :
    Treelike teamNodes teamEdges ∧
      ∃ components, buildDslData identityTransforms teamNodes teamEdges = some components ∧
        Closed teamNodes teamEdges components :=
  ⟨team_treelike, buildDslData_closed team_treelike identityTransforms⟩

def sharedNodes : List (FlowNode (List String)) :=
  [flowNode .agent "Agent:a", flowNode .agent "Agent:b", flowNode .agent "Agent:c",
    flowNode .agent "Agent:d"]

def sharedEdges : List Edge :=
  [flowEdge "Agent:a" "Agent:b" NodeHandleId.agentBottom NodeHandleId.agentTop,
    flowEdge "Agent:a" "Agent:c" NodeHandleId.agentBottom NodeHandleId.agentTop,
    flowEdge "Agent:b" "Agent:d" NodeHandleId.agentBottom NodeHandleId.agentTop,
    flowEdge "Agent:c" "Agent:d" NodeHandleId.agentBottom NodeHandleId.agentTop]

def toolNodes : List (FlowNode (List String)) :=
  [flowNode .agent "Agent:a", flowNode .tool "Tool:t", flowNode .message "Message:m"]

def toolEdges : List Edge :=
  [flowEdge "Agent:a" "Tool:t" NodeHandleId.tool NodeHandleId.endHandle,
    flowEdge "Tool:t" "Message:m" NodeHandleId.start NodeHandleId.endHandle]

theorem shared_shape : Shape sharedNodes sharedEdges where
  distinct := by decide
  named := by
    intro n hn
    simp only [sharedNodes, List.mem_cons, List.not_mem_nil, or_false] at hn
    rcases hn with rfl | rfl | rfl | rfl
    · exact Or.inr ⟨.agent, "a", rfl, by decide⟩
    · exact Or.inr ⟨.agent, "b", rfl, by decide⟩
    · exact Or.inr ⟨.agent, "c", rfl, by decide⟩
    · exact Or.inr ⟨.agent, "d", rfl, by decide⟩
  ends := by decide
  tools := by decide
  subAgents := by decide
  below := by decide
  notes := by decide

theorem tool_shape : Shape toolNodes toolEdges where
  distinct := by decide
  named := by
    intro n hn
    simp only [toolNodes, List.mem_cons, List.not_mem_nil, or_false] at hn
    rcases hn with rfl | rfl | rfl
    · exact Or.inr ⟨.agent, "a", rfl, by decide⟩
    · exact Or.inr ⟨.tool, "t", rfl, by decide⟩
    · exact Or.inr ⟨.message, "m", rfl, by decide⟩
  ends := by decide
  tools := by decide
  subAgents := by decide
  below := by decide
  notes := by decide

/-- A sub-agent with two agents above it is nested twice in the agent above these, and what
follows a Tool node lists the Tool as its upstream. -/
theorem shapes_not_closed :
    (Shape sharedNodes sharedEdges ∧
      ¬ ∃ components, buildDslData identityTransforms sharedNodes sharedEdges = some components ∧
        Closed sharedNodes sharedEdges components) ∧
    (Shape toolNodes toolEdges ∧
      ¬ ∃ components, buildDslData identityTransforms toolNodes toolEdges = some components ∧
        Closed toolNodes toolEdges components) := by
  refine ⟨⟨shared_shape, ?_⟩, ⟨tool_shape, ?_⟩⟩
  · rintro ⟨components, hbuild, hclosed⟩
    have hnested : ((buildDslData identityTransforms sharedNodes sharedEdges).bind fun components =>
        (components.get? "Agent:a").map fun c =>
          (c.componentName, nestedAgentIds c.params.tools)) =
        some (some .agent, ["Agent:b", "Agent:d", "Agent:c", "Agent:d"]) := by decide
    rw [hbuild, Option.bind_some] at hnested
    obtain ⟨c, hc, heq⟩ := Option.map_eq_some_iff.mp hnested
    obtain ⟨hname, hids⟩ := Prod.mk.inj heq
    have hnodup := (hclosed.nested "Agent:a" c hc hname).nodup
    rw [hids] at hnodup
    exact absurd hnodup (by decide)
  · rintro ⟨components, hbuild, hclosed⟩
    have hupstream : ((buildDslData identityTransforms toolNodes toolEdges).bind fun components =>
        (components.get? "Message:m").map fun c => (c.linked, components.keys)) =
        some (["Tool:t"], ["Agent:a", "Message:m"]) := by decide
    rw [hbuild, Option.bind_some] at hupstream
    obtain ⟨c, hc, heq⟩ := Option.map_eq_some_iff.mp hupstream
    obtain ⟨hlinked, hkeys⟩ := Prod.mk.inj heq
    have hkey := hclosed.keys "Message:m" c hc "Tool:t" (by rw [hlinked]; simp)
    rw [Dict.mem_iff, hkeys] at hkey
    exact absurd hkey (by decide)

end RagFlow.Editor
