/-
# The index and the graph

Beside the graph the store has an entity row for each node and a relation row for each
edge, which are written by `set_graph` where a step has noted a change. The rows of a node
or an edge that is updated are written anew, but the old ones are not deleted; and what a
step changes without noting it, such as page ranks, is not written.
-/

import RagFlow.GraphRag.EntityResolution
import RagFlow.GraphRag.Index
import Mathlib.Logic.Relation

namespace RagFlow.GraphRag

open RagFlow.Math

/-! ## Steps -/

/-- A subgraph is merged, or entities of the stored graph are resolved; `set_graph` follows. -/
inductive GraphStep where
  | merge (subgraph : KnowledgeGraph)
  | resolve (components : Components)

def GraphStep.run (env : ResolveEnv) (rows : Rows) : GraphStep → Except KeyError Rows
  | .merge subgraph => mergeSubgraph env.toBuildEnv rows subgraph
  | .resolve components => do
    let graph ← require "graph" (intactGraph rows)
    resolveEntities env rows graph components

/-- The graph in the store, empty before the first step. -/
def storedGraph (rows : Rows) : KnowledgeGraph :=
  (intactGraph rows).getD { toGraph := Graph.empty }

/-- There is one entity row for each node and one relation row for each edge, with the
current attributes, and no other. -/
structure InStep (rows : Rows) : Prop where
  stored : intactGraph rows = none → rows.find? Row.isGraph = none
  entities : ∀ n, entityRows rows n = ((storedGraph rows).nodes.get? n).toList
  relations : ∀ e, relationRows rows e = ((storedGraph rows).edges.get? e).toList

/-- The attributes are complete, and the rank is the degree. -/
structure Settled (g : KnowledgeGraph) : Prop where
  nodes : ∀ n a, g.nodes.get? n = some a → a.isValid = true ∧ a.rank = some (g.degree n)
  edges : ∀ e w, g.edges.get? e = some w → w.isValid = true ∧ w.keywords.isSome = true

/-- Merging keeps the index in step with a graph that the subgraph shares no node with,
that is settled and whose page ranks do not change. -/
structure MergeKeeps (env : ResolveEnv) (g subgraph : KnowledgeGraph) : Prop where
  apart : ∀ n ∈ subgraph.nodes, n ∉ g.nodes
  settled : Settled g
  pagerank : ∀ merged change, graphMerge (tidyGraph g true) subgraph {} = .ok (merged, change) →
    ∀ n a, g.nodes.get? n = some a → a.pagerank = some (env.pagerank merged n)

/-- The steps after which the index is in step again. -/
def GraphStep.Keeps (env : ResolveEnv) (rows : Rows) : GraphStep → Prop
  | .merge subgraph =>
    (∀ e w, subgraph.edges.get? e = some w → w.isEmpty = false) ∧
      ∀ g, intactGraph rows = some g → MergeKeeps env g subgraph
  | .resolve components => components.groups = [] ∧
      ∀ g, intactGraph rows = some g →
        ∀ n a, g.nodes.get? n = some a → a.pagerank = some (env.pagerank g n)

/-! ## Merging -/

variable {env : ResolveEnv} {rows rows' : Rows} {g subgraph merged : KnowledgeGraph}
  {change : GraphChange}

theorem get?_edges_tidyGraph (hnodes : ∀ n a, g.nodes.get? n = some a → a.isValid = true)
    (e : Sym2 String) :
    (tidyGraph g true).edges.get? e = ((g.edges.get? e).filter EdgeAttr.isValid).map fun w =>
      { w with keywords := some (w.keywords.getD []) } := by
  have hends : ∀ w, g.edges.get? e = some w →
      ∀ k ∈ e.toFinset, k ∈ g.nodes.filter fun _ a => a.isValid := by
    intro w hw k hk
    have hk := g.closed e (Dict.mem_of_get? hw) k (Sym2.mem_toFinset.mp hk)
    obtain ⟨a, ha⟩ := Option.isSome_iff_exists.mp (Dict.mem_iff_isSome.mp hk)
    apply Dict.mem_of_get? (v := a)
    rw [Dict.get?_filter, ha, Option.filter_some, if_pos (hnodes k a ha)]
  simp only [tidyGraph, ↓reduceIte, Graph.filterEdges, Graph.mapEdges, Graph.filterNodes,
    Dict.get?_filter, Dict.get?_mapValues]
  cases hw : g.edges.get? e with
  | none => rfl
  | some w =>
      rw [Option.filter_some, if_pos (decide_eq_true (hends w hw)), Option.filter_some]
      show Option.filter EdgeAttr.isValid
        (some { w with keywords := some (w.keywords.getD []) }) = _
      rw [Option.filter_some]
      have hsame : EdgeAttr.isValid { w with keywords := some (w.keywords.getD []) } = w.isValid :=
        rfl
      rw [hsame]
      split_ifs <;> rfl

theorem get?_eq_none_iff {κ β : Type} [DecidableEq κ] {d : Dict κ β} {k : κ} :
    d.get? k = none ↔ k ∉ d := by
  rw [Dict.mem_iff_isSome, Option.not_isSome_iff_eq_none]

/-- The nodes and edges of `added` are written, and nothing is deleted. -/
structure WritesOf (added : KnowledgeGraph) (change : GraphChange) : Prop where
  removedNodes : change.removedNodes = []
  removedEdges : change.removedEdges = []
  nodes : change.addedUpdatedNodes = added.nodes.keys
  edges : change.addedUpdatedEdges.map (fun p => s(p.1, p.2)) = added.edges.keys

theorem entityRows_of_writes (h : setGraph rows g change = .ok rows')
    (hw : WritesOf subgraph change) (n : String) :
    entityRows rows' n = entityRows rows n ++
      if n ∈ subgraph.nodes then (g.nodes.get? n).toList else [] := by
  have hkeys : (subgraph.nodes.keys.map fun k => k) = subgraph.nodes.keys := List.map_id' _
  have hnodup : (subgraph.nodes.keys.map fun k => k).Nodup := hkeys.symm ▸ subgraph.nodes.nodup
  rw [entityRows_setGraph h, hw.removedNodes, hw.nodes, if_neg List.not_mem_nil,
    filterMap_unique hnodup, hkeys]
  rfl

theorem relationRows_of_writes (h : setGraph rows g change = .ok rows')
    (hw : WritesOf subgraph change) (e : Sym2 String) :
    relationRows rows' e = relationRows rows e ++
      if e ∈ subgraph.edges then ((g.edges.get? e).filter fun w => !w.isEmpty).toList else [] := by
  have hnodup : (change.addedUpdatedEdges.map fun p => s(p.1, p.2)).Nodup :=
    hw.edges.symm ▸ subgraph.edges.nodup
  rw [relationRows_setGraph h hw.removedEdges, filterMap_unique hnodup, hw.edges]
  rfl

/-- The ends of the edges, in any order of the two, stand for the edges. -/
theorem map_ends (g : KnowledgeGraph) {order : String × String → String × String}
    (horder : ∀ p, s((order p).1, (order p).2) = s(p.1, p.2)) :
    (g.edges.keys.map fun e => order (g.ends e)).map (fun p => s(p.1, p.2)) = g.edges.keys := by
  rw [List.map_map]
  have hid : ∀ e ∈ g.edges.keys,
      ((fun p : String × String => s(p.1, p.2)) ∘ fun e => order (g.ends e)) e = id e := by
    intro e he
    exact (horder (g.ends e)).trans (Graph.mk_ends he)
  rw [List.map_congr_left hid, List.map_id]

/-- The first subgraph is written as it is, with page ranks. -/
theorem mergeSubgraph_first (hnone : rows.find? Row.isGraph = none)
    (h : mergeSubgraph env.toBuildEnv rows subgraph = .ok rows') :
    ∃ final : KnowledgeGraph, intactGraph rows' = some final ∧
      (∀ n, final.nodes.get? n = (subgraph.nodes.get? n).map fun a =>
        { a with pagerank := some (env.pagerank subgraph n) }) ∧
      final.edges = subgraph.edges ∧
      ∃ change, setGraph rows final change = .ok rows' ∧ WritesOf subgraph change := by
  obtain ⟨sources, -, h⟩ := bind_eq_ok.mp h
  have hget : getGraph rows sources = none := by rw [getGraph, hnone]
  rw [hget] at h
  refine ⟨_, intactGraph_setGraph h, fun n => Dict.get?_mapValues _ _ n, rfl, _, h, rfl, rfl, rfl,
    ?_⟩
  exact map_ends subgraph (fun p => rfl)

/-- A further subgraph is merged into the graph, and its nodes and edges are written. -/
theorem mergeSubgraph_more (hg : intactGraph rows = some g)
    (h : mergeSubgraph env.toBuildEnv rows subgraph = .ok rows') :
    ∃ (plain : PlainGraph) (merged : KnowledgeGraph) (noted : GraphChange),
      Graph.merge mergeNode mergeEdge (tidyGraph g true).toGraph subgraph.toGraph = .ok plain ∧
      graphMerge (tidyGraph g true) subgraph {} = .ok (merged, noted) ∧
      ∃ final : KnowledgeGraph, intactGraph rows' = some final ∧
        (∀ n, final.nodes.get? n = (plain.nodes.get? n).map fun a => { a with
          rank := some (plain.degree n)
          pagerank := some (env.pagerank merged n) }) ∧
        final.edges = plain.edges ∧
        ∃ change, setGraph rows final change = .ok rows' ∧ WritesOf subgraph change := by
  obtain ⟨sources, -, h⟩ := bind_eq_ok.mp h
  rw [getGraph_of_intact hg] at h
  obtain ⟨⟨merged, noted⟩, hmerge, h⟩ := bind_eq_ok.mp h
  obtain ⟨plain, hplain, hpure⟩ := bind_eq_ok.mp hmerge
  obtain ⟨rfl, rfl⟩ := Prod.mk.inj (pure_eq_ok.mp hpure)
  refine ⟨plain, _, _, hplain, hmerge, _, intactGraph_setGraph h, fun n => ?_, rfl, _, h,
    rfl, rfl, ?_, ?_⟩
  · simp only [Graph.mapNodes, Dict.get?_mapValues, Option.map_map]
    rfl
  · exact List.nil_union _
  · show (([] ∪ subgraph.edges.keys.map fun e => getFromTo (subgraph.ends e)).map
      fun p => s(p.1, p.2)) = _
    rw [List.nil_union]
    exact map_ends subgraph mk_getFromTo

theorem storedGraph_of_some (h : intactGraph rows = some g) : storedGraph rows = g := by
  rw [storedGraph, h, Option.getD_some]

/-- After a step the index is in step iff it is with the graph that the step has stored. -/
theorem inStep_iff (h : intactGraph rows = some g) :
    InStep rows ↔ (∀ n, entityRows rows n = (g.nodes.get? n).toList) ∧
      ∀ e, relationRows rows e = (g.edges.get? e).toList := by
  constructor
  · intro hin
    rw [← storedGraph_of_some h]
    exact ⟨hin.entities, hin.relations⟩
  · rintro ⟨hentities, hrelations⟩
    rw [← storedGraph_of_some h] at hentities hrelations
    refine ⟨fun hnone => ?_, hentities, hrelations⟩
    rw [h] at hnone
    cases hnone

theorem toList_filter_eq_iff {α : Type} {p : α → Bool} {x : Option α} :
    (x.filter p).toList = x.toList ↔ ∀ a, x = some a → p a = true := by
  cases x with
  | none => simp
  | some a =>
      by_cases hp : p a = true
      · simp [Option.filter_some, hp]
      · simp [Option.filter_some, hp]

/-- Into an empty store, a subgraph is merged well iff no edge of it is without attributes. -/
theorem merge_first_iff (hin : InStep rows) (hnone : intactGraph rows = none)
    (h : mergeSubgraph env.toBuildEnv rows subgraph = .ok rows') :
    InStep rows' ↔ ∀ e w, subgraph.edges.get? e = some w → w.isEmpty = false := by
  obtain ⟨final, hfinal, hnodes, hedges, change, hset, hwrites⟩ :=
    mergeSubgraph_first (hin.stored hnone) h
  have hempty : storedGraph rows = { toGraph := Graph.empty } := by
    rw [storedGraph, hnone, Option.getD_none]
  have hentities : ∀ n, entityRows rows' n = (final.nodes.get? n).toList := by
    intro n
    rw [entityRows_of_writes hset hwrites, hin.entities, hempty]
    by_cases hn : n ∈ subgraph.nodes
    · rw [if_pos hn]
      rfl
    · rw [if_neg hn, hnodes, get?_eq_none_iff.mpr hn]
      rfl
  have hrelations : ∀ e, relationRows rows' e =
      ((final.edges.get? e).filter fun w => !w.isEmpty).toList := by
    intro e
    rw [relationRows_of_writes hset hwrites, hin.relations, hempty]
    by_cases he : e ∈ subgraph.edges
    · rw [if_pos he]
      rfl
    · rw [if_neg he, hedges, get?_eq_none_iff.mpr he]
      rfl
  rw [inStep_iff hfinal, and_iff_right hentities]
  apply forall_congr'
  intro e
  rw [hrelations, toList_filter_eq_iff, hedges]
  simp

theorem toList_eq_map_filter_iff {α : Type} {p : α → Bool} {f : α → α} {x : Option α} :
    x.toList = ((x.filter p).map f).toList ↔ ∀ a, x = some a → p a = true ∧ f a = a := by
  cases x with
  | none => simp
  | some a =>
      by_cases hp : p a = true
      · have hone : [a] = [f a] ↔ f a = a :=
          ⟨fun h => (List.singleton_inj.mp h).symm, fun h => by rw [h]⟩
        simpa [Option.filter_some, hp] using hone
      · simp [Option.filter_some, hp]

/-- A row beside one that is there already is one too many. -/
theorem toList_append_toList_eq_iff {α : Type} {x y : Option α} (hy : y.isSome) :
    x.toList ++ y.toList = y.toList ↔ x = none := by
  cases x with
  | none => simp
  | some a =>
      obtain ⟨b, rfl⟩ := Option.isSome_iff_exists.mp hy
      simp

section Apart

variable {plain : PlainGraph} {final : KnowledgeGraph}
  (hplain : Graph.merge mergeNode mergeEdge (tidyGraph g true).toGraph subgraph.toGraph = .ok plain)
  (hapart : ∀ n ∈ subgraph.nodes, n ∉ g.nodes)
  (hvalid : ∀ n a, g.nodes.get? n = some a → a.isValid = true)

include hapart in
/-- Graphs without a common node have no common edge. -/
theorem not_mem_edges_of_apart {e : Sym2 String} (h : e ∈ subgraph.edges) : e ∉ g.edges := by
  induction e using Sym2.ind with
  | _ a b =>
    have ha := subgraph.closed _ h a (Sym2.mem_mk_left a b)
    exact fun hg => hapart a ha (g.closed _ hg a (Sym2.mem_mk_left a b))

include hplain hapart hvalid

/-- The edges of the merged graph are those of the subgraph, and the old ones, tidied. -/
theorem edges_of_apart (e : Sym2 String) :
    plain.edges.get? e = if e ∈ subgraph.edges then subgraph.edges.get? e else
      ((g.edges.get? e).filter EdgeAttr.isValid).map fun w =>
        { w with keywords := some (w.keywords.getD []) } := by
  have hmerge := Dict.merge_get? (Graph.merge_edges hplain) e
  rw [get?_edges_tidyGraph hvalid] at hmerge
  by_cases he : e ∈ subgraph.edges
  · obtain ⟨w, hw⟩ := Option.isSome_iff_exists.mp (Dict.mem_iff_isSome.mp he)
    rw [get?_eq_none_iff.mpr (not_mem_edges_of_apart hapart he), hw] at hmerge
    rw [if_pos he, hw]
    exact (Except.ok.inj hmerge).symm
  · rw [get?_eq_none_iff.mpr he] at hmerge
    rw [if_neg he]
    exact (Except.ok.inj hmerge).symm

/-- The degree of an old node is what it was. -/
theorem degree_of_apart (hedges : ∀ e w, g.edges.get? e = some w →
    w.isValid = true ∧ w.keywords.isSome = true) {n : String} (hn : n ∈ g.nodes) :
    plain.degree n = g.degree n := by
  apply Graph.degree_congr
  intro e he
  have hother : e ∉ subgraph.edges := fun hsub => hapart n (subgraph.closed e hsub n he) hn
  rw [Dict.mem_iff_isSome, Dict.mem_iff_isSome, edges_of_apart hplain hapart hvalid, if_neg hother,
    Option.isSome_map]
  cases hw : g.edges.get? e with
  | none => rfl
  | some w => rw [Option.filter_some, if_pos (hedges e w hw).1]

/-- The relation rows are in step iff the edges of the subgraph have attributes and the old
ones are complete. -/
theorem relations_iff (hbefore : ∀ e, relationRows rows e = (g.edges.get? e).toList)
    (hfinal : final.edges = plain.edges) (hset : setGraph rows final change = .ok rows')
    (hwrites : WritesOf subgraph change) :
    (∀ e, relationRows rows' e = (final.edges.get? e).toList) ↔
      (∀ e w, subgraph.edges.get? e = some w → w.isEmpty = false) ∧
      ∀ e w, g.edges.get? e = some w → w.isValid = true ∧ w.keywords.isSome = true := by
  have hnew : ∀ e ∈ subgraph.edges, (relationRows rows' e = (final.edges.get? e).toList ↔
      ∀ w, subgraph.edges.get? e = some w → w.isEmpty = false) := by
    intro e he
    rw [relationRows_of_writes hset hwrites, if_pos he, hbefore,
      get?_eq_none_iff.mpr (not_mem_edges_of_apart hapart he), Option.toList_none, List.nil_append,
      toList_filter_eq_iff, hfinal, edges_of_apart hplain hapart hvalid, if_pos he]
    simp
  have hold : ∀ e, e ∉ subgraph.edges → (relationRows rows' e = (final.edges.get? e).toList ↔
      ∀ w, g.edges.get? e = some w → w.isValid = true ∧ w.keywords.isSome = true) := by
    intro e he
    rw [relationRows_of_writes hset hwrites, if_neg he, List.append_nil, hbefore, hfinal,
      edges_of_apart hplain hapart hvalid, if_neg he, toList_eq_map_filter_iff]
    apply forall_congr'
    intro w
    apply imp_congr_right
    intro _
    apply and_congr_right
    intro _
    cases w with
    | mk weight description keywords sourceId =>
      cases keywords with
      | none => simp
      | some k => simp
  constructor
  · intro h
    constructor
    · intro e w hw
      exact (hnew e (Dict.mem_of_get? hw)).mp (h e) w hw
    · intro e w hw
      have hother : e ∉ subgraph.edges := fun hsub =>
        not_mem_edges_of_apart hapart hsub (Dict.mem_of_get? hw)
      exact (hold e hother).mp (h e) w hw
  · rintro ⟨hfull, hcomplete⟩ e
    by_cases he : e ∈ subgraph.edges
    · exact (hnew e he).mpr (hfull e)
    · exact (hold e he).mpr (hcomplete e)

end Apart

/-- Into a graph, a subgraph is merged well iff moreover the merge keeps what is there. -/
theorem merge_more_iff (hin : InStep rows) (hg : intactGraph rows = some g)
    (h : mergeSubgraph env.toBuildEnv rows subgraph = .ok rows') :
    InStep rows' ↔ (∀ e w, subgraph.edges.get? e = some w → w.isEmpty = false) ∧
      MergeKeeps env g subgraph := by
  obtain ⟨plain, merged, noted, hplain, hmerge, final, hfinal, hnodes, hedges, change, hset,
    hwrites⟩ := mergeSubgraph_more hg h
  have hbefore := (inStep_iff hg).mp hin
  -- Node by node: a node of the subgraph is new, and another one stays as it is.
  have hnew : ∀ n ∈ subgraph.nodes,
      (entityRows rows' n = (final.nodes.get? n).toList ↔ n ∉ g.nodes) := by
    intro n hn
    have hsome : (final.nodes.get? n).isSome := by
      rw [hnodes, Option.isSome_map, ← Dict.mem_iff_isSome]
      exact (Dict.mem_merge (Graph.merge_nodes hplain)).mpr (Or.inr hn)
    rw [entityRows_of_writes hset hwrites, if_pos hn, hbefore.1,
      toList_append_toList_eq_iff hsome, get?_eq_none_iff]
  have hold : ∀ n, n ∉ subgraph.nodes →
      (entityRows rows' n = (final.nodes.get? n).toList ↔
        ∀ a, g.nodes.get? n = some a → a.isValid = true ∧ a.rank = some (plain.degree n) ∧
          a.pagerank = some (env.pagerank merged n)) := by
    intro n hn
    have hmerged := Dict.merge_get? (Graph.merge_nodes hplain) n
    rw [get?_eq_none_iff.mpr hn, get?_tidyGraph] at hmerged
    have hplainNode : plain.nodes.get? n = (g.nodes.get? n).filter NodeAttr.isValid :=
      (Except.ok.inj hmerged).symm
    rw [entityRows_of_writes hset hwrites, if_neg hn, List.append_nil, hbefore.1, hnodes,
      hplainNode, toList_eq_map_filter_iff]
    apply forall_congr'
    intro a
    apply imp_congr_right
    intro _
    apply and_congr_right
    intro _
    cases a
    simp [eq_comm]
  constructor
  · intro hafter
    obtain ⟨hentities, hrelations⟩ := (inStep_iff hfinal).mp hafter
    have hapart : ∀ n ∈ subgraph.nodes, n ∉ g.nodes := fun n hn => (hnew n hn).mp (hentities n)
    have hkept : ∀ n a, g.nodes.get? n = some a → a.isValid = true ∧
        a.rank = some (plain.degree n) ∧ a.pagerank = some (env.pagerank merged n) := by
      intro n a ha
      have hn : n ∉ subgraph.nodes := fun hn => hapart n hn (Dict.mem_of_get? ha)
      exact (hold n hn).mp (hentities n) a ha
    have hedgesIff := relations_iff hplain hapart (fun n a ha => (hkept n a ha).1)
      hbefore.2 hedges hset hwrites
    obtain ⟨hfull, hvalid⟩ := hedgesIff.mp hrelations
    refine ⟨hfull, hapart, ⟨fun n a ha => ⟨(hkept n a ha).1, ?_⟩, hvalid⟩, ?_⟩
    · rw [(hkept n a ha).2.1, degree_of_apart hplain hapart (fun n a ha => (hkept n a ha).1)
        hvalid (Dict.mem_of_get? ha)]
    · intro merged' noted' hmerge' n a ha
      obtain ⟨rfl, -⟩ := Prod.mk.inj (Except.ok.inj (hmerge.symm.trans hmerge'))
      exact (hkept n a ha).2.2
  · rintro ⟨hfull, hkeeps⟩
    have hvalid : ∀ n a, g.nodes.get? n = some a → a.isValid = true :=
      fun n a ha => (hkeeps.settled.nodes n a ha).1
    apply (inStep_iff hfinal).mpr
    constructor
    · intro n
      by_cases hn : n ∈ subgraph.nodes
      · exact (hnew n hn).mpr (hkeeps.apart n hn)
      · apply (hold n hn).mpr
        intro a ha
        refine ⟨hvalid n a ha, ?_, hkeeps.pagerank merged noted hmerge n a ha⟩
        rw [(hkeeps.settled.nodes n a ha).2, degree_of_apart hplain hkeeps.apart hvalid
          hkeeps.settled.edges (Dict.mem_of_get? ha)]
    · exact (relations_iff hplain hkeeps.apart hvalid hbefore.2 hedges hset hwrites).mpr
        ⟨hfull, hkeeps.settled.edges⟩

/-! ## Resolving entities -/

/-- What is noted for a list of groups: nothing that was noted as changed is forgotten, and
only nodes of the groups are noted as removed. -/
theorem mergeGroups_noted {groups : List (List String)} (htwo : ∀ group ∈ groups, 2 ≤ group.length)
    {r r' : Resolving} (h : groups.foldlM (mergeGraphNodes env) r = .ok r') :
    (∀ n ∈ r.2.addedUpdatedNodes, n ∈ r'.2.addedUpdatedNodes) ∧
      ∀ n ∈ r'.2.removedNodes, n ∈ r.2.removedNodes ∨ n ∈ groups.flatten := by
  induction groups generalizing r with
  | nil =>
      obtain rfl : r = r' := by simpa using h
      exact ⟨fun n hn => hn, fun n hn => Or.inl hn⟩
  | cons group groups ih =>
      rw [List.foldlM_cons] at h
      obtain ⟨u, hu, hgroups⟩ := bind_eq_ok.mp h
      obtain ⟨node0, rest, rfl, -, hadded, hremoved⟩ :=
        mergeGraphNodes_noted hu (htwo group List.mem_cons_self)
      obtain ⟨hkept, honly⟩ := ih (fun c hc => htwo c (List.mem_cons_of_mem _ hc)) hgroups
      constructor
      · intro n hn
        apply hkept
        rw [hadded]
        exact List.mem_insert_of_mem hn
      · intro n hn
        rw [List.flatten_cons, List.mem_append]
        rcases honly n hn with hfirst | hrest
        · rw [hremoved] at hfirst
          rcases List.mem_union_iff.mp hfirst with hold | hnew
          · exact Or.inl hold
          · exact Or.inr (Or.inl (List.mem_cons_of_mem node0 hnew))
        · exact Or.inr (Or.inr hrest)

/-- The first node of the first group is noted as changed, and not as removed. -/
theorem exists_updated {components : Components} (hne : components.groups ≠ [])
    {p : PlainGraph} (h : components.groups.foldlM (mergeGraphNodes env) (g.toGraph, {}) =
      .ok (p, change)) :
    ∃ n ∈ g.nodes, n ∈ change.addedUpdatedNodes ∧ n ∉ change.removedNodes := by
  obtain ⟨groups, hnodup, htwo⟩ := components
  cases groups with
  | nil => exact absurd rfl hne
  | cons group groups =>
      simp only [List.foldlM_cons] at h
      obtain ⟨u, hu, hgroups⟩ := bind_eq_ok.mp h
      obtain ⟨node0, rest, rfl, hmem, hadded, hremoved⟩ :=
        mergeGraphNodes_noted hu (htwo group List.mem_cons_self)
      obtain ⟨hkept, honly⟩ :=
        mergeGroups_noted (fun c hc => htwo c (List.mem_cons_of_mem _ hc)) hgroups
      rw [List.flatten_cons, List.cons_append, List.nodup_cons, List.mem_append, not_or] at hnodup
      refine ⟨node0, hmem, hkept node0 ?_, fun hgone => ?_⟩
      · rw [hadded]
        exact List.mem_insert_self
      · rcases honly node0 hgone with hfirst | hrest
        · rw [hremoved] at hfirst
          rcases List.mem_union_iff.mp hfirst with hold | hnew
          · exact absurd hold List.not_mem_nil
          · exact hnodup.1.1 hnew
        · exact hnodup.1.2 hrest

/-- A node that stays and is noted as changed has a row too many afterwards. -/
theorem not_inStep_of_updated {final : KnowledgeGraph}
    (hset : setGraph rows final change = .ok rows') {n : String} {a : NodeAttr}
    (hrow : entityRows rows n = [a]) (hadded : n ∈ change.addedUpdatedNodes)
    (hkept : n ∉ change.removedNodes) :
    entityRows rows' n ≠ (final.nodes.get? n).toList := by
  intro hafter
  rw [entityRows_setGraph hset, if_neg hkept, hrow] at hafter
  cases hn : final.nodes.get? n with
  | none =>
      rw [hn] at hafter
      cases hafter
  | some b =>
      rw [hn, List.singleton_append] at hafter
      have hnil := (List.cons.inj hafter).2
      rw [List.filterMap_eq_nil_iff] at hnil
      have hnone := hnil n hadded
      rw [if_pos rfl] at hnone
      cases hnone

/-- Resolving entities leaves the index in step iff there is nothing to merge and no page
rank changes. -/
theorem resolve_iff {components : Components} (hin : InStep rows) (hg : intactGraph rows = some g)
    (h : resolveEntities env rows g components = .ok rows') :
    InStep rows' ↔ components.groups = [] ∧
      ∀ n a, g.nodes.get? n = some a → a.pagerank = some (env.pagerank g n) := by
  obtain ⟨hentities, hrelations⟩ := (inStep_iff hg).mp hin
  obtain ⟨⟨p, change⟩, hfold, hset⟩ := bind_eq_ok.mp h
  rw [inStep_iff (intactGraph_setGraph hset)]
  by_cases hnone : components.groups = []
  · rw [hnone] at hfold
    obtain ⟨rfl, rfl⟩ := Prod.mk.inj (pure_eq_ok.mp hfold)
    have hrows : ∀ n, entityRows rows' n = (g.nodes.get? n).toList := by
      intro n
      rw [entityRows_setGraph hset, if_neg List.not_mem_nil, hentities]
      exact List.append_nil _
    have hranked : ∀ n, ((g.nodes.get? n).toList = ((g.nodes.get? n).map fun a =>
        { a with pagerank := some (env.pagerank g n) }).toList ↔
        ∀ a, g.nodes.get? n = some a → a.pagerank = some (env.pagerank g n)) := by
      intro n
      cases g.nodes.get? n with
      | none => simp
      | some a =>
          cases a
          simp
    constructor
    · rintro ⟨hafter, -⟩
      refine ⟨hnone, fun n => (hranked n).mp ?_⟩
      rw [← hrows, hafter]
      exact congrArg Option.toList (Dict.get?_mapValues _ _ n)
    · rintro ⟨-, hpagerank⟩
      constructor
      · intro n
        rw [hrows, (hranked n).mpr (hpagerank n)]
        symm
        exact congrArg Option.toList (Dict.get?_mapValues _ _ n)
      · intro e
        rw [relationRows_setGraph hset rfl, hrelations]
        exact List.append_nil _
  · -- The row of an updated node is there already, and is written once more.
    obtain ⟨n, hmem, hadded, hkept⟩ := exists_updated hnone hfold
    obtain ⟨a, ha⟩ := Option.isSome_iff_exists.mp (Dict.mem_iff_isSome.mp hmem)
    have hrow : entityRows rows n = [a] := by
      rw [hentities, ha]
      rfl
    constructor
    · exact fun hafter => absurd (hafter.1 n) (not_inStep_of_updated hset hrow hadded hkept)
    · exact fun hkeeps => absurd hkeeps.1 hnone

/-! ## Steps and runs -/

/-- A step after which the index is in step again. -/
def KeepingStep (env : ResolveEnv) (rows rows' : Rows) : Prop :=
  ∃ step : GraphStep, step.run env rows = .ok rows' ∧ step.Keeps env rows

theorem step_iff (hin : InStep rows) {step : GraphStep} (h : step.run env rows = .ok rows') :
    InStep rows' ↔ step.Keeps env rows := by
  cases step with
  | merge subgraph =>
      cases hgraph : intactGraph rows with
      | none =>
          rw [merge_first_iff hin hgraph h, GraphStep.Keeps, hgraph]
          simp
      | some g =>
          rw [merge_more_iff hin hgraph h, GraphStep.Keeps, hgraph]
          simp
  | resolve components =>
      obtain ⟨g, hg, h⟩ := bind_eq_ok.mp h
      have hg := require_eq_ok.mp hg
      rw [resolve_iff hin hg h, GraphStep.Keeps, hg]
      simp

/-- From a store in step, a step leads to a store in step iff it is one of those that keep
it so; and in every run of such steps all stores are in step. -/
theorem index_stays_in_step (hin : InStep rows) :
    (∀ step : GraphStep, ∀ rows', step.run env rows = .ok rows' →
      (InStep rows' ↔ step.Keeps env rows)) ∧
    ∀ rows', Relation.ReflTransGen (KeepingStep env) rows rows' → InStep rows' := by
  refine ⟨fun step rows' h => step_iff hin h, fun rows' hrun => ?_⟩
  induction hrun with
  | refl => exact hin
  | tail _ hstep ih =>
      obtain ⟨step, hrun, hkeeps⟩ := hstep
      exact (step_iff ih hrun).mpr hkeeps

/-! ## A graph of one person -/

def annOf (source : String) : NodeAttr :=
  { entityType := some "PERSON", description := some "an author", sourceId := some [source] }

/-- The subgraph of a document that names one person. -/
def annSubgraph (source : String) : KnowledgeGraph where
  nodes := { entries := [("ANN", annOf source)], nodup := List.nodup_singleton _ }
  edges := Dict.empty
  closed := fun _ h => absurd h List.not_mem_nil
  sourceId := some [source]

def plainEnv : ResolveEnv where
  extract _ _ := none
  pagerank _ _ := 1
  summary _ description := description

theorem inStep_nil : InStep [] := ⟨fun _ => rfl, fun _ => rfl, fun _ => rfl⟩

/-- Merging the first document keeps the index in step. -/
theorem index_stays_in_step_first :
    ∃ rows', GraphStep.run plainEnv [] (.merge (annSubgraph "d")) = .ok rows' ∧ InStep rows' := by
  have hrun : GraphStep.run plainEnv [] (.merge (annSubgraph "d")) = .ok _ := rfl
  refine ⟨_, hrun, ((index_stays_in_step inStep_nil).1 _ _ hrun).mpr ⟨?_, ?_⟩⟩
  · intro e w he
    cases he
  · intro g hg
    cases hg

/-- Merging a second document that names the same person gives it a second row. -/
theorem updated_node_has_two_rows :
    ∃ rows rows', GraphStep.run plainEnv [] (.merge (annSubgraph "d")) = .ok rows ∧
      InStep rows ∧ GraphStep.run plainEnv rows (.merge (annSubgraph "e")) = .ok rows' ∧
      ¬ InStep rows' := by
  have hrun : GraphStep.run plainEnv [] (.merge (annSubgraph "d")) = .ok _ := rfl
  refine ⟨_, _, hrun, ?_, rfl, ?_⟩
  · apply (step_iff inStep_nil hrun).mpr
    constructor
    · intro e w he
      cases he
    · intro g hg
      cases hg
  · intro hafter
    have htwo := congrArg List.length (hafter.entities "ANN")
    exact absurd htwo (by decide)

end RagFlow.GraphRag
