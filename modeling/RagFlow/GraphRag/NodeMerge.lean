/-
# What merging entities conserves

When nodes are merged, the first of them takes over the relations of the others. The neighbors of
the first node are looked up once, before the others are gone through: a relation to one of these
neighbors is added to the one that is there, and noted. A relation to any other neighbor is
written anew, over one that a node before has brought along, and is not noted. So the relations are
conserved where the first node has all neighbors of the group, and nowhere else.
-/

import Mathlib
import RagFlow.GraphRag.EntityResolution

namespace RagFlow.GraphRag

open RagFlow.Math

/-! ## The law -/

def EdgeAttr.isComplete (a : EdgeAttr) : Bool :=
  a.weight.isSome && a.description.isSome && a.keywords.isSome && a.sourceId.isSome

/-- Nodes and edges carry all attributes that merging reads. -/
structure Complete (g : PlainGraph) : Prop where
  nodes : ∀ n a, g.nodes.get? n = some a → a.isValid = true
  edges : ∀ e a, g.edges.get? e = some a → a.isComplete = true

/-- The edges that join some nodes to another one. -/
def joining (g : PlainGraph) (ns : List String) (x : String) : List EdgeAttr :=
  ns.filterMap fun n => g.edges.get? s(n, x)

/-- An edge has the weight of some edges together and the sources of all of them. -/
structure Sums (a : EdgeAttr) (parts : List EdgeAttr) : Prop where
  weight : a.weight = some (parts.map fun b => b.weight.getD 0).sum
  mem_sourceId : ∀ i, i ∈ a.sourceId.getD [] ↔ ∃ b ∈ parts, i ∈ b.sourceId.getD []

/-- What merging the nodes `rest` into `node0` makes of a graph and of what was noted before. -/
structure Conserves (g : PlainGraph) (node0 : String) (rest : List String) (change : GraphChange)
    (r : Resolving) : Prop where
  mem_nodes : ∀ n, n ∈ r.1.nodes ↔ n ∈ g.nodes ∧ n ∉ rest
  mem_edges : ∀ x, x ∉ node0 :: rest →
    (s(node0, x) ∈ r.1.edges ↔ ∃ n ∈ node0 :: rest, s(n, x) ∈ g.edges)
  sums : ∀ x, x ∉ node0 :: rest → ∀ a, r.1.edges.get? s(node0, x) = some a →
    Sums a (joining g (node0 :: rest) x)
  noted : ∀ a b, s(a, b) ∈ r.1.edges → r.1.edges.get? s(a, b) ≠ g.edges.get? s(a, b) →
    getFromTo (a, b) ∈ r.2.addedUpdatedEdges
  removed : ∀ a b, s(a, b) ∈ r.1.edges → getFromTo (a, b) ∈ r.2.removedEdges →
    getFromTo (a, b) ∈ change.removedEdges

/-! ## Edges -/

section Edges

variable {g : PlainGraph} {a b c : EdgeAttr} {parts : List EdgeAttr} {n x y : String}
  {ns : List String} {e : Sym2 String}

theorem isComplete_iff : a.isComplete = true ↔
    ∃ w d k s, a = ⟨some w, some d, some k, some s⟩ := by
  constructor
  · intro h
    obtain ⟨weight, description, keywords, sourceId⟩ := a
    simp only [EdgeAttr.isComplete, Bool.and_eq_true, Option.isSome_iff_exists] at h
    obtain ⟨⟨⟨⟨w, rfl⟩, d, rfl⟩, k, rfl⟩, s, rfl⟩ := h
    exact ⟨w, d, k, s, rfl⟩
  · rintro ⟨w, d, k, s, rfl⟩
    rfl

theorem sums_singleton (h : a.isComplete = true) : Sums a [a] := by
  obtain ⟨w, d, k, s, rfl⟩ := isComplete_iff.mp h
  exact ⟨by simp, by simp⟩

theorem mem_sortedSet {i : String} {l : List String} : i ∈ sortedSet l ↔ i ∈ l := by
  rw [sortedSet, List.mem_mergeSort, List.mem_dedup]

/-- Two complete edges are merged into a complete one that has both. -/
theorem mergeParallel_spec (summary : String → String) (hb : b.isComplete = true)
    (ha : a.isComplete = true) (hsums : Sums a parts) :
    ∃ c, mergeParallel summary a b = .ok c ∧ c.isComplete = true ∧ Sums c (parts ++ [b]) := by
  obtain ⟨w, d, k, s, rfl⟩ := isComplete_iff.mp ha
  obtain ⟨w', d', k', s', rfl⟩ := isComplete_iff.mp hb
  refine ⟨_, rfl, rfl, ?_, fun i => ?_⟩
  · have hw := Option.some.inj hsums.weight
    rw [List.map_append, List.sum_append, ← hw, List.map_singleton, List.sum_singleton]
    rfl
  · have hs := hsums.mem_sourceId i
    simp only [Option.getD_some, mem_sortedSet, List.mem_append, List.mem_singleton] at hs ⊢
    rw [hs]
    constructor
    · rintro (⟨p, hp, hi⟩ | hi)
      · exact ⟨p, .inl hp, hi⟩
      · exact ⟨_, .inr rfl, hi⟩
    · rintro ⟨p, hp | rfl, hi⟩
      · exact .inl ⟨p, hp, hi⟩
      · exact .inr hi

theorem update_of_isComplete (hb : b.isComplete = true) : a.update b = b := by
  obtain ⟨w, d, k, s, rfl⟩ := isComplete_iff.mp hb
  rfl

/-- A complete edge between two nodes is written as it is. -/
theorem putEdge_spec (hn : n ∈ g.nodes) (hx : x ∈ g.nodes) (ha : a.isComplete = true) :
    (putEdge g n x a).nodes = g.nodes ∧
      ∀ e, (putEdge g n x a).edges.get? e = if e = s(n, x) then some a else g.edges.get? e := by
  have hends : ∀ k ∈ s(n, x).toFinset, k ∈ g.nodes := by
    intro k hk
    rcases Sym2.mem_iff.mp (Sym2.mem_toFinset.mp hk) with rfl | rfl
    · exact hn
    · exact hx
  rw [putEdge, dif_pos hends, update_of_isComplete ha]
  exact ⟨rfl, fun e => Dict.get?_set _ _ _ _⟩

/-- Where two edges from one node are the same, so are their other ends. -/
theorem mk_left_inj : s(n, x) = s(n, y) ↔ x = y := by
  constructor
  · intro h
    rcases Sym2.eq_iff.mp h with ⟨-, hxy⟩ | ⟨hny, hxn⟩
    · exact hxy
    · exact hxn.trans hny
  · rintro rfl
    rfl

theorem get?_filterNodes_ne (h : n ∉ e) :
    (g.filterNodes fun k _ => k ≠ n).edges.get? e = g.edges.get? e := by
  show (g.edges.filter _).get? e = _
  rw [Dict.get?_filter]
  cases he : g.edges.get? e with
  | none => rfl
  | some a =>
      refine Option.filter_eq_some_iff.mpr ⟨rfl, decide_eq_true fun k hk => ?_⟩
      have hk := Sym2.mem_toFinset.mp hk
      obtain ⟨v, hv⟩ := Option.isSome_iff_exists.mp
        (Dict.mem_iff_isSome.mp (g.closed e (Dict.mem_of_get? he) k hk))
      rw [Dict.mem_iff_isSome, Dict.get?_filter, hv, Option.filter_some, if_pos]
      · rfl
      · exact decide_eq_true fun heq => h (heq ▸ hk)

theorem mem_filterNodes_ne {m : String} :
    m ∈ (g.filterNodes fun k _ => k ≠ n).nodes ↔ m ∈ g.nodes ∧ m ≠ n := by
  show m ∈ g.nodes.filter _ ↔ _
  rw [Dict.mem_iff_isSome, Dict.mem_iff_isSome, Dict.get?_filter]
  cases g.nodes.get? m with
  | none => simp
  | some v => by_cases h : m = n <;> simp [h]

theorem mem_neighbors (hx : x ∈ g.nodes) : x ∈ g.neighbors n ↔ s(n, x) ∈ g.edges := by
  rw [Graph.neighbors, List.mem_filter, decide_eq_true_eq]
  exact and_iff_right hx

theorem joining_concat_some (h : g.edges.get? s(n, x) = some b) :
    joining g (ns ++ [n]) x = joining g ns x ++ [b] := by
  rw [joining, List.filterMap_append, ← joining]
  simp [h]

theorem joining_concat_none (h : g.edges.get? s(n, x) = none) :
    joining g (ns ++ [n]) x = joining g ns x := by
  rw [joining, List.filterMap_append, ← joining]
  simp [h]

end Edges

/-! ## One node -/

/-- The part `done` of the neighbors of `node1` has been gone through, from `r0` on. -/
structure NeighborsMerged (node0 node1 : String) (group : List String) (r0 : Resolving)
    (done : List String) (r : Resolving) : Prop where
  nodes : r.1.nodes = r0.1.nodes
  complete : ∀ e a, r.1.edges.get? e = some a → a.isComplete = true
  frame : ∀ e, (∀ x ∈ done, x ∉ group → e ≠ s(node0, x)) →
    r.1.edges.get? e = r0.1.edges.get? e
  joined : ∀ x ∈ done, x ∉ group → ∀ a b, r0.1.edges.get? s(node0, x) = some a →
    r0.1.edges.get? s(node1, x) = some b → ∃ c, r.1.edges.get? s(node0, x) = some c ∧
      ∀ parts, Sums a parts → Sums c (parts ++ [b])
  noted : ∀ x ∈ done, x ∉ group → getFromTo (node0, x) ∈ r.2.addedUpdatedEdges
  noted_before : ∀ p ∈ r0.2.addedUpdatedEdges, p ∈ r.2.addedUpdatedEdges
  removed : ∀ p ∈ r.2.removedEdges, p ∈ r0.2.removedEdges ∨ ∃ x, p = getFromTo (node1, x)

section Node

variable {env : ResolveEnv} {node0 node1 : String} {group neighbors0 done : List String}
  {r0 r : Resolving} {x : String}

/-- A neighbor in the group only loses its edge to `node1`. -/
theorem NeighborsMerged.inside (h : NeighborsMerged node0 node1 group r0 done r)
    (hx : x ∈ group) :
    ∃ r', mergeNeighbor env node0 group neighbors0 node1 r x = .ok r' ∧
      NeighborsMerged node0 node1 group r0 (done ++ [x]) r' := by
  have hdone : ∀ y, y ∈ done ++ [x] → y ∉ group → y ∈ done := by
    intro y hy hygroup
    rcases List.mem_append.mp hy with hy | hy
    · exact hy
    · obtain rfl := List.mem_singleton.mp hy
      exact absurd hx hygroup
  refine ⟨_, by rw [mergeNeighbor, if_pos hx]; rfl, ?_⟩
  refine ⟨h.nodes, h.complete, ?_, ?_, ?_, h.noted_before, ?_⟩
  · intro e he
    exact h.frame e fun y hy => he y (List.mem_append_left _ hy)
  · exact fun y hy hygroup => h.joined y (hdone y hy hygroup) hygroup
  · exact fun y hy hygroup => h.noted y (hdone y hy hygroup) hygroup
  · intro p hp
    rcases List.mem_insert_iff.mp hp with rfl | hp
    · exact .inr ⟨x, rfl⟩
    · exact h.removed p hp

/-- A neighbor outside that `node0` has too: both edges become one. -/
theorem NeighborsMerged.outside (h : NeighborsMerged node0 node1 group r0 done r)
    (hnode0 : node0 ∈ r0.1.nodes) (hnode1 : node1 ∈ group) (hne : node1 ≠ node0)
    (hx : x ∉ group) (hnew : x ∉ done) (hmem : x ∈ r0.1.nodes) (hneighbor : x ∈ neighbors0)
    (h0 : s(node0, x) ∈ r0.1.edges) (h1 : s(node1, x) ∈ r0.1.edges) :
    ∃ r', mergeNeighbor env node0 group neighbors0 node1 r x = .ok r' ∧
      NeighborsMerged node0 node1 group r0 (done ++ [x]) r' := by
  obtain ⟨a, ha⟩ := Option.isSome_iff_exists.mp (Dict.mem_iff_isSome.mp h0)
  obtain ⟨b, hb⟩ := Option.isSome_iff_exists.mp (Dict.mem_iff_isSome.mp h1)
  have hdistinct : ∀ y, y ∉ group → s(node1, x) ≠ s(node0, y) := by
    intro y hy heq
    rcases Sym2.eq_iff.mp heq with ⟨heq, -⟩ | ⟨heq, -⟩
    · exact hne heq
    · exact hy (heq ▸ hnode1)
  have hra : r.1.edges.get? s(node0, x) = some a := by
    rw [h.frame, ha]
    rintro y hy - heq
    exact hnew (mk_left_inj.mp heq ▸ hy)
  have hrb : r.1.edges.get? s(node1, x) = some b := by
    rw [h.frame _ fun y _ hygroup => hdistinct y hygroup, hb]
  have hcomplete : ∀ parts, Sums a parts → ∃ c,
      mergeParallel (env.summary ("(" ++ node0 ++ ", " ++ x ++ ")")) a b = .ok c ∧
        c.isComplete = true ∧ Sums c (parts ++ [b]) :=
    fun parts => mergeParallel_spec _ (h.complete _ b hrb) (h.complete _ a hra)
  obtain ⟨c, hc, hccomplete, -⟩ := hcomplete [a] (sums_singleton (h.complete _ a hra))
  have hput := putEdge_spec (h.nodes ▸ hnode0) (h.nodes ▸ hmem) hccomplete (g := r.1)
  refine ⟨(putEdge r.1 node0 x c,
    { r.2 with
      removedEdges := r.2.removedEdges.insert (getFromTo (node1, x))
      addedUpdatedEdges := r.2.addedUpdatedEdges.insert (getFromTo (node0, x)) }), ?_, ?_⟩
  · rw [mergeNeighbor, if_neg hx]
    refine bind_eq_ok.mpr ⟨b, require_eq_ok.mpr hrb, ?_⟩
    rw [if_pos hneighbor]
    refine bind_eq_ok.mpr ⟨a, require_eq_ok.mpr hra, bind_eq_ok.mpr ⟨c, hc, ?_⟩⟩
    rfl
  refine ⟨hput.1.trans h.nodes, ?_, ?_, ?_, ?_, ?_, ?_⟩
  · intro e a' ha'
    rw [hput.2] at ha'
    split_ifs at ha' with he
    · obtain rfl := Option.some.inj ha'
      exact hccomplete
    · exact h.complete e a' ha'
  · intro e he
    rw [hput.2, if_neg (he x (by simp) hx)]
    exact h.frame e fun y hy => he y (List.mem_append_left _ hy)
  · intro y hy hygroup a' b' ha' hb'
    rw [hput.2]
    by_cases hyx : y = x
    · subst hyx
      obtain rfl := Option.some.inj (ha.symm.trans ha')
      obtain rfl := Option.some.inj (hb.symm.trans hb')
      refine ⟨c, if_pos rfl, fun parts hparts => ?_⟩
      obtain ⟨c', hc', -, hsums⟩ := hcomplete parts hparts
      obtain rfl := Except.ok.inj (hc.symm.trans hc')
      exact hsums
    · rw [if_neg fun heq => hyx (mk_left_inj.mp heq)]
      have hy : y ∈ done := by
        rcases List.mem_append.mp hy with hy | hy
        · exact hy
        · exact absurd (List.mem_singleton.mp hy) hyx
      exact h.joined y hy hygroup a' b' ha' hb'
  · intro y hy hygroup
    rcases List.mem_append.mp hy with hy | hy
    · exact List.mem_insert_of_mem (h.noted y hy hygroup)
    · obtain rfl := List.mem_singleton.mp hy
      exact List.mem_insert_self
  · exact fun p hp => List.mem_insert_of_mem (h.noted_before p hp)
  · intro p hp
    rcases List.mem_insert_iff.mp hp with rfl | hp
    · exact .inr ⟨x, rfl⟩
    · exact h.removed p hp

/-- All neighbors of a node are merged, if `node0` has those outside the group. -/
theorem exists_neighborsMerged {ns : List String} (hnodup : ns.Nodup)
    (hcomplete : ∀ e a, r0.1.edges.get? e = some a → a.isComplete = true)
    (hnode0 : node0 ∈ r0.1.nodes) (hnode1 : node1 ∈ group) (hne : node1 ≠ node0)
    (hns : ∀ x ∈ ns, x ∈ r0.1.nodes ∧ s(node1, x) ∈ r0.1.edges)
    (hshared : ∀ x ∈ ns, x ∉ group → x ∈ neighbors0 ∧ s(node0, x) ∈ r0.1.edges) :
    ∃ r, ns.foldlM (mergeNeighbor env node0 group neighbors0 node1) r0 = .ok r ∧
      NeighborsMerged node0 node1 group r0 ns r := by
  apply exists_foldlM_ok
  · exact ⟨rfl, hcomplete, fun e _ => rfl, fun x hx => absurd hx List.not_mem_nil,
      fun x hx => absurd hx List.not_mem_nil, fun p hp => hp, fun p hp => .inl hp⟩
  · intro done x r hpart h
    have hx : x ∈ ns := hpart.subset (by simp)
    have hnew : x ∉ done := by
      intro hold
      have hdisjoint := (List.nodup_append.mp (hpart.sublist.nodup hnodup)).2.2
      exact hdisjoint x hold x (List.mem_singleton_self x) rfl
    by_cases hgroup : x ∈ group
    · exact h.inside hgroup
    · exact h.outside hnode0 hnode1 hne hgroup hnew (hns x hx).1 (hshared x hx hgroup).1
        (hshared x hx hgroup).2 (hns x hx).2

end Node

/-! ## The group -/

/-- The nodes `done` have been merged into `node0`, from the graph `g` on. -/
structure GroupMerged (g : PlainGraph) (node0 : String) (rest : List String)
    (change : GraphChange) (done : List String) (r : Resolving) : Prop where
  mem_nodes : ∀ n, n ∈ r.1.nodes ↔ n ∈ g.nodes ∧ n ∉ done
  complete : Complete r.1
  frame : ∀ e, (∀ k ∈ e, k ∉ done) → (∀ x, x ∉ node0 :: rest → e ≠ s(node0, x)) →
    r.1.edges.get? e = g.edges.get? e
  absent : ∀ x, x ∉ node0 :: rest → s(node0, x) ∉ g.edges → s(node0, x) ∉ r.1.edges
  joined : ∀ x, x ∉ node0 :: rest → s(node0, x) ∈ g.edges →
    ∃ a, r.1.edges.get? s(node0, x) = some a ∧ Sums a (joining g (node0 :: done) x)
  noted : ∀ x, x ∉ node0 :: rest →
    r.1.edges.get? s(node0, x) ≠ g.edges.get? s(node0, x) →
      getFromTo (node0, x) ∈ r.2.addedUpdatedEdges
  removed : ∀ p ∈ r.2.removedEdges, p ∈ change.removedEdges ∨
    ∃ n ∈ done, ∃ x, p = getFromTo (n, x)

/-- The first node has every neighbor of the others outside the group. -/
def HasNeighbors (g : PlainGraph) (node0 : String) (rest : List String) : Prop :=
  ∀ x, x ∉ node0 :: rest → ∀ n ∈ rest, s(n, x) ∈ g.edges → s(node0, x) ∈ g.edges

section Group

variable {env : ResolveEnv} {g : PlainGraph} {node0 node1 : String} {rest done : List String}
  {change : GraphChange} {r r' : Resolving}

/-- The description and the sources of a node join those of the first one, and then its neighbors
are gone through. -/
theorem exists_mergeInto (hcomplete : Complete r.1) (hnode0 : node0 ∈ r.1.nodes)
    (hnode1 : node1 ∈ r.1.nodes) (nodes neighbors0 : List String) :
    ∃ G1 : PlainGraph, (∀ n, n ∈ G1.nodes ↔ n ∈ r.1.nodes) ∧ G1.edges = r.1.edges ∧
      (∀ n a, G1.nodes.get? n = some a → a.isValid = true) ∧
      ∀ r', (G1.neighbors node1).foldlM (mergeNeighbor env node0 nodes neighbors0 node1)
          (G1, r.2) = .ok r' →
        mergeInto env node0 nodes neighbors0 r node1 =
          .ok (r'.1.filterNodes fun k _ => k ≠ node1, r'.2) := by
  obtain ⟨G, ch⟩ := r
  obtain ⟨a0, ha0⟩ := Option.isSome_iff_exists.mp (Dict.mem_iff_isSome.mp hnode0)
  obtain ⟨a1, ha1⟩ := Option.isSome_iff_exists.mp (Dict.mem_iff_isSome.mp hnode1)
  have hvalid0 := Bool.and_eq_true_iff.mp (hcomplete.nodes node0 a0 ha0)
  have hvalid1 := Bool.and_eq_true_iff.mp (hcomplete.nodes node1 a1 ha1)
  obtain ⟨d, hd⟩ := Option.isSome_iff_exists.mp hvalid0.1
  obtain ⟨d', hd'⟩ := Option.isSome_iff_exists.mp hvalid1.1
  obtain ⟨s, hs⟩ := Option.isSome_iff_exists.mp hvalid0.2
  obtain ⟨s', hs'⟩ := Option.isSome_iff_exists.mp hvalid1.2
  refine ⟨G.setNode node0 { a0 with
      description := some (d ++ graphFieldSep ++ d')
      sourceId := some (sortedSet (s ++ s')) }, ?_, rfl, ?_, fun r' hr' => ?_⟩
  · intro n
    exact Dict.mem_set.trans (or_iff_right_of_imp fun heq => heq ▸ hnode0)
  · intro n a ha
    have ha := (Dict.get?_set _ _ _ _).symm.trans ha
    split_ifs at ha
    · rw [← Option.some.inj ha]
      rfl
    · exact hcomplete.nodes n a ha
  · rw [GraphRag.mergeInto]
    exact bind_eq_ok.mpr ⟨a0, require_eq_ok.mpr ha0, bind_eq_ok.mpr ⟨a1, require_eq_ok.mpr ha1,
      bind_eq_ok.mpr ⟨d, require_eq_ok.mpr hd, bind_eq_ok.mpr ⟨d', require_eq_ok.mpr hd',
        bind_eq_ok.mpr ⟨s, require_eq_ok.mpr hs, bind_eq_ok.mpr ⟨s', require_eq_ok.mpr hs',
          bind_eq_ok.mpr ⟨r', hr', rfl⟩⟩⟩⟩⟩⟩⟩

/-- Out of the group, the edges of a node that is still to be merged are as they were. -/
theorem GroupMerged.get?_pending (h : GroupMerged g node0 rest change done r)
    (hnode0 : node0 ∉ rest) (hold : ∀ n ∈ done, n ∈ rest) (hnode1 : node1 ∈ rest)
    (hnew : node1 ∉ done) {x : String} (hx : x ∉ node0 :: rest) :
    r.1.edges.get? s(node1, x) = g.edges.get? s(node1, x) := by
  apply h.frame
  · intro k hk hdone
    rcases Sym2.mem_iff.mp hk with rfl | rfl
    · exact hnew hdone
    · exact hx (List.mem_cons_of_mem node0 (hold _ hdone))
  · intro y hy heq
    rcases Sym2.eq_iff.mp heq with ⟨heq, -⟩ | ⟨heq, -⟩
    · exact hnode0 (heq ▸ hnode1)
    · exact hy (heq ▸ List.mem_cons_of_mem node0 hnode1)

/-- When the neighbors of a node have been gone through and it is removed, it is merged. -/
theorem GroupMerged.concat (h : GroupMerged g node0 rest change done r)
    (hnode0 : node0 ∉ rest) (hnode1 : node1 ∈ rest)
    (hout : ∀ x, x ∉ node0 :: rest → r.1.edges.get? s(node1, x) = g.edges.get? s(node1, x))
    (hhas : HasNeighbors g node0 rest) {G1 : PlainGraph}
    (hnodes1 : ∀ n, n ∈ G1.nodes ↔ n ∈ r.1.nodes) (hedges1 : G1.edges = r.1.edges)
    (hcomplete1 : ∀ n a, G1.nodes.get? n = some a → a.isValid = true)
    (hmerged : NeighborsMerged node0 node1 (node0 :: rest) (G1, r.2) (G1.neighbors node1) r') :
    GroupMerged g node0 rest change (done ++ [node1])
      (r'.1.filterNodes fun k _ => k ≠ node1, r'.2) := by
  obtain ⟨G, ch⟩ := r
  obtain ⟨G', ch'⟩ := r'
  have hne : node1 ≠ node0 := fun heq => hnode0 (heq ▸ hnode1)
  have hshared : ∀ x, x ∉ node0 :: rest → s(node1, x) ∈ G.edges → s(node0, x) ∈ g.edges := by
    intro x hx he
    rw [Dict.mem_iff_isSome, hout x hx, ← Dict.mem_iff_isSome] at he
    exact hhas x hx node1 hnode1 he
  -- An edge of `node0` out of the group: merged if `node1` has one, and otherwise as it was.
  have hsame : ∀ x, x ∉ node0 :: rest →
      (G'.filterNodes fun k _ => k ≠ node1).edges.get? s(node0, x) = G'.edges.get? s(node0, x) := by
    intro x hx
    refine get?_filterNodes_ne fun hk => ?_
    rcases Sym2.mem_iff.mp hk with heq | heq
    · exact hne heq
    · exact hx (heq ▸ List.mem_cons_of_mem node0 hnode1)
  have hkept : ∀ x, x ∉ node0 :: rest → s(node1, x) ∉ G.edges →
      G'.edges.get? s(node0, x) = G.edges.get? s(node0, x) := by
    intro x hx he
    rw [hmerged.frame, hedges1]
    rintro y hy - heq
    obtain rfl := mk_left_inj.mp heq
    rw [Graph.neighbors, List.mem_filter, decide_eq_true_eq] at hy
    exact he (hedges1 ▸ hy.2)
  have hinside : ∀ x, s(node1, x) ∈ G.edges → x ∈ G1.neighbors node1 := by
    intro x he
    rw [← hedges1] at he
    exact (mem_neighbors (G1.closed _ he x (Sym2.mem_mk_right node1 x))).mpr he
  refine ⟨?_, ⟨?_, ?_⟩, ?_, ?_, ?_, ?_, ?_⟩
  · intro n
    rw [mem_filterNodes_ne, hmerged.nodes, hnodes1, h.mem_nodes, List.mem_append,
      List.mem_singleton, not_or, and_assoc]
  · intro n a ha
    have ha : (G'.nodes.filter fun k _ => decide (k ≠ node1)).get? n = some a := ha
    rw [Dict.get?_filter, Option.filter_eq_some_iff, hmerged.nodes] at ha
    exact hcomplete1 n a ha.1
  · intro e a ha
    have ha : (G'.edges.filter _).get? e = some a := ha
    rw [Dict.get?_filter, Option.filter_eq_some_iff] at ha
    exact hmerged.complete e a ha.1
  · intro e he hout'
    rw [get?_filterNodes_ne fun hk => he node1 hk (by simp),
      hmerged.frame e fun x _ hx => hout' x hx, hedges1]
    exact h.frame e (fun k hk hdone => he k hk (List.mem_append_left _ hdone)) hout'
  · intro x hx hg hfinal
    rw [Dict.mem_iff_isSome, hsame x hx,
      hkept x hx fun he => hg (hshared x hx he), ← Dict.mem_iff_isSome] at hfinal
    exact h.absent x hx hg hfinal
  · intro x hx hg
    obtain ⟨a, ha, hsums⟩ := h.joined x hx hg
    rw [hsame x hx]
    cases hb : G.edges.get? s(node1, x) with
    | none =>
        have he : s(node1, x) ∉ G.edges := by
          rw [Dict.mem_iff_isSome, hb]
          exact Bool.false_ne_true
        rw [hkept x hx he, ← List.cons_append, joining_concat_none ((hout x hx).symm.trans hb)]
        exact ⟨a, ha, hsums⟩
    | some b =>
        obtain ⟨c, hc, hcsums⟩ := hmerged.joined x (hinside x (Dict.mem_of_get? hb)) hx a b
          (hedges1 ▸ ha) (hedges1 ▸ hb)
        rw [← List.cons_append, joining_concat_some ((hout x hx).symm.trans hb)]
        exact ⟨c, hc, hcsums _ hsums⟩
  · intro x hx hdiff
    rw [hsame x hx] at hdiff
    by_cases he : s(node1, x) ∈ G.edges
    · exact hmerged.noted x (hinside x he) hx
    · rw [hkept x hx he] at hdiff
      exact hmerged.noted_before _ (h.noted x hx hdiff)
  · intro p hp
    rcases hmerged.removed p hp with hp | ⟨x, rfl⟩
    · rcases h.removed p hp with hp | ⟨n, hn, x, rfl⟩
      · exact .inl hp
      · exact .inr ⟨n, List.mem_append_left _ hn, x, rfl⟩
    · exact .inr ⟨node1, by simp, x, rfl⟩

/-- One more node is merged. -/
theorem GroupMerged.mergeInto (h : GroupMerged g node0 rest change done r)
    (hnodup : (node0 :: rest).Nodup) (hmem : ∀ n ∈ node0 :: rest, n ∈ g.nodes)
    (hhas : HasNeighbors g node0 rest) (hpart : done ++ [node1] <+: rest) :
    ∃ r', mergeInto env node0 (node0 :: rest) (g.neighbors node0) r node1 = .ok r' ∧
      GroupMerged g node0 rest change (done ++ [node1]) r' := by
  obtain ⟨hnode0, hrest⟩ := List.nodup_cons.mp hnodup
  have hnode1 : node1 ∈ rest := hpart.subset (by simp)
  have hold : ∀ n ∈ done, n ∈ rest := fun n hn => hpart.subset (List.mem_append_left _ hn)
  have hnew : node1 ∉ done := fun hn =>
    (List.nodup_append.mp (hpart.sublist.nodup hrest)).2.2 node1 hn node1
      (List.mem_singleton_self node1) rfl
  have hne : node1 ≠ node0 := fun heq => hnode0 (heq ▸ hnode1)
  have hin0 : node0 ∈ r.1.nodes :=
    (h.mem_nodes node0).mpr ⟨hmem node0 List.mem_cons_self, fun hn => hnode0 (hold node0 hn)⟩
  have hin1 : node1 ∈ r.1.nodes :=
    (h.mem_nodes node1).mpr ⟨hmem node1 (List.mem_cons_of_mem node0 hnode1), hnew⟩
  have hout : ∀ x, x ∉ node0 :: rest →
      r.1.edges.get? s(node1, x) = g.edges.get? s(node1, x) :=
    fun x hx => h.get?_pending hnode0 hold hnode1 hnew hx
  obtain ⟨G1, hnodes1, hedges1, hcomplete1, hrun⟩ :=
    exists_mergeInto h.complete hin0 hin1 (node0 :: rest) (g.neighbors node0)
  have hns : ∀ x ∈ G1.neighbors node1, x ∈ G1.nodes ∧ s(node1, x) ∈ G1.edges := by
    intro x hx
    rw [Graph.neighbors, List.mem_filter, decide_eq_true_eq] at hx
    exact hx
  have hboth : ∀ x ∈ G1.neighbors node1, x ∉ node0 :: rest →
      x ∈ g.neighbors node0 ∧ s(node0, x) ∈ G1.edges := by
    intro x hx hgroup
    have he : s(node1, x) ∈ r.1.edges := hedges1 ▸ (hns x hx).2
    rw [Dict.mem_iff_isSome, hout x hgroup, ← Dict.mem_iff_isSome] at he
    have hg := hhas x hgroup node1 hnode1 he
    obtain ⟨a, ha, -⟩ := h.joined x hgroup hg
    refine ⟨(mem_neighbors (g.closed _ hg x (Sym2.mem_mk_right node0 x))).mpr hg, ?_⟩
    rw [hedges1]
    exact Dict.mem_of_get? ha
  have hedges : ∀ e a, G1.edges.get? e = some a → a.isComplete = true := by
    rw [hedges1]
    exact h.complete.edges
  obtain ⟨r', hr', hmerged⟩ : ∃ r', (G1.neighbors node1).foldlM
      (mergeNeighbor env node0 (node0 :: rest) (g.neighbors node0) node1) (G1, r.2) = .ok r' ∧
        NeighborsMerged node0 node1 (node0 :: rest) (G1, r.2) (G1.neighbors node1) r' :=
    exists_neighborsMerged (G1.nodes.nodup.filter _) hedges ((hnodes1 node0).mpr hin0)
      (List.mem_cons_of_mem node0 hnode1) hne hns hboth
  exact ⟨_, hrun r' hr', h.concat hnode0 hnode1 hout hhas hnodes1 hedges1 hcomplete1 hmerged⟩

/-- Where the first node has the neighbors of the others, the whole group is merged and the
relations are conserved. -/
theorem exists_conserves (hcomplete : Complete g) (hnodup : (node0 :: rest).Nodup)
    (hrest : rest ≠ []) (hmem : ∀ n ∈ node0 :: rest, n ∈ g.nodes)
    (hhas : HasNeighbors g node0 rest) :
    ∃ r, mergeGraphNodes env (g, change) (node0 :: rest) = .ok r ∧
      Conserves g node0 rest change r := by
  obtain ⟨a, ha⟩ := Option.isSome_iff_exists.mp
    (Dict.mem_iff_isSome.mp (hmem node0 List.mem_cons_self))
  obtain ⟨ch, hch⟩ : ∃ ch : GraphChange, ch = { change with
    addedUpdatedNodes := change.addedUpdatedNodes.insert node0
    removedNodes := change.removedNodes ∪ rest } := ⟨_, rfl⟩
  obtain ⟨⟨G, ch'⟩, hfold, h⟩ : ∃ r, rest.foldlM
      (mergeInto env node0 (node0 :: rest) (g.neighbors node0)) (g, ch) = .ok r ∧
        GroupMerged g node0 rest change rest r := by
    apply exists_foldlM_ok (P := GroupMerged g node0 rest change)
    · refine ⟨fun n => by simp, hcomplete, fun e _ _ => rfl, fun x _ hg => hg, fun x _ hg => ?_,
        fun x _ hdiff => absurd rfl hdiff, fun p hp => .inl (by rwa [hch] at hp)⟩
      obtain ⟨b, hb⟩ := Option.isSome_iff_exists.mp (Dict.mem_iff_isSome.mp hg)
      refine ⟨b, hb, ?_⟩
      have hone : joining g [node0] x = [b] := by simp [joining, hb]
      rw [hone]
      exact sums_singleton (hcomplete.edges _ b hb)
    · exact fun done node1 r hpart h => h.mergeInto hnodup hmem hhas hpart
  have hnode0 : node0 ∈ G.nodes := (h.mem_nodes node0).mpr
    ⟨hmem node0 List.mem_cons_self, (List.nodup_cons.mp hnodup).1⟩
  obtain ⟨a0, ha0⟩ := Option.isSome_iff_exists.mp (Dict.mem_iff_isSome.mp hnode0)
  refine ⟨(G.setNode node0 { a0 with description := a0.description.map (env.summary node0) },
    ch'), ?_, ?_⟩
  · obtain ⟨node1, rest, rfl⟩ := List.exists_cons_of_ne_nil hrest
    rw [mergeGraphNodes]
    refine bind_eq_ok.mpr ⟨a, require_eq_ok.mpr ha, ?_⟩
    rw [← hch]
    exact bind_eq_ok.mpr ⟨_, hfold, bind_eq_ok.mpr ⟨a0, require_eq_ok.mpr ha0, rfl⟩⟩
  -- Edges of the graph have both ends in it.
  have hends : ∀ n x, s(n, x) ∈ G.edges → n ∉ rest := fun n x he =>
    ((h.mem_nodes n).mp (G.closed _ he n (Sym2.mem_mk_left n x))).2
  have hin : ∀ x, x ∉ node0 :: rest → s(node0, x) ∈ G.edges → s(node0, x) ∈ g.edges :=
    fun x hx he => by_contra fun hg => h.absent x hx hg he
  refine ⟨fun n => ?_, fun x hx => ⟨fun he => ?_, ?_⟩, fun x hx b hb => ?_, ?_, ?_⟩
  · exact Dict.mem_set.trans ((or_iff_right_of_imp fun heq => heq ▸ hnode0).trans (h.mem_nodes n))
  · exact ⟨node0, List.mem_cons_self, hin x hx he⟩
  · rintro ⟨n, hn, he⟩
    have hg : s(node0, x) ∈ g.edges := by
      rcases List.mem_cons.mp hn with rfl | hn
      · exact he
      · exact hhas x hx n hn he
    obtain ⟨b, hb, -⟩ := h.joined x hx hg
    exact Dict.mem_of_get? hb
  · have hb : G.edges.get? s(node0, x) = some b := hb
    obtain ⟨c, hc, hsums⟩ := h.joined x hx (hin x hx (Dict.mem_of_get? hb))
    obtain rfl := Option.some.inj (hb.symm.trans hc)
    exact hsums
  · intro n x he hdiff
    have he : s(n, x) ∈ G.edges := he
    have hdiff : G.edges.get? s(n, x) ≠ g.edges.get? s(n, x) := hdiff
    by_cases hout : ∃ y, y ∉ node0 :: rest ∧ s(n, x) = s(node0, y)
    · obtain ⟨y, hy, heq⟩ := hout
      rw [heq] at hdiff
      rw [getFromTo_eq_iff.mpr heq]
      exact h.noted y hy hdiff
    · refine absurd (h.frame _ ?_ fun y hy heq => hout ⟨y, hy, heq⟩) hdiff
      intro k hk
      exact ((h.mem_nodes k).mp (G.closed _ he k hk)).2
  · intro n x he hp
    rcases h.removed _ hp with hp | ⟨m, hm, y, heq⟩
    · exact hp
    · have hsame := getFromTo_eq_iff.mp heq
      have he : s(m, y) ∈ G.edges := hsame ▸ he
      exact absurd hm (hends m y he)

/-! ## What is noted -/

/-- Only edges to the neighbors of the first node are noted as changed. -/
def NotedFrom (node0 : String) (neighbors0 : List String) (c c' : GraphChange) : Prop :=
  ∀ p ∈ c'.addedUpdatedEdges,
    p ∈ c.addedUpdatedEdges ∨ ∃ y ∈ neighbors0, p = getFromTo (node0, y)

variable {neighbors0 group : List String} {x : String} {c c' c'' : GraphChange}

theorem NotedFrom.trans (h : NotedFrom node0 neighbors0 c c')
    (h' : NotedFrom node0 neighbors0 c' c'') : NotedFrom node0 neighbors0 c c'' := by
  intro p hp
  rcases h' p hp with hp | hnew
  · exact h p hp
  · exact .inr hnew

theorem mergeNeighbor_notedFrom
    (h : mergeNeighbor env node0 group neighbors0 node1 r x = .ok r') :
    NotedFrom node0 neighbors0 r.2 r'.2 := by
  obtain ⟨G, ch⟩ := r
  simp only [mergeNeighbor] at h
  split_ifs at h with hgroup hneighbor
  · obtain rfl := pure_eq_ok.mp h
    exact fun p hp => .inl hp
  · obtain ⟨edge1, -, h⟩ := bind_eq_ok.mp h
    obtain ⟨edge0, -, h⟩ := bind_eq_ok.mp h
    obtain ⟨merged, -, h⟩ := bind_eq_ok.mp h
    obtain rfl := pure_eq_ok.mp h
    intro p hp
    rcases List.mem_insert_iff.mp hp with rfl | hp
    · exact .inr ⟨x, hneighbor, rfl⟩
    · exact .inl hp
  · obtain ⟨edge1, -, h⟩ := bind_eq_ok.mp h
    obtain rfl := pure_eq_ok.mp h
    exact fun p hp => .inl hp

theorem mergeInto_notedFrom (h : mergeInto env node0 group neighbors0 r node1 = .ok r') :
    NotedFrom node0 neighbors0 r.2 r'.2 := by
  obtain ⟨G, ch⟩ := r
  simp only [mergeInto] at h
  obtain ⟨a0, -, h⟩ := bind_eq_ok.mp h
  obtain ⟨a1, -, h⟩ := bind_eq_ok.mp h
  obtain ⟨d, -, h⟩ := bind_eq_ok.mp h
  obtain ⟨d', -, h⟩ := bind_eq_ok.mp h
  obtain ⟨s, -, h⟩ := bind_eq_ok.mp h
  obtain ⟨s', -, h⟩ := bind_eq_ok.mp h
  obtain ⟨merged, hfold, h⟩ := bind_eq_ok.mp h
  rw [← pure_eq_ok.mp h]
  show NotedFrom node0 neighbors0 ch merged.2
  apply foldlM_induction (P := fun _ u => NotedFrom node0 neighbors0 ch u.2) hfold
  · exact fun p hp => .inl hp
  · exact fun done x u v _ hu hv => hu.trans (mergeNeighbor_notedFrom hv)

/-- An edge to a neighbor that the first node does not have is made without a note. -/
theorem hasNeighbors_of_conserves (hrest : rest ≠ [])
    (h : mergeGraphNodes env (g, {}) (node0 :: rest) = .ok r)
    (hr : Conserves g node0 rest {} r) : HasNeighbors g node0 rest := by
  obtain ⟨node1, rest, rfl⟩ := List.exists_cons_of_ne_nil hrest
  have hnoted : NotedFrom node0 (g.neighbors node0) {} r.2 := by
    simp only [mergeGraphNodes] at h
    obtain ⟨a, -, h⟩ := bind_eq_ok.mp h
    obtain ⟨merged, hfold, h⟩ := bind_eq_ok.mp h
    obtain ⟨a0, -, h⟩ := bind_eq_ok.mp h
    rw [← pure_eq_ok.mp h]
    apply foldlM_induction (P := fun _ u => NotedFrom node0 (g.neighbors node0) {} u.2) hfold
    · exact fun p hp => .inl hp
    · exact fun done n u v _ hu hv => hu.trans (mergeInto_notedFrom hv)
  intro x hx n hn he
  by_contra hg
  have hmade := (hr.mem_edges x hx).mpr ⟨n, List.mem_cons_of_mem node0 hn, he⟩
  have hdiff : r.1.edges.get? s(node0, x) ≠ g.edges.get? s(node0, x) := by
    intro heq
    rw [Dict.mem_iff_isSome, heq, ← Dict.mem_iff_isSome] at hmade
    exact hg hmade
  rcases hnoted _ (hr.noted node0 x hmade hdiff) with hp | ⟨y, hy, heq⟩
  · exact absurd hp List.not_mem_nil
  · obtain rfl := mk_left_inj.mp (getFromTo_eq_iff.mp heq)
    rw [Graph.neighbors, List.mem_filter, decide_eq_true_eq] at hy
    exact hg hy.2

/-- Merging conserves the relations exactly where the first node has every neighbor of the
others outside the group. -/
theorem mergeGraphNodes_conserves_iff (env : ResolveEnv) (hcomplete : Complete g)
    (hnodup : (node0 :: rest).Nodup) (hrest : rest ≠ [])
    (hmem : ∀ n ∈ node0 :: rest, n ∈ g.nodes) :
    (∀ change, ∃ r, mergeGraphNodes env (g, change) (node0 :: rest) = .ok r ∧
      Conserves g node0 rest change r) ↔ HasNeighbors g node0 rest := by
  constructor
  · intro h
    obtain ⟨r, hr, hconserves⟩ := h {}
    exact hasNeighbors_of_conserves hrest hr hconserves
  · exact fun hhas change => exists_conserves hcomplete hnodup hrest hmem hhas

end Group

/-! ## Three spellings of a name -/

def quietEnv : ResolveEnv where
  extract _ _ := none
  pagerank _ _ := 1
  summary _ description := description

def spelled : NodeAttr := { description := some "person", sourceId := some ["d1"] }

def employed (w : ℚ) : EdgeAttr := ⟨some w, some "works for", some [], some ["d1"]⟩

/-- The second and the third spelling have a relation, the first has none. -/
def johns : PlainGraph where
  nodes := ⟨[("JOHN", spelled), ("JON", spelled), ("JOHNNY", spelled), ("ACME", spelled)],
    by decide⟩
  edges := ⟨[(s("JON", "ACME"), employed 1), (s("JOHNNY", "ACME"), employed 2)], by decide⟩
  closed := by
    intro e he k hk
    rcases List.mem_pair.mp he with rfl | rfl
    · rcases Sym2.mem_iff.mp hk with rfl | rfl <;> decide
    · rcases Sym2.mem_iff.mp hk with rfl | rfl <;> decide

/-- All spellings have the relation. -/
def employedJohns : PlainGraph :=
  johns.setEdge s("JOHN", "ACME") (employed 4) fun k hk => by
    rcases Sym2.mem_iff.mp hk with rfl | rfl <;> decide

theorem mergeGraphNodes_conserves_johns :
    ∃ r, mergeGraphNodes quietEnv (employedJohns, {}) ["JOHN", "JON", "JOHNNY"] = .ok r ∧
      Conserves employedJohns "JOHN" ["JON", "JOHNNY"] {} r := by
  refine (mergeGraphNodes_conserves_iff quietEnv ⟨?_, ?_⟩ (by decide) (List.cons_ne_nil _ _)
    (by decide)).mpr ?_ {}
  · intro n a ha
    have hall : ∀ e ∈ employedJohns.nodes.entries, e.2.isValid = true := by decide
    exact hall _ (Dict.get?_eq_some_iff.mp ha)
  · intro e a ha
    have hall : ∀ e ∈ employedJohns.edges.entries, e.2.isComplete = true := by decide
    exact hall _ (Dict.get?_eq_some_iff.mp ha)
  · intro x hx n hn he
    have hkeys : employedJohns.edges.keys =
        [s("JON", "ACME"), s("JOHNNY", "ACME"), s("JOHN", "ACME")] := by decide
    rw [Dict.mem_iff, hkeys] at he ⊢
    rcases List.mem_pair.mp hn with rfl | rfl
    · have hacme : x = "ACME" := by simpa [Sym2.eq_iff] using he
      simp [hacme]
    · have hacme : x = "ACME" := by simpa [Sym2.eq_iff] using he
      simp [hacme]

/-- The edge that the second spelling brings along is not noted. -/
theorem not_mergeGraphNodes_conserves :
    ¬ ∃ r, mergeGraphNodes quietEnv (johns, {}) ["JOHN", "JON", "JOHNNY"] = .ok r ∧
      Conserves johns "JOHN" ["JON", "JOHNNY"] {} r := by
  rintro ⟨r, hr, hconserves⟩
  have hhas := hasNeighbors_of_conserves (List.cons_ne_nil _ _) hr hconserves
  have hjohn := hhas "ACME" (by decide) "JON" (by decide) (by decide)
  revert hjohn
  decide

end RagFlow.GraphRag
