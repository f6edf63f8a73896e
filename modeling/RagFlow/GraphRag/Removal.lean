/-
# Removing a document from the graph

The graph is rebuilt from the subgraphs that `set_graph` has written, one for each document
that the graph lists, with those of the removed document left out. A subgraph has the nodes
of its document, and every edge between two of them, whichever document the edge is from.
-/

import RagFlow.GraphRag.Index

namespace RagFlow.GraphRag

open RagFlow.Math

/-! ## Sources -/

/-- The documents that a node comes from. -/
def nodeSources (g : KnowledgeGraph) (n : String) : List String :=
  ((g.nodes.get? n).bind NodeAttr.sourceId).getD []

/-- The documents that an edge comes from. -/
def edgeSources (g : KnowledgeGraph) (e : Sym2 String) : List String :=
  ((g.edges.get? e).bind EdgeAttr.sourceId).getD []

/-- The nodes and edges of a graph are those of another one that have a source other than
`d`, and each node keeps these sources. -/
structure RemovesOnly (graph : KnowledgeGraph) (d : String) (r : KnowledgeGraph) : Prop where
  nodes : ∀ n, n ∈ r.nodes ↔ ∃ s ∈ nodeSources graph n, s ≠ d
  sources : ∀ n s, s ∈ nodeSources r n ↔ s ∈ nodeSources graph n ∧ s ≠ d
  edges : ∀ e, e ∈ r.edges ↔ ∃ s ∈ edgeSources graph e, s ≠ d

/-! ## The subgraph of a document -/

variable {graph g : KnowledgeGraph} {source n : String}

theorem get?_partOf (graph : KnowledgeGraph) (source n : String) :
    (partOf graph source).nodes.get? n =
      if source ∈ nodeSources graph n then
        (graph.nodes.get? n).map fun a => { a with sourceId := some [source] }
      else none := by
  have hpart : (partOf graph source).nodes.get? n =
      ((graph.nodes.get? n).filter fun a => source ∈ a.sourceId.getD []).map fun a =>
        { a with sourceId := some [source] } := by
    simp only [partOf, Graph.mapNodes, Graph.filterNodes, Dict.get?_mapValues, Dict.get?_filter]
  rw [hpart, nodeSources]
  cases graph.nodes.get? n with
  | none => simp
  | some a =>
      by_cases hs : source ∈ a.sourceId.getD []
      · simp [hs]
      · simp [hs]

theorem mem_partOf : n ∈ (partOf graph source).nodes ↔ source ∈ nodeSources graph n := by
  rw [Dict.mem_iff_isSome, get?_partOf]
  by_cases hs : source ∈ nodeSources graph n
  · rw [if_pos hs, Option.isSome_map]
    cases hn : graph.nodes.get? n with
    | none => simp [nodeSources, hn] at hs
    | some a => simp [hs]
  · simp [hs]

theorem mem_edges_partOf {e : Sym2 String} :
    e ∈ (partOf graph source).edges ↔
      e ∈ graph.edges ∧ ∀ k ∈ e, source ∈ nodeSources graph k := by
  have hedges : (partOf graph source).edges.get? e = (graph.edges.get? e).filter fun _ =>
      decide (∀ k ∈ e.toFinset, k ∈ graph.nodes.filter fun _ a => source ∈ a.sourceId.getD []) :=
    Dict.get?_filter _ _ _
  have hends : (∀ k ∈ e.toFinset, k ∈ graph.nodes.filter fun _ a => source ∈ a.sourceId.getD []) ↔
      ∀ k ∈ e, source ∈ nodeSources graph k := by
    apply forall_congr'
    intro k
    rw [Sym2.mem_toFinset, ← mem_partOf]
    exact imp_congr_right fun _ => Dict.mem_mapValues.symm
  rw [Dict.mem_iff_isSome, hedges, ← hends, Dict.mem_iff_isSome]
  cases graph.edges.get? e with
  | none => simp
  | some w => simp [Option.filter]

/-! ## Composing the subgraphs -/

/-- A graph as it is composed of the subgraphs of some documents. -/
structure ComposedOf (graph : KnowledgeGraph) (done : List String) (g : PlainGraph) : Prop where
  nodes : ∀ n, n ∈ g.nodes ↔ ∃ s ∈ done, s ∈ nodeSources graph n
  sources : ∀ n a, g.nodes.get? n = some a →
    ∃ l, a.sourceId = some l ∧ ∀ s, s ∈ l ↔ s ∈ done ∧ s ∈ nodeSources graph n
  edges : ∀ e, e ∈ g.edges ↔ e ∈ graph.edges ∧ ∃ s ∈ done, ∀ k ∈ e, s ∈ nodeSources graph k

theorem composedOf_nil (graph : KnowledgeGraph) : ComposedOf graph [] Graph.empty where
  nodes n := ⟨fun h => absurd h List.not_mem_nil, fun ⟨_, h, _⟩ => absurd h List.not_mem_nil⟩
  sources n a h := by cases h
  edges e := ⟨fun h => absurd h List.not_mem_nil, fun ⟨_, _, h, _⟩ => absurd h List.not_mem_nil⟩

theorem composeNode_eq {a b : NodeAttr} {l m : List String} (ha : a.sourceId = some l)
    (hb : b.sourceId = some m) :
    composeNode a b = .ok { a.update b with sourceId := some (l ++ m) } := by
  rw [composeNode, ha, hb]
  rfl

/-- A node of the subgraph of a document has that one source. -/
theorem sourceId_of_partOf {source n : String} {b : NodeAttr}
    (h : (partOf graph source).nodes.get? n = some b) : b.sourceId = some [source] := by
  rw [get?_partOf] at h
  split_ifs at h
  · obtain ⟨a, -, rfl⟩ := Option.map_eq_some_iff.mp h
    rfl

/-- With the subgraph of one more document, a node has the sources that it has of the documents
so far and of this one. -/
theorem ComposedOf.sources_merge {done : List String} (h : ComposedOf graph done g.toGraph)
    {source : String} {merged : Dict String NodeAttr}
    (hmerged : Dict.merge composeNode g.nodes (partOf graph source).nodes = .ok merged)
    {n : String} {a : NodeAttr} (ha : merged.get? n = some a) :
    ∃ l, a.sourceId = some l ∧
      ∀ s, s ∈ l ↔ s ∈ done ++ [source] ∧ s ∈ nodeSources graph n := by
  have hmerge := Dict.merge_get? hmerged n
  rw [ha] at hmerge
  cases hold : g.nodes.get? n with
  | none =>
      -- No document so far has the node.
      have hnot : ¬ ∃ s ∈ done, s ∈ nodeSources graph n := by
        rw [← h.nodes, Dict.mem_iff_isSome, hold]
        simp
      cases hnew : (partOf graph source).nodes.get? n with
      | none => simp [hold, hnew, Dict.mergedValue] at hmerge
      | some b =>
          rw [hold, hnew] at hmerge
          obtain rfl : b = a := by simpa [Dict.mergedValue] using hmerge
          refine ⟨[source], sourceId_of_partOf hnew, fun s => ?_⟩
          have hmem : source ∈ nodeSources graph n := mem_partOf.mp (Dict.mem_of_get? hnew)
          rw [List.mem_singleton, List.mem_append, List.mem_singleton]
          constructor
          · rintro rfl
            exact ⟨Or.inr rfl, hmem⟩
          · rintro ⟨hs | rfl, hsource⟩
            · exact absurd ⟨s, hs, hsource⟩ hnot
            · rfl
  | some old =>
      obtain ⟨l, hl, hmem⟩ := h.sources n old hold
      cases hnew : (partOf graph source).nodes.get? n with
      | none =>
          rw [hold, hnew] at hmerge
          obtain rfl : old = a := by simpa [Dict.mergedValue] using hmerge
          have hnot : source ∉ nodeSources graph n := by
            rw [← mem_partOf, Dict.mem_iff_isSome, hnew]
            simp
          refine ⟨l, hl, fun s => ?_⟩
          rw [hmem, List.mem_append, List.mem_singleton]
          constructor
          · rintro ⟨hs, hsource⟩
            exact ⟨Or.inl hs, hsource⟩
          · rintro ⟨hs | rfl, hsource⟩
            · exact ⟨hs, hsource⟩
            · exact absurd hsource hnot
      | some b =>
          rw [hold, hnew] at hmerge
          have hmerge : (composeNode old b).map some = .ok (some a) := hmerge
          rw [composeNode_eq hl (sourceId_of_partOf hnew)] at hmerge
          have hsource : source ∈ nodeSources graph n := mem_partOf.mp (Dict.mem_of_get? hnew)
          obtain rfl := Option.some.inj (Except.ok.inj hmerge)
          refine ⟨l ++ [source], rfl, fun s => ?_⟩
          rw [List.mem_append, hmem, List.mem_append, List.mem_singleton]
          constructor
          · rintro (⟨hs, hin⟩ | rfl)
            · exact ⟨Or.inl hs, hin⟩
            · exact ⟨Or.inr rfl, hsource⟩
          · rintro ⟨hs | rfl, hin⟩
            · exact Or.inl ⟨hs, hin⟩
            · exact Or.inr rfl

/-- One more subgraph is composed. -/
theorem composeGraph_partOf {done : List String} (h : ComposedOf graph done g.toGraph)
    (source : String) :
    ∃ g', composeGraph g (partOf graph source) = .ok g' ∧ g'.sourceId.isSome ∧
      ComposedOf graph (done ++ [source]) g'.toGraph := by
  obtain ⟨merged, hmerged⟩ : ∃ merged, Graph.merge composeNode (fun a b => .ok (a.update b))
      g.toGraph (partOf graph source).toGraph = .ok merged := by
    apply Graph.exists_merge
    · intro n a b ha hb
      obtain ⟨l, hl, -⟩ := h.sources n a ha
      exact ⟨_, composeNode_eq hl (sourceId_of_partOf hb)⟩
    · exact fun _ a b _ _ => ⟨_, rfl⟩
  have hnodes := Graph.merge_nodes hmerged
  have hedges := Graph.merge_edges hmerged
  refine ⟨{ toGraph := merged, sourceId := some (g.sourceId.getD [] ++ [source]) }, ?_, rfl, ?_⟩
  · rw [composeGraph, hmerged]
    rfl
  · constructor
    · intro n
      show n ∈ merged.nodes ↔ _
      rw [Dict.mem_merge hnodes, h.nodes, mem_partOf]
      simp [or_and_right, exists_or]
    · exact fun n a ha => h.sources_merge hnodes ha
    · intro e
      show e ∈ merged.edges ↔ _
      rw [Dict.mem_merge hedges, h.edges, mem_edges_partOf, ← and_or_left]
      simp [or_and_right, exists_or]

/-- All subgraphs are composed, and the result lists its documents. -/
theorem composeGraphs (graph : KnowledgeGraph) (sources : List String) :
    ∃ g, (sources.map (partOf graph)).foldlM composeGraph { toGraph := Graph.empty } = .ok g ∧
      (sources ≠ [] → g.sourceId.isSome) ∧ ComposedOf graph sources g.toGraph := by
  induction sources using List.reverseRecOn with
  | nil => exact ⟨_, rfl, fun h => absurd rfl h, composedOf_nil graph⟩
  | append_singleton sources source ih =>
      obtain ⟨g, hg, -, hcomposed⟩ := ih
      obtain ⟨g', hg', hdocuments, hcomposed'⟩ := composeGraph_partOf hcomposed source
      refine ⟨g', ?_, fun _ => hdocuments, hcomposed'⟩
      rw [List.map_append, List.foldlM_append, hg]
      show (composeGraph g (partOf graph source) >>= pure) = _
      rw [hg']
      rfl

/-- What is composed without any node is the empty graph. -/
theorem ComposedOf.of_no_nodes {g : PlainGraph} {done : List String}
    (h : ComposedOf graph done g) (hno : ∀ n, n ∉ g.nodes) :
    ComposedOf graph done Graph.empty where
  nodes n := by
    rw [← h.nodes]
    exact ⟨fun hn => absurd hn List.not_mem_nil, fun hn => absurd hn (hno n)⟩
  sources n a ha := by cases ha
  edges e := by
    rw [← h.edges]
    constructor
    · exact fun he => absurd he List.not_mem_nil
    · intro he
      induction e using Sym2.ind with
      | _ a b => exact absurd (g.closed _ he a (Sym2.mem_mk_left a b)) (hno a)

/-! ## Rebuilding without a document -/

/-- The documents whose subgraphs are read. -/
def listedSources (graph : KnowledgeGraph) : List String :=
  (graph.sourceId.getD []).take maxSubgraphs

variable {rows rows' : Rows} {change : GraphChange} {d : String}

/-- The subgraphs of the other documents are read. -/
theorem found_setGraph (h : setGraph rows graph change = .ok rows') (d : String) :
    (((rows'.filterMap Row.subgraph?).take maxSubgraphs).filterMap fun r =>
      if [d].any (· ∈ r.2) then none else some r.1) =
      ((listedSources graph).filter fun s => s ≠ d).map (partOf graph) := by
  obtain ⟨sources, hsources, hrows⟩ := subgraphs_setGraph h
  rw [hrows, ← List.map_take, listedSources, hsources, Option.getD_some, List.filterMap_map]
  induction sources.take maxSubgraphs with
  | nil => rfl
  | cons s l ih =>
      rw [List.filterMap_cons, ih]
      by_cases hs : s = d
      · simp [hs]
      · simp [hs, Ne.symm hs]

/-- They are composed, and no step fails. -/
theorem rebuildGraph_setGraph (h : setGraph rows graph change = .ok rows') (d : String) :
    ∃ r, rebuildGraph rows' [d] = .ok r ∧
      ComposedOf graph ((listedSources graph).filter fun s => s ≠ d)
        (r.getD { toGraph := Graph.empty }).toGraph := by
  obtain ⟨g, hg, hdocuments, hcomposed⟩ :=
    composeGraphs graph ((listedSources graph).filter fun s => s ≠ d)
  rw [rebuildGraph]
  simp only [found_setGraph h d, hg]
  by_cases hempty : g.nodes.entries.isEmpty
  · refine ⟨none, if_pos hempty, ?_⟩
    apply hcomposed.of_no_nodes
    intro n hn
    rw [Dict.mem_iff, Dict.keys, List.isEmpty_iff.mp hempty] at hn
    exact absurd hn List.not_mem_nil
  · have hsome : g.sourceId.isSome := by
      apply hdocuments
      intro hnil
      rw [hnil] at hcomposed
      apply hempty
      rw [List.isEmpty_iff, List.eq_nil_iff_forall_not_mem]
      intro e he
      obtain ⟨s, hs, -⟩ := (hcomposed.nodes e.1).mp (List.mem_map_of_mem he)
      exact absurd hs List.not_mem_nil
    obtain ⟨sourceId, hsourceId⟩ := Option.isSome_iff_exists.mp hsome
    refine ⟨some { g with sourceId := some (sourceId.mergeSort fun a b => a ≤ b) }, ?_, hcomposed⟩
    show (if g.nodes.entries.isEmpty = true then pure none else _) = _
    rw [if_neg hempty, hsourceId]
    rfl

/-- A node of the composed graph has the sources that are composed. -/
theorem ComposedOf.mem_nodeSources {r : KnowledgeGraph} {done : List String}
    (h : ComposedOf graph done r.toGraph) {s : String} :
    s ∈ nodeSources r n ↔ s ∈ done ∧ s ∈ nodeSources graph n := by
  cases hn : r.nodes.get? n with
  | none =>
      have hnot : ¬ ∃ s ∈ done, s ∈ nodeSources graph n := by
        rw [← h.nodes, Dict.mem_iff_isSome, hn]
        simp
      have hnone : nodeSources r n = [] := by rw [nodeSources, hn]; rfl
      rw [hnone]
      constructor
      · exact fun hs => absurd hs List.not_mem_nil
      · rintro ⟨hs, hsource⟩
        exact absurd ⟨s, hs, hsource⟩ hnot
  | some a =>
      obtain ⟨l, hl, hmem⟩ := h.sources n a hn
      have hsome : nodeSources r n = l := by rw [nodeSources, hn, Option.bind_some, hl]; rfl
      rw [hsome, hmem]

theorem mem_edges_of_source {e : Sym2 String} {s : String} (h : s ∈ edgeSources graph e) :
    e ∈ graph.edges := by
  rw [Dict.mem_iff_isSome]
  cases he : graph.edges.get? e with
  | none =>
      rw [edgeSources, he] at h
      exact absurd h List.not_mem_nil
  | some w => rfl

/-- The graph lists every source of its nodes but `d`, among the subgraphs that are read. -/
def ListsSources (graph : KnowledgeGraph) (d : String) : Prop :=
  ∀ n, ∀ s ∈ nodeSources graph n, s ≠ d → s ∈ listedSources graph

/-- An edge has a source other than `d` exactly if its ends have one in common. -/
def EdgesFollowEnds (graph : KnowledgeGraph) (d : String) : Prop :=
  ∀ e ∈ graph.edges, (∃ s ∈ edgeSources graph e, s ≠ d) ↔
    ∃ s, s ≠ d ∧ ∀ k ∈ e, s ∈ nodeSources graph k

/-- Rebuilding the graph without a document removes this document and nothing else iff the
graph lists the other sources of its nodes and the edges follow their ends. -/
theorem rebuildGraph_removesOnly_iff (h : setGraph rows graph change = .ok rows') (d : String) :
    (∃ r, rebuildGraph rows' [d] = .ok r ∧
      RemovesOnly graph d (r.getD { toGraph := Graph.empty })) ↔
    ListsSources graph d ∧ EdgesFollowEnds graph d := by
  obtain ⟨r, hr, hcomposed⟩ := rebuildGraph_setGraph h d
  have hdone : ∀ s, s ∈ (listedSources graph).filter (fun s => s ≠ d) ↔
      s ∈ listedSources graph ∧ s ≠ d := by
    intro s
    rw [List.mem_filter, decide_eq_true_eq]
  -- With all sources listed, the edges of the result are those whose ends share one.
  have hshared : ListsSources graph d → ∀ e ∈ graph.edges,
      (e ∈ (r.getD { toGraph := Graph.empty }).edges ↔
        ∃ s, s ≠ d ∧ ∀ k ∈ e, s ∈ nodeSources graph k) := by
    intro hlisted e he
    rw [hcomposed.edges, and_iff_right he]
    constructor
    · rintro ⟨s, hs, hends⟩
      exact ⟨s, ((hdone s).mp hs).2, hends⟩
    · rintro ⟨s, hs, hends⟩
      induction e using Sym2.ind with
      | _ a b =>
        exact ⟨s, (hdone s).mpr ⟨hlisted a s (hends a (Sym2.mem_mk_left a b)) hs, hs⟩, hends⟩
  constructor
  · rintro ⟨r', hr', hremoves⟩
    obtain rfl := Except.ok.inj (hr.symm.trans hr')
    have hlisted : ListsSources graph d := by
      intro n s hs hne
      have hkept := (hremoves.sources n s).mpr ⟨hs, hne⟩
      exact ((hdone s).mp (hcomposed.mem_nodeSources.mp hkept).1).1
    refine ⟨hlisted, fun e he => ?_⟩
    rw [← hremoves.edges, hshared hlisted e he]
  · rintro ⟨hlisted, hedges⟩
    refine ⟨r, hr, ?_, ?_, ?_⟩
    · intro n
      rw [hcomposed.nodes]
      constructor
      · rintro ⟨s, hs, hsource⟩
        exact ⟨s, hsource, ((hdone s).mp hs).2⟩
      · rintro ⟨s, hsource, hs⟩
        exact ⟨s, (hdone s).mpr ⟨hlisted n s hsource hs, hs⟩, hsource⟩
    · intro n s
      rw [hcomposed.mem_nodeSources, hdone]
      constructor
      · rintro ⟨⟨-, hs⟩, hsource⟩
        exact ⟨hsource, hs⟩
      · rintro ⟨hsource, hs⟩
        exact ⟨⟨hlisted n s hsource hs, hs⟩, hsource⟩
    · intro e
      constructor
      · intro he
        have hgraph := ((hcomposed.edges e).mp he).1
        exact (hedges e hgraph).mpr ((hshared hlisted e hgraph).mp he)
      · rintro ⟨s, hs, hne⟩
        have hgraph := mem_edges_of_source hs
        exact (hshared hlisted e hgraph).mpr ((hedges e hgraph).mp ⟨s, hs, hne⟩)

/-! ## Two documents about two persons -/

def personAttr (sources : List String) : NodeAttr :=
  { entityType := some "PERSON", description := some "a person", sourceId := some sources }

/-- Both documents name the persons, the documents `sources` say how they are related. -/
def couple (sources : List String) : KnowledgeGraph where
  nodes := {
    entries := [("ANN", personAttr ["d", "e"]), ("BOB", personAttr ["d", "e"])]
    nodup := by decide }
  edges := {
    entries := [(s("ANN", "BOB"),
      { weight := some 1, description := some "is a sister of", keywords := some [],
        sourceId := some sources })]
    nodup := List.nodup_singleton _ }
  closed := by
    intro e he k hk
    rw [Dict.mem_iff] at he
    rw [List.mem_singleton.mp he] at hk
    rcases Sym2.mem_iff.mp hk with rfl | rfl
    · exact List.mem_cons_self
    · exact List.mem_cons_of_mem _ List.mem_cons_self
  sourceId := some ["d", "e"]

theorem nodeSources_couple (sources : List String) (n : String) :
    nodeSources (couple sources) n = if n = "ANN" ∨ n = "BOB" then ["d", "e"] else [] := by
  by_cases hann : n = "ANN"
  · rw [hann]
    rfl
  · by_cases hbob : n = "BOB"
    · rw [hbob]
      rfl
    · have hnone : (couple sources).nodes.get? n = none := by
        rw [← Option.not_isSome_iff_eq_none, ← Dict.mem_iff_isSome, Dict.mem_iff]
        show n ∉ ["ANN", "BOB"]
        simp [hann, hbob]
      rw [nodeSources, hnone, if_neg (by simp [hann, hbob])]
      rfl

theorem listedSources_couple (sources : List String) :
    listedSources (couple sources) = ["d", "e"] :=
  List.take_of_length_le (by simp [couple, maxSubgraphs])

/-- Where both documents say it, the graph is rebuilt as it should be. -/
theorem rebuildGraph_removesOnly_couple :
    ∃ rows', setGraph [] (couple ["d", "e"]) {} = .ok rows' ∧
      ∃ r, rebuildGraph rows' ["d"] = .ok r ∧
        RemovesOnly (couple ["d", "e"]) "d" (r.getD { toGraph := Graph.empty }) := by
  have hrun : ∃ rows', setGraph [] (couple ["d", "e"]) {} = .ok rows' := ⟨_, rfl⟩
  obtain ⟨rows', hrows'⟩ := hrun
  refine ⟨rows', hrows', (rebuildGraph_removesOnly_iff hrows' "d").mpr ⟨?_, ?_⟩⟩
  · intro n s hs _
    rw [nodeSources_couple] at hs
    rw [listedSources_couple]
    split_ifs at hs
    · exact hs
    · exact absurd hs List.not_mem_nil
  · intro e he
    obtain rfl : e = s("ANN", "BOB") := List.mem_singleton.mp he
    constructor
    · intro _
      refine ⟨"e", by decide, fun k hk => ?_⟩
      rw [nodeSources_couple, if_pos (Sym2.mem_iff.mp hk)]
      decide
    · intro _
      exact ⟨"e", by decide, by decide⟩

/-- Where only `d` says it, the relation is still there after `d` is removed. -/
theorem removed_relation_is_kept :
    ∃ rows', setGraph [] (couple ["d"]) {} = .ok rows' ∧
      ¬ ∃ r, rebuildGraph rows' ["d"] = .ok r ∧
        RemovesOnly (couple ["d"]) "d" (r.getD { toGraph := Graph.empty }) := by
  have hrun : ∃ rows', setGraph [] (couple ["d"]) {} = .ok rows' := ⟨_, rfl⟩
  obtain ⟨rows', hrows'⟩ := hrun
  refine ⟨rows', hrows', ?_⟩
  rintro ⟨r', hr', hremoves⟩
  obtain ⟨r, hr, hcomposed⟩ := rebuildGraph_setGraph hrows' "d"
  obtain rfl := Except.ok.inj (hr.symm.trans hr')
  have hkept : s("ANN", "BOB") ∈ (r.getD { toGraph := Graph.empty }).edges := by
    refine (hcomposed.edges _).mpr ⟨List.mem_cons_self, "e", ?_, fun k hk => ?_⟩
    · rw [listedSources_couple]
      decide
    · rw [nodeSources_couple, if_pos (Sym2.mem_iff.mp hk)]
      decide
  obtain ⟨s, hs, hne⟩ := (hremoves.edges _).mp hkept
  have honly : edgeSources (couple ["d"]) s("ANN", "BOB") = ["d"] := rfl
  rw [honly] at hs
  exact hne (List.mem_singleton.mp hs)

end RagFlow.GraphRag
