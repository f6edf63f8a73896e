/-
# Undirected graphs with attributes

Nodes and edges are kept in dictionaries; an edge is an unordered pair, loops
included, and its ends are nodes. Restricting a graph to some of its nodes, mapping
the attributes and merging two graphs keep this.
-/

import RagFlow.Math.Dict
import Mathlib.Data.Sym.Sym2

namespace RagFlow.Math

universe u v w

/-- A graph with node attributes `ν` and edge attributes `ω`. -/
structure Graph (κ : Type u) (ν ω : Type v) [DecidableEq κ] where
  nodes : Dict κ ν
  edges : Dict (Sym2 κ) ω
  closed : ∀ e ∈ edges, ∀ k ∈ e, k ∈ nodes

namespace Graph

variable {κ : Type u} {ν ω : Type v} [DecidableEq κ]

def empty : Graph κ ν ω where
  nodes := Dict.empty
  edges := Dict.empty
  closed := fun _ h => absurd h List.not_mem_nil

/-- Add a node, or give a known one new attributes. -/
def setNode (g : Graph κ ν ω) (k : κ) (a : ν) : Graph κ ν ω where
  nodes := g.nodes.set k a
  edges := g.edges
  closed := fun e he j hj => Dict.mem_set.mpr (Or.inr (g.closed e he j hj))

/-- Add an edge between nodes, or give a known one new attributes. -/
def setEdge (g : Graph κ ν ω) (e : Sym2 κ) (a : ω) (h : ∀ k ∈ e, k ∈ g.nodes) :
    Graph κ ν ω where
  nodes := g.nodes
  edges := g.edges.set e a
  closed := by
    intro f hf
    rcases Dict.mem_set.mp hf with rfl | hold
    · exact h
    · exact g.closed f hold

/-- The number of edge ends at a node: a loop counts twice. -/
def degree (g : Graph κ ν ω) (k : κ) : ℕ :=
  (g.edges.keys.filter fun e => k ∈ e).length + if s(k, k) ∈ g.edges then 1 else 0

/-- The degree of a node depends on its own edges only. -/
theorem degree_congr {g h : Graph κ ν ω} {k : κ}
    (hedges : ∀ e, k ∈ e → (e ∈ g.edges ↔ e ∈ h.edges)) : g.degree k = h.degree k := by
  have hperm : (g.edges.keys.filter fun e => k ∈ e).Perm (h.edges.keys.filter fun e => k ∈ e) := by
    apply (List.perm_ext_iff_of_nodup (g.edges.nodup.filter _) (h.edges.nodup.filter _)).mpr
    intro e
    rw [List.mem_filter, List.mem_filter, decide_eq_true_eq]
    constructor
    · exact fun he => ⟨(hedges e he.2).mp he.1, he.2⟩
    · exact fun he => ⟨(hedges e he.2).mpr he.1, he.2⟩
  have hloop := hedges s(k, k) (Sym2.mem_mk_left k k)
  rw [degree, degree, hperm.length_eq]
  simp only [hloop]

/-- The nodes that an edge leads to from a node, itself included if there is a loop. -/
def neighbors (g : Graph κ ν ω) (k : κ) : List κ :=
  g.nodes.keys.filter fun j => s(k, j) ∈ g.edges

/-- The ends of an edge, the one that was inserted first in front. -/
def ends [Inhabited κ] (g : Graph κ ν ω) (e : Sym2 κ) : κ × κ :=
  match g.nodes.keys.filter fun k => k ∈ e with
  | [] => default
  | [k] => (k, k)
  | k :: l :: _ => (k, l)

/-- The graph induced by the nodes that satisfy `p`. -/
def filterNodes (p : κ → ν → Bool) (g : Graph κ ν ω) : Graph κ ν ω where
  nodes := g.nodes.filter p
  edges := g.edges.filter fun e _ => decide (∀ k ∈ e.toFinset, k ∈ g.nodes.filter p)
  closed := by
    intro e he k hk
    obtain ⟨w, hw⟩ := Option.isSome_iff_exists.mp (Dict.mem_iff_isSome.mp he)
    rw [Dict.get?_filter, Option.filter_eq_some_iff] at hw
    exact of_decide_eq_true hw.2 k (Sym2.mem_toFinset.mpr hk)

def filterEdges (p : Sym2 κ → ω → Bool) (g : Graph κ ν ω) : Graph κ ν ω where
  nodes := g.nodes
  edges := g.edges.filter p
  closed := by
    intro e he
    apply g.closed e
    obtain ⟨w, hw⟩ := Option.isSome_iff_exists.mp (Dict.mem_iff_isSome.mp he)
    rw [Dict.get?_filter, Option.filter_eq_some_iff] at hw
    exact Dict.mem_of_get? hw.1

def mapNodes (f : κ → ν → ν) (g : Graph κ ν ω) : Graph κ ν ω where
  nodes := g.nodes.mapValues f
  edges := g.edges
  closed := fun e he k hk => Dict.mem_mapValues.mpr (g.closed e he k hk)

def mapEdges (f : Sym2 κ → ω → ω) (g : Graph κ ν ω) : Graph κ ν ω where
  nodes := g.nodes
  edges := g.edges.mapValues f
  closed := fun e he => g.closed e (Dict.mem_mapValues.mp he)

section Merge

variable {ε : Type w} {fn : ν → ν → Except ε ν} {fe : ω → ω → Except ε ω}

/-- Merge the nodes and then the edges of `h` into `g`. -/
def merge (fn : ν → ν → Except ε ν) (fe : ω → ω → Except ε ω) (g h : Graph κ ν ω) :
    Except ε (Graph κ ν ω) :=
  match hn : Dict.merge fn g.nodes h.nodes with
  | .error e => .error e
  | .ok nodes =>
    match he : Dict.merge fe g.edges h.edges with
    | .error e => .error e
    | .ok edges => .ok
      { nodes := nodes
        edges := edges
        closed := by
          intro e hmem k hk
          apply (Dict.mem_merge hn).mpr
          rcases (Dict.mem_merge he).mp hmem with hold | hnew
          · exact Or.inl (g.closed e hold k hk)
          · exact Or.inr (h.closed e hnew k hk) }

theorem merge_nodes {g h r : Graph κ ν ω} (hr : merge fn fe g h = .ok r) :
    Dict.merge fn g.nodes h.nodes = .ok r.nodes := by
  rw [merge] at hr
  split at hr
  · contradiction
  · rename_i nodes hn
    split at hr
    · contradiction
    · rw [← Except.ok.inj hr]
      exact hn

theorem merge_edges {g h r : Graph κ ν ω} (hr : merge fn fe g h = .ok r) :
    Dict.merge fe g.edges h.edges = .ok r.edges := by
  rw [merge] at hr
  split at hr
  · contradiction
  · split at hr
    · contradiction
    · rename_i edges he
      rw [← Except.ok.inj hr]
      exact he

theorem exists_merge {g h : Graph κ ν ω}
    (hn : ∀ k v w, g.nodes.get? k = some v → h.nodes.get? k = some w → ∃ x, fn v w = .ok x)
    (he : ∀ e v w, g.edges.get? e = some v → h.edges.get? e = some w → ∃ x, fe v w = .ok x) :
    ∃ r, merge fn fe g h = .ok r := by
  obtain ⟨nodes, hnodes⟩ := Dict.exists_merge hn
  obtain ⟨edges, hedges⟩ := Dict.exists_merge he
  rw [merge]
  split
  · rename_i e herror
    rw [hnodes] at herror
    cases herror
  · split
    · rename_i e herror
      rw [hedges] at herror
      cases herror
    · exact ⟨_, rfl⟩

end Merge

/-- The ends of an edge make up the edge. -/
theorem mk_ends [Inhabited κ] {g : Graph κ ν ω} {e : Sym2 κ} (h : e ∈ g.edges) :
    s((g.ends e).1, (g.ends e).2) = e := by
  induction e using Sym2.ind with
  | _ a b =>
    have hmem : ∀ k, k ∈ g.nodes.keys.filter (fun k => k ∈ s(a, b)) ↔ k = a ∨ k = b := by
      intro k
      rw [List.mem_filter, decide_eq_true_eq, Sym2.mem_iff]
      constructor
      · exact fun hk => hk.2
      · intro hk
        exact ⟨g.closed _ h k (Sym2.mem_iff.mpr hk), hk⟩
    have hnodup : (g.nodes.keys.filter fun k => k ∈ s(a, b)).Nodup := g.nodes.nodup.filter _
    rw [ends]
    split
    · rename_i hnil
      rw [hnil] at hmem
      exact absurd ((hmem a).mpr (Or.inl rfl)) List.not_mem_nil
    · rename_i k hone
      rw [hone] at hmem
      rw [List.mem_singleton.mp ((hmem a).mpr (Or.inl rfl)),
        List.mem_singleton.mp ((hmem b).mpr (Or.inr rfl))]
    · rename_i k l rest htwo
      rw [htwo] at hmem hnodup
      have hkl : k ≠ l := by
        rintro rfl
        simp at hnodup
      have hk := (hmem k).mp (by simp)
      have hl := (hmem l).mp (by simp)
      rcases hk with rfl | rfl
      · rcases hl with rfl | rfl
        · exact absurd rfl hkl
        · rfl
      · rcases hl with rfl | rfl
        · exact Sym2.eq_swap
        · exact absurd rfl hkl

end Graph

end RagFlow.Math
