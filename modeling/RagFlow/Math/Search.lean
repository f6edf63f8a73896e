/-
# Depth-first search

A search goes from an entry to its successors and remembers the keys of the entries that it has
been to, along all branches. It comes to an end, and it finds a key exactly if a way of at least one
step leads there.
-/

import Mathlib.Data.Finset.Card
import Mathlib.Logic.Relation

namespace RagFlow.Math

variable {α κ : Type*} [DecidableEq κ]

/-- The loop over the successors of an entry, up to the goal. -/
def searchAll (key : α → κ) (goal : κ) (visit : α → List κ → Option (Bool × List κ)) :
    List α → List κ → Option (Bool × List κ)
  | [], visited => some (false, visited)
  | b :: bs, visited =>
    if key b = goal then some (true, visited)
    else
      match visit b visited with
      | none => none
      | some (true, visited) => some (true, visited)
      | some (false, visited) => searchAll key goal visit bs visited

/-- Whether the goal is a successor of something that is reached, and the keys that have been
visited; `fuel` bounds the depth. -/
def search (next : α → List α) (key : α → κ) (goal : κ) : ℕ → α → List κ → Option (Bool × List κ)
  | 0, _, _ => none
  | fuel + 1, a, visited =>
    if key a ∈ visited then some (false, visited)
    else searchAll key goal (search next key goal fuel) (next a) (key a :: visited)

section Search

variable {next : α → List α} {key : α → κ} {goal : κ} {R : κ → κ → Prop}
  {visit : α → List κ → Option (Bool × List κ)} {nodes bs : List α}
  {visited visited₁ visited₂ : List κ} {fuel : ℕ} {a : α}

/-- Every successor of a newly visited key has been visited, and is not the goal. -/
def Explored (R : κ → κ → Prop) (goal : κ) (visited visited' : List κ) : Prop :=
  ∀ k ∈ visited', k ∉ visited → ∀ k', R k k' → k' ≠ goal ∧ k' ∈ visited'

/-- What a search from a key comes to. -/
def Outcome (R : κ → κ → Prop) (goal k : κ) (visited : List κ) (result : Option (Bool × List κ)) :
    Prop :=
  ∃ found visited', result = some (found, visited') ∧ visited ⊆ visited' ∧
    (found = true → Relation.TransGen R k goal) ∧
    (found = false → k ∈ visited' ∧ Explored R goal visited visited')

/-- How many of the keys have not been visited. -/
def unvisited (nodes : List α) (key : α → κ) (visited : List κ) : ℕ :=
  ((nodes.map key).toFinset \ visited.toFinset).card

omit [DecidableEq κ] in
theorem Explored.refl (R : κ → κ → Prop) (goal : κ) (visited : List κ) :
    Explored R goal visited visited := fun _ hk hnot => absurd hk hnot

omit [DecidableEq κ] in
theorem Explored.trans (h₁ : Explored R goal visited visited₁)
    (h₂ : Explored R goal visited₁ visited₂) (hsub : visited₁ ⊆ visited₂) :
    Explored R goal visited visited₂ := by
  intro k hk hnot k' hstep
  by_cases hmem : k ∈ visited₁
  · obtain ⟨hne, hin⟩ := h₁ k hmem hnot k' hstep
    exact ⟨hne, hsub hin⟩
  · exact h₂ k hk hmem k' hstep

theorem unvisited_anti (h : visited₁ ⊆ visited₂) :
    unvisited nodes key visited₂ ≤ unvisited nodes key visited₁ := by
  refine Finset.card_le_card (Finset.sdiff_subset_sdiff (Finset.Subset.refl _) ?_)
  intro k hk
  exact List.mem_toFinset.mpr (h (List.mem_toFinset.mp hk))

theorem unvisited_cons_lt (ha : a ∈ nodes) (hnot : key a ∉ visited) :
    unvisited nodes key (key a :: visited) < unvisited nodes key visited := by
  refine Finset.card_lt_card (Finset.ssubset_iff_of_subset ?_ |>.mpr ⟨key a, ?_, ?_⟩)
  · intro k
    simp only [Finset.mem_sdiff, List.mem_toFinset, List.mem_cons, not_or]
    exact fun h => ⟨h.1, h.2.2⟩
  · simp only [Finset.mem_sdiff, List.mem_toFinset]
    exact ⟨List.mem_map_of_mem ha, hnot⟩
  · simp

/-- The loop finds the goal among the successors or from one of them, or it explores them all. -/
theorem searchAll_spec
    (hvisit : ∀ b ∈ nodes, ∀ visited, unvisited nodes key visited < fuel →
      Outcome R goal (key b) visited (visit b visited))
    (hbs : ∀ b ∈ bs, b ∈ nodes) (hfuel : unvisited nodes key visited < fuel) :
    ∃ found visited', searchAll key goal visit bs visited = some (found, visited') ∧
      visited ⊆ visited' ∧
      (found = true → ∃ b ∈ bs, key b = goal ∨ Relation.TransGen R (key b) goal) ∧
      (found = false → (∀ b ∈ bs, key b ≠ goal ∧ key b ∈ visited') ∧
        Explored R goal visited visited') := by
  induction bs generalizing visited with
  | nil =>
      refine ⟨false, visited, rfl, List.Subset.refl _, fun h => absurd h Bool.false_ne_true, ?_⟩
      exact fun _ => ⟨fun b hb => absurd hb List.not_mem_nil, .refl R goal visited⟩
  | cons b bs ih =>
      rw [List.forall_mem_cons] at hbs
      rw [searchAll]
      by_cases hgoal : key b = goal
      · rw [if_pos hgoal]
        refine ⟨true, visited, rfl, List.Subset.refl _, fun _ => ?_, fun h => absurd h.symm ?_⟩
        · exact ⟨b, List.mem_cons_self, Or.inl hgoal⟩
        · exact Bool.false_ne_true
      · obtain ⟨found₁, visited₁, heq, hsub₁, hfound₁, hnone₁⟩ := hvisit b hbs.1 visited hfuel
        rw [if_neg hgoal, heq]
        cases found₁ with
        | true =>
            refine ⟨true, visited₁, rfl, hsub₁, fun _ => ?_, fun h => absurd h.symm ?_⟩
            · exact ⟨b, List.mem_cons_self, Or.inr (hfound₁ rfl)⟩
            · exact Bool.false_ne_true
        | false =>
            obtain ⟨hvisited, hexplored⟩ := hnone₁ rfl
            obtain ⟨found, visited₂, heq₂, hsub₂, hfound, hnone⟩ :=
              ih hbs.2 ((unvisited_anti hsub₁).trans_lt hfuel)
            refine ⟨found, visited₂, heq₂, List.Subset.trans hsub₁ hsub₂, fun h => ?_, fun h => ?_⟩
            · obtain ⟨c, hc, hreach⟩ := hfound h
              exact ⟨c, List.mem_cons_of_mem b hc, hreach⟩
            · obtain ⟨hall, hrest⟩ := hnone h
              refine ⟨fun c hc => ?_, hexplored.trans hrest hsub₂⟩
              rcases List.mem_cons.mp hc with rfl | hc
              · exact ⟨hgoal, hsub₂ hvisited⟩
              · exact hall c hc

/-- A search whose depth may exceed the number of unvisited keys comes to an end. -/
theorem search_spec (hnodes : ∀ x ∈ nodes, ∀ y ∈ next x, y ∈ nodes)
    (hnext : ∀ x ∈ nodes, ∀ k, R (key x) k ↔ ∃ y ∈ next x, key y = k) (ha : a ∈ nodes)
    (hfuel : unvisited nodes key visited < fuel) :
    Outcome R goal (key a) visited (search next key goal fuel a visited) := by
  induction fuel generalizing a visited with
  | zero => exact absurd hfuel (Nat.not_lt_zero _)
  | succ fuel ih =>
      rw [search]
      by_cases hmem : key a ∈ visited
      · rw [if_pos hmem]
        refine ⟨false, visited, rfl, List.Subset.refl _, fun h => absurd h Bool.false_ne_true, ?_⟩
        exact fun _ => ⟨hmem, .refl R goal visited⟩
      · rw [if_neg hmem]
        have hless : unvisited nodes key (key a :: visited) < fuel :=
          (unvisited_cons_lt ha hmem).trans_le (Nat.le_of_lt_succ hfuel)
        obtain ⟨found, visited', heq, hsub, hfound, hnone⟩ :=
          searchAll_spec (fun b hb visited hlt => ih hb hlt) (hnodes a ha) hless
        refine ⟨found, visited', heq, List.subset_of_cons_subset hsub, fun h => ?_,
          fun h => ⟨hsub List.mem_cons_self, ?_⟩⟩
        · obtain ⟨b, hb, hgoal | hreach⟩ := hfound h
          · exact .single ((hnext a ha goal).mpr ⟨b, hb, hgoal⟩)
          · exact .head ((hnext a ha (key b)).mpr ⟨b, hb, rfl⟩) hreach
        · obtain ⟨hall, hexplored⟩ := hnone h
          intro k hk hnot k' hstep
          by_cases heq : k = key a
          · subst heq
            obtain ⟨b, hb, rfl⟩ := (hnext a ha k').mp hstep
            exact hall b hb
          · exact hexplored k hk (by simp [heq, hnot]) k' hstep

/-- A search from an entry finds the goal exactly if a way of at least one step leads there. -/
theorem search_iff (hnodes : ∀ x ∈ nodes, ∀ y ∈ next x, y ∈ nodes)
    (hnext : ∀ x ∈ nodes, ∀ k, R (key x) k ↔ ∃ y ∈ next x, key y = k) (ha : a ∈ nodes) :
    ∃ found visited, search next key goal (nodes.length + 1) a [] = some (found, visited) ∧
      (found = true ↔ Relation.TransGen R (key a) goal) := by
  have hfuel : unvisited nodes key [] < nodes.length + 1 := by
    have hle := List.toFinset_card_le (nodes.map key)
    rw [List.length_map] at hle
    exact Nat.lt_succ_of_le ((Finset.card_le_card Finset.sdiff_subset).trans hle)
  have hspec : Outcome R goal (key a) [] (search next key goal (nodes.length + 1) a []) :=
    search_spec hnodes hnext ha hfuel
  obtain ⟨found, visited, heq, -, hfound, hnone⟩ := hspec
  refine ⟨found, visited, heq, hfound, fun hreach => ?_⟩
  by_contra hfalse
  obtain ⟨hstart, hexplored⟩ := hnone (Bool.not_eq_true found |>.mp hfalse)
  have hvisited : ∀ k, Relation.TransGen R (key a) k → k ≠ goal ∧ k ∈ visited := by
    intro k hk
    induction hk with
    | single hstep => exact hexplored _ hstart List.not_mem_nil _ hstep
    | tail _ hstep ih => exact hexplored _ ih.2 List.not_mem_nil _ hstep
  exact (hvisited goal hreach).1 rfl

end Search

/-! ## One more step -/

/-- With one more step from `s` to `t`, a relation that goes round in no circle keeps to that
exactly if no way leads from `t` to `s`. -/
theorem acyclic_or_iff {R : α → α → Prop} (hacyclic : ∀ a, ¬ Relation.TransGen R a a) {s t : α} :
    (∀ a, ¬ Relation.TransGen (fun x y => R x y ∨ x = s ∧ y = t) a a) ↔
      ¬ Relation.ReflTransGen R t s := by
  constructor
  · intro h hback
    refine h s (.head' (Or.inr ⟨rfl, rfl⟩) ?_)
    exact Relation.ReflTransGen.mono (fun _ _ hstep => Or.inl hstep) _ _ hback
  · intro hnot
    have hways : ∀ a b, Relation.TransGen (fun x y => R x y ∨ x = s ∧ y = t) a b →
        Relation.TransGen R a b ∨ Relation.ReflTransGen R a s ∧ Relation.ReflTransGen R t b := by
      intro a b hway
      induction hway with
      | single hstep =>
          rcases hstep with hstep | ⟨rfl, rfl⟩
          · exact Or.inl (.single hstep)
          · exact Or.inr ⟨.refl, .refl⟩
      | tail _ hstep ih =>
          rcases hstep with hstep | ⟨rfl, rfl⟩
          · rcases ih with hway | ⟨hto, hfrom⟩
            · exact Or.inl (hway.tail hstep)
            · exact Or.inr ⟨hto, hfrom.tail hstep⟩
          · rcases ih with hway | ⟨-, hfrom⟩
            · exact Or.inr ⟨hway.to_reflTransGen, .refl⟩
            · exact absurd hfrom hnot
    intro a hcircle
    rcases hways a a hcircle with hway | ⟨hto, hfrom⟩
    · exact hacyclic a hway
    · exact hnot (hfrom.trans hto)

end RagFlow.Math
