/-
# Longest matches

The longest word among the candidates at a place, where a single entry stands in for a word that
there is not. The candidates at the front of a list are its prefixes, and at its back its suffixes;
a segmentation from either end takes the longest match each time.
-/

import Mathlib.Data.List.Infix

namespace RagFlow.Math

variable {α : Type*} {W C : List α → Prop}

/-- The longest word of the candidates, or one entry if there is no word. -/
def LongestMatch (W C : List α → Prop) (t : List α) : Prop :=
  C t ∧ t ≠ [] ∧
    ((∃ u, C u ∧ u ≠ [] ∧ W u) → W t ∧ ∀ u, C u → W u → u.length ≤ t.length) ∧
    ((¬ ∃ u, C u ∧ u ≠ [] ∧ W u) → t.length = 1)

/-- Where a candidate is known by its length, a scan that ends with a word or with one entry, and
with no longer word, ends with the longest match. -/
theorem LongestMatch.of_scan {t : List α} (ht : C t) (hne : t ≠ []) (hword : W t ∨ t.length = 1)
    (hlonger : ∀ u, C u → t.length < u.length → ¬ W u)
    (hunique : ∀ u, C u → u.length = t.length → u = t) : LongestMatch W C t := by
  have hlongest : ∀ u, C u → W u → u.length ≤ t.length := by
    intro u hu hWu
    by_contra hlt
    exact hlonger u hu (Nat.lt_of_not_le hlt) hWu
  refine ⟨ht, hne, fun hsome => ⟨?_, hlongest⟩, fun hnone => ?_⟩
  · obtain ⟨u, hu, hune, hWu⟩ := hsome
    rcases hword with hWt | hone
    · exact hWt
    · have hpos := List.length_pos_of_ne_nil hune
      have hle := hlongest u hu hWu
      have hut : u = t := hunique u hu (by omega)
      exact hut ▸ hWu
  · rcases hword with hWt | hone
    · exact absurd ⟨t, ht, hne, hWt⟩ hnone
    · exact hone

/-! ## Segmentations -/

/-- From the front, every token is the longest match at its place. -/
def CutsForward (W : List α → Prop) (tokens : List (List α)) : Prop :=
  ∀ before t after, tokens = before ++ t :: after →
    LongestMatch W (· <+: (t :: after).flatten) t

/-- From the back, every token is the longest match that ends at its place. -/
def CutsBackward (W : List α → Prop) (tokens : List (List α)) : Prop :=
  ∀ before t after, tokens = before ++ t :: after →
    LongestMatch W (· <:+ (before ++ [t]).flatten) t

theorem cutsForward_nil : CutsForward W [] := by
  intro before t after h
  simp at h

theorem CutsForward.cons {t : List α} {tokens : List (List α)} (h : CutsForward W tokens)
    (ht : LongestMatch W (· <+: (t :: tokens).flatten) t) : CutsForward W (t :: tokens) := by
  intro before u after hsplit
  cases before with
  | nil =>
      obtain ⟨rfl, rfl⟩ := List.cons.inj hsplit
      exact ht
  | cons first before =>
      obtain ⟨-, htail⟩ := List.cons.inj hsplit
      exact h before u after htail

theorem cutsBackward_nil : CutsBackward W [] := by
  intro before t after h
  simp at h

theorem CutsBackward.concat {t : List α} {tokens : List (List α)} (h : CutsBackward W tokens)
    (ht : LongestMatch W (· <:+ (tokens ++ [t]).flatten) t) : CutsBackward W (tokens ++ [t]) := by
  intro before u after hsplit
  cases after using List.reverseRecOn with
  | nil =>
      obtain ⟨rfl, hut⟩ := List.append_inj' hsplit rfl
      obtain rfl := List.singleton_inj.mp hut
      exact ht
  | append_singleton after last =>
      rw [← List.cons_append, ← List.append_assoc] at hsplit
      obtain ⟨hinit, -⟩ := List.append_inj' hsplit rfl
      exact h before u after hinit

end RagFlow.Math
