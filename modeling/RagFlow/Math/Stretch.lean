/-
# Marks and the stretches between them

A list with some of its entries marked falls apart into the marked entries and the longest stretches
between them. Two stretches are never next to each other, so that a loop which starts afresh at
every mark works on each of them alone.
-/

import Mathlib

namespace RagFlow.Math

variable {α : Type*}

/-- A marked entry, or entries between marks. -/
inductive Stretch (α : Type*)
  | mark (a : α)
  | run (l : List α)

namespace Stretch

def toList : Stretch α → List α
  | mark a => [a]
  | run l => l

def isMark : Stretch α → Bool
  | mark _ => true
  | run _ => false

end Stretch

/-- The list in pieces, with the marks by themselves and nothing else between two runs. -/
structure CutAt (marked : α → Bool) (l : List α) (pieces : List (Stretch α)) : Prop where
  whole : pieces.flatMap Stretch.toList = l
  kinds : ∀ piece ∈ pieces, piece.toList ≠ [] ∧ ∀ a ∈ piece.toList, marked a = piece.isMark
  maximal : pieces.IsChain fun piece piece' => piece.isMark = true ∨ piece'.isMark = true

section CutAt

variable {marked : α → Bool} {l : List α} {pieces : List (Stretch α)}

theorem cutAt_nil : CutAt marked [] [] := ⟨rfl, by simp, .nil⟩

theorem CutAt.concat (h : CutAt marked l pieces) (piece : Stretch α)
    (hkind : piece.toList ≠ [] ∧ ∀ a ∈ piece.toList, marked a = piece.isMark)
    (hlast : ∀ last ∈ pieces.getLast?, last.isMark = true ∨ piece.isMark = true) :
    CutAt marked (l ++ piece.toList) (pieces ++ [piece]) := by
  refine ⟨?_, ?_, ?_⟩
  · rw [List.flatMap_append, h.whole, List.flatMap_singleton]
  · intro other hother
    rcases List.mem_append.mp hother with hother | hother
    · exact h.kinds other hother
    · obtain rfl := List.mem_singleton.mp hother
      exact hkind
  · refine List.isChain_append.mpr ⟨h.maximal, List.isChain_singleton _, fun last hl next hn => ?_⟩
    obtain rfl : piece = next := by simpa using hn
    exact hlast last hl

/-- Every list can be cut. An entry without a mark joins the run behind it, if there is one. -/
theorem exists_cutAt (marked : α → Bool) (l : List α) : ∃ pieces, CutAt marked l pieces := by
  induction l with
  | nil => exact ⟨[], cutAt_nil⟩
  | cons a l ih =>
      obtain ⟨pieces, rfl, hkinds, hmaximal⟩ := ih
      cases ha : marked a with
      | true =>
          refine ⟨.mark a :: pieces, by simp [Stretch.toList], ?_, ?_⟩
          · exact List.forall_mem_cons.mpr ⟨⟨List.cons_ne_nil _ _, by simp [Stretch.toList,
              Stretch.isMark, ha]⟩, hkinds⟩
          · exact List.isChain_cons.mpr ⟨fun _ _ => .inl rfl, hmaximal⟩
      | false =>
          have hsingle : (Stretch.run [a]).toList ≠ [] ∧ ∀ b ∈ (Stretch.run [a]).toList,
              marked b = (Stretch.run [a]).isMark := by
            simp [Stretch.toList, Stretch.isMark, ha]
          rcases pieces with _ | ⟨b | r, pieces⟩
          · exact ⟨[.run [a]], by simp [Stretch.toList], List.forall_mem_singleton.mpr hsingle,
              List.isChain_singleton _⟩
          · refine ⟨.run [a] :: .mark b :: pieces, by simp [Stretch.toList],
              List.forall_mem_cons.mpr ⟨hsingle, hkinds⟩, .cons_cons (.inr rfl) hmaximal⟩
          · obtain ⟨hrun, hrest⟩ := List.forall_mem_cons.mp hkinds
            obtain ⟨hnext, htail⟩ := List.isChain_cons.mp hmaximal
            refine ⟨.run (a :: r) :: pieces, by simp [Stretch.toList], ?_, ?_⟩
            · refine List.forall_mem_cons.mpr ⟨⟨List.cons_ne_nil _ _, ?_⟩, hrest⟩
              exact List.forall_mem_cons.mpr ⟨ha, hrun.2⟩
            · exact List.isChain_cons.mpr ⟨hnext, htail⟩

end CutAt

end RagFlow.Math
