/-
# Holders that share a slot

A table has one slot a key. A holder that comes writes its value into the slot of its key,
over what is there, and one that goes clears the slot, whatever it holds by then. A slot is
right as long as no holder goes while another one of the same key stays.
-/

import RagFlow.Math.Run
import Mathlib.Logic.Function.Basic

namespace RagFlow.Math

universe u v w

/-- Those that have come and not gone, and what the slots hold. -/
structure Slots (ι : Type u) (κ : Type v) (α : Type w) where
  holders : List ι
  slot : κ → Option α

namespace Slots

variable {ι : Type u} {κ : Type v} {α : Type w} [DecidableEq ι] [DecidableEq κ]

/-- Nobody has come yet. -/
def empty : Slots ι κ α where
  holders := []
  slot := fun _ => none

/-- `i` comes, with key `k` and value `a`. -/
def enter (s : Slots ι κ α) (i : ι) (k : κ) (a : α) : Slots ι κ α where
  holders := i :: s.holders
  slot := Function.update s.slot k (some a)

/-- `i` goes, and clears the slot of key `k`. -/
def leave (s : Slots ι κ α) (i : ι) (k : κ) : Slots ι κ α where
  holders := s.holders.erase i
  slot := Function.update s.slot k none

variable {s t : Slots ι κ α} {i j : ι} {key : ι → κ} {value : ι → α} {n : ℕ}

/-- One holder comes or goes. -/
inductive Step (key : ι → κ) (value : ι → α) : Slots ι κ α → Slots ι κ α → Prop
  | enter {s : Slots ι κ α} (i : ι) : Step key value s (s.enter i (key i) (value i))
  | leave {s : Slots ι κ α} (i : ι) (h : i ∈ s.holders) : Step key value s (s.leave i (key i))

/-- One holder comes, or goes when no other one of its key is there. -/
inductive AloneStep (key : ι → κ) (value : ι → α) : Slots ι κ α → Slots ι κ α → Prop
  | enter {s : Slots ι κ α} (i : ι) : AloneStep key value s (s.enter i (key i) (value i))
  | leave {s : Slots ι κ α} (i : ι) (h : i ∈ s.holders)
      (alone : ∀ j ∈ s.holders.erase i, key j ≠ key i) :
      AloneStep key value s (s.leave i (key i))

theorem AloneStep.step (h : AloneStep key value s t) : Step key value s t := by
  cases h with
  | enter i => exact .enter i
  | leave i h _ => exact .leave i h

/-- The slot of every holder is full, and what a slot holds is the value of a holder of its
key. -/
structure Kept (key : ι → κ) (value : ι → α) (s : Slots ι κ α) : Prop where
  full : ∀ i ∈ s.holders, s.slot (key i) ≠ none
  held : ∀ k a, s.slot k = some a → ∃ i ∈ s.holders, key i = k ∧ value i = a

omit [DecidableEq ι] [DecidableEq κ] in
theorem kept_empty : Kept key value (empty : Slots ι κ α) where
  full := by simp [empty]
  held := by simp [empty]

omit [DecidableEq ι] in
theorem Kept.enter (h : Kept key value s) (i : ι) :
    Kept key value (s.enter i (key i) (value i)) where
  full := by
    intro j hj
    by_cases hkey : key j = key i
    · simp [Slots.enter, hkey]
    · have hmem : j ∈ s.holders := by
        rcases List.mem_cons.mp hj with rfl | hmem
        · exact absurd rfl hkey
        · exact hmem
      simpa [Slots.enter, hkey] using h.full j hmem
  held := by
    intro k a hslot
    by_cases hkey : k = key i
    · subst hkey
      have hvalue : value i = a := by simpa [Slots.enter] using hslot
      exact ⟨i, List.mem_cons_self, rfl, hvalue⟩
    · have hold : s.slot k = some a := by simpa [Slots.enter, hkey] using hslot
      obtain ⟨j, hj, hrest⟩ := h.held k a hold
      exact ⟨j, List.mem_cons_of_mem i hj, hrest⟩

theorem Kept.leave (h : Kept key value s) (alone : ∀ j ∈ s.holders.erase i, key j ≠ key i) :
    Kept key value (s.leave i (key i)) where
  full := by
    intro j hj
    have hold := h.full j (List.mem_of_mem_erase hj)
    simpa [Slots.leave, alone j hj] using hold
  held := by
    intro k a hslot
    have hkey : k ≠ key i := by
      rintro rfl
      simp [Slots.leave] at hslot
    have hold : s.slot k = some a := by simpa [Slots.leave, hkey] using hslot
    obtain ⟨j, hj, rfl, hvalue⟩ := h.held k a hold
    have hne : j ≠ i := fun heq => hkey (congrArg key heq)
    exact ⟨j, (List.mem_erase_of_ne hne).mpr hj, rfl, hvalue⟩

theorem AloneStep.kept (hstep : AloneStep key value s t) (h : Kept key value s) :
    Kept key value t := by
  cases hstep with
  | enter i => exact h.enter i
  | leave i _ alone => exact h.leave alone

/-- A run in which nobody goes while another holder of the same key stays keeps the slots
right. -/
theorem kept_of_run (hrun : Run (AloneStep key value) s n t) (h : Kept key value s) :
    Kept key value t :=
  hrun.invariant h fun _ _ _ _ hkept hstep => hstep.kept hkept

omit [DecidableEq ι] [DecidableEq κ] in
theorem Kept.exists_of_mem (h : Kept key value s) (hi : i ∈ s.holders) :
    ∃ j ∈ s.holders, key j = key i ∧ s.slot (key i) = some (value j) := by
  obtain ⟨a, ha⟩ := Option.ne_none_iff_exists'.mp (h.full i hi)
  obtain ⟨j, hj, hkey, rfl⟩ := h.held _ a ha
  exact ⟨j, hj, hkey, ha⟩

end Slots

end RagFlow.Math
