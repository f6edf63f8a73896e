/-
# Runs

A list is cut from the front into runs, each of them the shortest from where it begins that has a
property. However far two cuttings go, the shorter one is the beginning of the other.
-/

import Mathlib.Data.List.Infix

namespace RagFlow.Math

universe u

/-- A list with a property that no shorter beginning of it has. -/
structure IsRun {α : Type u} (p : List α → Prop) (run : List α) : Prop where
  holds : p run
  shortest : ∀ first, first <+: run → p first → first = run

section Runs

variable {α : Type u} {p : List α → Prop} {run run' rest rest' : List α}

/-- Two runs that begin at one place are one. -/
theorem IsRun.eq (h : IsRun p run) (h' : IsRun p run') (hp : run ++ rest <+: run' ++ rest') :
    run = run' := by
  have hrun : run <+: run' ++ rest' := (List.prefix_append run rest).trans hp
  rcases List.prefix_or_prefix_of_prefix hrun (List.prefix_append run' rest') with hle | hle
  · exact h'.shortest run hle h.holds
  · exact (h.shortest run' hle h'.holds).symm

/-- Runs at the front of a list are the first of the runs into which it is cut, where what is left
at its end does not begin with a run. -/
theorem initial_runs {runs runs' : List (List α)} (hruns : ∀ g ∈ runs, IsRun p g)
    (hruns' : ∀ g ∈ runs', IsRun p g) (hrest : ∀ first, first <+: rest → ¬ p first)
    (hp : runs.flatten <+: runs'.flatten ++ rest) : runs <+: runs' := by
  induction runs generalizing runs' with
  | nil => exact List.nil_prefix
  | cons g runs ih =>
      have hg := hruns g List.mem_cons_self
      cases runs' with
      | nil =>
          have hg' : g <+: rest := (List.prefix_append g runs.flatten).trans hp
          exact absurd hg.holds (hrest g hg')
      | cons g' runs' =>
          rw [List.flatten_cons, List.flatten_cons, List.append_assoc] at hp
          obtain rfl := hg.eq (hruns' g' List.mem_cons_self) hp
          refine List.cons_prefix_cons.mpr ⟨rfl, ih ?_ ?_ ?_⟩
          · exact fun h hh => hruns h (List.mem_cons_of_mem g hh)
          · exact fun h hh => hruns' h (List.mem_cons_of_mem g hh)
          · exact List.prefix_append_right_inj g |>.mp hp

end Runs

end RagFlow.Math
