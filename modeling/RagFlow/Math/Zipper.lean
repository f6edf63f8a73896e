/-
# Bounded undo and redo

A history with a current state, the states before it, the nearest first, and the states that were
undone. Pushing a state that is not the current one makes it current, forgets what was undone, and
keeps no more states than the bound.
-/

import Mathlib

namespace RagFlow.Math

universe u

variable {σ : Type u}

structure Zipper (σ : Type u) where
  before : List σ
  current : σ
  after : List σ

/-- What a history is used for. -/
inductive Edit (σ : Type u)
  | push (s : σ)
  | undo
  | redo

namespace Zipper

def toList (z : Zipper σ) : List σ := z.before.reverse ++ z.current :: z.after

/-- The state before becomes current. -/
def undo (z : Zipper σ) : Option (Zipper σ) :=
  match z.before with
  | [] => none
  | s :: before => some ⟨before, s, z.current :: z.after⟩

def redo (z : Zipper σ) : Option (Zipper σ) :=
  match z.after with
  | [] => none
  | s :: after => some ⟨z.current :: z.before, s, after⟩

/-- A new current state, with as many before it as the bound leaves room for. -/
def advance (bound : ℕ) (s : σ) (z : Zipper σ) : Zipper σ :=
  ⟨(z.current :: z.before).take (bound - 1), s, []⟩

/-- A state is pushed, unless it is the same as the current one. -/
def push (bound : ℕ) (same : σ → σ → Bool) (s : σ) : Option (Zipper σ) → Zipper σ
  | none => ⟨[], s, []⟩
  | some z => if same s z.current then z else z.advance bound s

/-- One use of a history: the state that is restored, and the history after it. -/
def step (bound : ℕ) (same : σ → σ → Bool) (h : Option (Zipper σ)) :
    Edit σ → Option σ × Option (Zipper σ)
  | .push s => (none, some (push bound same s h))
  | .undo => match h.bind undo with
    | none => (none, h)
    | some z => (some z.current, some z)
  | .redo => match h.bind redo with
    | none => (none, h)
    | some z => (some z.current, some z)

/-- The states that are restored, and the history after all the uses. -/
def run (bound : ℕ) (same : σ → σ → Bool) (h : Option (Zipper σ)) :
    List (Edit σ) → List (Option σ) × Option (Zipper σ)
  | [] => ([], h)
  | e :: edits =>
    let (restored, h) := step bound same h e
    let (rest, h) := run bound same h edits
    (restored :: rest, h)

variable {z z' : Zipper σ}

theorem length_toList (z : Zipper σ) :
    z.toList.length = z.before.length + 1 + z.after.length := by
  simp [toList]
  omega

theorem take_toList (z : Zipper σ) :
    z.toList.take (z.before.length + 1) = (z.current :: z.before).reverse := by
  rw [toList, List.reverse_cons, List.append_cons]
  exact List.take_left' (by simp)

theorem getElem?_toList (z : Zipper σ) : z.toList[z.before.length]? = some z.current := by
  simp [toList]

/-- The states up to the current one and the new one, without those that no longer fit. -/
theorem toList_advance {bound : ℕ} (hbound : 1 ≤ bound) (s : σ) (z : Zipper σ) :
    (z.advance bound s).toList =
      (z.toList.take (z.before.length + 1) ++ [s]).drop (z.before.length + 2 - bound) := by
  have hlength : (z.current :: z.before).reverse.length = z.before.length + 1 := by simp
  rw [take_toList, advance, toList, List.reverse_take, List.length_cons,
    List.drop_append_of_le_length (by rw [hlength]; omega)]
  congr 2
  omega

/-- Undoing only moves along the states. -/
theorem toList_undo (h : z.undo = some z') :
    z'.toList = z.toList ∧ z.before.length = z'.before.length + 1 := by
  unfold undo at h
  split at h
  · cases h
  · rename_i s before hbefore
    obtain rfl := Option.some.inj h
    simp [toList, hbefore]

theorem toList_redo (h : z.redo = some z') :
    z'.toList = z.toList ∧ z'.before.length = z.before.length + 1 := by
  unfold redo at h
  split at h
  · cases h
  · rename_i s after hafter
    obtain rfl := Option.some.inj h
    simp [toList, hafter]

theorem redo_of_undo (h : z.undo = some z') : z'.redo = some z := by
  unfold undo at h
  split at h
  · cases h
  · rename_i s before hbefore
    obtain rfl := Option.some.inj h
    simp [redo, ← hbefore]

theorem undo_eq_none_iff : z.undo = none ↔ z.before = [] := by
  unfold undo
  split <;> simp_all

theorem redo_eq_none_iff : z.redo = none ↔ z.after = [] := by
  unfold redo
  split <;> simp_all

end Zipper

end RagFlow.Math
