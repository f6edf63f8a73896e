/-
# The distributed lock

A lock is a key that `SET NX` writes and that is deleted if it carries a given value. The
value is all that the store knows of an owner; who has set the key is kept here beside
it, to say what a deletion takes away from whom.
-/

import Mathlib.Data.Option.Basic

namespace RagFlow.Redis

/-- The content of a lock key, and who has set it: nobody for a key left over from
before. -/
structure LockEntry (ι : Type*) where
  value : String
  setBy : Option ι

variable {ι : Type*} {lock lock' : Option (LockEntry ι)} {value : String} {i j : ι}

/-- `delete_if_equal`. -/
def deleteIfEqual (lock : Option (LockEntry ι)) (expected : String) : Option (LockEntry ι) :=
  lock.filter fun entry => entry.value ≠ expected

/-- `SET NX` by `i`: `none` if the key exists. -/
def setNx (lock : Option (LockEntry ι)) (value : String) (i : ι) :
    Option (Option (LockEntry ι)) :=
  match lock with
  | none => some (some { value, setBy := some i })
  | some _ => none

/-- The key is there, and `i` has set it. -/
def Holds (lock : Option (LockEntry ι)) (i : ι) : Prop :=
  ∃ entry, lock = some entry ∧ entry.setBy = some i

theorem Holds.unique (hi : Holds lock i) (hj : Holds lock j) : i = j := by
  obtain ⟨entry, hentry, hi⟩ := hi
  obtain ⟨entry', hentry', hj⟩ := hj
  rw [hentry] at hentry'
  cases hentry'
  exact Option.some.inj (hi.symm.trans hj)

theorem holds_some : Holds (some { value, setBy := some i }) j ↔ i = j := by
  simp [Holds]

theorem Holds.of_deleteIfEqual (h : Holds (deleteIfEqual lock value) i) : Holds lock i := by
  obtain ⟨entry, hentry, hi⟩ := h
  exact ⟨entry, (Option.filter_eq_some_iff.mp hentry).1, hi⟩

theorem deleteIfEqual_self (setBy : Option ι) :
    deleteIfEqual (some { value, setBy }) value = none := by
  simp [deleteIfEqual]

theorem setNx_eq_some : setNx lock value i = some lock' ↔
    lock = none ∧ lock' = some { value, setBy := some i } := by
  cases lock with
  | none => simp [setNx, eq_comm]
  | some entry => simp [setNx]

end RagFlow.Redis
