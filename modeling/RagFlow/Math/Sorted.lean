/-
# Sorted lists

Searching a sorted list: the partition point by halving, what comes after a key, and the first
hit from the front.
-/

import Mathlib.Data.List.Basic
import Mathlib.Data.List.Pairwise
import Mathlib.Order.Basic

/-! ## The partition point

Where the elements with a property all come first, halving the range finds the first one without it.
On other lists the search ends somewhere. -/

namespace RagFlow.Math

universe u

variable {α : Type u} (p : α → Bool)

/-- Halves the range of `len` elements from `first` on, with enough `fuel`. -/
def partitionFrom (l : List α) : ℕ → ℕ → ℕ → ℕ
  | 0, first, _ => first
  | fuel + 1, first, len =>
    match l[first + len / 2]? with
    | none => first
    | some a =>
      if len = 0 then first
      else if p a then partitionFrom l fuel (first + len / 2 + 1) (len - len / 2 - 1)
      else partitionFrom l fuel first (len / 2)

def partitionPoint (l : List α) : ℕ := partitionFrom p l l.length 0 l.length

variable {p} {xs ys : List α}

theorem partitionFrom_eq (hxs : ∀ x ∈ xs, p x = true) (hys : ∀ y ∈ ys, ¬ p y = true) (fuel : ℕ) :
    ∀ first len, first ≤ xs.length → xs.length ≤ first + len → first + len ≤ (xs ++ ys).length →
      len ≤ fuel → partitionFrom p (xs ++ ys) fuel first len = xs.length := by
  induction fuel with
  | zero =>
      intro first len hfirst hlast _ hfuel
      rw [partitionFrom]
      omega
  | succ fuel ih =>
      intro first len hfirst hlast hlen hfuel
      rw [partitionFrom]
      by_cases hzero : len = 0
      · have hdone : first = xs.length := by omega
        split
        · exact hdone
        · rw [if_pos hzero, hdone]
      · have hmid : first + len / 2 < (xs ++ ys).length := by omega
        rw [List.getElem?_eq_getElem hmid]
        simp only [if_neg hzero]
        by_cases hleft : first + len / 2 < xs.length
        · rw [List.getElem_append_left hleft, if_pos (hxs _ (List.getElem_mem hleft))]
          exact ih _ _ (by omega) (by omega) (by omega) (by omega)
        · have hright : first + len / 2 - xs.length < ys.length := by
            rw [List.length_append] at hmid
            omega
          rw [List.getElem_append_right (Nat.le_of_not_lt hleft),
            if_neg (hys _ (List.getElem_mem hright))]
          exact ih _ _ (by omega) (by omega) (by omega) (by omega)

theorem partitionPoint_append (hxs : ∀ x ∈ xs, p x = true) (hys : ∀ y ∈ ys, ¬ p y = true) :
    partitionPoint p (xs ++ ys) = xs.length := by
  refine partitionFrom_eq hxs hys _ 0 _ (Nat.zero_le _) ?_ (by omega) (Nat.le_refl _)
  rw [List.length_append]
  omega

end RagFlow.Math

/-! ## Paging by a cursor

What comes after a key in a sorted list is what is left of the list behind the entry with that
key. So a list is read page by page if each page starts after the key of the last entry read. -/

namespace RagFlow.Math

universe u v

variable {α : Type u} {κ : Type v} (key : α → κ) (before : κ → κ → Bool)

/-- The entries that come after the cursor, which may stand before the whole list. -/
def afterCursor (cursor : Option κ) (l : List α) : List α :=
  l.filter fun a => cursor.all fun k => before k (key a)

/-- The cursor behind the first `k` entries. -/
def cursorAt (l : List α) (k : ℕ) : Option κ := (l.take k).getLast?.map key

variable {key before} {l : List α} {a : α} {k n : ℕ}

@[simp]
theorem cursorAt_zero : cursorAt key l 0 = none := rfl

theorem filter_after_append {xs ys : List α} (hasymm : ∀ b c, before b c → ¬ before c b)
    (hsorted : (xs ++ a :: ys).Pairwise fun b c => before (key b) (key c)) :
    (xs ++ a :: ys).filter (fun b => before (key a) (key b)) = ys := by
  obtain ⟨_, hright, hcross⟩ := List.pairwise_append.mp hsorted
  have hafter := (List.pairwise_cons.mp hright).1
  have hself : ¬ before (key a) (key a) := fun h => hasymm _ _ h h
  have hxs : xs.filter (fun b => before (key a) (key b)) = [] := by
    refine List.filter_eq_nil_iff.mpr fun b hb => hasymm _ _ ?_
    exact hcross b hb a List.mem_cons_self
  rw [List.filter_append, hxs, List.nil_append,
    List.filter_cons_of_neg (p := fun b => before (key a) (key b)) hself]
  exact List.filter_eq_self.mpr hafter

/-- What comes after the cursor behind the first `k` entries is what is left of them. -/
theorem afterCursor_cursorAt (hasymm : ∀ b c, before b c → ¬ before c b)
    (hsorted : l.Pairwise fun b c => before (key b) (key c)) (k : ℕ) :
    afterCursor key before (cursorAt key l k) l = l.drop k := by
  rcases List.eq_nil_or_concat (l.take k) with hnil | ⟨xs, a, htake⟩
  · have hdrop : l.drop k = l := by
      rcases List.take_eq_nil_iff.mp hnil with rfl | rfl
      · rfl
      · exact List.drop_nil
    simp [afterCursor, cursorAt, hnil, hdrop]
  · have hl : l = xs ++ a :: l.drop k := by
      calc
        l = l.take k ++ l.drop k := (List.take_append_drop k l).symm
        _ = xs ++ a :: l.drop k := by rw [htake]; simp
    have hcursor : cursorAt key l k = some (key a) := by simp [cursorAt, htake]
    rw [afterCursor, hcursor]
    conv_lhs => rw [hl]
    rw [hl] at hsorted
    simpa using filter_after_append hasymm hsorted

/-- After a page that is not empty, the cursor is the key of its last entry. -/
theorem cursorAt_add (h : ((l.drop k).take n).getLast? = some a) :
    cursorAt key l (k + ((l.drop k).take n).length) = some (key a) := by
  have htake : l.take (k + ((l.drop k).take n).length) = l.take k ++ (l.drop k).take n := by
    rw [List.take_add, List.length_take]
    congr 1
    rcases Nat.le_total n (l.drop k).length with hle | hle
    · rw [Nat.min_eq_left hle]
    · rw [Nat.min_eq_right hle, List.take_of_length_le hle, List.take_length]
  rw [cursorAt, htake, List.getLast?_append, h]
  rfl

/-- A page that is not empty moves the cursor. -/
theorem cursorAt_ne (hasymm : ∀ b c, before b c → ¬ before c b)
    (hsorted : l.Pairwise fun b c => before (key b) (key c))
    (h : ((l.drop k).take n).getLast? = some a) : cursorAt key l k ≠ some (key a) := by
  intro heq
  have hmem : a ∈ l.drop k := List.mem_of_mem_take (List.mem_of_getLast? h)
  rw [← afterCursor_cursorAt hasymm hsorted k, heq] at hmem
  have hself : before (key a) (key a) := by simpa using (List.mem_filter.mp hmem).2
  exact hasymm _ _ hself hself

end RagFlow.Math

/-! ## Increasing lists

A list of which the keys increase, as a log does that only grows at its end: a search from the
front comes to the least key first. -/

namespace RagFlow.Math

/-- In a list with increasing keys the first hit has the least key. -/
theorem find?_least {α β : Type*} [Preorder β] (key : α → β) {p : α → Bool} {l : List α}
    {a b : α} (hl : (l.map key).Pairwise (· < ·)) (ha : l.find? p = some a) (hb : b ∈ l)
    (hp : p b = true) : key a ≤ key b := by
  induction l with
  | nil => simp at hb
  | cons x l ih =>
      rw [List.map_cons, List.pairwise_cons] at hl
      rw [List.find?_cons] at ha
      cases hx : p x with
      | true =>
          rw [hx] at ha
          obtain rfl : x = a := by simpa using ha
          rcases List.mem_cons.mp hb with rfl | hb
          · exact le_rfl
          · exact (hl.1 _ (List.mem_map_of_mem hb)).le
      | false =>
          rw [hx] at ha
          rcases List.mem_cons.mp hb with rfl | hb
          · simp [hp] at hx
          · exact ih hl.2 ha hb

theorem pairwise_append_singleton {β : Type*} [LT β] {l : List β} {x : β}
    (hl : l.Pairwise (· < ·)) (hx : ∀ y ∈ l, y < x) : (l ++ [x]).Pairwise (· < ·) :=
  List.pairwise_append.mpr ⟨hl, List.pairwise_singleton _ _, by simpa using hx⟩

end RagFlow.Math
