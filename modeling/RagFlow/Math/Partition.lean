/-
# Intervals and classes

A run of numbers is made longer by the interval that begins at its end, and a list is its
classes under any key, one class after the other.
-/

import Mathlib.Data.List.Basic
import Mathlib.Data.List.Nodup

namespace RagFlow.Math

universe u v

/-- The numbers from the first of a pair up to the second. -/
def span (i : ℕ × ℕ) : List ℕ := List.range' i.1 (i.2 - i.1)

theorem range_append_span {m n : ℕ} (h : m ≤ n) : List.range m ++ span (m, n) = List.range n := by
  have hsplit := List.range'_append_1 (s := 0) (m := m) (n := n - m)
  rw [Nat.zero_add, Nat.add_sub_of_le h] at hsplit
  rw [List.range_eq_range', List.range_eq_range', ← hsplit, span]

/-- The classes of a list, in any order of the keys, are a rearrangement of the list. -/
theorem flatMap_filter_perm {α : Type u} {β : Type v} [DecidableEq β] {f : α → β} {keys : List β}
    {l : List α} (hkeys : keys.Nodup) (hl : ∀ a ∈ l, f a ∈ keys) :
    (keys.flatMap fun c => l.filter fun a => f a = c).Perm l := by
  induction keys generalizing l with
  | nil =>
      cases l with
      | nil => exact .nil
      | cons a l => exact absurd (hl a List.mem_cons_self) List.not_mem_nil
  | cons c keys ih =>
      obtain ⟨hc, hkeys⟩ := List.nodup_cons.mp hkeys
      let rest := l.filter fun a => !decide (f a = c)
      have hrest : ∀ a ∈ rest, f a ∈ keys := by
        intro a ha
        obtain ⟨hal, hac⟩ := List.mem_filter.mp ha
        exact (List.mem_cons.mp (hl a hal)).resolve_left (by simpa using hac)
      -- The class of another key has no member with the key `c`.
      have hsame : ∀ d ∈ keys, (l.filter fun a => f a = d) = rest.filter fun a => f a = d := by
        intro d hd
        rw [List.filter_filter]
        refine List.filter_congr fun a _ => ?_
        by_cases had : f a = d
        · have hdc : d ≠ c := fun h => hc (h ▸ hd)
          simp [had, hdc]
        · simp [had]
      rw [List.flatMap_cons, List.flatMap_congr hsame]
      exact ((ih hkeys hrest).append_left _).trans (List.filter_append_perm _ _)

/-! ## Ranges in order

A reader that goes through places from left to right leaves some out one at a time and takes
others together in ranges. The ranges do not overlap, and what is left out is all that they
do not contain. -/

variable {n i j e : ℕ} {p : ℕ → Prop} {rs : List (ℕ × ℕ)}

/-- Ranges of places from `i` up to `n`, both ends included, in order and apart, that contain
every place with `p`. -/
structure Covers (n : ℕ) (p : ℕ → Prop) (i : ℕ) (rs : List (ℕ × ℕ)) : Prop where
  bounds : ∀ r ∈ rs, i ≤ r.1 ∧ r.1 ≤ r.2 ∧ r.2 < n
  apart : rs.Pairwise fun r r' => r.2 < r'.1
  exists_mem : ∀ j, i ≤ j → j < n → p j → ∃ r ∈ rs, r.1 ≤ j ∧ j ≤ r.2

theorem Covers.nil (h : n ≤ i) : Covers n p i [] where
  bounds := by simp
  apart := .nil
  exists_mem := fun j hi hn _ => by omega

/-- A place without `p` may be left out. -/
theorem Covers.skip (h : Covers n p (i + 1) rs) (hp : ¬ p i) : Covers n p i rs where
  bounds := fun r hr => ⟨by have := (h.bounds r hr).1; omega, (h.bounds r hr).2⟩
  apart := h.apart
  exists_mem := by
    intro j hi hn hj
    have hne : j ≠ i := by
      rintro rfl
      exact hp hj
    exact h.exists_mem j (by omega) hn hj

/-- A range is taken, and the reader goes on behind it. -/
theorem Covers.cons (h : Covers n p (e + 1) rs) (hie : i ≤ e) (hen : e < n) :
    Covers n p i ((i, e) :: rs) where
  bounds := by
    intro r hr
    rcases List.mem_cons.mp hr with rfl | hr
    · exact ⟨Nat.le_refl i, hie, hen⟩
    · exact ⟨by have := (h.bounds r hr).1; omega, (h.bounds r hr).2⟩
  apart := by
    refine List.pairwise_cons.mpr ⟨fun r hr => ?_, h.apart⟩
    have hstart := (h.bounds r hr).1
    simp only
    omega
  exists_mem := by
    intro j hi hn hj
    by_cases hje : j ≤ e
    · exact ⟨(i, e), List.mem_cons_self, hi, hje⟩
    · obtain ⟨r, hr, hrange⟩ := h.exists_mem j (by omega) hn hj
      exact ⟨r, List.mem_cons_of_mem _ hr, hrange⟩

/-- A place is in one range at most. -/
theorem Covers.unique (h : Covers n p i rs) {a b : ℕ} {r r' : ℕ × ℕ} (ha : rs[a]? = some r)
    (hb : rs[b]? = some r') (hr : r.1 ≤ j ∧ j ≤ r.2) (hr' : r'.1 ≤ j ∧ j ≤ r'.2) : a = b := by
  obtain ⟨hla, rfl⟩ := List.getElem?_eq_some_iff.mp ha
  obtain ⟨hlb, rfl⟩ := List.getElem?_eq_some_iff.mp hb
  rcases Nat.lt_trichotomy a b with hab | hab | hab
  · have hlt := List.pairwise_iff_getElem.mp h.apart a b hla hlb hab
    omega
  · exact hab
  · have hlt := List.pairwise_iff_getElem.mp h.apart b a hlb hla hab
    omega

end RagFlow.Math
