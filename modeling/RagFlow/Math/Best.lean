/-
# The first greatest value

A scan through a range keeps the place of the greatest value above a bound, and of equal
values the first. It does not see what lies outside the range, so a shorter range gives the
same place if every value left out is beaten by a later one that is kept.
-/

import Mathlib.Order.Lattice
import Mathlib.Data.Nat.Init

namespace RagFlow.Math

universe u

variable {K : Type u} [LinearOrder K]

/-- The scan of `n` values from `i` on, with the best place and value so far. -/
def bestFrom (r : ℕ → K) : ℕ → ℕ → Option ℕ × K → Option ℕ × K
  | 0, _, best => best
  | n + 1, i, best => bestFrom r n (i + 1) (if r i ≤ best.2 then best else (some i, r i))

/-- The first place of the greatest value above `z` from `s` up to `e`. -/
def best (z : K) (r : ℕ → K) (s e : ℕ) : Option ℕ := (bestFrom r (e - s) s (none, z)).1

/-- What a place of the first greatest value is. -/
def IsBest (z : K) (r : ℕ → K) (s e : ℕ) : Option ℕ → Prop
  | none => ∀ i, s ≤ i → i < e → r i ≤ z
  | some i => s ≤ i ∧ i < e ∧ z < r i ∧ (∀ j, s ≤ j → j < i → r j < r i) ∧
      ∀ j, s ≤ j → j < e → r j ≤ r i

variable {z : K} {r : ℕ → K} {s e i t : ℕ} {o o' : Option ℕ}

/-- The best of the values from `s` up to `i` is the value beside it, and every one is at
most that. -/
structure ScannedTo (z : K) (r : ℕ → K) (s i : ℕ) (best : Option ℕ × K) : Prop where
  isBest : IsBest z r s i best.1
  value : best.2 = best.1.elim z r

theorem ScannedTo.le {best : Option ℕ × K} (h : ScannedTo z r s i best) {j : ℕ} (hs : s ≤ j)
    (hj : j < i) : r j ≤ best.2 := by
  obtain ⟨place, value⟩ := best
  have hvalue := h.value
  have hbest := h.isBest
  cases place with
  | none =>
      obtain rfl : value = z := hvalue
      exact hbest j hs hj
  | some k =>
      obtain rfl : value = r k := hvalue
      exact hbest.2.2.2.2 j hs hj

theorem ScannedTo.bound_le {best : Option ℕ × K} (h : ScannedTo z r s i best) : z ≤ best.2 := by
  obtain ⟨place, value⟩ := best
  have hvalue := h.value
  have hbest := h.isBest
  cases place with
  | none => exact hvalue.ge
  | some k =>
      obtain rfl : value = r k := hvalue
      exact hbest.2.2.1.le

theorem ScannedTo.step {best : Option ℕ × K} (h : ScannedTo z r s i best) (hs : s ≤ i) :
    ScannedTo z r s (i + 1) (if r i ≤ best.2 then best else (some i, r i)) := by
  split
  · rename_i hle
    obtain ⟨place, value⟩ := best
    have hvalue := h.value
    have hbest := h.isBest
    refine ⟨?_, hvalue⟩
    cases place with
    | none =>
        obtain rfl : value = z := hvalue
        intro j hj hlt
        rcases Nat.lt_succ_iff_lt_or_eq.mp hlt with hlt | rfl
        · exact hbest j hj hlt
        · exact hle
    | some k =>
        obtain rfl : value = r k := hvalue
        obtain ⟨hk, hki, hz, hfirst, hmax⟩ := hbest
        refine ⟨hk, Nat.lt_succ_of_lt hki, hz, hfirst, ?_⟩
        intro j hj hlt
        rcases Nat.lt_succ_iff_lt_or_eq.mp hlt with hlt | rfl
        · exact hmax j hj hlt
        · exact hle
  · rename_i hlt
    have hlt := not_le.mp hlt
    refine ⟨⟨hs, Nat.lt_succ_self i, h.bound_le.trans_lt hlt, ?_, ?_⟩, rfl⟩
    · intro j hj hji
      exact (h.le hj hji).trans_lt hlt
    · intro j hj hji
      rcases Nat.lt_succ_iff_lt_or_eq.mp hji with hji | rfl
      · exact (h.le hj hji).trans hlt.le
      · exact le_rfl

theorem ScannedTo.bestFrom {b : Option ℕ × K} (n : ℕ) (h : ScannedTo z r s i b) (hs : s ≤ i) :
    ScannedTo z r s (i + n) (bestFrom r n i b) := by
  induction n generalizing i b with
  | zero => exact h
  | succ n ih =>
      rw [Math.bestFrom, Nat.add_comm n 1, ← Nat.add_assoc]
      exact ih (h.step hs) (Nat.le_succ_of_le hs)

theorem isBest_best (z : K) (r : ℕ → K) (s e : ℕ) : IsBest z r s e (best z r s e) := by
  have hstart : ScannedTo z r s s (none, z) :=
    ⟨fun i hs hi => absurd (hs.trans_lt hi) (lt_irrefl s), rfl⟩
  have hend := (hstart.bestFrom (e - s) le_rfl).isBest
  rcases Nat.le_total s e with hse | hes
  · rwa [Nat.add_sub_cancel' hse] at hend
  · rw [best, Nat.sub_eq_zero_of_le hes]
    intro i hs hi
    exact absurd (hs.trans_lt hi) (Nat.not_lt.mpr hes)

theorem IsBest.unique (h : IsBest z r s e o) (h' : IsBest z r s e o') : o = o' := by
  cases o with
  | none =>
      cases o' with
      | none => rfl
      | some i => exact absurd h'.2.2.1 (not_lt.mpr (h i h'.1 h'.2.1))
  | some i =>
      cases o' with
      | none => exact absurd h.2.2.1 (not_lt.mpr (h' i h.1 h.2.1))
      | some j =>
          obtain ⟨hs, he, _, hfirst, hmax⟩ := h
          obtain ⟨hs', he', _, hfirst', hmax'⟩ := h'
          rcases lt_trichotomy i j with hij | rfl | hji
          · exact absurd (hmax j hs' he') (not_le.mpr (hfirst' i hs hij))
          · rfl
          · exact absurd (hmax' i hs he) (not_le.mpr (hfirst j hs' hji))

theorem best_eq_iff : best z r s e = o ↔ IsBest z r s e o := by
  constructor
  · rintro rfl
    exact isBest_best z r s e
  · exact (isBest_best z r s e).unique

/-- The end of the range may be cut off where nothing is above the bound. -/
theorem best_of_end_le (ht : t ≤ e) (hcut : ∀ j, t ≤ j → j < e → r j ≤ z) :
    best z r s e = best z r s t := by
  rw [best_eq_iff]
  have h := isBest_best z r s t
  cases hbest : best z r s t with
  | none =>
      rw [hbest] at h
      intro i hs hi
      rcases Nat.lt_or_ge i t with hit | hti
      · exact h i hs hit
      · exact hcut i hti hi
  | some i =>
      rw [hbest] at h
      obtain ⟨hs, hi, hz, hfirst, hmax⟩ := h
      refine ⟨hs, hi.trans_le ht, hz, hfirst, ?_⟩
      intro j hj hje
      rcases Nat.lt_or_ge j t with hjt | htj
      · exact hmax j hj hjt
      · exact (hcut j htj hje).trans hz.le

/-- The start of the range may be cut off exactly if what it has above the bound is beaten by
what is kept. -/
theorem best_eq_best_iff (hst : s ≤ t) : best z r t e = best z r s e ↔
    ∀ k, s ≤ k → k < t → k < e → z < r k → ∃ j, t ≤ j ∧ j < e ∧ r k < r j := by
  have ht := isBest_best z r t e
  constructor
  · intro heq k hk hkt hke hz
    have hs := isBest_best z r s e
    rw [← heq] at hs
    cases hbest : best z r t e with
    | none =>
        rw [hbest] at hs
        exact absurd hz (not_lt.mpr (hs k hk hke))
    | some i =>
        rw [hbest] at hs ht
        exact ⟨i, ht.1, ht.2.1, hs.2.2.2.1 k hk (hkt.trans_le ht.1)⟩
  · intro hbeaten
    symm
    rw [best_eq_iff]
    cases hbest : best z r t e with
    | none =>
        rw [hbest] at ht
        intro i hs hi
        rcases Nat.lt_or_ge i t with hit | hti
        · by_contra hz
          obtain ⟨j, hj, hje, hlt⟩ := hbeaten i hs hit hi (not_le.mp hz)
          exact hz (hlt.le.trans (ht j hj hje))
        · exact ht i hti hi
    | some i =>
        rw [hbest] at ht
        obtain ⟨hti, hie, hz, hfirst, hmax⟩ := ht
        have hbelow : ∀ k, s ≤ k → k < t → r k < r i := by
          intro k hk hkt
          by_cases hzk : z < r k
          · obtain ⟨j, hj, hje, hlt⟩ := hbeaten k hk hkt (hkt.trans (hti.trans_lt hie)) hzk
            exact hlt.trans_le (hmax j hj hje)
          · exact (not_lt.mp hzk).trans_lt hz
        refine ⟨hst.trans hti, hie, hz, ?_, ?_⟩
        · intro j hj hji
          rcases Nat.lt_or_ge j t with hjt | htj
          · exact hbelow j hj hjt
          · exact hfirst j htj hji
        · intro j hj hje
          rcases Nat.lt_or_ge j t with hjt | htj
          · exact (hbelow j hj hjt).le
          · exact hmax j htj hje

end RagFlow.Math
