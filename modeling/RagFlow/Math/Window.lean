/-
# Reading a list page by page out of rearranged windows

A list is cut into windows of one width and every window is rearranged on its
own. Pages of another length are then read off, each of them only from the
window its first position falls into. Nothing is ever repeated in this way, and
nothing is lost exactly when no page crosses the border of two windows that
both have entries.
-/

import Mathlib.Data.List.Basic
import Mathlib.Tactic.Ring

namespace RagFlow.Math

variable {α : Type*} {w p : ℕ} {σ : List α → List α}

/-! ## Windows and their rearrangement -/

/-- The `j`th stretch of width `w`, counted from zero. -/
def window (w j : ℕ) (l : List α) : List α := (l.drop (j * w)).take w

theorem window_zero (w : ℕ) (l : List α) : window w 0 l = l.take w := by
  simp [window]

theorem window_succ (w j : ℕ) (l : List α) :
    window w (j + 1) l = window w j (l.drop w) := by
  rw [window, window, List.drop_drop, Nat.succ_mul, Nat.add_comm]

@[simp]
theorem window_nil (w j : ℕ) : window w j ([] : List α) = [] := by
  simp [window]

/-- Rearranging every window on its own is one rearrangement of the whole list. -/
theorem exists_arrangement (hσ : ∀ m, (σ m).Perm m) (hw : 0 < w) (l : List α) :
    ∃ a : List α, a.Perm l ∧ ∀ j, window w j a = σ (window w j l) := by
  have hnil : σ [] = [] := (hσ []).eq_nil
  induction hn : l.length using Nat.strong_induction_on generalizing l with
  | _ n ih =>
    by_cases hlast : l.length ≤ w
    -- The list is a single window.
    · refine ⟨σ l, hσ l, ?_⟩
      have hlen : (σ l).length ≤ w := (hσ l).length_eq ▸ hlast
      intro j
      cases j with
      | zero => rw [window_zero, window_zero, List.take_of_length_le hlen,
          List.take_of_length_le hlast]
      | succ j => rw [window_succ, window_succ, List.drop_eq_nil_of_le hlen,
          List.drop_eq_nil_of_le hlast, window_nil, hnil]
    · have hmore : w < l.length := Nat.lt_of_not_le hlast
      have hrest : (l.drop w).length < n := by
        rw [List.length_drop]
        omega
      obtain ⟨a, hperm, hwindows⟩ := ih _ hrest (l.drop w) rfl
      have hfirst : (σ (l.take w)).length = w := by
        rw [(hσ _).length_eq, List.length_take, Nat.min_eq_left hmore.le]
      refine ⟨σ (l.take w) ++ a, ?_, ?_⟩
      · calc (σ (l.take w) ++ a).Perm (l.take w ++ l.drop w) := (hσ _).append hperm
          _ = l := List.take_append_drop w l
      · intro j
        cases j with
        | zero => rw [window_zero, window_zero, List.take_left' hfirst]
        | succ j => rw [window_succ, window_succ, List.drop_left' hfirst, hwindows]

/-! ## Slices that start at the multiples of a page length

`slices p m a P` puts the first `P` slices one behind the other; slice `k` starts
at position `k * p` and is at most `m k` long. -/

/-- The slices number `0` to `P - 1`. -/
def slices (p : ℕ) (m : ℕ → ℕ) (a : List α) (P : ℕ) : List α :=
  (List.range P).flatMap fun k => (a.drop (k * p)).take (m k)

theorem slices_succ (p : ℕ) (m : ℕ → ℕ) (a : List α) (P : ℕ) :
    slices p m a (P + 1) = slices p m a P ++ (a.drop (P * p)).take (m P) := by
  simp [slices, List.range_succ]

theorem take_succ_mul (p P : ℕ) (a : List α) :
    a.take ((P + 1) * p) = a.take (P * p) ++ (a.drop (P * p)).take p := by
  rw [Nat.succ_mul, List.take_add]

theorem length_take_mono {i j : ℕ} (h : i ≤ j) (a : List α) :
    (a.take i).length ≤ (a.take j).length :=
  (List.take_sublist_take_left h).length_le

/-- Slices that are as long as a page, or end with the list, cover it. -/
theorem slices_eq_take {m : ℕ → ℕ} {a : List α}
    (hfull : ∀ k, (a.drop (k * p)).take (m k) = (a.drop (k * p)).take p) (P : ℕ) :
    slices p m a P = a.take (P * p) := by
  induction P with
  | zero => simp [slices]
  | succ P ih => rw [slices_succ, ih, hfull, take_succ_mul]

theorem length_slices_le {m : ℕ → ℕ} (hm : ∀ k, m k ≤ p) (a : List α) (P : ℕ) :
    (slices p m a P).length ≤ (a.take (P * p)).length := by
  induction P with
  | zero => simp [slices]
  | succ P ih =>
      rw [slices_succ, take_succ_mul, List.length_append, List.length_append]
      have hslice := length_take_mono (hm P) (a.drop (P * p))
      exact Nat.add_le_add ih hslice

/-- One slice that stops early leaves a gap for good. -/
theorem length_slices_lt {m : ℕ → ℕ} (hm : ∀ k, m k ≤ p) {a : List α} {k P : ℕ}
    (hk : k < P) (hshort : m k < p) (hmore : k * p + m k < a.length) :
    (slices p m a P).length < (a.take (P * p)).length := by
  induction P with
  | zero => exact absurd hk (Nat.not_lt_zero k)
  | succ P ih =>
      rw [slices_succ, take_succ_mul, List.length_append, List.length_append]
      have hslice := length_take_mono (hm P) (a.drop (P * p))
      rcases Nat.lt_succ_iff_lt_or_eq.mp hk with hlt | rfl
      · exact Nat.add_lt_add_of_lt_of_le (ih hlt) hslice
      · have hgap : ((a.drop (k * p)).take (m k)).length
            < ((a.drop (k * p)).take p).length := by
          simp only [List.length_take, List.length_drop]
          omega
        exact Nat.add_lt_add_of_le_of_lt (length_slices_le hm a k) hgap

/-! ## Pages read out of windows -/

/-- Page `k`, counted from zero: the window that position `k * p` falls into is
rearranged and read from that position on. -/
def windowPage (σ : List α → List α) (w p : ℕ) (l : List α) (k : ℕ) : List α :=
  ((σ (window w (k * p / w) l)).drop (k * p % w)).take p

/-- In the rearranged list a page is a slice that ends with its window. -/
theorem windowPage_eq_slice {l a : List α}
    (ha : ∀ j, window w j a = σ (window w j l)) (k : ℕ) :
    windowPage σ w p l k = (a.drop (k * p)).take (min p (w - k * p % w)) := by
  rw [windowPage, ← ha, window, List.drop_take, List.drop_drop, List.take_take,
    Nat.div_add_mod']

theorem flatMap_windowPage {l a : List α}
    (ha : ∀ j, window w j a = σ (window w j l)) (P : ℕ) :
    (List.range P).flatMap (windowPage σ w p l)
      = slices p (fun k => min p (w - k * p % w)) a P := by
  rw [slices, funext (windowPage_eq_slice ha)]

/-- Where the page length divides the width, a page never reaches its window's end
early. -/
theorem min_sub_mod_of_dvd (hw : 0 < w) (hdvd : p ∣ w) (k : ℕ) :
    min p (w - k * p % w) = p := by
  obtain ⟨c, rfl⟩ := hdvd
  have hc : k % c < c := Nat.mod_lt k (Nat.pos_of_mul_pos_left hw)
  have hmod : k * p % (p * c) = p * (k % c) := by
    rw [Nat.mul_comm k p, Nat.mul_mod_mul_left]
  have hroom : p * (k % c) + p ≤ p * c := by
    rw [← Nat.mul_succ]
    exact Nat.mul_le_mul_left p hc
  rw [hmod]
  omega

/-- A list that fits into the first window is read as if there were no windows. -/
theorem take_min_sub_mod {a : List α} (hfit : a.length ≤ w) (k : ℕ) :
    (a.drop (k * p)).take (min p (w - k * p % w)) = (a.drop (k * p)).take p := by
  by_cases hin : k * p < w
  · rw [Nat.mod_eq_of_lt hin, ← List.take_take, List.take_of_length_le (i := w - k * p)]
    rw [List.length_drop]
    exact Nat.sub_le_sub_right hfit _
  · rw [List.drop_eq_nil_of_le (hfit.trans (Nat.le_of_not_lt hin)), List.take_nil, List.take_nil]

/-- From some page on, the pages together are the whole list, exactly when the
page length divides the width or the list has no second window. -/
theorem windowPages_perm_iff (hσ : ∀ m, (σ m).Perm m) (hw : 0 < w) (hp : 0 < p) (l : List α) :
    (∃ P₀, ∀ P, P₀ ≤ P → ((List.range P).flatMap (windowPage σ w p l)).Perm l)
      ↔ p ∣ w ∨ l.length ≤ w := by
  obtain ⟨a, hperm, ha⟩ := exists_arrangement hσ hw l
  simp only [flatMap_windowPage ha]
  constructor
  · rintro ⟨P₀, hP₀⟩
    by_contra hnot
    obtain ⟨hdvd, hlong⟩ := not_or.mp hnot
    -- The page that starts in the first window and would go on into the second.
    have hstart : w / p * p < w := by
      apply lt_of_le_of_ne (Nat.div_mul_le_self w p)
      intro heq
      exact hdvd ⟨w / p, by rw [Nat.mul_comm, heq]⟩
    have hend : w < w / p * p + p := Nat.lt_div_mul_add hp
    have hcut : min p (w - w / p * p % w) = w - w / p * p := by
      rw [Nat.mod_eq_of_lt hstart]
      omega
    have hlt : (slices p (fun k => min p (w - k * p % w)) a (w / p + 1 + P₀)).length
        < (a.take ((w / p + 1 + P₀) * p)).length := by
      refine length_slices_lt (fun k => Nat.min_le_left _ _) (k := w / p) ?_ ?_ ?_
      · omega
      · omega
      · rw [hcut, hperm.length_eq]
        omega
    rw [(hP₀ _ (Nat.le_add_left P₀ _)).length_eq, ← hperm.length_eq] at hlt
    exact absurd hlt (Nat.not_lt_of_le (List.length_take_le' _ a))
  · intro h
    have hfull : ∀ k, (a.drop (k * p)).take (min p (w - k * p % w)) = (a.drop (k * p)).take p := by
      intro k
      rcases h with hdvd | hfit
      · rw [min_sub_mod_of_dvd hw hdvd]
      · exact take_min_sub_mod (hperm.length_eq ▸ hfit) k
    refine ⟨a.length, ?_⟩
    intro P hP
    have hall : a.length ≤ P * p := hP.trans (Nat.le_mul_of_pos_right P hp)
    rw [slices_eq_take hfull, List.take_of_length_le hall]
    exact hperm

end RagFlow.Math
