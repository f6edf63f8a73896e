/-
# The box that overlaps most

Among boxes in the order of their tops, the one is looked for that a given box covers to the
greatest part. To save time, a binary search first narrows the range: what starts below the
box is cut off with all that follows, and what ends above it with all that comes before. The
tops justify only the former. A tall box that reaches down past a shorter one is lost with it.
-/

import RagFlow.Math.Best
import Mathlib.Data.Rat.Defs
import Mathlib.Algebra.Order.Ring.Rat
import Mathlib.Tactic.Linarith

namespace RagFlow.Vision

open RagFlow.Math

/-- A rectangle on a page; `top` is above `bottom`. -/
structure Box where
  top : ℚ
  bottom : ℚ
  x0 : ℚ
  x1 : ℚ
  x0_le : x0 ≤ x1
  top_le : top ≤ bottom

-- how the results of the arithmetic are rounded
variable (fl : ℚ → ℚ)

/-- `overlapped_area`. Its assertions hold by `max_x0_le_min_x1` and `max_top_le_min_bottom`. -/
def overlappedArea (a b : Box) (ratio : Bool) : ℚ :=
  if a.x1 < b.x0 ∨ b.x1 < a.x0 then 0
  else if b.bottom < a.top ∨ a.bottom < b.top then 0
  else
    let x0 := max b.x0 a.x0
    let x1 := min b.x1 a.x1
    let top := max b.top a.top
    let bottom := min b.bottom a.bottom
    let ov :=
      if fl (a.x1 - a.x0) ≠ 0 ∧ fl (a.bottom - a.top) ≠ 0 then
        fl (fl (bottom - top) * fl (x1 - x0))
      else 0
    if 0 < ov ∧ ratio then
      fl (ov / fl (fl (a.x1 - a.x0) * fl (a.bottom - a.top)))
    else ov

variable {a b : Box}

theorem overlappedArea_of_above (h : a.bottom < b.top) (ratio : Bool) :
    overlappedArea fl a b ratio = 0 := by
  simp [overlappedArea, h]

theorem overlappedArea_of_below (h : b.bottom < a.top) (ratio : Bool) :
    overlappedArea fl a b ratio = 0 := by
  simp [overlappedArea, h]

/-! ### The search -/

section Search

variable (box : Box) (bxs : List Box)

/-- The binary search of `find_overlapped`: the range that is left and the last place looked
at. A search never takes more steps than the range is long. -/
def searchLoop : ℕ → ℕ → ℕ → ℕ → ℕ × ℕ × ℕ
  | 0, s, e, ii => (s, e, ii)
  | fuel + 1, s, e, ii =>
      if s < e then
        let ii := (e + s) / 2
        match bxs[ii]? with
        | none => (s, e, ii)
        | some pv =>
            if box.bottom < pv.top then searchLoop fuel s ii ii
            else if pv.bottom < box.top then searchLoop fuel (ii + 1) e ii
            else (s, e, ii)
      else (s, e, ii)

/-- The first `while` after the search: it ends after one turn. -/
def trimStart (s ii : ℕ) : ℕ :=
  if s < ii ∧ ∃ b ∈ bxs[s]?, b.bottom < box.top then s + 1 else s

/-- The second `while` after the search: it ends after one turn. -/
def trimEnd (e ii : ℕ) : ℕ :=
  if ii < e - 1 ∧ ∃ b ∈ bxs[e - 1]?, box.bottom < b.top then e - 1 else e

/-- To which part the box at `i` is covered. -/
def ratioAt (i : ℕ) : ℚ :=
  match bxs[i]? with
  | none => 0
  | some b => overlappedArea fl b box true

def findOverlapped (naive : Bool) : Option ℕ :=
  if bxs = [] then none
  else
    let (s, e, ii) :=
      if naive then (0, bxs.length, 0) else searchLoop box bxs bxs.length 0 bxs.length 0
    best 0 (ratioAt fl box bxs) (trimStart box bxs s ii) (trimEnd box bxs e ii)

/-- The places that halving the range from `s` up to `e` looks at. -/
inductive Probed : ℕ → ℕ → ℕ → Prop
  | here {s e : ℕ} (h : s < e) : Probed s e ((e + s) / 2)
  | before {s e p : ℕ} (h : s < e) (hbelow : ∃ b ∈ bxs[(e + s) / 2]?, box.bottom < b.top)
      (hp : Probed s ((e + s) / 2) p) : Probed s e p
  | after {s e p : ℕ} (h : s < e) (hupto : ∃ b ∈ bxs[(e + s) / 2]?, b.top ≤ box.bottom)
      (habove : ∃ b ∈ bxs[(e + s) / 2]?, b.bottom < box.top)
      (hp : Probed ((e + s) / 2 + 1) e p) : Probed s e p

end Search

variable {fl} {box : Box} {bxs : List Box} {s e ii p i k : ℕ}

theorem ratioAt_of_above (h : ∃ b ∈ bxs[i]?, b.bottom < box.top) : ratioAt fl box bxs i = 0 := by
  obtain ⟨b, hb, hlt⟩ := h
  rw [ratioAt, Option.mem_def.mp hb]
  exact overlappedArea_of_above fl hlt true

theorem ratioAt_of_below (h : ∃ b ∈ bxs[i]?, box.bottom < b.top) : ratioAt fl box bxs i = 0 := by
  obtain ⟨b, hb, hlt⟩ := h
  rw [ratioAt, Option.mem_def.mp hb]
  exact overlappedArea_of_below fl hlt true

/-- Boxes in the order of their tops: behind one that starts below the box they all do. -/
theorem exists_below_of_le (hsorted : bxs.Pairwise fun a b => a.top ≤ b.top)
    (h : ∃ b ∈ bxs[i]?, box.bottom < b.top) (hik : i ≤ k) (hk : k < bxs.length) :
    ∃ b ∈ bxs[k]?, box.bottom < b.top := by
  obtain ⟨b, hb, hlt⟩ := h
  obtain ⟨hi, rfl⟩ := List.getElem?_eq_some_iff.mp hb
  refine ⟨bxs[k], by simp [hk], ?_⟩
  rcases hik.eq_or_lt with rfl | hik
  · exact hlt
  · exact hlt.trans_le (List.pairwise_iff_getElem.mp hsorted i k hi hk hik)

/-- What a search through the range from `s` up to `e` leaves: all that is cut off at the end
starts below the box, and the start is behind the last place looked at that ends above it. -/
structure Narrowed (box : Box) (bxs : List Box) (s e : ℕ) (range : ℕ × ℕ × ℕ) : Prop where
  start_le : s ≤ range.1
  le_end : range.2.1 ≤ e
  start_le_end : s ≤ e → range.1 ≤ range.2.1
  below : range.2.1 = e ∨ ∃ b ∈ bxs[range.2.1]?, box.bottom < b.top
  probed : range.1 = s ∨ ∃ p, Probed box bxs s e p ∧ (∃ b ∈ bxs[p]?, b.bottom < box.top) ∧
    range.1 = p + 1
  lt_start : ∀ p, Probed box bxs s e p → (∃ b ∈ bxs[p]?, b.bottom < box.top) → p < range.1

theorem not_probed (h : e ≤ s) : ¬ Probed box bxs s e p := by
  intro hp
  cases hp <;> omega

/-- Behind a box that ends above the searched one, the search looks at no place before it. -/
theorem narrowed_searchLoop (fuel : ℕ) (hfuel : e - s ≤ fuel) (he : e ≤ bxs.length) :
    Narrowed box bxs s e (searchLoop box bxs fuel s e ii) := by
  induction fuel generalizing s e ii with
  | zero =>
      refine ⟨le_rfl, le_rfl, id, .inl rfl, .inl rfl, fun p hp _ => ?_⟩
      exact absurd hp (not_probed (by omega))
  | succ fuel ih =>
      rw [searchLoop]
      by_cases hse : s < e
      · have hmid : (e + s) / 2 < bxs.length := by omega
        have hget : bxs[(e + s) / 2]? = some bxs[(e + s) / 2] := List.getElem?_eq_getElem hmid
        simp only [if_pos hse, hget]
        by_cases hbelow : box.bottom < bxs[(e + s) / 2].top
        · rw [if_pos hbelow]
          have hbelow' : ∃ b ∈ bxs[(e + s) / 2]?, box.bottom < b.top := ⟨_, hget, hbelow⟩
          have h : Narrowed box bxs s ((e + s) / 2)
              (searchLoop box bxs fuel s ((e + s) / 2) ((e + s) / 2)) := ih (by omega) (by omega)
          refine ⟨h.start_le, h.le_end.trans (by omega), fun _ => h.start_le_end (by omega),
            .inr ?_, ?_, ?_⟩
          · rcases h.below with heq | hb
            · rwa [heq]
            · exact hb
          · exact h.probed.imp_right fun ⟨p, hp, hrest⟩ => ⟨p, .before hse hbelow' hp, hrest⟩
          · intro p hp habove
            cases hp with
            | here =>
                obtain ⟨b, hb, hlt⟩ := habove
                obtain rfl := Option.some.inj (hget.symm.trans hb)
                have := box.top_le
                have := (bxs[(e + s) / 2]).top_le
                linarith
            | before _ _ hp => exact h.lt_start p hp habove
            | after _ hupto _ _ =>
                obtain ⟨b, hb, hle⟩ := hupto
                obtain rfl := Option.some.inj (hget.symm.trans hb)
                exact absurd hbelow (not_lt.mpr hle)
        · rw [if_neg hbelow]
          have hupto : ∃ b ∈ bxs[(e + s) / 2]?, b.top ≤ box.bottom := ⟨_, hget, not_lt.mp hbelow⟩
          have hnotBelow : ¬ ∃ b ∈ bxs[(e + s) / 2]?, box.bottom < b.top := by
            rintro ⟨b, hb, hlt⟩
            obtain rfl := Option.some.inj (hget.symm.trans hb)
            exact hbelow hlt
          by_cases habove : bxs[(e + s) / 2].bottom < box.top
          · rw [if_pos habove]
            have habove' : ∃ b ∈ bxs[(e + s) / 2]?, b.bottom < box.top := ⟨_, hget, habove⟩
            have h : Narrowed box bxs ((e + s) / 2 + 1) e
                (searchLoop box bxs fuel ((e + s) / 2 + 1) e ((e + s) / 2)) := ih (by omega) he
            refine ⟨by have := h.start_le; omega, h.le_end, fun _ => h.start_le_end (by omega),
              h.below, .inr ?_, ?_⟩
            · rcases h.probed with heq | ⟨p, hp, hrest⟩
              · exact ⟨_, .here hse, habove', heq⟩
              · exact ⟨p, .after hse hupto habove' hp, hrest⟩
            · intro p hp hp'
              cases hp with
              | here => exact h.start_le
              | before _ hb _ => exact absurd hb hnotBelow
              | after _ _ _ hp => exact h.lt_start p hp hp'
          · rw [if_neg habove]
            have hnotAbove : ¬ ∃ b ∈ bxs[(e + s) / 2]?, b.bottom < box.top := by
              rintro ⟨b, hb, hlt⟩
              obtain rfl := Option.some.inj (hget.symm.trans hb)
              exact habove hlt
            refine ⟨le_rfl, le_rfl, id, .inl rfl, .inl rfl, fun p hp hp' => ?_⟩
            cases hp with
            | here => exact absurd hp' hnotAbove
            | before _ hb _ => exact absurd hb hnotBelow
            | after _ _ ha _ => exact absurd ha hnotAbove
      · rw [if_neg hse]
        refine ⟨le_rfl, le_rfl, id, .inl rfl, .inl rfl, fun p hp _ => ?_⟩
        exact absurd hp (not_probed (by omega))

/-- The two loops after the search only cut off boxes that do not overlap. -/
theorem best_trim (s e ii : ℕ) :
    best 0 (ratioAt fl box bxs) (trimStart box bxs s ii) (trimEnd box bxs e ii) =
      best 0 (ratioAt fl box bxs) s e := by
  have hstart : best 0 (ratioAt fl box bxs) (trimStart box bxs s ii) (trimEnd box bxs e ii) =
      best 0 (ratioAt fl box bxs) s (trimEnd box bxs e ii) := by
    unfold trimStart
    split
    · rename_i h
      refine (best_eq_best_iff (Nat.le_succ s)).mpr fun k hk hks _ hpos => ?_
      obtain rfl : k = s := by omega
      exact absurd hpos (ratioAt_of_above h.2).not_gt
    · rfl
  have hend : best 0 (ratioAt fl box bxs) s (trimEnd box bxs e ii) =
      best 0 (ratioAt fl box bxs) s e := by
    unfold trimEnd
    split
    · rename_i h
      refine (best_of_end_le (Nat.sub_le e 1) fun j hj hje => ?_).symm
      obtain rfl : j = e - 1 := by omega
      exact (ratioAt_of_below h.2).le
    · rfl
  exact hstart.trans hend

theorem findOverlapped_naive :
    findOverlapped fl box bxs true = best 0 (ratioAt fl box bxs) 0 bxs.length := by
  unfold findOverlapped
  split
  · rename_i h
    subst h
    rfl
  · exact best_trim 0 bxs.length 0

/-- What the search cuts off at the end does not overlap; what it cuts off at the start may. -/
theorem exists_findOverlapped (fl : ℚ → ℚ) (box : Box)
    (hsorted : bxs.Pairwise fun a b => a.top ≤ b.top) :
    ∃ range, Narrowed box bxs 0 bxs.length range ∧
      findOverlapped fl box bxs false = best 0 (ratioAt fl box bxs) range.1 bxs.length := by
  have h : Narrowed box bxs 0 bxs.length (searchLoop box bxs bxs.length 0 bxs.length 0) :=
    narrowed_searchLoop bxs.length (Nat.sub_le _ _) le_rfl
  refine ⟨_, h, ?_⟩
  unfold findOverlapped
  split
  · rename_i hnil
    subst hnil
    rfl
  · refine (best_trim _ _ _).trans (best_of_end_le h.le_end fun j hj hlt => ?_).symm
    rcases h.below with heq | hbelow
    · omega
    · exact (ratioAt_of_below (exists_below_of_le hsorted hbelow hj hlt)).le

/-- Of the boxes that overlap, each one before a place that the search looks at and whose box
ends too early overlaps less than one behind that place. -/
def Outdone (fl : ℚ → ℚ) (box : Box) (bxs : List Box) : Prop :=
  ∀ p, Probed box bxs 0 bxs.length p → (∃ b ∈ bxs[p]?, b.bottom < box.top) →
    ∀ k < p, 0 < ratioAt fl box bxs k →
      ∃ j, p < j ∧ j < bxs.length ∧ ratioAt fl box bxs k < ratioAt fl box bxs j

theorem outdone_iff_of_narrowed {range : ℕ × ℕ × ℕ}
    (h : Narrowed box bxs 0 bxs.length range) : Outdone fl box bxs ↔
      ∀ k < range.1, 0 < ratioAt fl box bxs k →
        ∃ j, range.1 ≤ j ∧ j < bxs.length ∧ ratioAt fl box bxs k < ratioAt fl box bxs j := by
  constructor
  · intro houtdone k hk hpos
    rcases h.probed with hzero | ⟨p, hp, habove, heq⟩
    · omega
    · have hkp : k < p := by
        refine lt_of_le_of_ne (by omega) ?_
        rintro rfl
        exact absurd hpos (ratioAt_of_above habove).not_gt
      obtain ⟨j, hpj, hrest⟩ := houtdone p hp habove k hkp hpos
      exact ⟨j, by omega, hrest⟩
  · intro hbeaten p hp habove k hkp hpos
    have hlt := h.lt_start p hp habove
    obtain ⟨j, hj, hrest⟩ := hbeaten k (by omega) hpos
    exact ⟨j, by omega, hrest⟩

/-- The fast search agrees with the plain one, and so finds the first box of the greatest
overlap, exactly if what it may pass over is outdone. -/
theorem findOverlapped_iff (fl : ℚ → ℚ) (box : Box)
    (hsorted : bxs.Pairwise fun a b => a.top ≤ b.top) :
    (findOverlapped fl box bxs false = findOverlapped fl box bxs true ∧
      IsBest 0 (ratioAt fl box bxs) 0 bxs.length (findOverlapped fl box bxs false)) ↔
      Outdone fl box bxs := by
  obtain ⟨range, hnarrowed, hfast⟩ := exists_findOverlapped fl box hsorted
  rw [outdone_iff_of_narrowed hnarrowed, findOverlapped_naive, hfast, ← best_eq_iff]
  have hiff := best_eq_best_iff (z := 0) (r := ratioAt fl box bxs) (e := bxs.length)
    (Nat.zero_le range.1)
  constructor
  · intro h k hk hpos
    have hlen : k < bxs.length := by
      by_contra hge
      simp [ratioAt, List.getElem?_eq_none (not_lt.mp hge)] at hpos
    exact hiff.mp h.1 k (Nat.zero_le k) hk hlen hpos
  · intro h
    have heq := hiff.mpr fun k _ hk _ hpos => h k hk hpos
    exact ⟨heq, heq.symm⟩

/-! ### A tall box before a short one -/

/-- A box from `top` to `bottom` that is ten wide. -/
def column (top bottom : ℚ) (h : top ≤ bottom) : Box :=
  { top, bottom, x0 := 0, x1 := 10, x0_le := by norm_num, top_le := h }

theorem findOverlapped_of_two_columns :
    (findOverlapped id (column 5 6 (by decide))
        [column 0 2 (by decide), column 4 8 (by decide)] false =
      findOverlapped id (column 5 6 (by decide))
        [column 0 2 (by decide), column 4 8 (by decide)] true ∧
      IsBest 0 (ratioAt id (column 5 6 (by decide))
        [column 0 2 (by decide), column 4 8 (by decide)]) 0 2
        (findOverlapped id (column 5 6 (by decide))
          [column 0 2 (by decide), column 4 8 (by decide)] false)) ↔
      Outdone id (column 5 6 (by decide))
        [column 0 2 (by decide), column 4 8 (by decide)] :=
  findOverlapped_iff id _ (by simp [column])

/-- The box from 50 to 60 lies within the one from 0 to 100, but the search looks at the one
from 1 to 2 and goes on behind it. -/
theorem findOverlapped_passes_over_tall :
    findOverlapped id (column 50 60 (by decide))
        [column 0 100 (by decide), column 1 2 (by decide)] true = some 0 ∧
      findOverlapped id (column 50 60 (by decide))
        [column 0 100 (by decide), column 1 2 (by decide)] false = none := by
  rw [findOverlapped_naive]
  norm_num [findOverlapped, searchLoop, trimStart, trimEnd, best, bestFrom, ratioAt,
    overlappedArea, column]

end RagFlow.Vision
