/-
# Rounding to a binary format

The numbers of a format are the multiples of a power of two with a bounded factor, where the power
is not below a least one. Rounding takes the nearest of them, and halfway the even one. It is
monotone, and keeps the numbers of the format.
-/

import Mathlib.Data.Int.Log
import Mathlib.Data.Rat.Floor
import Mathlib.Algebra.Order.Field.Power
import Mathlib.Tactic.Linarith
import Mathlib.Tactic.Positivity

namespace RagFlow.Math

/-! ## To the integers -/

/-- The nearest integer, halfway the even one. -/
def halfEven (q : ℚ) : ℤ :=
  if q - ⌊q⌋ < 1 / 2 then ⌊q⌋
  else if 1 / 2 < q - ⌊q⌋ then ⌊q⌋ + 1
  else if Even ⌊q⌋ then ⌊q⌋ else ⌊q⌋ + 1

@[simp] theorem halfEven_intCast (n : ℤ) : halfEven n = n := by
  rw [halfEven, Int.floor_intCast, sub_self, if_pos (by norm_num)]

theorem floor_le_halfEven (q : ℚ) : ⌊q⌋ ≤ halfEven q := by
  rw [halfEven]
  split_ifs <;> omega

theorem halfEven_le_floor_succ (q : ℚ) : halfEven q ≤ ⌊q⌋ + 1 := by
  rw [halfEven]
  split_ifs <;> omega

theorem halfEven_mono {a b : ℚ} (h : a ≤ b) : halfEven a ≤ halfEven b := by
  rcases (Int.floor_mono h).lt_or_eq with hlt | heq
  · calc
      halfEven a ≤ ⌊a⌋ + 1 := halfEven_le_floor_succ a
      _ ≤ ⌊b⌋ := hlt
      _ ≤ halfEven b := floor_le_halfEven b
  · rw [halfEven, halfEven, heq]
    split_ifs <;> first | omega | (exfalso; linarith)

/-! ## Formats -/

structure Format where
  /-- The binary digits of a factor. -/
  precision : ℕ
  precision_pos : 1 ≤ precision
  /-- The least power of two. -/
  emin : ℤ

namespace Format

variable (F : Format)

/-- A factor may be a power of two with one digit more, which is one of the next power of two. -/
def On (q : ℚ) : Prop :=
  ∃ m e : ℤ, F.emin ≤ e ∧ |m| ≤ 2 ^ F.precision ∧ q = m * 2 ^ e

/-- The power of two of the last digit. -/
def lastPlace (q : ℚ) : ℤ :=
  max (Int.log 2 |q| + 1 - F.precision) F.emin

def nearest (q : ℚ) : ℚ :=
  halfEven (q / 2 ^ F.lastPlace q) * 2 ^ F.lastPlace q

variable {F} {a b q : ℚ}

theorem two_zpow_pos (e : ℤ) : (0 : ℚ) < 2 ^ e := zpow_pos (by norm_num) e

/-- A multiple of a power of two is one of every smaller power. -/
theorem exists_mul_zpow (m : ℤ) {d e : ℤ} (h : d ≤ e) :
    ∃ n : ℤ, (m : ℚ) * 2 ^ e = (n : ℚ) * 2 ^ d := by
  obtain ⟨k, hk⟩ := Int.eq_ofNat_of_zero_le (sub_nonneg.2 h)
  refine ⟨m * 2 ^ k, ?_⟩
  rw [Int.cast_mul, Int.cast_pow, Int.cast_ofNat, mul_assoc, ← zpow_natCast, ← hk,
    ← zpow_add₀ (by norm_num), sub_add_cancel]

theorem abs_lt_of_log (q : ℚ) : |q| < 2 ^ (Int.log 2 |q| + 1) := by
  have h := Int.lt_zpow_succ_log_self (b := 2) (by norm_num) |q|
  rwa [Nat.cast_ofNat] at h

theorem le_abs_of_log (h : q ≠ 0) : 2 ^ Int.log 2 |q| ≤ |q| := by
  have h := Int.zpow_log_le_self (b := 2) (by norm_num) (abs_pos.2 h)
  rwa [Nat.cast_ofNat] at h

/-- Below this bound the last place is not greater. -/
theorem abs_le_zpow_lastPlace (q : ℚ) : |q| ≤ 2 ^ (F.lastPlace q + F.precision) := by
  have hlast : Int.log 2 |q| + 1 - F.precision ≤ F.lastPlace q := le_max_left _ _
  exact (abs_lt_of_log q).le.trans (zpow_le_zpow_right₀ (by norm_num) (by omega))

/-- Where the last place is not the least, the number is not small. -/
theorem zpow_le_abs (hq : q ≠ 0) (h : F.emin < F.lastPlace q) :
    2 ^ (F.lastPlace q + F.precision - 1) ≤ |q| := by
  have hlast : F.lastPlace q = Int.log 2 |q| + 1 - F.precision := by
    rw [lastPlace] at h ⊢
    omega
  have hexp : F.lastPlace q + F.precision - 1 = Int.log 2 |q| := by omega
  rw [hexp]
  exact le_abs_of_log hq

@[simp] theorem nearest_zero : F.nearest 0 = 0 := by
  have h := halfEven_intCast 0
  rw [Int.cast_zero] at h
  rw [nearest, zero_div, h, Int.cast_zero, zero_mul]

theorem nearest_le {m : ℤ} {e : ℤ} (he : F.lastPlace q ≤ e) (h : q ≤ m * 2 ^ e) :
    F.nearest q ≤ m * 2 ^ e := by
  obtain ⟨n, hn⟩ := exists_mul_zpow m he
  rw [hn] at h ⊢
  apply mul_le_mul_of_nonneg_right _ (two_zpow_pos _).le
  have hle := halfEven_mono ((div_le_iff₀ (two_zpow_pos _)).2 h)
  rw [halfEven_intCast] at hle
  exact_mod_cast hle

theorem le_nearest {m : ℤ} {e : ℤ} (he : F.lastPlace q ≤ e) (h : m * 2 ^ e ≤ q) :
    m * 2 ^ e ≤ F.nearest q := by
  obtain ⟨n, hn⟩ := exists_mul_zpow m he
  rw [hn] at h ⊢
  apply mul_le_mul_of_nonneg_right _ (two_zpow_pos _).le
  have hle := halfEven_mono ((le_div_iff₀ (two_zpow_pos _)).2 h)
  rw [halfEven_intCast] at hle
  exact_mod_cast hle

theorem nearest_eq {m : ℤ} {e : ℤ} (he : F.lastPlace q ≤ e) (h : q = m * 2 ^ e) :
    F.nearest q = q := by
  rw [h]
  rw [h] at he
  exact le_antisymm (nearest_le he le_rfl) (le_nearest he le_rfl)

theorem nearest_nonneg (h : 0 ≤ q) : 0 ≤ F.nearest q := by
  have hle := le_nearest (F := F) (q := q) (m := 0) le_rfl (by rwa [Int.cast_zero, zero_mul])
  rwa [Int.cast_zero, zero_mul] at hle

theorem nearest_nonpos (h : q ≤ 0) : F.nearest q ≤ 0 := by
  have hle := nearest_le (F := F) (q := q) (m := 0) le_rfl (by rwa [Int.cast_zero, zero_mul])
  rwa [Int.cast_zero, zero_mul] at hle

/-- A number of the format is kept. -/
theorem nearest_of_on (h : F.On q) : F.nearest q = q := by
  obtain ⟨m, e, he, hm, rfl⟩ := h
  by_cases hzero : (m : ℚ) * 2 ^ e = 0
  · rw [hzero, nearest_zero]
  have habs : |(m : ℚ) * 2 ^ e| = |(m : ℚ)| * 2 ^ e := by
    rw [abs_mul, abs_of_pos (two_zpow_pos e)]
  have hle := le_abs_of_log hzero
  rcases hm.lt_or_eq with hlt | heq
  · refine nearest_eq (max_le ?_ he) rfl
    have hbound : |(m : ℚ) * 2 ^ e| < 2 ^ ((F.precision : ℤ) + e) := by
      rw [habs, zpow_add₀ (by norm_num), zpow_natCast]
      exact mul_lt_mul_of_pos_right (by exact_mod_cast hlt) (two_zpow_pos e)
    have hlog := (zpow_lt_zpow_iff_right₀ (by norm_num : (1 : ℚ) < 2)).1 (hle.trans_lt hbound)
    omega
  -- the factor has one digit more
  · have hpow : |(m : ℚ) * 2 ^ e| = 2 ^ ((F.precision : ℤ) + e) := by
      rw [habs, zpow_add₀ (by norm_num), zpow_natCast]
      exact_mod_cast congrArg (fun n : ℤ => (n : ℚ) * 2 ^ e) heq
    have hlog : Int.log 2 |(m : ℚ) * 2 ^ e| = F.precision + e := by
      have h := Int.log_zpow (R := ℚ) (b := 2) (by norm_num) (F.precision + e)
      rwa [Nat.cast_ofNat, ← hpow] at h
    have hpos := F.precision_pos
    obtain ⟨k, hk⟩ : (2 : ℤ) ∣ m := by
      rw [← dvd_abs, heq]
      exact dvd_pow_self 2 (by omega)
    refine nearest_eq (m := k) (e := e + 1) (max_le ?_ (by omega)) ?_
    · rw [hlog]
      omega
    · rw [hk, zpow_add_one₀ (by norm_num)]
      push_cast
      ring

theorem on_nearest (q : ℚ) : F.On (F.nearest q) := by
  refine ⟨_, F.lastPlace q, le_max_right _ _, ?_, rfl⟩
  have hbound := abs_le_zpow_lastPlace (F := F) q
  rw [add_comm, zpow_add₀ (by norm_num), zpow_natCast] at hbound
  have hcast : ((2 ^ F.precision : ℤ) : ℚ) = 2 ^ F.precision := by push_cast; rfl
  obtain ⟨hlow, hhigh⟩ := abs_le.1 hbound
  refine abs_le.2 ⟨?_, ?_⟩
  · have h : ((-2 ^ F.precision : ℤ) : ℚ) ≤ q / 2 ^ F.lastPlace q := by
      rw [le_div_iff₀ (two_zpow_pos _), Int.cast_neg, hcast, neg_mul]
      exact hlow
    exact (halfEven_intCast _).symm.le.trans (halfEven_mono h)
  · have h : q / 2 ^ F.lastPlace q ≤ ((2 ^ F.precision : ℤ) : ℚ) := by
      rw [div_le_iff₀ (two_zpow_pos _), hcast]
      exact hhigh
    exact (halfEven_mono h).trans (halfEven_intCast _).le

/-- Between the two there is a power of two that both last places divide. -/
theorem nearest_mono_of_lt (hb : b ≠ 0) (h : F.lastPlace a < F.lastPlace b) :
    (a ≤ b → F.nearest a ≤ F.nearest b) ∧ (b ≤ a → F.nearest b ≤ F.nearest a) := by
  have hpos := F.precision_pos
  have hle := zpow_le_abs hb ((le_max_right _ _).trans_lt h)
  have hexp : F.lastPlace a + F.precision ≤ F.lastPlace b + F.precision - 1 := by omega
  have ha : |a| ≤ 2 ^ (F.lastPlace b + F.precision - 1) :=
    (abs_le_zpow_lastPlace a).trans (zpow_le_zpow_right₀ (by norm_num) hexp)
  obtain ⟨hlow, hhigh⟩ := abs_le.1 ha
  have hone : ((1 : ℤ) : ℚ) * 2 ^ (F.lastPlace b + F.precision - 1) =
      2 ^ (F.lastPlace b + F.precision - 1) := by
    rw [Int.cast_one, one_mul]
  have hneg : ((-1 : ℤ) : ℚ) * 2 ^ (F.lastPlace b + F.precision - 1) =
      -2 ^ (F.lastPlace b + F.precision - 1) := by
    rw [Int.cast_neg, Int.cast_one, neg_one_mul]
  rcases le_abs.1 hle with hbpos | hbneg
  · have hmid := (nearest_le (F := F) (by omega) (hhigh.trans hone.symm.le)).trans
      (le_nearest (F := F) (by omega) (hone.le.trans hbpos))
    refine ⟨fun _ => hmid, fun hba => ?_⟩
    have heq : a = b := le_antisymm (hhigh.trans hbpos) hba
    exact absurd h (heq ▸ lt_irrefl _)
  · have hmid := (nearest_le (F := F) (by omega) ((le_neg.1 hbneg).trans hneg.symm.le)).trans
      (le_nearest (F := F) (by omega) (hneg.le.trans hlow))
    refine ⟨fun hab => ?_, fun _ => hmid⟩
    have heq : a = b := le_antisymm hab ((le_neg.1 hbneg).trans hlow)
    exact absurd h (heq ▸ lt_irrefl _)

theorem nearest_mono (h : a ≤ b) : F.nearest a ≤ F.nearest b := by
  by_cases ha : a = 0
  · rw [ha, nearest_zero]
    exact nearest_nonneg (ha ▸ h)
  by_cases hb : b = 0
  · rw [hb, nearest_zero]
    exact nearest_nonpos (hb ▸ h)
  rcases lt_trichotomy (F.lastPlace a) (F.lastPlace b) with hlt | heq | hgt
  · exact (nearest_mono_of_lt hb hlt).1 h
  · rw [nearest, nearest, heq]
    apply mul_le_mul_of_nonneg_right _ (two_zpow_pos _).le
    exact_mod_cast halfEven_mono (div_le_div_of_nonneg_right h (two_zpow_pos _).le)
  · exact (nearest_mono_of_lt ha hgt).2 h

end Format

end RagFlow.Math
