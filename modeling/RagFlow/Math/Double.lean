/-
# Numbers in double precision

The numbers are those of double precision, two infinities and one value that is not a number. Sums
and differences are rounded, so that adding one does not always give a greater number, while a
difference has the sign it should have.
-/

import Mathlib.Order.WithBot
import RagFlow.Math.Rounding

namespace RagFlow.Math

def binary64 : Format where
  precision := 53
  precision_pos := by decide
  emin := -1074

structure Double where
  val : ℚ
  on : binary64.On val
  bounded : |val| < 2 ^ 1024

namespace Double

theorem val_injective : Function.Injective val := by
  rintro ⟨a, _, _⟩ ⟨b, _, _⟩ rfl
  rfl

instance : DecidableEq Double := fun _ _ => decidable_of_iff _ val_injective.eq_iff

instance : Zero Double where
  zero :=
    { val := 0
      on := ⟨0, 0, by decide, by decide, by norm_num⟩
      bounded := by rw [abs_zero]; exact pow_pos (by norm_num) 1024 }

instance : One Double where
  one :=
    { val := 1
      on := ⟨1, 0, by decide, by decide, by norm_num⟩
      bounded := by rw [abs_one]; exact one_lt_pow₀ (by norm_num) (by norm_num) }

@[simp] theorem val_zero : (0 : Double).val = 0 := rfl

@[simp] theorem val_one : (1 : Double).val = 1 := rfl

instance : Neg Double where
  neg x :=
    { val := -x.val
      on := by
        obtain ⟨m, e, he, hm, h⟩ := x.on
        exact ⟨-m, e, he, by rwa [abs_neg], by rw [h, Int.cast_neg, neg_mul]⟩
      bounded := by
        rw [abs_neg]
        exact x.bounded }

@[simp] theorem val_neg (x : Double) : (-x).val = -x.val := rfl

/-- The whole numbers up to this bound have double precision. -/
def ofNat (n : ℕ) (h : n ≤ 2 ^ 53) : Double where
  val := n
  on := ⟨n, 0, by decide, by rw [Nat.abs_cast]; exact_mod_cast h,
    by rw [zpow_zero, mul_one, Int.cast_natCast]⟩
  bounded := by
    rw [Nat.abs_cast]
    have hle : (n : ℚ) ≤ 2 ^ 53 := by exact_mod_cast h
    exact hle.trans_lt (pow_lt_pow_right₀ (by norm_num) (by norm_num))

@[simp] theorem val_ofNat (n : ℕ) (h : n ≤ 2 ^ 53) : (ofNat n h).val = n := rfl

/-- The least positive number. -/
def least : Double where
  val := 2 ^ (-1074 : ℤ)
  on := ⟨1, -1074, by decide, by decide, by rw [Int.cast_one, one_mul]⟩
  bounded := by
    rw [abs_of_pos (Format.two_zpow_pos _), ← zpow_natCast]
    exact zpow_lt_zpow_right₀ (by norm_num) (by norm_num)

theorem least_pos : 0 < least.val := Format.two_zpow_pos _

theorem exists_mul_least (x : Double) : ∃ m : ℤ, x.val = m * least.val := by
  obtain ⟨m, e, he, _, h⟩ := x.on
  rw [h]
  exact Format.exists_mul_zpow m he

/-- Two numbers differ by the least one at least. -/
theorem least_le_sub {x y : Double} (h : x.val < y.val) : least.val ≤ y.val - x.val := by
  obtain ⟨m, hm⟩ := x.exists_mul_least
  obtain ⟨n, hn⟩ := y.exists_mul_least
  rw [hm, hn] at h ⊢
  have hlt : m < n := by exact_mod_cast lt_of_mul_lt_mul_right h least_pos.le
  have hone : (1 : ℚ) ≤ n - m := by exact_mod_cast (by omega : (1 : ℤ) ≤ n - m)
  calc
    least.val = 1 * least.val := (one_mul _).symm
    _ ≤ (n - m) * least.val := mul_le_mul_of_nonneg_right hone least_pos.le
    _ = n * least.val - m * least.val := sub_mul _ _ _

end Double

/-! ## With the infinities -/

/-- A number of double precision or an infinity. -/
inductive Extended where
  | negInf
  | finite (x : Double)
  | posInf

namespace Extended

def place : Extended → WithBot (WithTop ℚ)
  | negInf => ⊥
  | finite x => ((x.val : WithTop ℚ) : WithBot (WithTop ℚ))
  | posInf => ((⊤ : WithTop ℚ) : WithBot (WithTop ℚ))

theorem place_injective : Function.Injective place := by
  intro a b h
  cases a <;> cases b <;> simp_all [place, Double.val_injective.eq_iff]

instance : LinearOrder Extended := LinearOrder.lift' place place_injective

theorem le_iff {a b : Extended} : a ≤ b ↔ a.place ≤ b.place := Iff.rfl

theorem lt_iff {a b : Extended} : a < b ↔ a.place < b.place := Iff.rfl

@[simp] theorem finite_le_finite {x y : Double} : finite x ≤ finite y ↔ x.val ≤ y.val := by
  rw [le_iff, place, place, WithBot.coe_le_coe, WithTop.coe_le_coe]

@[simp] theorem finite_lt_finite {x y : Double} : finite x < finite y ↔ x.val < y.val := by
  rw [lt_iff, place, place, WithBot.coe_lt_coe, WithTop.coe_lt_coe]

@[simp] theorem negInf_le (a : Extended) : negInf ≤ a := le_iff.2 bot_le

@[simp] theorem le_posInf (a : Extended) : a ≤ posInf := by
  cases a <;> simp [le_iff, place]

theorem negInf_lt_finite (x : Double) : negInf < finite x := lt_iff.2 (WithBot.bot_lt_coe _)

theorem finite_lt_posInf (x : Double) : finite x < posInf :=
  lt_iff.2 (WithBot.coe_lt_coe.2 (WithTop.coe_lt_top _))

theorem negInf_lt_posInf : negInf < posInf := (negInf_lt_finite 0).trans (finite_lt_posInf 0)

/-- The nearest number; past the greatest one it is an infinity. -/
def round (q : ℚ) : Extended :=
  if hhigh : 2 ^ 1024 ≤ binary64.nearest q then .posInf
  else if hlow : binary64.nearest q ≤ -2 ^ 1024 then .negInf
  else .finite ⟨_, Format.on_nearest q, abs_lt.2 ⟨not_le.1 hlow, not_le.1 hhigh⟩⟩

theorem round_of_nearest {q : ℚ} {x : Double} (h : binary64.nearest q = x.val) :
    round q = finite x := by
  obtain ⟨hlow, hhigh⟩ := abs_lt.1 (h ▸ x.bounded)
  rw [round, dif_neg (not_le.2 hhigh), dif_neg (not_le.2 hlow), Extended.finite.injEq]
  exact Double.val_injective h

@[simp] theorem round_val (x : Double) : round x.val = finite x :=
  round_of_nearest (Format.nearest_of_on x.on)

theorem round_mono : Monotone round := by
  intro a b h
  have hnearest := Format.nearest_mono (F := binary64) h
  by_cases hb : 2 ^ 1024 ≤ binary64.nearest b
  · rw [round.eq_def b, dif_pos hb]
    exact le_posInf _
  by_cases ha : binary64.nearest a ≤ -2 ^ 1024
  · have hhigh : ¬ 2 ^ 1024 ≤ binary64.nearest a := fun hle => hb (hle.trans hnearest)
    rw [round, dif_neg hhigh, dif_pos ha]
    exact negInf_le _
  have ha' : ¬ 2 ^ 1024 ≤ binary64.nearest a := fun hle => hb (hle.trans hnearest)
  have hb' : ¬ binary64.nearest b ≤ -2 ^ 1024 := fun hle => ha (hnearest.trans hle)
  rw [round, round, dif_neg ha', dif_neg ha, dif_neg hb, dif_neg hb']
  exact finite_le_finite.2 hnearest

theorem round_neg {x y : Double} (h : x.val < y.val) : round (x.val + -y.val) < finite 0 := by
  have hle : x.val + -y.val ≤ (-Double.least).val := by
    have hleast := Double.least_le_sub h
    rw [Double.val_neg]
    linarith
  have hround := round_mono hle
  rw [round_val] at hround
  exact hround.trans_lt (finite_lt_finite.2 (neg_lt_zero.2 Double.least_pos))

theorem round_pos {x y : Double} (h : y.val < x.val) : finite 0 < round (x.val + -y.val) := by
  have hle : Double.least.val ≤ x.val + -y.val := by
    have hleast := Double.least_le_sub h
    linarith
  have hround := round_mono hle
  rw [round_val] at hround
  exact (finite_lt_finite.2 Double.least_pos).trans_le hround

/-- One more, which an infinity keeps. -/
def addOne : Extended → Extended
  | negInf => negInf
  | finite x => round (x.val + 1)
  | posInf => posInf

/-- One more is not less, but it may be the same. -/
theorem le_addOne (a : Extended) : a ≤ a.addOne := by
  cases a with
  | negInf => exact le_rfl
  | posInf => exact le_rfl
  | finite x =>
      have h := round_mono (le_add_of_nonneg_right zero_le_one : x.val ≤ x.val + 1)
      rwa [round_val] at h

end Extended

/-! ## With what is not a number -/

/-- A value of type Number, where `none` is not a number. Zero has no sign. -/
abbrev Number : Type := Option Extended

namespace Number

def ofDouble (x : Double) : Number := some (.finite x)

def isNaN (a : Number) : Bool := a.isNone

def neg : Number → Number
  | none => none
  | some .negInf => some .posInf
  | some (.finite x) => ofDouble (-x)
  | some .posInf => some .negInf

def add : Number → Number → Number
  | some (.finite x), some (.finite y) => some (Extended.round (x.val + y.val))
  | some .negInf, some .posInf | some .posInf, some .negInf => none
  | some .negInf, some _ | some _, some .negInf => some .negInf
  | some .posInf, some _ | some _, some .posInf => some .posInf
  | none, _ | _, none => none

def sub (a b : Number) : Number := add a (neg b)

/-- `===`. -/
def strictEq (a b : Number) : Bool := !a.isNaN && decide (a = b)

/-- The sign of a value of a comparison function, which is none if it is not a number. -/
def sign : Number → Ordering
  | none => .eq
  | some a => compare a (.finite 0)

theorem add_one (a : Extended) : add (some a) (ofDouble 1) = some a.addOne := by
  cases a <;> rfl

theorem sub_none_right (a : Number) : sub a none = none := by
  rcases a with _ | _ | _ | _ <;> rfl

theorem sub_none_left (a : Number) : sub none a = none := by
  rcases a with _ | _ | _ | _ <;> rfl

/-- A difference has the sign of the exact one. -/
theorem sign_sub (a b : Extended) : sign (sub (some a) (some b)) = compare a b := by
  cases a with
  | negInf =>
      cases b with
      | negInf => exact (compare_eq_iff_eq.2 rfl).symm
      | finite y => exact (compare_lt_iff_lt.2 (Extended.negInf_lt_finite y)).symm
      | posInf => exact (compare_lt_iff_lt.2 Extended.negInf_lt_posInf).symm
  | posInf =>
      cases b with
      | negInf => exact (compare_gt_iff_gt.2 Extended.negInf_lt_posInf).symm
      | finite y => exact (compare_gt_iff_gt.2 (Extended.finite_lt_posInf y)).symm
      | posInf => exact (compare_eq_iff_eq.2 rfl).symm
  | finite x =>
      cases b with
      | negInf => exact (compare_gt_iff_gt.2 (Extended.negInf_lt_finite x)).symm
      | posInf => exact (compare_lt_iff_lt.2 (Extended.finite_lt_posInf x)).symm
      | finite y =>
          change compare (Extended.round (x.val + -y.val)) (.finite 0) = _
          rcases lt_trichotomy x.val y.val with hlt | heq | hgt
          · rw [compare_lt_iff_lt.2 (Extended.round_neg hlt),
              compare_lt_iff_lt.2 (Extended.finite_lt_finite.2 hlt)]
          · have hzero : x.val + -y.val = (0 : Double).val := by
              rw [heq, add_neg_cancel, Double.val_zero]
            rw [hzero, Extended.round_val, compare_eq_iff_eq.2 rfl, Double.val_injective heq,
              compare_eq_iff_eq.2 rfl]
          · rw [compare_gt_iff_gt.2 (Extended.round_pos hgt),
              compare_gt_iff_gt.2 (Extended.finite_lt_finite.2 hgt)]

end Number

end RagFlow.Math
