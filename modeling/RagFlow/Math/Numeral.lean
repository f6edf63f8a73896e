/-
# Texts of numbers

A text is read as a number with blanks around it, in decimal digits with a fraction and an exponent,
or in another base. A number is written with as few digits as read back to it.
-/

import Mathlib.Data.List.DropRight
import RagFlow.Math.Double

namespace RagFlow.Math

namespace Number

/-! ## Reading -/

def isWhiteSpace (c : Char) : Bool :=
  (9 ≤ c.toNat && c.toNat ≤ 13) || (0x2000 ≤ c.toNat && c.toNat ≤ 0x200A) ||
    c.toNat ∈ [0x20, 0xA0, 0x1680, 0x2028, 0x2029, 0x202F, 0x205F, 0x3000, 0xFEFF]

def trim (t : List Char) : List Char := (t.dropWhile isWhiteSpace).rdropWhile isWhiteSpace

def isDigits (t : List Char) : Bool := !t.isEmpty && t.all Char.isDigit

/-- What stands from the letter of the exponent on. -/
def exponentOf : List Char → Option ℤ
  | [] => some 0
  | _ :: '+' :: ds => if isDigits ds then some (Nat.ofDigitChars 10 ds 0) else none
  | _ :: '-' :: ds => if isDigits ds then some (-Nat.ofDigitChars 10 ds 0) else none
  | _ :: ds => if isDigits ds then some (Nat.ofDigitChars 10 ds 0) else none

def inMantissa (c : Char) : Bool := c != 'e' && c != 'E'

/-- Digits, of which some may stand behind a point, and an exponent. -/
def decimal (t : List Char) : Option ℚ :=
  let mantissa := t.takeWhile inMantissa
  let whole := mantissa.takeWhile (· != '.')
  let fraction := (mantissa.dropWhile (· != '.')).drop 1
  if isDigits (whole ++ fraction) then
    (exponentOf (t.dropWhile inMantissa)).map fun e : ℤ =>
      Nat.ofDigitChars 10 (whole ++ fraction) 0 * 10 ^ (e - fraction.length)
  else none

def infinity : List Char := ['I', 'n', 'f', 'i', 'n', 'i', 't', 'y']

def unsigned (t : List Char) : Number :=
  if t = infinity then some .posInf else (decimal t).map Extended.round

def signed : List Char → Number
  | '+' :: t => unsigned t
  | '-' :: t => neg (unsigned t)
  | t => unsigned t

/-- The base that a prefix names. -/
def radix : List Char → Option ℕ
  | '0' :: c :: _ =>
    if c ∈ ['b', 'B'] then some 2
    else if c ∈ ['o', 'O'] then some 8
    else if c ∈ ['x', 'X'] then some 16
    else none
  | _ => none

def digitValue (c : Char) : ℕ :=
  if c.isDigit then c.toNat - '0'.toNat
  else if 'a' ≤ c ∧ c ≤ 'f' then c.toNat - 'a'.toNat + 10
  else if 'A' ≤ c ∧ c ≤ 'F' then c.toNat - 'A'.toNat + 10
  else 16

def inBase (b : ℕ) (t : List Char) : Number :=
  if !t.isEmpty && t.all (digitValue · < b) then
    some (Extended.round ((t.foldl (fun n c => b * n + digitValue c) 0 : ℕ) : ℚ))
  else none

/-- `Number`, of a string. -/
def ofText (t : List Char) : Number :=
  if trim t = [] then ofDouble 0
  else match radix (trim t) with
    | some b => inBase b ((trim t).drop 2)
    | none => signed (trim t)

/-! ## Writing -/

/-- A factor of the power of ten that reads back, of the two next to the quotient the nearer one
first. -/
def factorAt (q : ℚ) (p : ℤ) : Option ℕ :=
  let near := halfEven (q / 10 ^ p)
  let far := ⌊q / 10 ^ p⌋ + ⌈q / 10 ^ p⌉ - near
  [near.toNat, far.toNat].find? fun s => binary64.nearest (s * 10 ^ p) = q

/-- The powers of ten are tried from the greatest on. -/
def shortestFrom (q : ℚ) : ℕ → ℤ → ℕ × ℤ
  | 0, p => (⌊q / 10 ^ p⌋₊, p)
  | fuel + 1, p => match factorAt q p with
    | some s => (s, p)
    | none => shortestFrom q fuel (p - 1)

/-- A factor and a power of ten. With the last power every number is an exact multiple. -/
def shortest (q : ℚ) : ℕ × ℤ := shortestFrom q (Int.log 10 q + 1074).toNat (Int.log 10 q)

/-- The exponent, with its letter and sign. -/
def power (k : ℤ) : List Char :=
  'e' :: (if 0 ≤ k then '+' else '-') :: Nat.toDigits 10 k.natAbs

/-- The digits `ds` with the point behind the first `n` of them. -/
def layout (ds : List Char) (n : ℤ) : List Char :=
  if ds.length ≤ n ∧ n ≤ 21 then ds ++ List.replicate (n.toNat - ds.length) '0'
  else if 0 < n ∧ n ≤ 21 then ds.take n.toNat ++ '.' :: ds.drop n.toNat
  else if -6 < n ∧ n ≤ 0 then '0' :: '.' :: (List.replicate (-n).toNat '0' ++ ds)
  else if ds.length = 1 then ds ++ power (n - 1)
  else ds.take 1 ++ '.' :: ds.drop 1 ++ power (n - 1)

/-- The text of a positive number. -/
def digitsText (q : ℚ) : List Char :=
  let ds := Nat.toDigits 10 (shortest q).1
  layout (ds.rdropWhile (· = '0')) ((shortest q).2 + ds.length)

/-- `String`, of a number. -/
def toText : Number → List Char
  | none => ['N', 'a', 'N']
  | some .posInf => infinity
  | some .negInf => '-' :: infinity
  | some (.finite x) =>
    if x.val = 0 then ['0']
    else if x.val < 0 then '-' :: digitsText (-x.val)
    else digitsText x.val

/-! ## Reading what is written -/

theorem isDigits_iff {t : List Char} : isDigits t = true ↔ t ≠ [] ∧ ∀ c ∈ t, c.isDigit = true := by
  simp [isDigits]

theorem isDigits_toDigits (n : ℕ) : isDigits (Nat.toDigits 10 n) = true :=
  isDigits_iff.2 ⟨Nat.toDigits_ne_nil, fun _ hc =>
    Nat.isDigit_of_mem_toDigits (by decide) (by decide) hc⟩

theorem inMantissa_of_isDigit {c : Char} (h : c.isDigit = true) : inMantissa c = true := by
  have he : c ≠ 'e' := by rintro rfl; exact absurd h (by decide)
  have hE : c ≠ 'E' := by rintro rfl; exact absurd h (by decide)
  simp [inMantissa, he, hE]

theorem ne_point_of_isDigit {c : Char} (h : c.isDigit = true) : (c != '.') = true := by
  rw [bne_iff_ne]
  rintro rfl
  exact absurd h (by decide)

section Decimal

variable {whole exponent : List Char} {e : ℤ}

/-- An exponent starts with its letter. -/
theorem span_mantissa {mantissa : List Char} (h : ∀ c ∈ mantissa, inMantissa c = true)
    (hexp : ∀ c ∈ exponent.head?, c = 'e') :
    (mantissa ++ exponent).takeWhile inMantissa = mantissa ∧
      (mantissa ++ exponent).dropWhile inMantissa = exponent := by
  have hhead : exponent.takeWhile inMantissa = [] ∧ exponent.dropWhile inMantissa = exponent := by
    cases exponent with
    | nil => exact ⟨rfl, rfl⟩
    | cons c rest =>
        have hc := hexp c rfl
        rw [hc]
        exact ⟨rfl, rfl⟩
  rw [List.takeWhile_append_of_pos h, List.dropWhile_append_of_pos h, hhead.1, hhead.2,
    List.append_nil]
  exact ⟨rfl, rfl⟩

theorem decimal_point (whole fraction exponent : List Char) (hne : whole ++ fraction ≠ [])
    (hdigits : ∀ c ∈ whole ++ fraction, c.isDigit = true)
    (hexp : ∀ c ∈ exponent.head?, c = 'e') (he : exponentOf exponent = some e) :
    decimal (whole ++ '.' :: fraction ++ exponent) =
      some ((Nat.ofDigitChars 10 (whole ++ fraction) 0 : ℚ) * 10 ^ (e - fraction.length)) := by
  have hwhole : ∀ c ∈ whole, (c != '.') = true := fun c hc =>
    ne_point_of_isDigit (hdigits c (List.mem_append_left _ hc))
  have hmantissa : ∀ c ∈ whole ++ '.' :: fraction, inMantissa c = true := by
    intro c hc
    rcases List.mem_append.1 hc with hc | hc
    · exact inMantissa_of_isDigit (hdigits c (List.mem_append_left _ hc))
    · rcases List.mem_cons.1 hc with rfl | hc
      · rfl
      · exact inMantissa_of_isDigit (hdigits c (List.mem_append_right _ hc))
  obtain ⟨htake, hdrop⟩ := span_mantissa hmantissa hexp
  have hint : (whole ++ '.' :: fraction).takeWhile (· != '.') = whole := by
    rw [List.takeWhile_append_of_pos hwhole, List.takeWhile_cons_of_neg (by decide),
      List.append_nil]
  have hfrac : ((whole ++ '.' :: fraction).dropWhile (· != '.')).drop 1 = fraction := by
    rw [List.dropWhile_append_of_pos hwhole, List.dropWhile_cons_of_neg (by decide)]
    rfl
  rw [decimal, htake, hdrop, hint, hfrac,
    if_pos (isDigits_iff.2 ⟨hne, hdigits⟩), he, Option.map_some]

theorem decimal_whole (exponent : List Char) (hne : whole ≠ [])
    (hdigits : ∀ c ∈ whole, c.isDigit = true)
    (hexp : ∀ c ∈ exponent.head?, c = 'e') (he : exponentOf exponent = some e) :
    decimal (whole ++ exponent) = some ((Nat.ofDigitChars 10 whole 0 : ℚ) * 10 ^ e) := by
  obtain ⟨htake, hdrop⟩ :=
    span_mantissa (fun c hc => inMantissa_of_isDigit (hdigits c hc)) hexp
  have hwhole : ∀ c ∈ whole, (c != '.') = true := fun c hc => ne_point_of_isDigit (hdigits c hc)
  have hint : whole.takeWhile (· != '.') = whole := List.takeWhile_eq_self_iff.2 hwhole
  have hfrac : (whole.dropWhile (· != '.')).drop 1 = [] := by
    rw [List.dropWhile_eq_nil_iff.2 hwhole, List.drop_nil]
  rw [decimal, htake, hdrop, hint, hfrac,
    List.append_nil, if_pos (isDigits_iff.2 ⟨hne, hdigits⟩), he, Option.map_some, List.length_nil,
    Nat.cast_zero, sub_zero]

end Decimal

theorem exponentOf_power (k : ℤ) : exponentOf (power k) = some k := by
  rw [power]
  split_ifs with h
  · rw [exponentOf, if_pos (isDigits_toDigits _), Nat.ofDigitChars_ten_toDigits,
      Int.natAbs_of_nonneg h]
  · rw [exponentOf, if_pos (isDigits_toDigits _), Nat.ofDigitChars_ten_toDigits,
      Int.ofNat_natAbs_of_nonpos (by omega), neg_neg]

/-- The digits read back with the point where it was put. -/
theorem decimal_layout {ds : List Char} (hne : ds ≠ []) (hdigits : ∀ c ∈ ds, c.isDigit = true)
    (n : ℤ) :
    decimal (layout ds n) = some ((Nat.ofDigitChars 10 ds 0 : ℚ) * 10 ^ (n - ds.length)) := by
  have hnone : ∀ c ∈ ([] : List Char).head?, c = 'e' := fun c hc => by cases hc
  have hletter : ∀ c ∈ (power (n - 1)).head?, c = 'e' := fun c hc => (Option.some.inj hc).symm
  have hzeros : ∀ k, ∀ c ∈ List.replicate k '0', c.isDigit = true := fun k c hc => by
    rw [List.eq_of_mem_replicate hc]
    rfl
  have hpos : 0 < ds.length := List.length_pos_iff.2 hne
  rw [layout]
  split_ifs with hwhole hinner hsmall hone
  · have hvalue := decimal_whole []
      (List.append_ne_nil_of_left_ne_nil hne (List.replicate (n.toNat - ds.length) '0'))
      (fun c hc => (List.mem_append.1 hc).elim (hdigits c) (hzeros _ c)) hnone rfl
    rw [List.append_nil, Nat.ofDigitChars_append, Nat.ofDigitChars_replicate_zero, zpow_zero,
      mul_one] at hvalue
    have hexp : n - ds.length = (n.toNat - ds.length : ℕ) := by omega
    rw [hvalue, hexp, zpow_natCast, Nat.cast_mul, Nat.cast_pow, Nat.cast_ofNat, mul_comm]
  · have hds : ds.take n.toNat ++ ds.drop n.toNat = ds := List.take_append_drop _ _
    have hvalue := decimal_point (ds.take n.toNat) (ds.drop n.toNat) [] (by rwa [hds])
      (by rwa [hds]) hnone rfl
    rw [List.append_nil, hds, List.length_drop] at hvalue
    have hexp : (0 : ℤ) - (ds.length - n.toNat : ℕ) = n - ds.length := by omega
    rw [hvalue, hexp]
  · have hvalue := decimal_point ['0'] (List.replicate (-n).toNat '0' ++ ds) [] (by simp)
      (fun c hc => by
        rcases List.mem_append.1 hc with hc | hc
        · rw [List.mem_singleton.1 hc]
          rfl
        · exact (List.mem_append.1 hc).elim (hzeros _ c) (hdigits c)) hnone rfl
    have hexp : (0 : ℤ) - ((-n).toNat + ds.length : ℕ) = n - ds.length := by omega
    rw [List.append_nil, List.length_append, List.length_replicate, hexp, ← List.append_assoc,
      Nat.ofDigitChars_append, Nat.ofDigitChars_append, Nat.ofDigitChars_replicate_zero] at hvalue
    exact hvalue
  · have hexp : n - 1 = n - ds.length := by omega
    rw [decimal_whole _ hne hdigits hletter (exponentOf_power _), hexp]
  · have hds : ds.take 1 ++ ds.drop 1 = ds := List.take_append_drop _ _
    have hvalue := decimal_point (ds.take 1) (ds.drop 1) _ (by rwa [hds])
      (by rwa [hds]) hletter (exponentOf_power _)
    have hexp : n - 1 - (ds.length - 1 : ℕ) = n - ds.length := by omega
    rw [hvalue, hds, List.length_drop, hexp]

theorem nearest_of_factorAt {q : ℚ} {p : ℤ} {s : ℕ} (h : factorAt q p = some s) :
    binary64.nearest (s * 10 ^ p) = q := by
  rw [factorAt] at h
  have hfind := List.find?_some h
  exact of_decide_eq_true hfind

/-- Enough powers of ten are tried to get to an exact multiple. -/
theorem shortestFrom_spec {q : ℚ} (hq : binary64.nearest q = q) {least : ℤ}
    (hexact : ∃ m : ℕ, q = m * 10 ^ least) (fuel : ℕ) :
    ∀ p : ℤ, p ≤ least + fuel →
      binary64.nearest ((shortestFrom q fuel p).1 * 10 ^ (shortestFrom q fuel p).2) = q := by
  induction fuel with
  | zero =>
      intro p hp
      obtain ⟨m, hm⟩ := hexact
      obtain ⟨k, hk⟩ := Int.eq_ofNat_of_zero_le (by omega : 0 ≤ least - p)
      have hquot : q / 10 ^ p = ((m * 10 ^ k : ℕ) : ℚ) := by
        rw [hm, mul_div_assoc, ← zpow_sub₀ (by norm_num), hk, zpow_natCast, Nat.cast_mul,
          Nat.cast_pow, Nat.cast_ofNat]
      have hback : ((m * 10 ^ k : ℕ) : ℚ) * 10 ^ p = q := by
        rw [← hquot, div_mul_cancel₀ _ (zpow_ne_zero _ (by norm_num))]
      rw [shortestFrom, hquot, Nat.floor_natCast, hback, hq]
  | succ fuel ih =>
      intro p hp
      rw [shortestFrom]
      cases hfactor : factorAt q p with
      | some s => exact nearest_of_factorAt hfactor
      | none => exact ih (p - 1) (by push_cast at hp; omega)

theorem exists_mul_ten (x : Double) (h : 0 ≤ x.val) :
    ∃ m : ℕ, x.val = m * 10 ^ (-1074 : ℤ) := by
  obtain ⟨m, hm⟩ := x.exists_mul_least
  have hnonneg : 0 ≤ m := by
    rw [hm] at h
    exact_mod_cast nonneg_of_mul_nonneg_left h Double.least_pos
  obtain ⟨k, rfl⟩ := Int.eq_ofNat_of_zero_le hnonneg
  refine ⟨k * 5 ^ 1074, ?_⟩
  have hten : (10 : ℚ) ^ (-1074 : ℤ) = 5 ^ (-1074 : ℤ) * 2 ^ (-1074 : ℤ) := by
    rw [← mul_zpow]
    norm_num
  rw [hm, Double.least, hten, Nat.cast_mul, Nat.cast_pow, Nat.cast_ofNat, mul_assoc,
    ← mul_assoc (5 ^ 1074 : ℚ), ← zpow_natCast, ← zpow_add₀ (by norm_num)]
  norm_num

theorem nearest_shortest {x : Double} (h : 0 < x.val) :
    binary64.nearest ((shortest x.val).1 * 10 ^ (shortest x.val).2) = x.val :=
  shortestFrom_spec (Format.nearest_of_on x.on) (exists_mul_ten x h.le) _ _ (by omega)

/-! ## The characters of a number -/

/-- The characters of a finite number. -/
def IsPlain (c : Char) : Prop := c.isDigit = true ∨ c ∈ ['.', 'e', '+', '-']

theorem IsPlain.ne {c d : Char} (hc : IsPlain c) (hdigit : d.isDigit = false)
    (hother : d ∉ ['.', 'e', '+', '-']) : c ≠ d := by
  rintro rfl
  rcases hc with hc | hc
  · exact absurd hc (ne_true_of_eq_false hdigit)
  · exact hother hc

theorem isWhiteSpace_of_isPlain {c : Char} (hc : IsPlain c) : isWhiteSpace c = false := by
  rcases hc with hc | hc
  · have hrange : 48 ≤ c.toNat ∧ c.toNat ≤ 57 := by
      simpa [Char.isDigit, UInt32.le_iff_toNat_le] using hc
    simp [isWhiteSpace]
    omega
  · revert c
    decide

theorem isPlain_toDigits {n : ℕ} {c : Char} (hc : c ∈ Nat.toDigits 10 n) : IsPlain c :=
  .inl (Nat.isDigit_of_mem_toDigits (by decide) (by decide) hc)

theorem isPlain_power {k : ℤ} {c : Char} (hc : c ∈ power k) : IsPlain c := by
  rw [power] at hc
  rcases List.mem_cons.1 hc with rfl | hc
  · exact .inr (by decide)
  rcases List.mem_cons.1 hc with rfl | hc
  · split_ifs
    · exact .inr (by decide)
    · exact .inr (by decide)
  · exact isPlain_toDigits hc

theorem isPlain_layout {ds : List Char} (hdigits : ∀ c ∈ ds, c.isDigit = true) {n : ℤ} :
    ∀ c ∈ layout ds n, IsPlain c := by
  have hpoint : IsPlain '.' := .inr (by decide)
  have hzero : IsPlain '0' := .inl rfl
  have hds : ∀ c ∈ ds, IsPlain c := fun c hc => .inl (hdigits c hc)
  intro c hc
  rw [layout] at hc
  split_ifs at hc with hwhole hinner hsmall hone
  · rcases List.mem_append.1 hc with hc | hc
    · exact hds c hc
    · rwa [List.eq_of_mem_replicate hc]
  · rcases List.mem_append.1 hc with hc | hc
    · exact hds c (List.mem_of_mem_take hc)
    · rcases List.mem_cons.1 hc with rfl | hc
      · exact hpoint
      · exact hds c (List.mem_of_mem_drop hc)
  · rcases List.mem_cons.1 hc with rfl | hc
    · exact hzero
    rcases List.mem_cons.1 hc with rfl | hc
    · exact hpoint
    rcases List.mem_append.1 hc with hc | hc
    · rwa [List.eq_of_mem_replicate hc]
    · exact hds c hc
  · rcases List.mem_append.1 hc with hc | hc
    · exact hds c hc
    · exact isPlain_power hc
  · rcases List.mem_append.1 hc with hc | hc
    · rcases List.mem_append.1 hc with hc | hc
      · exact hds c (List.mem_of_mem_take hc)
      · rcases List.mem_cons.1 hc with rfl | hc
        · exact hpoint
        · exact hds c (List.mem_of_mem_drop hc)
    · exact isPlain_power hc

theorem isDigit_of_mem_strip {n : ℕ} {c : Char}
    (hc : c ∈ (Nat.toDigits 10 n).rdropWhile (· = '0')) : c.isDigit = true :=
  Nat.isDigit_of_mem_toDigits (by decide) (by decide)
    ((List.rdropWhile_prefix _ _).subset hc)

/-- Zeros that are left off at the end are made up by the power of ten. -/
theorem decimal_digitsText {q : ℚ} (h : (shortest q).1 ≠ 0) :
    decimal (digitsText q) = some (((shortest q).1 : ℚ) * 10 ^ (shortest q).2) := by
  rcases hshort : shortest q with ⟨s, p⟩
  rw [hshort] at h
  have hzeros : (Nat.toDigits 10 s).rtakeWhile (· = '0') =
      List.replicate ((Nat.toDigits 10 s).rtakeWhile (· = '0')).length '0' :=
    List.eq_replicate_of_mem fun c hc => by
      have hzero := List.mem_rtakeWhile_imp hc
      exact of_decide_eq_true hzero
  have hsplit := List.rdropWhile_append_rtakeWhile (p := (· = '0')) (l := Nat.toDigits 10 s)
  have hvalue := Nat.ofDigitChars_ten_toDigits (n := s)
  rw [← hsplit, hzeros, Nat.ofDigitChars_append, Nat.ofDigitChars_replicate_zero] at hvalue
  have hlength := congrArg List.length hsplit
  rw [List.length_append] at hlength
  have hne : (Nat.toDigits 10 s).rdropWhile (· = '0') ≠ [] := by
    intro hnil
    rw [hnil, Nat.ofDigitChars_nil, Nat.mul_zero] at hvalue
    exact h hvalue.symm
  rw [digitsText, hshort, decimal_layout hne fun c hc => isDigit_of_mem_strip hc]
  have hexp : p + (Nat.toDigits 10 s).length -
      ((Nat.toDigits 10 s).rdropWhile (· = '0')).length =
        ((Nat.toDigits 10 s).rtakeWhile (· = '0')).length + p := by omega
  rw [hexp, zpow_add₀ (by norm_num), zpow_natCast, ← mul_assoc]
  conv_rhs => rw [← hvalue]
  rw [Nat.cast_mul, Nat.cast_pow, Nat.cast_ofNat, mul_comm (10 ^ _)]

theorem trim_eq_self {t : List Char} (h : ∀ c ∈ t, isWhiteSpace c = false) : trim t = t := by
  have hdrop : t.dropWhile isWhiteSpace = t :=
    List.dropWhile_eq_self_iff.2 fun hpos => ne_true_of_eq_false (h _ (List.getElem_mem hpos))
  rw [trim, hdrop]
  exact List.rdropWhile_eq_self_iff.2 fun hne => ne_true_of_eq_false (h _ (List.getLast_mem hne))

theorem radix_eq_none {t : List Char} (h : ∀ c ∈ t, IsPlain c) : radix t = none := by
  have hnot : ∀ c ∈ t, c ∉ ['b', 'B'] ∧ c ∉ ['o', 'O'] ∧ c ∉ ['x', 'X'] := by
    intro c hc
    have hne : ∀ d ∈ ['b', 'B', 'o', 'O', 'x', 'X'], c ≠ d := by
      intro d hd
      have hd' : d.isDigit = false ∧ d ∉ ['.', 'e', '+', '-'] := by
        revert d
        decide
      exact (h c hc).ne hd'.1 hd'.2
    simp at hne
    simp [hne]
  fun_cases radix t with
  | case1 c rest hc => exact absurd hc (hnot c (by simp)).1
  | case2 c rest _ hc => exact absurd hc (hnot c (by simp)).2.1
  | case3 c rest _ _ hc => exact absurd hc (hnot c (by simp)).2.2
  | case4 => rfl
  | case5 => rfl

/-- A number that starts with a sign is not read as an unsigned one. -/
theorem signed_eq_unsigned {t : List Char} {q : ℚ} (h : decimal t = some q) :
    signed t = unsigned t := by
  fun_cases signed t with
  | case1 rest => simp [decimal, inMantissa, isDigits] at h
  | case2 rest => simp [decimal, inMantissa, isDigits] at h
  | case3 => rfl

theorem ofText_of_isPlain {t : List Char} (hne : t ≠ []) (h : ∀ c ∈ t, IsPlain c) :
    ofText t = signed t := by
  have htrim : trim t = t := trim_eq_self fun c hc => isWhiteSpace_of_isPlain (h c hc)
  rw [ofText, htrim, if_neg hne, radix_eq_none h]

theorem isPlain_digitsText {q : ℚ} : ∀ c ∈ digitsText q, IsPlain c :=
  isPlain_layout fun _ hc => isDigit_of_mem_strip hc

theorem infinity_not_isPlain : ¬ ∀ c ∈ infinity, IsPlain c := fun h =>
  (h 'I' (by decide)).ne rfl (by decide) rfl

theorem exists_decimal_digitsText {x : Double} (h : 0 < x.val) :
    ∃ q, decimal (digitsText x.val) = some q ∧ Extended.round q = .finite x := by
  have hnearest := nearest_shortest h
  have hne : (shortest x.val).1 ≠ 0 := by
    intro hzero
    rw [hzero, Nat.cast_zero, zero_mul, Format.nearest_zero] at hnearest
    exact h.ne hnearest
  exact ⟨_, decimal_digitsText hne, Extended.round_of_nearest hnearest⟩

theorem unsigned_digitsText {x : Double} (h : 0 < x.val) :
    unsigned (digitsText x.val) = ofDouble x := by
  obtain ⟨q, hdecimal, hround⟩ := exists_decimal_digitsText h
  have hinf : digitsText x.val ≠ infinity := fun hinf =>
    infinity_not_isPlain (hinf ▸ isPlain_digitsText)
  rw [unsigned, if_neg hinf, hdecimal, Option.map_some, hround]
  rfl

theorem digitsText_ne_nil {x : Double} (h : 0 < x.val) : digitsText x.val ≠ [] := by
  obtain ⟨q, hdecimal, _⟩ := exists_decimal_digitsText h
  intro hnil
  have hnone : decimal [] = none := rfl
  rw [hnil, hnone] at hdecimal
  cases hdecimal

/-- What is written reads back. -/
theorem ofText_toText (a : Number) : ofText (toText a) = a := by
  match a with
  | none => decide
  | some .posInf => decide
  | some .negInf => decide
  | some (.finite x) =>
    rw [toText]
    split_ifs with hzero hneg
    · have hx : x = 0 := Double.val_injective hzero
      rw [hx]
      decide +kernel
    · have hpos : 0 < (-x).val := by
        rw [Double.val_neg]
        exact neg_pos.2 hneg
      have hplain : ∀ c ∈ '-' :: digitsText (-x).val, IsPlain c :=
        List.forall_mem_cons.2 ⟨.inr (by decide), isPlain_digitsText⟩
      rw [← Double.val_neg, ofText_of_isPlain (List.cons_ne_nil _ _) hplain, signed,
        unsigned_digitsText hpos]
      exact congrArg ofDouble (Double.val_injective (neg_neg _))
    · have hpos : 0 < x.val := lt_of_le_of_ne (not_lt.1 hneg) (Ne.symm hzero)
      obtain ⟨q, hdecimal, _⟩ := exists_decimal_digitsText hpos
      rw [ofText_of_isPlain (digitsText_ne_nil hpos) isPlain_digitsText,
        signed_eq_unsigned hdecimal, unsigned_digitsText hpos]
      rfl

theorem underscore_notMem_toText (a : Number) : '_' ∉ toText a := by
  have hplain : ∀ q, '_' ∉ digitsText q := fun q hmem =>
    (isPlain_digitsText '_' hmem).ne rfl (by decide) rfl
  match a with
  | none => decide
  | some .posInf => decide
  | some .negInf => decide
  | some (.finite x) =>
    rw [toText]
    split_ifs
    · decide
    · exact List.not_mem_cons_of_ne_of_not_mem (by decide) (hplain _)
    · exact hplain _

end Number

end RagFlow.Math
