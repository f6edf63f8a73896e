/-
# Positions as hexadecimal text

The records of a position list are written one number after the other, with at least eight
characters each, a minus sign counted. Reading drops what is no number of 64 bits, and groups the
numbers by five.
-/

import RagFlow.Infinity.Columns
import Mathlib.Data.Rat.Cast.Defs

namespace RagFlow.Infinity

/-! ## The code -/

/-- What an `interface{}` may hold. -/
inductive GoValue where
  | float64 (x : ℚ)
  | int64 (n : Int64)
  | int (n : Int64)
  | array (items : List GoValue)
  | other

/-- The number that a value is written as; the conversion of a float cuts off what is behind the
point. -/
def int64Of : GoValue → Option Int64
  | .float64 x => some (Int64.ofInt (x.num.tdiv x.den))
  | .int64 n => some n
  | .int n => some n
  | _ => none

/-- `fmt.Sprintf("%08x", n)`. -/
def sprintfHex (n : Int64) : Text :=
  if n.toInt < 0 then '-' :: (Nat.toDigits 16 n.toInt.natAbs).leftpad 7 '0'
  else hexField n.toInt.toNat

/-- The numbers of an item that is a list. -/
def positionNums : GoValue → List Int64
  | .array inner => inner.filterMap int64Of
  | _ => []

def convertPositionIntArrayToHex (list : List GoValue) : Text :=
  ['_'].intercalate (list.flatMap fun item => (positionNums item).map sprintfHex)

/-- `strconv.ParseInt(part, 16, 64)`, with no value for an error. -/
def parseInt (part : Text) : Option Int64 :=
  match part with
  | '-' :: digits => (intHex digits).bind fun un =>
    if un ≤ 2 ^ 63 then some (Int64.ofInt (-un)) else none
  | '+' :: digits => (intHex digits).bind fun un =>
    if un < 2 ^ 63 then some (Int64.ofInt un) else none
  | digits => (intHex digits).bind fun un =>
    if un < 2 ^ 63 then some (Int64.ofInt un) else none

/-- There is no value for `nil`. -/
def convertHexToPositionIntArray (hexStr : Text) : Option (List (List Int64)) :=
  if hexStr = [] then none
  else
    let intVals := (hexStr.splitOn '_').filterMap fun part =>
      if part = [] then none else parseInt part
    if intVals = [] then none else some (groups 5 intVals)

/-! ## Round trip -/

/-- The value is the number, in one of the three types that a number comes in. -/
inductive Holds : GoValue → Int64 → Prop
  | float64 (n : Int64) : Holds (.float64 n.toInt) n
  | int64 (n : Int64) : Holds (.int64 n) n
  | int (n : Int64) : Holds (.int n) n

/-- The value is a record with these numbers. -/
def IsRecord (v : GoValue) (record : List Int64) : Prop :=
  ∃ inner, v = .array inner ∧ List.Forall₂ Holds inner record

theorem int64Of_of_holds {v : GoValue} {n : Int64} (h : Holds v n) : int64Of v = some n := by
  cases h with
  | float64 n =>
      have hcut : (n.toInt : ℚ).num.tdiv (n.toInt : ℚ).den = n.toInt := by
        rw [Rat.num_intCast, Rat.den_intCast, Nat.cast_one, Int.tdiv_one]
      rw [int64Of, hcut, Int64.ofInt_toInt]
  | int64 n => rfl
  | int n => rfl

theorem positionNums_of_isRecord {v : GoValue} {record : List Int64} (h : IsRecord v record) :
    positionNums v = record := by
  obtain ⟨inner, rfl, hinner⟩ := h
  rw [positionNums]
  induction hinner with
  | nil => rfl
  | cons hv _ ih => rw [List.filterMap_cons_some (int64Of_of_holds hv), ih]

theorem flatMap_positionNums {list : List GoValue} {records : List (List Int64)}
    (h : List.Forall₂ IsRecord list records) :
    (list.flatMap fun item => (positionNums item).map sprintfHex) =
      records.flatten.map sprintfHex := by
  induction h with
  | nil => rfl
  | cons hv _ ih =>
      rw [List.flatMap_cons, ih, positionNums_of_isRecord hv, List.flatten_cons, List.map_append]

/-! ### Fields -/

theorem intHex_leftpad (k n : ℕ) : intHex ((Nat.toDigits 16 n).leftpad k '0') = some n := by
  have hne : (Nat.toDigits 16 n).leftpad k '0' ≠ [] := by
    rw [List.leftpad]
    exact List.append_ne_nil_of_right_ne_nil _ Nat.toDigits_ne_nil
  rw [intHex, if_neg fun h => hne (List.isEmpty_iff.mp h), List.leftpad, hexFrom_replicate_zero,
    hexFrom_toDigits]

theorem digit_of_mem_leftpad {k n : ℕ} {c : Char}
    (h : c ∈ (Nat.toDigits 16 n).leftpad k '0') : (hexDigit? c).isSome := by
  have hread := intHex_leftpad k n
  rw [intHex] at hread
  split_ifs at hread
  exact hexDigit?_isSome_of_mem (by rw [hread]; rfl) h

/-- A field of digits alone has no sign. -/
theorem parseInt_digits {t : Text} (h : ∀ c ∈ t, (hexDigit? c).isSome) :
    parseInt t = (intHex t).bind fun un =>
      if un < 2 ^ 63 then some (Int64.ofInt un) else none := by
  unfold parseInt
  split
  · exact absurd (h '-' List.mem_cons_self) (by decide)
  · exact absurd (h '+' List.mem_cons_self) (by decide)
  · rfl

theorem parseInt_sprintfHex (n : Int64) : parseInt (sprintfHex n) = some n := by
  have hlower := n.le_toInt
  have hupper := n.toInt_lt
  rw [sprintfHex]
  split_ifs with hneg
  · rw [parseInt, intHex_leftpad, Option.bind_some, if_pos (by omega)]
    have habs : -(n.toInt.natAbs : ℤ) = n.toInt := by omega
    rw [habs, Int64.ofInt_toInt]
  · have hcast : ((n.toInt.toNat : ℕ) : ℤ) = n.toInt := by omega
    rw [hexField, parseInt_digits fun c hc => digit_of_mem_leftpad hc, intHex_leftpad,
      Option.bind_some, if_pos (by omega), hcast, Int64.ofInt_toInt]

theorem notMem_sprintfHex (n : Int64) : '_' ∉ sprintfHex n := by
  rw [sprintfHex]
  split_ifs
  · intro hmem
    rcases List.mem_cons.mp hmem with heq | hmem
    · exact absurd heq (by decide)
    · exact absurd (digit_of_mem_leftpad hmem) (by decide)
  · exact fun hmem => absurd (digit_of_mem_leftpad hmem) (by decide)

theorem sprintfHex_ne_nil (n : Int64) : sprintfHex n ≠ [] := by
  rw [sprintfHex]
  split_ifs
  · exact List.cons_ne_nil _ _
  · exact hexField_ne_nil _

/-! ### Lists -/

/-- The numbers that were written are read. -/
theorem convertHex_intercalate {ns : List Int64} (hne : ns ≠ []) :
    convertHexToPositionIntArray (['_'].intercalate (ns.map sprintfHex)) = some (groups 5 ns) := by
  have hsplit : (['_'].intercalate (ns.map sprintfHex)).splitOn '_' = ns.map sprintfHex := by
    refine List.splitOn_intercalate '_' (fun t ht => ?_) fun h => hne (List.map_eq_nil_iff.mp h)
    obtain ⟨n, -, rfl⟩ := List.mem_map.mp ht
    exact notMem_sprintfHex n
  have hread : ((ns.map sprintfHex).filterMap fun part =>
      if part = [] then none else parseInt part) = ns := by
    rw [List.filterMap_map]
    have hfield : ((fun part => if part = [] then none else parseInt part) ∘ sprintfHex) = some :=
      funext fun n => by
        rw [Function.comp_apply, if_neg (sprintfHex_ne_nil n), parseInt_sprintfHex]
    rw [hfield, List.filterMap_some]
  have htext : ['_'].intercalate (ns.map sprintfHex) ≠ [] := by
    intro hnil
    rw [hnil, List.splitOn_nil] at hsplit
    cases ns with
    | nil => exact hne rfl
    | cons n ns => exact sprintfHex_ne_nil n (List.cons.inj hsplit).1.symm
  rw [convertHexToPositionIntArray, if_neg htext, hsplit, hread]
  exact if_neg hne

theorem groups_of_ne_nil {α : Type*} {n : ℕ} (hn : 0 < n) {l : List α} (hl : l ≠ []) :
    groups n l = l.take n :: groups n (l.drop n) := by
  have hlength := List.length_pos_of_ne_nil hl
  have hcount : (l.length + n - 1) / n = (l.length - n + n - 1) / n + 1 := by
    by_cases hle : n ≤ l.length
    · rw [← Nat.add_div_right _ hn]
      congr 1
      omega
    · have hone : l.length + n - 1 = l.length - 1 + n := by omega
      rw [hone, Nat.add_div_right _ hn, Nat.div_eq_of_lt (by omega), Nat.div_eq_of_lt (by omega)]
  rw [groups, hcount, List.range_succ_eq_map, List.map_cons, List.map_map, Nat.mul_zero,
    List.drop_zero, groups, List.length_drop]
  congr 1
  refine List.map_congr_left fun i _ => ?_
  rw [Function.comp_apply, List.drop_drop, Nat.mul_succ, Nat.add_comm]

theorem flatten_groups {α : Type*} {n : ℕ} (hn : 0 < n) (l : List α) :
    (groups n l).flatten = l := by
  induction hk : l.length using Nat.strong_induction_on generalizing l with
  | _ k ih =>
    by_cases hl : l = []
    · subst hl
      have hzero : (0 + n - 1) / n = 0 := Nat.div_eq_of_lt (by omega)
      rw [groups, List.length_nil, hzero]
      rfl
    · have hlength := List.length_pos_of_ne_nil hl
      have hdrop : (l.drop n).length < k := by
        rw [List.length_drop]
        omega
      rw [groups_of_ne_nil hn hl, List.flatten_cons, ih _ hdrop _ rfl, List.take_append_drop]

/-- The numbers of any records come back in order, and records of five as they were. -/
theorem convertHex_convertPosition {list : List GoValue} {records : List (List Int64)}
    (h : List.Forall₂ IsRecord list records) :
    ((convertHexToPositionIntArray (convertPositionIntArrayToHex list)).getD []).flatten =
        records.flatten ∧
      (records ≠ [] → (∀ record ∈ records, record.length = 5) →
        convertHexToPositionIntArray (convertPositionIntArrayToHex list) = some records) := by
  rw [convertPositionIntArrayToHex, flatMap_positionNums h]
  refine ⟨?_, fun hne hfive => ?_⟩
  · by_cases hnil : records.flatten = []
    · rw [hnil]
      rfl
    · rw [convertHex_intercalate hnil, Option.getD_some, flatten_groups (by decide)]
  · have hsome : records.flatten ≠ [] := by
      obtain ⟨record, hrecord⟩ := List.exists_mem_of_ne_nil records hne
      intro hnil
      have hempty := List.flatten_eq_nil_iff.mp hnil record hrecord
      have hlength := hfive record hrecord
      rw [hempty] at hlength
      cases hlength
    rw [convertHex_intercalate hsome, groups_flatten (by decide) hfive]

theorem convertHex_convertPosition_page :
    convertHexToPositionIntArray (convertPositionIntArrayToHex
      [.array [.float64 1, .float64 (-2), .int64 3, .int 4, .int (-5)]]) =
        some [[1, -2, 3, 4, -5]] := by
  refine (convertHex_convertPosition (.cons ⟨_, rfl, ?_⟩ .nil)).2 (by simp) (by simp)
  exact .cons (.float64 1) (.cons (.float64 (-2)) (.cons (.int64 3) (.cons (.int 4)
    (.cons (.int (-5)) .nil))))

end RagFlow.Infinity
