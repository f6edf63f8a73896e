/-
# The texts in columns

A column holds a text, so lists are joined on the way in and split on the way out: at line breaks,
at commas, at `###`, and numbers as fields of hexadecimal digits.
-/

import RagFlow.Math.Separator
import Mathlib.Data.Nat.Init

namespace RagFlow.Infinity

open RagFlow.Math

abbrev Text := List Char

/-! ## Lines -/

/-- The characters that end a line for `str.splitlines`. -/
def isLineBreak (c : Char) : Bool :=
  c = '\n' || c = '\r' || c = '\x0b' || c = '\x0c' || c = '\x1c' || c = '\x1d' || c = '\x1e' ||
    c = '\x85' || c = '\u2028' || c = '\u2029'

/-- `str.splitlines` from inside a line of which `cur` has been read. -/
@[grind =] def splitlinesFrom : Text → Text → List Text
  | cur, [] => if cur.isEmpty then [] else [cur]
  | cur, '\r' :: '\n' :: cs => cur :: splitlinesFrom [] cs
  | cur, c :: cs =>
    if isLineBreak c then cur :: splitlinesFrom [] cs else splitlinesFrom (cur ++ [c]) cs

def splitlines (t : Text) : List Text := splitlinesFrom [] t

section Lines

variable {cur t : Text} {ls : List Text}

theorem splitlinesFrom_of_not_break {c : Char} (h : isLineBreak c = false) (cs : Text) :
    splitlinesFrom cur (c :: cs) = splitlinesFrom (cur ++ [c]) cs := by
  have hne : c ≠ '\r' := by
    rintro rfl
    exact absurd h (by decide)
  rw [splitlinesFrom, h, if_neg Bool.false_ne_true]
  rintro cs' rfl
  exact absurd rfl hne

theorem splitlinesFrom_append (h : ∀ c ∈ t, isLineBreak c = false) (cs : Text) :
    splitlinesFrom cur (t ++ cs) = splitlinesFrom (cur ++ t) cs := by
  induction t generalizing cur with
  | nil => rw [List.nil_append, List.append_nil]
  | cons c t ih =>
      rw [List.cons_append, splitlinesFrom_of_not_break (h c List.mem_cons_self),
        ih fun b hb => h b (List.mem_cons_of_mem c hb), List.append_assoc, List.singleton_append]

theorem splitlinesFrom_newline (cs : Text) :
    splitlinesFrom cur ('\n' :: cs) = cur :: splitlinesFrom [] cs := by
  rw [splitlinesFrom, if_pos (by decide)]
  rintro cs' h
  exact absurd h (by decide)

/-- No line has a line break. -/
theorem not_isLineBreak_of_mem (hcur : ∀ c ∈ cur, isLineBreak c = false) {cs l : Text}
    (hl : l ∈ splitlinesFrom cur cs) : ∀ c ∈ l, isLineBreak c = false := by
  have hnil : ∀ c ∈ ([] : Text), isLineBreak c = false := fun c hc => absurd hc List.not_mem_nil
  induction cur, cs using splitlinesFrom.induct with
  | case1 cur hempty =>
      rw [splitlinesFrom, if_pos hempty] at hl
      exact absurd hl List.not_mem_nil
  | case2 cur hempty =>
      rw [splitlinesFrom, if_neg hempty] at hl
      rwa [List.mem_singleton.mp hl]
  | case3 cur cs ih =>
      rw [splitlinesFrom] at hl
      rcases List.mem_cons.mp hl with rfl | hl
      · exact hcur
      · exact ih hnil hl
  | case4 cur c cs hpair hbreak ih =>
      rw [splitlinesFrom, if_pos hbreak] at hl
      · rcases List.mem_cons.mp hl with rfl | hl
        · exact hcur
        · exact ih hnil hl
      · exact hpair
  | case5 cur c cs hpair hbreak ih =>
      rw [splitlinesFrom, if_neg hbreak] at hl
      · refine ih (fun b hb => ?_) hl
        rcases List.mem_append.mp hb with hb | hb
        · exact hcur b hb
        · rw [List.mem_singleton.mp hb]
          exact Bool.not_eq_true _ ▸ hbreak
      · exact hpair

/-- Lines are read as they were written, but for an empty one at the end. -/
theorem splitlines_intercalate (hne : ls ≠ [])
    (h : ∀ l ∈ ls, ∀ c ∈ l, isLineBreak c = false) :
    splitlines (['\n'].intercalate ls) = if ls.getLast? = some [] then ls.dropLast else ls := by
  induction ls with
  | nil => exact absurd rfl hne
  | cons l ls ih =>
      have hl := h l List.mem_cons_self
      cases ls with
      | nil =>
          have hread : splitlinesFrom [] (l ++ []) = splitlinesFrom ([] ++ l) [] :=
            splitlinesFrom_append hl []
          rw [List.append_nil, List.nil_append] at hread
          rw [List.intercalate_singleton, splitlines, hread, splitlinesFrom]
          cases l <;> simp
      | cons l' ls =>
          rw [List.intercalate_cons_cons, List.append_assoc, List.singleton_append, splitlines,
            splitlinesFrom_append hl, splitlinesFrom_newline, ← splitlines,
            ih (List.cons_ne_nil l' ls) fun k hk => h k (List.mem_cons_of_mem l hk),
            List.getLast?_cons_cons, List.dropLast_cons_cons, List.nil_append]
          split_ifs <;> rfl

/-- A list of lines comes back from its join exactly if no line has a break and the last is not
empty. -/
theorem splitlines_intercalate_iff :
    splitlines (['\n'].intercalate ls) = ls ↔
      (∀ l ∈ ls, ∀ c ∈ l, isLineBreak c = false) ∧ ls.getLast? ≠ some [] := by
  constructor
  · intro h
    have hbreak : ∀ l ∈ ls, ∀ c ∈ l, isLineBreak c = false := fun l hl => by
      rw [← h] at hl
      exact not_isLineBreak_of_mem (fun c hc => absurd hc List.not_mem_nil) hl
    refine ⟨hbreak, fun hlast => ?_⟩
    have hne : ls ≠ [] := by
      rintro rfl
      exact absurd hlast (by simp)
    rw [splitlines_intercalate hne hbreak, if_pos hlast] at h
    have hlen := congrArg List.length h
    rw [List.length_dropLast] at hlen
    have hpos := List.length_pos_iff.mpr hne
    omega
  · rintro ⟨hbreak, hlast⟩
    by_cases hne : ls = []
    · rw [hne]
      rfl
    · rw [splitlines_intercalate hne hbreak, if_neg hlast]

end Lines

/-! ## Keywords -/

/-- `raw.split(",") if raw else []`. -/
def splitKeywords (raw : Text) : List Text := if raw.isEmpty then [] else raw.splitOn ','

/-- Texts between which `###` can be found again: none is empty or has a `###`, and only the last
ends in a `#`. -/
def Separable (l : List Text) : Prop :=
  (∀ kwd ∈ l, kwd ≠ [] ∧ ¬ ['#', '#', '#'] <:+: kwd) ∧
    ∀ kwd ∈ l.dropLast, kwd.getLast? ≠ some '#'

section Keywords

variable {l : List Text}

/-- The empty keywords are as many as were counted. -/
theorem filter_append_replicate_perm (l : List Text) :
    (l.filter (fun kw : Text => !kw.isEmpty) ++
      List.replicate (l.countP List.isEmpty) []).Perm l := by
  have hempty : l.filter List.isEmpty = List.replicate (l.countP List.isEmpty) [] := by
    rw [List.eq_replicate_iff, List.countP_eq_length_filter]
    exact ⟨rfl, fun kw hkw => List.isEmpty_iff.mp (List.mem_filter.mp hkw).2⟩
  rw [← hempty]
  exact List.perm_append_comm.trans (List.filter_append_perm _ l)

/-- Keywords come back, in some order, exactly if none has a comma. -/
theorem splitKeywords_perm_iff :
    (splitKeywords ([','].intercalate (l.filter fun kw : Text => !kw.isEmpty)) ++
        List.replicate (l.countP List.isEmpty) []).Perm l ↔ ∀ kw ∈ l, ',' ∉ kw := by
  constructor
  · intro h kw hkw
    rcases List.mem_append.mp (h.mem_iff.mpr hkw) with hkw | hkw
    · rw [splitKeywords] at hkw
      split_ifs at hkw
      · exact absurd hkw List.not_mem_nil
      · exact not_mem_of_mem_splitOn hkw
    · rw [List.eq_of_mem_replicate hkw]
      exact List.not_mem_nil
  · intro h
    have htokens : splitKeywords ([','].intercalate (l.filter fun kw => !kw.isEmpty)) =
        l.filter fun kw => !kw.isEmpty := by
      cases htokens : l.filter fun kw => !kw.isEmpty with
      | nil => rfl
      | cons kw tokens =>
          have hmem : ∀ t ∈ kw :: tokens, t ∈ l ∧ t ≠ [] := fun t ht => by
            rw [← htokens, List.mem_filter] at ht
            exact ⟨ht.1, by simpa using ht.2⟩
          have hsplit := List.splitOn_intercalate ',' (fun t ht => h t (hmem t ht).1)
            (List.cons_ne_nil kw tokens)
          have hne : [','].intercalate (kw :: tokens) ≠ [] := by
            intro hnil
            rw [hnil, List.splitOn_nil] at hsplit
            exact (hmem kw List.mem_cons_self).2 (List.cons.inj hsplit).1.symm
          rw [splitKeywords, if_neg fun hnil => hne (List.isEmpty_iff.mp hnil), hsplit]
    rw [htokens]
    exact filter_append_replicate_perm l

/-- Keywords come back from between `###` exactly if they can be separated. -/
theorem filter_splitAtSep_iff :
    ((splitAtSep ['#', '#', '#'] (['#', '#', '#'].intercalate l)).filter fun kwd =>
      !kwd.isEmpty) = l ↔ Separable l := by
  rw [filter_splitAtSep_intercalate_iff (List.cons_ne_nil _ _)]
  by_cases hl : l = []
  · simp [hl, Separable]
  · have hsep := separated_replicate_iff (n := 3) (a := '#') (by decide) hl
    rw [or_iff_right hl, show ['#', '#', '#'] = List.replicate 3 '#' from rfl, hsep, Separable,
      ← and_assoc, ← forall₂_and]
    rfl

end Keywords

/-! ## Hexadecimal fields -/

/-- `f"{num:08x}"`. -/
def hexField (num : ℕ) : Text := (Nat.toDigits 16 num).leftpad 8 '0'

def hexDigit? (c : Char) : Option ℕ :=
  if '0' ≤ c ∧ c ≤ '9' then some (c.toNat - '0'.toNat)
  else if 'a' ≤ c ∧ c ≤ 'f' then some (c.toNat - 'a'.toNat + 10)
  else if 'A' ≤ c ∧ c ≤ 'F' then some (c.toNat - 'A'.toNat + 10)
  else none

@[grind =] def hexFrom : ℕ → Text → Option ℕ
  | n, [] => some n
  | n, c :: cs => (hexDigit? c).bind fun k => hexFrom (16 * n + k) cs

/-- `int(hex_val, 16)` of a text of digits. What else `int` reads, such as a sign or a `0x` before
them, is not in a column. -/
def intHex (hexVal : Text) : Option ℕ := if hexVal.isEmpty then none else hexFrom 0 hexVal

/-- `"_".join(f"{num:08x}" for num in arr)`. -/
def joinHex (arr : List ℕ) : Text := ['_'].intercalate (arr.map hexField)

/-- `[int(hex_val, 16) for hex_val in v.split("_")]`. -/
def splitHex (v : Text) : Option (List ℕ) := (v.splitOn '_').mapM intHex

/-- `[arr[i: i + n] for i in range(0, len(arr), n)]`. -/
def groups {α : Type*} (n : ℕ) (arr : List α) : List (List α) :=
  (List.range ((arr.length + n - 1) / n)).map fun i => (arr.drop (n * i)).take n

section Hex

variable {n k : ℕ} {cs : Text}

theorem hexDigit?_digitChar : ∀ n < 16, hexDigit? n.digitChar = some n := by
  decide

theorem hexFrom_append (t cs : Text) :
    hexFrom n (t ++ cs) = (hexFrom n t).bind fun k => hexFrom k cs := by
  induction t generalizing n with
  | nil => rfl
  | cons c t ih =>
      rw [List.cons_append, hexFrom, hexFrom, Option.bind_assoc]
      exact congrArg _ (funext fun k => ih)

theorem hexFrom_toDigits (n : ℕ) : hexFrom 0 (Nat.toDigits 16 n) = some n := by
  induction n using Nat.strong_induction_on with
  | _ n ih =>
    by_cases hlt : n < 16
    · rw [Nat.toDigits_of_lt_base hlt, hexFrom, hexDigit?_digitChar n hlt]
      exact congrArg some (by omega)
    · rw [Nat.toDigits_of_base_le (by decide) (by omega), hexFrom_append, ih (n / 16) (by omega),
        Option.bind_some, hexFrom, hexDigit?_digitChar _ (Nat.mod_lt n (by decide))]
      exact congrArg some (Nat.div_add_mod n 16)

theorem hexFrom_replicate_zero (k : ℕ) (cs : Text) :
    hexFrom 0 (List.replicate k '0' ++ cs) = hexFrom 0 cs := by
  induction k with
  | zero => rfl
  | succ k ih =>
      rw [List.replicate_succ, List.cons_append, hexFrom]
      exact ih

theorem hexField_ne_nil (num : ℕ) : hexField num ≠ [] := by
  intro h
  rw [hexField, List.leftpad, List.append_eq_nil_iff] at h
  exact Nat.toDigits_ne_nil h.2

theorem intHex_hexField (num : ℕ) : intHex (hexField num) = some num := by
  rw [intHex, if_neg fun h => hexField_ne_nil num (List.isEmpty_iff.mp h), hexField, List.leftpad,
    hexFrom_replicate_zero, hexFrom_toDigits]

/-- Only digits are read. -/
theorem hexDigit?_isSome_of_mem {c : Char} (h : (hexFrom n cs).isSome) (hc : c ∈ cs) :
    (hexDigit? c).isSome := by
  induction cs generalizing n with
  | nil => exact absurd hc List.not_mem_nil
  | cons d cs ih =>
      rw [hexFrom] at h
      cases hd : hexDigit? d with
      | none => rw [hd] at h; exact absurd h Bool.false_ne_true
      | some k =>
          rw [hd] at h
          rcases List.mem_cons.mp hc with rfl | hc
          · rw [hd]
            rfl
          · exact ih h hc

theorem not_mem_hexField (num : ℕ) : '_' ∉ hexField num := by
  intro h
  have hread := intHex_hexField num
  rw [intHex, if_neg fun h => hexField_ne_nil num (List.isEmpty_iff.mp h)] at hread
  have hdigit := hexDigit?_isSome_of_mem (by rw [hread]; rfl) h
  exact absurd hdigit (by decide)

theorem joinHex_eq_nil_iff {arr : List ℕ} : joinHex arr = [] ↔ arr = [] := by
  constructor
  · intro h
    rcases arr with - | ⟨num, - | ⟨num', arr⟩⟩
    · rfl
    · exact absurd (by simpa [joinHex] using h) (hexField_ne_nil num)
    · rw [joinHex, List.map_cons, List.map_cons, List.intercalate_cons_cons, List.append_assoc,
        List.append_eq_nil_iff] at h
      exact absurd h.1 (hexField_ne_nil num)
  · rintro rfl
    rfl

/-- Numbers come back. -/
theorem splitHex_joinHex {arr : List ℕ} (hne : arr ≠ []) : splitHex (joinHex arr) = some arr := by
  have hsplit : (joinHex arr).splitOn '_' = arr.map hexField := by
    refine List.splitOn_intercalate '_' (fun t ht => ?_) fun h => hne (List.map_eq_nil_iff.mp h)
    obtain ⟨k, -, rfl⟩ := List.mem_map.mp ht
    exact not_mem_hexField k
  have hread : intHex ∘ hexField = fun num => pure num := funext intHex_hexField
  rw [splitHex, hsplit, List.mapM_map, hread, List.mapM_pure, List.map_id']
  rfl

theorem length_flatten_rows {α : Type*} {rows : List (List α)} (h : ∀ row ∈ rows, row.length = n) :
    rows.flatten.length = n * rows.length := by
  induction rows with
  | nil => rfl
  | cons row rows ih =>
      rw [List.flatten_cons, List.length_append, h row List.mem_cons_self,
        ih fun r hr => h r (List.mem_cons_of_mem row hr), List.length_cons, Nat.mul_succ,
        Nat.add_comm]

/-- Rows of one length come back from their entries. -/
theorem groups_flatten {α : Type*} {rows : List (List α)} (hn : 0 < n)
    (h : ∀ row ∈ rows, row.length = n) : groups n rows.flatten = rows := by
  have hcount : (n * rows.length + n - 1) / n = rows.length := by
    rw [Nat.add_sub_assoc hn, Nat.mul_add_div hn, Nat.div_eq_of_lt (Nat.sub_one_lt_of_lt hn),
      Nat.add_zero]
  rw [groups, length_flatten_rows h, hcount]
  clear hcount
  induction rows with
  | nil => rfl
  | cons row rows ih =>
      have hrow := h row List.mem_cons_self
      rw [List.length_cons, List.range_succ_eq_map, List.map_cons, List.map_map,
        List.flatten_cons, Nat.mul_zero, List.drop_zero, List.take_left' hrow]
      refine congrArg (row :: ·) (Eq.trans (List.map_congr_left fun i _ => ?_)
        (ih fun r hr => h r (List.mem_cons_of_mem row hr)))
      rw [Function.comp_apply, Nat.mul_succ, Nat.add_comm, ← List.drop_drop, List.drop_left' hrow]

end Hex

end RagFlow.Infinity
