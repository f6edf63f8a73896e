/-
# A value of the metadata judged among others

`filter_out` overwrites the value of its condition while it walks over the map: it is read as a
literal, put in lower case, or replaced by the text of a date, and the next entry is compared
with what is left. For most operators this changes nothing the second time. A comparison reads
the value once more for every entry that is itself a literal, and if the first entry is none, the
value is put in lower case before it is read. The file says in closed form what value an entry
meets, and from it when every entry is judged as it would be alone.
-/

import Mathlib
import RagFlow.Retrieval.MetaFilter

namespace RagFlow.Retrieval

open RagFlow.Math

variable {ι : Type}

namespace Python

variable (py : Python ι)

/-- Whether an entry is read as a literal. Of a list the first value is read. -/
def isLiteral (input : Value ι) : Bool :=
  match input with
  | .list vs => (vs.head?.bind py.literalEval).isSome
  | v => (py.literalEval v).isSome

def isDateValue (value : Value ι) : Bool := py.isDate (py.strip (py.str value))

/-- The value of a condition, read as a literal once more. A date is not read. -/
def reread (value : Value ι) : Value ι :=
  if py.isDateValue value then value else py.lowerStr ((py.literalEval value).getD value)

/-- The value of the condition that an entry meets after the entries before it. -/
def valueAfter (op : Operator) (value : Value ι) : List (Value ι) → Value ι
  | [] => value
  | input :: inputs =>
    if op.isComparison && !py.isDateValue value then
      py.reread^[(input :: inputs).countP py.isLiteral]
        (if py.isLiteral input then value else py.lowerStr value)
    else value

/-- Whether an entry is selected by a value of the condition. -/
def passes (op : Operator) (input value : Value ι) : Bool :=
  (py.prepare op input value).any fun operands => py.matched op operands.1 operands.2

end Python

/-- A document is selected by an entry that is judged with the value it meets. -/
def SelectedAmong (py : Python ι) (v2docs : List (Value ι × List String)) (op : Operator)
    (value : Value ι) (d : String) : Prop :=
  ∃ before e after, v2docs = before ++ e :: after ∧
    py.passes op e.1 (py.valueAfter op value (before.map Prod.fst)) = true ∧ d ∈ e.2

/-- A document is selected by an entry that is judged with the condition's own value. -/
def SelectedAlone (py : Python ι) (v2docs : List (Value ι × List String)) (op : Operator)
    (value : Value ι) (d : String) : Prop :=
  ∃ e ∈ v2docs, py.passes op e.1 value = true ∧ d ∈ e.2

/-- The documents of a map are those that its entries select one by one. -/
def JudgesEach (py : Python ι) (v2docs : List (Value ι × List String)) (op : Operator)
    (value : Value ι) : Prop :=
  ∀ d, d ∈ py.filterOut v2docs op value ↔ ∃ e ∈ v2docs, d ∈ py.filterOut [e] op value

section Judging

variable {py : Python ι} {v2docs : List (Value ι × List String)} {op : Operator}
  {input value u v : Value ι} {inputs : List (Value ι)} {e : Value ι × List String} {d : String}

/-! ## What one entry leaves of the value -/

/-- The value of the condition after an entry, where it is not replaced by an equal date. -/
def nextValue (py : Python ι) (op : Operator) (input value : Value ι) : Value ι :=
  if op.isComparison && !py.isDateValue value then
    if py.isLiteral input then py.reread value else py.lowerStr value
  else value

/-- One form for all values that every entry is compared with in the same way. -/
def settled (py : Python ι) (op : Operator) (value : Value ι) : Value ι :=
  if op.isComparison then
    if py.isDateValue value then .str (py.strip (py.str value)) else value
  else py.lowerOperand op value

theorem reread_of_date (h : py.isDateValue value = true) : py.reread value = value := if_pos h

theorem reread_of_not_date (h : py.isDateValue value = false) :
    py.reread value = py.lowerStr ((py.literalEval value).getD value) := by
  rw [Python.reread, h, if_neg Bool.false_ne_true]

theorem prepare_other (hop : op.isComparison = false) :
    py.prepare op input value = some (py.lowerOperand op input, py.lowerOperand op value) := by
  rw [Python.prepare, hop, if_neg Bool.false_ne_true]

/-- A date is compared with dates only. -/
theorem prepare_date (hop : op.isComparison = true) (hdate : py.isDateValue value = true) :
    py.prepare op input value =
      if py.isDateValue input then
        some (.str (py.strip (py.str input)), .str (py.strip (py.str value)))
      else none := by
  rw [Python.prepare, hop, if_pos rfl]
  exact if_pos hdate

theorem prepare_read (hop : op.isComparison = true) (hdate : py.isDateValue value = false) :
    py.prepare op input value =
      some (py.lowerStr (py.evalBoth input value).1, py.lowerStr (py.evalBoth input value).2) := by
  rw [Python.prepare, hop, if_pos rfl]
  exact if_neg (by rw [← Python.isDateValue, hdate]; exact Bool.false_ne_true)

theorem evalBoth_snd :
    (py.evalBoth input value).2 =
      if py.isLiteral input then (py.literalEval value).getD value else value := by
  cases input with
  | list vs =>
      cases vs with
      | nil => rfl
      | cons w ws =>
          cases hw : py.literalEval w with
          | none => simp [Python.evalBoth, Python.isLiteral, hw]
          | some x => simp [Python.evalBoth, Python.isLiteral, hw]
  | str s =>
      cases hs : py.literalEval (.str s) with
      | none => simp [Python.evalBoth, Python.isLiteral, hs]
      | some x => simp [Python.evalBoth, Python.isLiteral, hs]
  | other y =>
      cases hy : py.literalEval (.other y) with
      | none => simp [Python.evalBoth, Python.isLiteral, hy]
      | some x => simp [Python.evalBoth, Python.isLiteral, hy]

section Lawful

variable (hlower : ∀ s, py.lower (py.lower s) = py.lower s)
  (hstrip : ∀ s, py.strip (py.strip s) = py.strip s)

include hlower in
theorem lowerStr_lowerStr : py.lowerStr (py.lowerStr v) = py.lowerStr v := by
  cases v with
  | str s => exact congrArg Value.str (hlower s)
  | list vs => rfl
  | other x => rfl

include hlower in
theorem lowerOperand_lowerOperand :
    py.lowerOperand op (py.lowerOperand op v) = py.lowerOperand op v := by
  cases v with
  | str s => exact congrArg Value.str (hlower s)
  | list vs =>
      simp only [Python.lowerOperand]
      split
      · rw [List.map_map]
        exact congrArg Value.list (List.map_congr_left fun w _ => lowerStr_lowerStr hlower)
      · rfl
  | other x => rfl

include hstrip in
theorem isDateValue_strip (value : Value ι) :
    py.isDateValue (.str (py.strip (py.str value))) = py.isDateValue value := by
  rw [Python.isDateValue, Python.isDateValue]
  exact congrArg py.isDate (hstrip _)

include hstrip in
theorem strip_str_strip :
    py.strip (py.str (.str (py.strip (py.str value)) : Value ι)) = py.strip (py.str value) :=
  hstrip _

include hlower hstrip in
/-- The settled form of a value is compared as the value. -/
theorem prepare_settled :
    py.prepare op input (settled py op value) = py.prepare op input value := by
  rw [settled]
  cases hop : op.isComparison with
  | false =>
      rw [if_neg Bool.false_ne_true, prepare_other hop, prepare_other hop,
        lowerOperand_lowerOperand hlower]
  | true =>
      rw [if_pos rfl]
      cases hdate : py.isDateValue value with
      | false => rw [if_neg Bool.false_ne_true]
      | true =>
          have hstripped := (isDateValue_strip hstrip value).trans hdate
          rw [if_pos rfl, prepare_date hop hdate, prepare_date hop hstripped,
            strip_str_strip hstrip]

include hlower hstrip in
/-- What an entry leaves has the settled form of `nextValue`. -/
theorem settled_of_prepare (h : py.prepare op input value = some (u, v)) :
    settled py op v = settled py op (nextValue py op input value) := by
  cases hop : op.isComparison with
  | false =>
      rw [prepare_other hop] at h
      obtain rfl := (Prod.mk.inj (Option.some.inj h)).2
      rw [nextValue, hop, Bool.false_and, if_neg Bool.false_ne_true, settled, settled, hop,
        if_neg Bool.false_ne_true, if_neg Bool.false_ne_true, lowerOperand_lowerOperand hlower]
  | true =>
      cases hdate : py.isDateValue value with
      | true =>
          have hstripped := (isDateValue_strip hstrip value).trans hdate
          rw [prepare_date hop hdate] at h
          split_ifs at h
          obtain rfl := (Prod.mk.inj (Option.some.inj h)).2
          rw [nextValue, hdate, Bool.not_true, Bool.and_false, if_neg Bool.false_ne_true, settled,
            settled, hop, if_pos rfl, if_pos rfl, if_pos hdate, if_pos hstripped,
            strip_str_strip hstrip]
      | false =>
          rw [prepare_read hop hdate] at h
          rw [← (Prod.mk.inj (Option.some.inj h)).2, evalBoth_snd, nextValue, hop, hdate,
            reread_of_not_date hdate]
          refine congrArg (settled py op) ?_
          split <;> rfl

/-- Only dates are skipped. -/
theorem nextValue_of_prepare_none (h : py.prepare op input value = none) :
    nextValue py op input value = value := by
  cases hop : op.isComparison with
  | false =>
      rw [prepare_other hop] at h
      cases h
  | true =>
      cases hdate : py.isDateValue value with
      | true => rw [nextValue, hdate, Bool.not_true, Bool.and_false, if_neg Bool.false_ne_true]
      | false =>
          rw [prepare_read hop hdate] at h
          cases h

/-! ## What the entries before leave -/

include hlower in
/-- A value that was read, and is no date now, is in lower case. -/
theorem lowerStr_iterate (n : ℕ) (hstart : n = 0 → py.lowerStr v = v)
    (hdate : py.isDateValue (py.reread^[n] v) = false) :
    py.lowerStr (py.reread^[n] v) = py.reread^[n] v := by
  cases n with
  | zero => exact hstart rfl
  | succ n =>
      rw [Function.iterate_succ_apply'] at hdate ⊢
      have hbefore : py.isDateValue (py.reread^[n] v) = false := by
        by_contra hold
        rw [Bool.not_eq_false] at hold
        rw [reread_of_date hold, hold] at hdate
        exact Bool.noConfusion hdate
      rw [reread_of_not_date hbefore]
      exact lowerStr_lowerStr hlower

include hlower in
theorem valueAfter_concat :
    py.valueAfter op value (inputs ++ [input]) =
      nextValue py op input (py.valueAfter op value inputs) := by
  cases inputs with
  | nil =>
      rw [List.nil_append, Python.valueAfter, Python.valueAfter, nextValue, List.countP_singleton]
      split
      · split <;> rfl
      · rfl
  | cons first inputs =>
      simp only [List.cons_append, Python.valueAfter]
      by_cases hread : (op.isComparison && !py.isDateValue value) = true
      · rw [if_pos hread, if_pos hread, ← List.cons_append, List.countP_append,
          List.countP_singleton]
        have hop : op.isComparison = true := (Bool.and_eq_true_iff.mp hread).1
        have hstart : (first :: inputs).countP py.isLiteral = 0 →
            py.lowerStr (if py.isLiteral first then value else py.lowerStr value) =
              if py.isLiteral first then value else py.lowerStr value := by
          intro hzero
          have hfirst := List.countP_eq_zero.mp hzero first List.mem_cons_self
          rw [if_neg hfirst]
          exact lowerStr_lowerStr hlower
        generalize hn : (first :: inputs).countP py.isLiteral = n at hstart ⊢
        generalize (if py.isLiteral first then value else py.lowerStr value) = start at hstart ⊢
        rw [nextValue, hop, Bool.true_and]
        cases hdate : py.isDateValue (py.reread^[n] start) with
        | true =>
            split
            · rw [Function.iterate_succ_apply', reread_of_date hdate]
              rfl
            · rfl
        | false =>
            split
            · rw [Function.iterate_succ_apply']
              rfl
            · exact (lowerStr_iterate hlower n hstart hdate).symm
      · rw [if_neg hread, if_neg hread, nextValue, if_neg hread]

/-! ## The selection -/

/-- What the entries of a part of the map have selected. -/
theorem selectedAmong_concat :
    SelectedAmong py (v2docs ++ [e]) op value d ↔ SelectedAmong py v2docs op value d ∨
      py.passes op e.1 (py.valueAfter op value (v2docs.map Prod.fst)) = true ∧ d ∈ e.2 := by
  constructor
  · rintro ⟨before, e', after, hsplit, hpasses, hd⟩
    rcases List.eq_nil_or_concat after with rfl | ⟨after, last, rfl⟩
    · obtain ⟨rfl, rfl⟩ := List.append_singleton_inj.mp hsplit
      exact .inr ⟨hpasses, hd⟩
    · rw [List.concat_eq_append, ← List.cons_append, ← List.append_assoc] at hsplit
      obtain ⟨rfl, rfl⟩ := List.append_singleton_inj.mp hsplit
      exact .inl ⟨before, e', after, rfl, hpasses, hd⟩
  · rintro (⟨before, e', after, rfl, hpasses, hd⟩ | ⟨hpasses, hd⟩)
    · refine ⟨before, e', after ++ [e], ?_, hpasses, hd⟩
      rw [List.append_assoc, List.cons_append]
    · exact ⟨v2docs, e, [], rfl, hpasses, hd⟩

omit hlower hstrip in
/-- Entries that judge both values alike select the same documents. -/
theorem selectedAmong_iff (h : ∀ before e after, v2docs = before ++ e :: after →
      py.passes op e.1 (py.valueAfter op value (before.map Prod.fst)) = py.passes op e.1 value)
    (d : String) : SelectedAmong py v2docs op value d ↔ SelectedAlone py v2docs op value d := by
  constructor
  · rintro ⟨before, e, after, hsplit, hpasses, hd⟩
    refine ⟨e, by simp [hsplit], ?_, hd⟩
    rw [← h before e after hsplit, hpasses]
  · rintro ⟨e, he, hpasses, hd⟩
    obtain ⟨before, after, hsplit⟩ := List.append_of_mem he
    refine ⟨before, e, after, hsplit, ?_, hd⟩
    rw [h before e after hsplit, hpasses]

include hlower hstrip in
theorem mem_filterOut_iff_selectedAmong :
    d ∈ py.filterOut v2docs op value ↔ SelectedAmong py v2docs op value d := by
  let P (done : List (Value ι × List String)) (acc : List String × Value ι) : Prop :=
    (∀ d, d ∈ acc.1 ↔ SelectedAmong py done op value d) ∧
      settled py op acc.2 = settled py op (py.valueAfter op value (done.map Prod.fst))
  have hloop : P v2docs (v2docs.foldl (py.filterStep op) ([], value)) := by
    apply foldl_induction
    · refine ⟨fun d => iff_of_false List.not_mem_nil ?_, rfl⟩
      rintro ⟨before, e, after, hnil, -⟩
      exact List.append_ne_nil_of_right_ne_nil before (List.cons_ne_nil e after) hnil.symm
    · rintro done e ⟨ids, v⟩ - ⟨hids, hv⟩
      have hprepare : py.prepare op e.1 v =
          py.prepare op e.1 (py.valueAfter op value (done.map Prod.fst)) := by
        rw [← prepare_settled hlower hstrip, hv, prepare_settled hlower hstrip]
      refine ⟨fun d => ?_, ?_⟩
      · rw [selectedAmong_concat, ← hids d, Python.passes, ← hprepare, Python.filterStep]
        cases hp : py.prepare op e.1 v with
        | none => simp
        | some operands =>
            simp only [Option.any_some]
            split <;> simp_all
      · rw [List.map_append, List.map_singleton, valueAfter_concat hlower, Python.filterStep]
        cases hp : py.prepare op e.1 v with
        | none =>
            rw [nextValue_of_prepare_none (hprepare.symm.trans hp)]
            exact hv
        | some operands =>
            exact settled_of_prepare hlower hstrip (hprepare.symm.trans hp)
  exact hloop.1 d

include hlower hstrip in
theorem mem_filterOut_singleton :
    d ∈ py.filterOut [e] op value ↔ py.passes op e.1 value = true ∧ d ∈ e.2 := by
  rw [mem_filterOut_iff_selectedAmong hlower hstrip]
  have happ : [e] = [] ++ [e] := rfl
  rw [happ, selectedAmong_concat]
  refine or_iff_right ?_
  rintro ⟨before, e', after, hnil, -⟩
  exact List.append_ne_nil_of_right_ne_nil before (List.cons_ne_nil e' after) hnil.symm

include hlower hstrip in
/-- Every entry is judged as it would be alone, unless the condition compares with a value that is
no date and a document is won or lost by the value being read again. -/
theorem judgesEach_iff :
    JudgesEach py v2docs op value ↔
      (op.isComparison = true → py.isDateValue value = false →
        ∀ d, SelectedAmong py v2docs op value d ↔ SelectedAlone py v2docs op value d) := by
  have hlaw : JudgesEach py v2docs op value ↔
      ∀ d, SelectedAmong py v2docs op value d ↔ SelectedAlone py v2docs op value d := by
    refine forall_congr' fun d => ?_
    rw [mem_filterOut_iff_selectedAmong hlower hstrip]
    simp only [mem_filterOut_singleton hlower hstrip]
    rfl
  rw [hlaw]
  refine ⟨fun h _ _ => h, fun h => ?_⟩
  by_cases hread : (op.isComparison && !py.isDateValue value) = true
  · obtain ⟨hop, hdate⟩ := Bool.and_eq_true_iff.mp hread
    exact h hop ((Bool.not_eq_true' _).mp hdate)
  · have hkeeps : ∀ before : List (Value ι), py.valueAfter op value before = value := by
      intro before
      cases before with
      | nil => rfl
      | cons input inputs => exact if_neg hread
    exact selectedAmong_iff fun before e after _ => by rw [hkeeps]

end Lawful

end Judging

/-! ## Truth values among names -/

/-- An interpreter that knows text and the two truth values. -/
def boolPython : Python Bool where
  repr := fun v => match v with
    | .other true => "True"
    | .other false => "False"
    | _ => "[]"
  literalEval := fun v => match v with
    | .str "True" => some (.other true)
    | .str "False" => some (.other false)
    | _ => none
  strip := id
  lower := fun s => String.ofList (s.toList.map Char.toLower)
  isdigit := Char.isDigit
  truth := id
  equal := fun v w => match v, w with
    | .str s, .str t => s == t
    | .other x, .other y => x == y
    | _, _ => false
  contained := fun _ _ => none
  compare := fun _ _ _ => none

theorem boolPython_lower (s : String) :
    boolPython.lower (boolPython.lower s) = boolPython.lower s := by
  refine congrArg String.ofList ?_
  rw [boolPython, String.toList_ofList, List.map_map]
  exact List.map_congr_left fun c _ => Char.toLower_eq_of_not_isUpper (by simp)

/-- One document is known for certain, of another nothing is known. -/
def verified : List (Value Bool × List String) :=
  [(.str "unknown", ["d1"]), (.str "True", ["d2"])]

theorem judgesEach_reverse : JudgesEach boolPython verified.reverse .equal (.str "True") := by
  refine (judgesEach_iff boolPython_lower fun _ => rfl).mpr fun _ _ => ?_
  apply selectedAmong_iff
  intro before e after hsplit
  match before, hsplit with
  | [], _ => rfl
  | [first], hsplit =>
      obtain ⟨rfl, hrest⟩ := List.cons.inj hsplit
      obtain ⟨rfl, -⟩ := List.cons.inj hrest
      decide
  | _ :: _ :: before, hsplit =>
      have hnil := (List.cons.inj (List.cons.inj hsplit).2).2
      exact absurd hnil.symm (by simp)

/-- Behind a value that is no literal the value of the condition is in lower case, and no longer
the truth value that it reads as. -/
theorem not_judgesEach : ¬ JudgesEach boolPython verified .equal (.str "True") := by
  intro h
  have hmem : "d2" ∈ boolPython.filterOut verified .equal (.str "True") :=
    (h "d2").mpr ⟨(.str "True", ["d2"]), by simp [verified], by decide⟩
  revert hmem
  decide

end RagFlow.Retrieval
