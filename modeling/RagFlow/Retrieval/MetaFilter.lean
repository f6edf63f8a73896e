/-
# Filtering documents by their metadata

`meta_filter` selects the documents that each condition matches and combines the
selections with "and" or "or". The accumulated set is replaced, not combined, as
long as it is empty, so under "and" a first condition without a match is forgotten.
The file models the conditions with all their operators and says when the result is
the intersection.
-/

import RagFlow.Math.Except
import Mathlib.Data.Finset.Basic
import Mathlib.Data.List.Infix

namespace RagFlow.Retrieval

open RagFlow.Math

/-! ## Values of the interpreter -/

/-- A value: text, a list, or anything of another type (a number, `None`, ...). -/
inductive Value (ι : Type) where
  | str (s : String)
  | list (vs : List (Value ι))
  | other (x : ι)

inductive Comparison where
  | gt
  | lt
  | ge
  | le

/-- The built-in functions that the filters apply to values. A result `none` stands
for an exception. -/
structure Python (ι : Type) where
  /-- `str` of a value that is not text. -/
  repr : Value ι → String
  /-- `ast.literal_eval`. -/
  literalEval : Value ι → Option (Value ι)
  strip : String → String
  lower : String → String
  isdigit : Char → Bool
  /-- Truth of a value that is neither text nor a list. -/
  truth : ι → Bool
  /-- `==`. -/
  equal : Value ι → Value ι → Bool
  /-- `x in y`. -/
  contained : Value ι → Value ι → Option Bool
  compare : Comparison → Value ι → Value ι → Option Bool

/-- The operators of a condition, with any other text as `unknown`. -/
inductive Operator where
  | contains
  | notContains
  | isIn
  | notIn
  | startWith
  | endWith
  | empty
  | notEmpty
  | equal
  | notEqual
  | comparison (c : Comparison)
  | unknown (op : String)

/-- The operators `=`, `≠`, `>`, `<`, `≥` and `≤`. -/
def Operator.isComparison : Operator → Bool
  | .equal | .notEqual | .comparison _ => true
  | _ => false

def Operator.isMembership : Operator → Bool
  | .isIn | .notIn => true
  | _ => false

variable {ι : Type}

namespace Python

variable (py : Python ι)

/-- `str`. -/
def str : Value ι → String
  | .str s => s
  | v => py.repr v

/-- `bool`. -/
def bool : Value ι → Bool
  | .str s => s ≠ ""
  | .list vs => !vs.isEmpty
  | .other x => py.truth x

/-- Whether `str(input).find(value)` finds something. -/
def find (input value : Value ι) : Option Bool :=
  match value with
  | .str v => some (decide (v.toList <:+: (py.str input).toList))
  | _ => none

/-- Whether a text has the form `YYYY-MM-DD`. -/
def isDate (s : String) : Bool :=
  let cs := s.toList
  cs.length == 10 && cs[4]? == some '-' && cs[7]? == some '-' &&
    (cs.take 4).all py.isdigit && ((cs.drop 5).take 2).all py.isdigit &&
    ((cs.drop 8).take 2).all py.isdigit

/-- Lower case for text, other values as they are. -/
def lowerStr : Value ι → Value ι
  | .str s => .str (py.lower s)
  | v => v

/-- Lower case for an operand of an operator that does not compare; the membership
operators lower the entries of a list as well. -/
def lowerOperand (op : Operator) : Value ι → Value ι
  | .str s => .str (py.lower s)
  | .list vs => .list (if op.isMembership then vs.map py.lowerStr else vs)
  | v => v

/-- Read both operands as literals. What was read before the first failure stays. -/
def evalBoth (input value : Value ι) : Value ι × Value ι :=
  let head := match input with
    | .list vs => vs.head?
    | v => some v
  match head with
  | none => (input, value)
  | some input =>
    match py.literalEval input with
    | none => (input, value)
    | some input => (input, (py.literalEval value).getD value)

/-- The operands as they are compared, or `none` where the entry is skipped. -/
def prepare (op : Operator) (input value : Value ι) : Option (Value ι × Value ι) :=
  if op.isComparison then
    let inputStr := py.strip (py.str input)
    let valueStr := py.strip (py.str value)
    if py.isDate valueStr then
      -- A date is only compared with dates.
      if py.isDate inputStr then some (.str inputStr, .str valueStr) else none
    else
      let (input, value) := py.evalBoth input value
      some (py.lowerStr input, py.lowerStr value)
  else some (py.lowerOperand op input, py.lowerOperand op value)

/-- The text that the prefix and suffix operators look at. -/
def joined : Value ι → String
  | .list vs => String.join (vs.map fun v => py.lower (py.str v))
  | v => py.lower (py.str v)

/-- One comparison, which may raise. -/
def compared (op : Operator) (input value : Value ι) : Option Bool :=
  match op, input with
  | .contains, .list vs => vs.anyM fun v => py.find v value
  | .contains, v => py.find v value
  | .notContains, .list vs => vs.allM fun v => (py.find v value).map not
  | .notContains, v => (py.find v value).map not
  | .isIn, .list vs => vs.allM fun v => py.contained v value
  | .isIn, v => py.contained v value
  | .notIn, .list vs => vs.allM fun v => (py.contained v value).map not
  | .notIn, v => (py.contained v value).map not
  | .startWith, v =>
    some (decide ((py.lower (py.str value)).toList <+: (py.joined v).toList))
  | .endWith, v =>
    some (decide ((py.lower (py.str value)).toList <:+ (py.joined v).toList))
  | .empty, v => some !py.bool v
  | .notEmpty, v => some (py.bool v)
  | .equal, v => some (py.equal v value)
  | .notEqual, v => some !py.equal v value
  | .comparison c, v => py.compare c v value
  | .unknown _, _ => some false

/-- An exception is no match. -/
def matched (op : Operator) (input value : Value ι) : Bool :=
  (py.compared op input value).getD false

/-- One entry of the map: the documents so far and the value of the condition, which
the preparation overwrites for the entries that follow. -/
def filterStep (op : Operator) (acc : List String × Value ι) (entry : Value ι × List String) :
    List String × Value ι :=
  match py.prepare op entry.1 acc.2 with
  | none => acc
  | some (input, value) =>
    (if py.matched op input value then acc.1 ++ entry.2 else acc.1, value)

/-- `filter_out`. -/
def filterOut (v2docs : List (Value ι × List String)) (op : Operator) (value : Value ι) :
    List String :=
  (v2docs.foldl (py.filterStep op) ([], value)).1

end Python

/-! ## The combination of the conditions -/

structure Filter (ι : Type) where
  key : String
  op : Operator
  value : Value ι

/-- For every key its values, and for every value the documents that have it. -/
abbrev Metas (ι : Type) := List (String × List (Value ι × List String))

/-- The documents that one condition matches. A key without values matches nothing. -/
def matchedBy (py : Python ι) (metas : Metas ι) (f : Filter ι) : List String :=
  match metas.lookup f.key with
  | none => []
  | some v2docs => py.filterOut v2docs f.op f.value

/-- The loop of `meta_filter` over the conditions that are left; `ids` are the documents
that a condition matches. -/
def combine {φ δ : Type} [DecidableEq δ] (ids : φ → Finset δ) (logic : String) :
    Finset δ → List φ → Finset δ
  | docIds, [] => docIds
  | docIds, f :: fs =>
    if docIds = ∅ then combine ids logic (ids f) fs
    else if logic = "and" then
      let docIds := docIds ∩ ids f
      if docIds = ∅ then ∅ else combine ids logic docIds fs
    else combine ids logic (docIds ∪ ids f) fs

/-- `meta_filter`. -/
def metaFilter (py : Python ι) (metas : Metas ι) (filters : List (Filter ι))
    (logic : String) : Finset String :=
  combine (fun f => (matchedBy py metas f).toFinset) logic ∅ filters

/-- All documents of a metadata map. -/
def documents (metas : Metas ι) : List String :=
  metas.flatMap fun m => m.2.flatMap Prod.snd

/-! ## What the loop computes -/

section Combine

variable {φ δ : Type} [DecidableEq δ] {ids : φ → Finset δ}

theorem mem_combine_or (acc : Finset δ) (fs : List φ) (d : δ) :
    d ∈ combine ids "or" acc fs ↔ d ∈ acc ∨ ∃ f ∈ fs, d ∈ ids f := by
  induction fs generalizing acc with
  | nil => simp [combine]
  | cons f fs ih =>
      by_cases hacc : acc = ∅
      · rw [combine, if_pos hacc, ih]
        simp [hacc]
      · rw [combine, if_neg hacc, if_neg (by decide), ih]
        simp [or_assoc]

/-- From a set that is not empty on, "and" takes the intersection. -/
theorem mem_combine_and {acc : Finset δ} (hacc : acc ≠ ∅) (fs : List φ) (d : δ) :
    d ∈ combine ids "and" acc fs ↔ d ∈ acc ∧ ∀ f ∈ fs, d ∈ ids f := by
  induction fs generalizing acc with
  | nil => simp [combine]
  | cons f fs ih =>
      rw [combine, if_neg hacc, if_pos rfl, List.forall_mem_cons, ← and_assoc,
        ← Finset.mem_inter]
      by_cases hboth : acc ∩ ids f = ∅
      · simp [hboth]
      · simp only [if_neg hboth]
        exact ih hboth

/-- The conditions from the first one on that matches something. -/
def fromFirstMatch (ids : φ → Finset δ) (fs : List φ) : List φ :=
  fs.dropWhile fun f => ids f = ∅

/-- Conditions in front that match nothing leave no trace. -/
theorem mem_combine_and_empty (fs : List φ) (d : δ) :
    d ∈ combine ids "and" ∅ fs ↔
      fromFirstMatch ids fs ≠ [] ∧ ∀ f ∈ fromFirstMatch ids fs, d ∈ ids f := by
  induction fs with
  | nil => simp [combine, fromFirstMatch]
  | cons f fs ih =>
      rw [combine, if_pos rfl]
      by_cases hf : ids f = ∅
      · rw [hf, ih]
        simp [fromFirstMatch, hf]
      · rw [mem_combine_and hf]
        simp [fromFirstMatch, hf]

/-- The conditions after a forgotten one have a document in common. -/
def Forgets (ids : φ → Finset δ) (fs : List φ) : Prop :=
  ∃ f rest, fs = f :: rest ∧ ids f = ∅ ∧ fromFirstMatch ids fs ≠ [] ∧
    ∃ d, ∀ g ∈ fromFirstMatch ids fs, d ∈ ids g

/-- On at least one condition, "and" is the intersection unless a first condition
without a match is forgotten. -/
theorem combine_and_iff {fs : List φ} (hsome : fs ≠ []) :
    (∀ d, d ∈ combine ids "and" ∅ fs ↔ ∀ f ∈ fs, d ∈ ids f) ↔ ¬ Forgets ids fs := by
  simp only [mem_combine_and_empty]
  constructor
  · rintro hinter ⟨f, rest, rfl, hf, hmore, d, hd⟩
    have hmem : d ∈ ids f := (hinter d).mp ⟨hmore, hd⟩ f List.mem_cons_self
    exact absurd hmem (by simp [hf])
  · intro hkeeps d
    obtain ⟨f, rest, rfl⟩ := List.exists_cons_of_ne_nil hsome
    by_cases hf : ids f = ∅
    · constructor
      · rintro ⟨hmore, hd⟩
        exact absurd ⟨f, rest, rfl, hf, hmore, d, hd⟩ hkeeps
      · intro hall
        exact absurd (hall f List.mem_cons_self) (by simp [hf])
    · have hstart : fromFirstMatch ids (f :: rest) = f :: rest := by
        simp [fromFirstMatch, hf]
      simp [hstart]

end Combine

/-! ## The filter -/

variable {py : Python ι} {metas : Metas ι}

/-- A selection only has documents of the entries. -/
theorem mem_filterOut {v2docs : List (Value ι × List String)} {op : Operator}
    {value : Value ι} {d : String} (h : d ∈ py.filterOut v2docs op value) :
    d ∈ v2docs.flatMap Prod.snd := by
  let P (done : List (Value ι × List String)) (acc : List String × Value ι) : Prop :=
    d ∈ acc.1 → d ∈ done.flatMap Prod.snd
  have hloop : P v2docs (v2docs.foldl (py.filterStep op) ([], value)) := by
    apply foldl_induction
    · exact fun hnil => hnil
    · intro done entry acc _ ih hmem
      rw [List.flatMap_append, List.mem_append]
      simp only [Python.filterStep] at hmem
      split at hmem
      · exact Or.inl (ih hmem)
      · split_ifs at hmem
        · rcases List.mem_append.mp hmem with hold | hnew
          · exact Or.inl (ih hold)
          · exact Or.inr (by simpa using hnew)
        · exact Or.inl (ih hmem)
  exact hloop h

theorem mem_documents {f : Filter ι} {d : String} (h : d ∈ matchedBy py metas f) :
    d ∈ documents metas := by
  rw [matchedBy] at h
  cases hlookup : metas.lookup f.key with
  | none => simp [hlookup] at h
  | some v2docs =>
      obtain ⟨before, after, hsplit, _⟩ := List.lookup_eq_some_iff.mp hlookup
      have hentry : (f.key, v2docs) ∈ metas := by simp [hsplit]
      exact List.mem_flatMap.mpr ⟨_, hentry, mem_filterOut (by simpa [hlookup] using h)⟩

/-- What a condition matches alone. -/
theorem metaFilter_singleton (py : Python ι) (metas : Metas ι) (f : Filter ι) (logic : String) :
    metaFilter py metas [f] logic = (matchedBy py metas f).toFinset := by
  simp [metaFilter, combine]

/-- With "or" the result is the union of what the conditions match alone. With "and" it
is the intersection exactly when no first condition without a match is forgotten, and a
list without conditions is applied to a map without documents. -/
theorem metaFilter_combines_iff (py : Python ι) (metas : Metas ι) (filters : List (Filter ι)) :
    (∀ d, d ∈ metaFilter py metas filters "or" ↔
      ∃ f ∈ filters, d ∈ metaFilter py metas [f] "or") ∧
    ((∀ d, d ∈ metaFilter py metas filters "and" ↔
        d ∈ documents metas ∧ ∀ f ∈ filters, d ∈ metaFilter py metas [f] "and") ↔
      (filters = [] → documents metas = []) ∧
        ¬ Forgets (fun f => metaFilter py metas [f] "and") filters) := by
  have hids : (fun f => metaFilter py metas [f] "and")
      = fun f => (matchedBy py metas f).toFinset :=
    funext fun f => metaFilter_singleton py metas f "and"
  constructor
  · intro d
    simp only [metaFilter_singleton]
    rw [metaFilter, mem_combine_or]
    simp
  · rw [hids]
    simp only [metaFilter_singleton, List.mem_toFinset]
    cases filters with
    | nil =>
        have hkeeps : ¬ Forgets (fun f => (matchedBy py metas f).toFinset) [] := by
          rintro ⟨f, rest, hcons, _⟩
          exact List.cons_ne_nil f rest hcons.symm
        simp [metaFilter, combine, hkeeps, List.eq_nil_iff_forall_not_mem]
    | cons f fs =>
        rw [← combine_and_iff (List.cons_ne_nil f fs)]
        simp only [reduceCtorEq, false_implies, true_and, List.mem_toFinset]
        apply forall_congr'
        intro d
        have hdoc : (d ∈ documents metas ∧ ∀ g ∈ f :: fs, d ∈ matchedBy py metas g) ↔
            ∀ g ∈ f :: fs, d ∈ matchedBy py metas g :=
          and_iff_right_of_imp fun hall => mem_documents (hall f List.mem_cons_self)
        rw [hdoc]
        rfl

/-! ## A condition on a missing key in front -/

/-- An interpreter that knows text only. -/
def textPython : Python Empty where
  repr := fun _ => ""
  literalEval := fun _ => none
  strip := id
  lower := fun s => String.ofList (s.toList.map Char.toLower)
  isdigit := Char.isDigit
  truth := Empty.elim
  equal := fun v w => match v, w with
    | .str s, .str t => s == t
    | _, _ => false
  contained := fun _ _ => none
  compare := fun _ _ _ => none

def authors : Metas Empty := [("author", [(.str "ann", ["d1"])])]

def hasYear : Filter Empty := { key := "year", op := .notEmpty, value := .str "" }

def hasAuthor : Filter Empty := { key := "author", op := .notEmpty, value := .str "" }

/-- No document has a year, and still `d1` passes "has a year and has an author". -/
theorem missing_key_is_forgotten :
    metaFilter textPython authors [hasYear, hasAuthor] "and" = {"d1"} ∧
      metaFilter textPython authors [hasYear] "and" = ∅ ∧
      ¬ ∀ d, d ∈ metaFilter textPython authors [hasYear, hasAuthor] "and" ↔
        d ∈ documents authors ∧
          ∀ f ∈ [hasYear, hasAuthor], d ∈ metaFilter textPython authors [f] "and" := by
  have hauthor : matchedBy textPython authors hasAuthor = ["d1"] := by decide
  have hnone : matchedBy textPython authors hasYear = [] := by decide
  have hyear : metaFilter textPython authors [hasYear] "and" = ∅ := by
    rw [metaFilter_singleton, hnone, List.toFinset_nil]
  have hboth : metaFilter textPython authors [hasYear, hasAuthor] "and" = {"d1"} := by
    simp [metaFilter, combine, hnone, hauthor]
  refine ⟨hboth, hyear, ?_⟩
  intro hinter
  have hd1 := ((hinter "d1").mp (by simp [hboth])).2 hasYear (by simp)
  simp [hyear] at hd1

end RagFlow.Retrieval
