/-
# Removing a table of contents

`remove_contents_table` takes out each heading of a table of contents with what follows it, up to
the place where the first entry of the table occurs again. The beginning of that entry, three
characters or two words, is used as a regular expression to find the place. The list is changed
while it is walked over: entries are popped at the current position, and the tests whether there is
one left stand between the pops.

Entries before the position are never touched, so the loop is a walk over what is left. It comes to
an end in any case. It fails at a heading behind which there are blank entries only, since one pop
too many is made then, and at one whose first entry begins with something that is no regular
expression. What `re.match` accepts and finds is a parameter.
-/

import RagFlow.Chunking.Headings
import RagFlow.Math.Except
import Mathlib.Logic.Relation

namespace RagFlow.Chunking

open RagFlow.Query (strip split)

/-! ## The source -/

/-- A section: a text, or a pair with its layout. -/
inductive Entry
  | plain (t : Text)
  | laid (t layout : Text)

/-- The text that `get` returns. -/
def Entry.text : Entry → Text
  | .plain t => strip t
  | .laid t _ => strip t

/-- `t.split("@@")[0]`. -/
def beforeMark : Text → Text
  | [] => []
  | c :: t => if ['@', '@'] <+: c :: t then [] else c :: beforeMark t

def contentsWords : List Text :=
  [ "contents".toList, "目录".toList, "目次".toList, "table of contents".toList, "致谢".toList,
    "acknowledge".toList ]

/-- A heading of a table of contents; `$` allows for a newline. -/
def isContents (t : Text) : Bool :=
  let t := (beforeMark t).filter fun c => c ≠ ' ' ∧ c ≠ '\u3000'
  contentsWords.any fun w => t = w ∨ t = w ++ ['\n']

/-- The beginning of an entry by which the end of the table is found. -/
def prefixOf (eng : Bool) (t : Text) : Text :=
  if eng then [' '].intercalate ((split t).take 2) else t.take 3

def pop (sections : List Entry) (i : ℕ) : Except String (List Entry) :=
  if i < sections.length then .ok (sections.eraseIdx i) else .error "IndexError"

def getText (sections : List Entry) (i : ℕ) : Except String Text :=
  match sections[i]? with
  | none => .error "IndexError"
  | some e => .ok e.text

theorem length_of_pop {sections sections' : List Entry} {i : ℕ}
    (h : pop sections i = .ok sections') : sections'.length < sections.length := by
  rw [pop] at h
  split at h
  · next hi =>
      rw [← Except.ok.inj h, List.length_eraseIdx_of_lt hi]
      omega
  · cases h

/-- The loop over entries that have no beginning, and what the first other one begins with. -/
def skipEmpty (eng : Bool) (sections : List Entry) (i : ℕ) (pre : Text) :
    Except String (List Entry × Text) :=
  if pre ≠ [] then .ok (sections, pre)
  else
    match _h : pop sections i with
    | .error e => .error e
    | .ok sections' =>
        match getText sections' i with
        | .error _ => .ok (sections', pre)
        | .ok t => skipEmpty eng sections' i (prefixOf eng t)
termination_by sections.length
decreasing_by exact length_of_pop _h

/-- How the body of the loop ends. -/
inductive Turn
  | leave (sections : List Entry)
  | again (i : ℕ) (sections : List Entry)

/-- The first of the next 128 entries in which the expression is found. -/
def findAgain (found : Text → Bool) (sections : List Entry) (i : ℕ) : Option ℕ :=
  (List.range' i (min (i + 128) sections.length - i)).find? fun j =>
    sections[j]?.any fun e => found e.text

/-- The body of the loop. -/
def turn (compile : Text → Option (Text → Bool)) (eng : Bool) (sections : List Entry) (i : ℕ) :
    Except String Turn := do
  let t ← getText sections i
  if !isContents t then return .again (i + 1) sections
  let sections ← pop sections i
  if sections.length ≤ i then return .leave sections
  let t ← getText sections i
  let (sections, pre) ← skipEmpty eng sections i (prefixOf eng t)
  let sections ← pop sections i
  if sections.length ≤ i ∨ pre = [] then return .leave sections
  match compile pre with
  | none => throw "re.error"
  | some found =>
      match findAgain found sections i with
      | none => return .again i sections
      | some j =>
          let sections ← (List.range (j - i)).foldlM (fun sections _ => pop sections i) sections
          return .again i sections

/-- The loop, with a bound on its turns; `none` when the bound does not suffice. -/
def turns (compile : Text → Option (Text → Bool)) (eng : Bool) :
    ℕ → List Entry → ℕ → Option (Except String (List Entry))
  | 0, _, _ => none
  | fuel + 1, sections, i =>
      if sections.length ≤ i then some (.ok sections)
      else
        match turn compile eng sections i with
        | .error e => some (.error e)
        | .ok (.leave sections) => some (.ok sections)
        | .ok (.again i sections) => turns compile eng fuel sections i

/-- The list as the call leaves it. -/
def removeContentsTable (compile : Text → Option (Text → Bool)) (eng : Bool)
    (sections : List Entry) : Option (Except String (List Entry)) :=
  turns compile eng (sections.length + 1) sections 0

/-! ## The walk over what is left -/

/-- An entry that is skipped in search for the first one of the table. -/
def isEmptyEntry (eng : Bool) (e : Entry) : Bool := prefixOf eng e.text = []

/-- What is left behind a table whose first entry has been found again, or not. -/
def afterTable (found : Text → Bool) (rest : List Entry) : List Entry :=
  match (rest.take 128).findIdx? fun e => found e.text with
  | none => rest
  | some n => rest.drop n

/-- From one list of entries that are left to the next. -/
inductive Walk (compile : Text → Option (Text → Bool)) (eng : Bool) :
    List Entry → List Entry → Prop
  | keep {e : Entry} {rest : List Entry} (h : isContents e.text = false) :
      Walk compile eng (e :: rest) rest
  | cut {e first : Entry} {rest table : List Entry} {found : Text → Bool}
      (h : isContents e.text = true)
      (hfirst : rest.dropWhile (isEmptyEntry eng) = first :: table) (htable : table ≠ [])
      (hfound : compile (prefixOf eng first.text) = some found) :
      Walk compile eng (e :: rest) (afterTable found table)

/-- What may follow a heading: nothing, or an entry that is not blank, which is the last one or
begins with a regular expression. -/
def MayFollow (compile : Text → Option (Text → Bool)) (eng : Bool) (rest : List Entry) : Prop :=
  rest = [] ∨ ∃ first table, rest.dropWhile (isEmptyEntry eng) = first :: table ∧
    (table = [] ∨ (compile (prefixOf eng first.text)).isSome)

/-- Every heading to which the walk comes may be followed by what follows it. -/
def Harmless (compile : Text → Option (Text → Bool)) (eng : Bool) (sections : List Entry) : Prop :=
  ∀ e rest, Relation.ReflTransGen (Walk compile eng) sections (e :: rest) →
    isContents e.text = true → MayFollow compile eng rest

/-! ## One turn -/

section Turn

variable {compile : Text → Option (Text → Bool)} {eng : Bool} {done rest table : List Entry}
  {e first : Entry} {found : Text → Bool}

theorem pop_append (done : List Entry) (e : Entry) (rest : List Entry) :
    pop (done ++ e :: rest) done.length = .ok (done ++ rest) := by
  have hlt : done.length < (done ++ e :: rest).length := by simp
  rw [pop, if_pos hlt, List.eraseIdx_append_of_length_le le_rfl, Nat.sub_self]
  rfl

theorem pop_end (done : List Entry) : pop done done.length = .error "IndexError" :=
  if_neg (lt_irrefl _)

theorem getText_append (done : List Entry) (e : Entry) (rest : List Entry) :
    getText (done ++ e :: rest) done.length = .ok e.text := by
  rw [getText, List.getElem?_append_right le_rfl, Nat.sub_self]
  rfl

theorem getText_end (done : List Entry) : getText done done.length = .error "IndexError" := by
  rw [getText, List.getElem?_eq_none le_rfl]

/-- Blank entries are popped until there is another one or none is left. -/
theorem skipEmpty_eq (eng : Bool) (done : List Entry) (e : Entry) (rest : List Entry) :
    skipEmpty eng (done ++ e :: rest) done.length (prefixOf eng e.text) =
      .ok (match (e :: rest).dropWhile (isEmptyEntry eng) with
        | [] => (done, [])
        | first :: table => (done ++ first :: table, prefixOf eng first.text)) := by
  induction rest generalizing e with
  | nil =>
      rw [skipEmpty]
      by_cases hpre : prefixOf eng e.text = []
      · have hempty : isEmptyEntry eng e = true := decide_eq_true hpre
        rw [if_neg (not_not.mpr hpre), pop_append, List.append_nil]
        simp only [getText_end, List.dropWhile, hempty, hpre]
      · have hempty : isEmptyEntry eng e = false := decide_eq_false hpre
        rw [if_pos hpre]
        simp only [List.dropWhile, hempty]
  | cons e' rest ih =>
      rw [skipEmpty]
      by_cases hpre : prefixOf eng e.text = []
      · have hempty : isEmptyEntry eng e = true := decide_eq_true hpre
        rw [if_neg (not_not.mpr hpre), pop_append]
        simp only [getText_append, ih]
        rw [List.dropWhile_cons_of_pos hempty]
      · have hempty : isEmptyEntry eng e = false := decide_eq_false hpre
        rw [if_pos hpre, List.dropWhile_cons_of_neg (by rw [hempty]; exact Bool.false_ne_true)]

theorem pops_append (done rest : List Entry) {n : ℕ} (hn : n ≤ rest.length) :
    (List.range n).foldlM (fun sections _ => pop sections done.length) (done ++ rest) =
      .ok (done ++ rest.drop n) := by
  induction n with
  | zero => rfl
  | succ n ih =>
      have hdrop : rest.drop n = rest[n] :: rest.drop (n + 1) := List.drop_eq_getElem_cons hn
      rw [List.range_succ, List.foldlM_append, ih (Nat.le_of_succ_le hn)]
      change ([n].foldlM (fun sections _ => pop sections done.length) (done ++ rest.drop n) :
        Except String (List Entry)) = _
      rw [List.foldlM_cons, hdrop, pop_append]
      rfl

/-- The place of the table's first entry among the next 128. -/
theorem findAgain_eq (found : Text → Bool) (done table : List Entry) :
    findAgain found (done ++ table) done.length =
      ((table.take 128).findIdx? fun e => found e.text).map (done.length + ·) := by
  have hcount : min (done.length + 128) (done ++ table).length - done.length =
      (table.take 128).length := by
    rw [List.length_append, List.length_take]
    omega
  rw [findAgain, hcount]
  have hfind : ∀ n, n ≤ (table.take 128).length →
      (List.range' done.length n).find? (fun j => (done ++ table)[j]?.any fun e => found e.text) =
        (((table.take 128).take n).findIdx? fun e => found e.text).map (done.length + ·) := by
    intro n hn
    induction n with
    | zero => rfl
    | succ n ih =>
        have htake : n < (table.take 128).length := hn
        have hget : (done ++ table)[done.length + n]? = some (table.take 128)[n] := by
          rw [List.getElem?_append_right (Nat.le_add_right _ _), Nat.add_sub_cancel_left,
            List.getElem_take, List.getElem?_eq_getElem]
        rw [List.range'_1_concat, List.find?_append, ih (Nat.le_of_succ_le hn),
          List.take_succ_eq_append_getElem htake, List.findIdx?_append]
        cases ((table.take 128).take n).findIdx? fun e => found e.text with
        | some k => rfl
        | none =>
            rw [List.find?_singleton, hget, List.length_take, min_eq_left (Nat.le_of_succ_le hn)]
            cases found (table.take 128)[n].text <;> simp
  rw [hfind _ le_rfl, List.take_length]

theorem turn_keep (h : isContents e.text = false) :
    turn compile eng (done ++ e :: rest) done.length =
      .ok (.again (done.length + 1) (done ++ e :: rest)) := by
  rw [turn, getText_append]
  simp [bind, Except.bind, h, pure, Except.pure]

theorem turn_last (h : isContents e.text = true) :
    turn compile eng (done ++ [e]) done.length = .ok (.leave done) := by
  rw [turn, getText_append, pop_append]
  simp [bind, Except.bind, h, pure, Except.pure]

theorem prefixOf_ne_nil (hfirst : rest.dropWhile (isEmptyEntry eng) = first :: table) :
    prefixOf eng first.text ≠ [] := by
  have hhead := List.head?_dropWhile_not (isEmptyEntry eng) rest
  rw [hfirst] at hhead
  exact of_decide_eq_false hhead

/-- The cut from the table's heading to the place where its first entry is found. -/
theorem pops_afterTable (found : Text → Bool) (done table : List Entry) :
    (match findAgain found (done ++ table) done.length with
      | none => .ok (.again done.length (done ++ table))
      | some j => do
          let sections ← (List.range (j - done.length)).foldlM
            (fun sections _ => pop sections done.length) (done ++ table)
          return .again done.length sections : Except String Turn) =
      .ok (.again done.length (done ++ afterTable found table)) := by
  rw [findAgain_eq, afterTable]
  cases hidx : (table.take 128).findIdx? fun e => found e.text with
  | none => rfl
  | some n =>
      have hn : n ≤ table.length := by
        have hlt := (List.findIdx?_eq_some_iff_findIdx_eq.mp hidx).1
        rw [List.length_take] at hlt
        omega
      simp only [Option.map_some, Nat.add_sub_cancel_left, pops_append done table hn]
      rfl

/-- At a heading behind which there is something, all depends on the first entry that is not
blank. -/
theorem turn_heading (h : isContents e.text = true) (hrest : rest ≠ []) :
    turn compile eng (done ++ e :: rest) done.length =
      match rest.dropWhile (isEmptyEntry eng) with
      | [] => .error "IndexError"
      | first :: table =>
          if table = [] then .ok (.leave done)
          else
            match compile (prefixOf eng first.text) with
            | none => .error "re.error"
            | some found => .ok (.again done.length (done ++ afterTable found table)) := by
  obtain ⟨e', rest', rfl⟩ := List.exists_cons_of_ne_nil hrest
  have hleft : ¬(done ++ e' :: rest').length ≤ done.length := by simp
  rw [turn, getText_append, pop_append]
  simp only [bind, Except.bind, h, Bool.not_true, Bool.false_eq_true, if_false, if_neg hleft,
    getText_append, skipEmpty_eq]
  cases hdrop : (e' :: rest').dropWhile (isEmptyEntry eng) with
  | nil => simp only [pop_end]
  | cons first table =>
      have hpre := prefixOf_ne_nil hdrop
      simp only [pop_append, hpre, or_false, List.length_append]
      cases table with
      | nil => simp [pure, Except.pure]
      | cons e'' table =>
          have hleft' : ¬done.length + (e'' :: table).length ≤ done.length := by simp
          rw [if_neg hleft', if_neg (List.cons_ne_nil _ _)]
          cases hcompile : compile (prefixOf eng first.text) with
          | none => rfl
          | some found => exact pops_afterTable found done (e'' :: table)

end Turn

/-! ## The walk -/

section Walk

variable {compile : Text → Option (Text → Bool)} {eng : Bool} {rest table rest' : List Entry}
  {e first : Entry} {found : Text → Bool}

theorem afterTable_suffix (found : Text → Bool) (table : List Entry) :
    afterTable found table <:+ table := by
  rw [afterTable]
  split
  · exact List.suffix_rfl
  · exact List.drop_suffix _ _

theorem table_suffix (hfirst : rest.dropWhile (isEmptyEntry eng) = first :: table) :
    table <:+ rest :=
  (List.suffix_cons first table).trans (hfirst ▸ List.dropWhile_suffix _)

/-- The walk only drops entries, one at least. -/
theorem suffix_of_walk (h : Walk compile eng (e :: rest) rest') : rest' <:+ rest := by
  cases h with
  | keep _ => exact List.suffix_rfl
  | cut _ hfirst _ _ => exact (afterTable_suffix _ _).trans (table_suffix hfirst)

theorem mayFollow_iff (hfirst : rest.dropWhile (isEmptyEntry eng) = first :: table) :
    MayFollow compile eng rest ↔
      table = [] ∨ (compile (prefixOf eng first.text)).isSome = true := by
  constructor
  · rintro (rfl | ⟨first', table', hfirst', h⟩)
    · cases hfirst
    · obtain ⟨rfl, rfl⟩ := List.cons.inj (hfirst.symm.trans hfirst')
      exact h
  · exact fun h => .inr ⟨first, table, hfirst, h⟩

theorem not_mayFollow (hrest : rest ≠ []) (hblank : rest.dropWhile (isEmptyEntry eng) = []) :
    ¬MayFollow compile eng rest := by
  rintro (hnil | ⟨first, table, hfirst, -⟩)
  · exact hrest hnil
  · rw [hblank] at hfirst
    cases hfirst

theorem harmless_nil : Harmless compile eng [] := by
  intro e rest hwalk _
  rcases Relation.ReflTransGen.cases_head hwalk with heq | ⟨_, hstep, _⟩
  · cases heq
  · cases hstep

/-- The first entry and the walks from what follows it. -/
theorem harmless_cons :
    Harmless compile eng (e :: rest) ↔
      (isContents e.text = true → MayFollow compile eng rest) ∧
        ∀ rest', Walk compile eng (e :: rest) rest' → Harmless compile eng rest' := by
  constructor
  · intro h
    exact ⟨h e rest .refl, fun rest' hstep e' rest'' hwalk => h e' rest'' (hwalk.head hstep)⟩
  · rintro ⟨hfirst, hwalks⟩ e' rest'' hwalk hcontents
    rcases Relation.ReflTransGen.cases_head hwalk with heq | ⟨rest', hstep, hwalk'⟩
    · cases heq
      exact hfirst hcontents
    · exact hwalks rest' hstep e' rest'' hwalk' hcontents

theorem harmless_keep (h : isContents e.text = false) :
    Harmless compile eng (e :: rest) ↔ Harmless compile eng rest := by
  rw [harmless_cons]
  constructor
  · rintro ⟨-, hwalks⟩
    exact hwalks rest (.keep h)
  · intro hrest
    refine ⟨fun hcontents => absurd hcontents (by rw [h]; exact Bool.false_ne_true), ?_⟩
    intro rest' hstep
    cases hstep with
    | keep _ => exact hrest
    | cut hcontents _ _ _ => exact absurd (h.symm.trans hcontents) Bool.false_ne_true

/-- Where a heading is the last thing to be done, only what follows it counts. -/
theorem harmless_stop (h : isContents e.text = true) (hfollow : MayFollow compile eng rest)
    (hstop : ∀ first table, rest.dropWhile (isEmptyEntry eng) = first :: table → table = []) :
    Harmless compile eng (e :: rest) := by
  refine harmless_cons.mpr ⟨fun _ => hfollow, fun rest' hstep => ?_⟩
  cases hstep with
  | keep hcontents => exact absurd (hcontents.symm.trans h) Bool.false_ne_true
  | cut _ hfirst htable _ => exact absurd (hstop _ _ hfirst) htable

theorem harmless_cut (h : isContents e.text = true)
    (hfirst : rest.dropWhile (isEmptyEntry eng) = first :: table) (htable : table ≠ [])
    (hfound : compile (prefixOf eng first.text) = some found) :
    Harmless compile eng (e :: rest) ↔ Harmless compile eng (afterTable found table) := by
  rw [harmless_cons]
  constructor
  · rintro ⟨-, hwalks⟩
    exact hwalks _ (.cut h hfirst htable hfound)
  · intro hafter
    refine ⟨fun _ => .inr ⟨first, table, hfirst, .inr (by rw [hfound]; rfl)⟩, ?_⟩
    intro rest' hstep
    cases hstep with
    | keep hcontents => exact absurd (hcontents.symm.trans h) Bool.false_ne_true
    | cut _ hfirst' _ hfound' =>
        obtain ⟨rfl, rfl⟩ := List.cons.inj (hfirst.symm.trans hfirst')
        cases hfound.symm.trans hfound'
        exact hafter

end Walk

/-! ## The whole run -/

/-- What the loop makes of the entries that are left. -/
structure Outcome (compile : Text → Option (Text → Bool)) (eng : Bool) (done rest : List Entry)
    (r : Except String (List Entry)) : Prop where
  safe : (∃ out, r = .ok out) ↔ Harmless compile eng rest
  kept : ∀ out, r = .ok out → ∃ kept, out = done ++ kept ∧ kept.Sublist rest ∧
    rest.takeWhile (fun e => !isContents e.text) <+: kept

section Run

variable {compile : Text → Option (Text → Bool)} {eng : Bool} {done rest table : List Entry}
  {e first : Entry} {found : Text → Bool} {r : Except String (List Entry)}

theorem Outcome.keep (h : isContents e.text = false)
    (hout : Outcome compile eng (done ++ [e]) rest r) : Outcome compile eng done (e :: rest) r where
  safe := hout.safe.trans (harmless_keep h).symm
  kept out hr := by
    obtain ⟨kept, rfl, hsub, hpre⟩ := hout.kept out hr
    refine ⟨e :: kept, by simp, hsub.cons_cons e, ?_⟩
    rw [List.takeWhile_cons_of_pos (by rw [h]; rfl)]
    exact (List.cons_prefix_cons).mpr ⟨rfl, hpre⟩

/-- At a heading nothing has to be kept of what is left. -/
theorem takeWhile_heading (h : isContents e.text = true) (rest : List Entry) :
    (e :: rest).takeWhile (fun e => !isContents e.text) = [] :=
  List.takeWhile_cons_of_neg (by rw [h]; exact Bool.false_ne_true)

theorem Outcome.stop (h : isContents e.text = true) (hharmless : Harmless compile eng (e :: rest)) :
    Outcome compile eng done (e :: rest) (.ok done) where
  safe := ⟨fun _ => hharmless, fun _ => ⟨done, rfl⟩⟩
  kept out hr := by
    refine ⟨[], ?_, List.nil_sublist _, ?_⟩
    · rw [← Except.ok.inj hr, List.append_nil]
    · rw [takeWhile_heading h]

theorem Outcome.fail {msg : String} (h : isContents e.text = true)
    (hfollow : ¬MayFollow compile eng rest) :
    Outcome compile eng done (e :: rest) (.error msg) where
  safe := by
    constructor
    · rintro ⟨out, hr⟩
      cases hr
    · intro hharmless
      exact absurd ((harmless_cons.mp hharmless).1 h) hfollow
  kept out hr := by cases hr

theorem Outcome.cut (h : isContents e.text = true)
    (hfirst : rest.dropWhile (isEmptyEntry eng) = first :: table) (htable : table ≠ [])
    (hfound : compile (prefixOf eng first.text) = some found)
    (hout : Outcome compile eng done (afterTable found table) r) :
    Outcome compile eng done (e :: rest) r where
  safe := hout.safe.trans (harmless_cut h hfirst htable hfound).symm
  kept out hr := by
    obtain ⟨kept, rfl, hsub, -⟩ := hout.kept out hr
    have hsuffix := suffix_of_walk (.cut h hfirst htable hfound)
    refine ⟨kept, rfl, (hsub.trans hsuffix.sublist).cons e, ?_⟩
    rw [takeWhile_heading h]
    exact List.nil_prefix

/-- A turn at a heading, when the loop does what is expected on anything shorter. -/
theorem turns_heading {fuel : ℕ} (h : isContents e.text = true)
    (ih : ∀ rest', rest' <:+ rest → ∃ r, turns compile eng fuel (done ++ rest') done.length =
      some r ∧ Outcome compile eng done rest' r) :
    ∃ r, turns compile eng (fuel + 1) (done ++ e :: rest) done.length = some r ∧
      Outcome compile eng done (e :: rest) r := by
  rw [turns, if_neg (by simp)]
  by_cases hrest : rest = []
  · subst hrest
    rw [turn_last h]
    exact ⟨_, rfl, .stop h (harmless_stop h (.inl rfl) (fun _ _ h => nomatch h))⟩
  · rw [turn_heading h hrest]
    cases hfirst : rest.dropWhile (isEmptyEntry eng) with
    | nil => exact ⟨_, rfl, .fail h (not_mayFollow hrest hfirst)⟩
    | cons first table =>
        by_cases htable : table = []
        · simp only [if_pos htable]
          have hfollow : MayFollow compile eng rest := (mayFollow_iff hfirst).mpr (.inl htable)
          refine ⟨_, rfl, .stop h (harmless_stop h hfollow ?_)⟩
          intro first' table' hfirst'
          rw [hfirst] at hfirst'
          rw [← (List.cons.inj hfirst').2, htable]
        · simp only [if_neg htable]
          cases hfound : compile (prefixOf eng first.text) with
          | none =>
              refine ⟨_, rfl, .fail h ?_⟩
              rw [mayFollow_iff hfirst, hfound]
              exact not_or.mpr ⟨htable, Bool.false_ne_true⟩
          | some found =>
              have hwalk : Walk compile eng (e :: rest) _ := .cut h hfirst htable hfound
              obtain ⟨r, hr, hout⟩ := ih _ (suffix_of_walk hwalk)
              exact ⟨r, hr, hout.cut h hfirst htable hfound⟩

/-- The loop ends within a turn for every entry that is left, and one more. -/
theorem turns_outcome {fuel : ℕ} (hfuel : rest.length < fuel) :
    ∃ r, turns compile eng fuel (done ++ rest) done.length = some r ∧
      Outcome compile eng done rest r := by
  induction fuel generalizing done rest with
  | zero => exact absurd hfuel (Nat.not_lt_zero _)
  | succ fuel ih =>
      cases rest with
      | nil =>
          rw [turns, List.append_nil, if_pos le_rfl]
          exact ⟨_, rfl, ⟨fun _ => harmless_nil, fun _ => ⟨done, rfl⟩⟩, fun out hr =>
            ⟨[], by rw [← Except.ok.inj hr, List.append_nil], .refl [], List.nil_prefix⟩⟩
      | cons e rest =>
          have hshort : rest.length < fuel := Nat.lt_of_succ_lt_succ hfuel
          cases h : isContents e.text with
          | false =>
              obtain ⟨r, hr, hout⟩ := @ih (done ++ [e]) rest hshort
              rw [List.append_assoc, List.length_append] at hr
              refine ⟨r, ?_, hout.keep h⟩
              rw [turns, if_neg (by simp), turn_keep h]
              exact hr
          | true =>
              refine turns_heading h fun rest' hsuffix => ?_
              exact ih (hsuffix.length_le.trans_lt hshort)

end Run

/-- There is no list and no meaning of the expressions for which the loop goes on for ever. -/
theorem removeContentsTable_terminates (compile : Text → Option (Text → Bool)) (eng : Bool)
    (sections : List Entry) : removeContentsTable compile eng sections ≠ none := by
  obtain ⟨r, hr, -⟩ := @turns_outcome compile eng [] sections _ (Nat.lt_succ_self _)
  intro hnone
  cases hr.symm.trans hnone

theorem returns_iff (compile : Text → Option (Text → Bool)) (eng : Bool) (sections : List Entry) :
    (∃ out, removeContentsTable compile eng sections = some (.ok out)) ↔
      Harmless compile eng sections := by
  obtain ⟨r, hr, hout⟩ := @turns_outcome compile eng [] sections _ (Nat.lt_succ_self _)
  rw [← hout.safe]
  constructor
  · rintro ⟨out, hcall⟩
    exact ⟨out, Option.some.inj (hr.symm.trans hcall)⟩
  · rintro ⟨out, rfl⟩
    exact ⟨out, hr⟩

/-- What comes back is what was there in its order, with all that stands before the first
heading. -/
theorem removeContentsTable_kept {compile : Text → Option (Text → Bool)} {eng : Bool}
    {sections out : List Entry} (h : removeContentsTable compile eng sections = some (.ok out)) :
    out.Sublist sections ∧ sections.takeWhile (fun e => !isContents e.text) <+: out := by
  obtain ⟨r, hr, hout⟩ := @turns_outcome compile eng [] sections _ (Nat.lt_succ_self _)
  obtain ⟨kept, hkept, hsub, hpre⟩ := hout.kept out (Option.some.inj (hr.symm.trans h))
  rw [hkept]
  exact ⟨hsub, hpre⟩

/-- The call comes back with some of the entries in their order, among them all that stand before
the first heading. -/
def RemovesSafely (compile : Text → Option (Text → Bool)) (eng : Bool) (sections : List Entry) :
    Prop :=
  ∃ out, removeContentsTable compile eng sections = some (.ok out) ∧ out.Sublist sections ∧
    sections.takeWhile (fun e => !isContents e.text) <+: out

/-- The call is safe for just the lists in which every heading it comes to has nothing after it, or
an entry that is not blank and that is the last one or begins with a regular expression. -/
theorem removesSafely_iff (compile : Text → Option (Text → Bool)) (eng : Bool)
    (sections : List Entry) :
    RemovesSafely compile eng sections ↔ Harmless compile eng sections := by
  rw [← returns_iff]
  constructor
  · rintro ⟨out, hcall, -⟩
    exact ⟨out, hcall⟩
  · rintro ⟨out, hcall⟩
    exact ⟨out, hcall, removeContentsTable_kept hcall⟩

/-- Behind the last heading there is a blank section only: one pop too many. -/
theorem not_removesSafely :
    ¬∀ (compile : Text → Option (Text → Bool)) (eng : Bool) (sections : List Entry),
      RemovesSafely compile eng sections := by
  intro h
  obtain ⟨out, hcall, -⟩ := h (fun _ => none) false [.plain "contents".toList, .plain []]
  have hharmless := (returns_iff _ _ _).mp ⟨out, hcall⟩
  have hfollow := (harmless_cons.mp hharmless).1 (by decide)
  exact not_mayFollow (List.cons_ne_nil _ _) (by decide) hfollow

end RagFlow.Chunking
