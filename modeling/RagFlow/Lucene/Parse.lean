/-
# Full-text queries

A query is a list of clauses: words, phrases in quotes with an optional slop, and groups in
parentheses, each with an optional boost, and `OR` between clauses. Outside of quotes special
characters are escaped. A text is read one character after the other; the clauses of a level are
kept with the last one first.
-/

import Mathlib.Data.List.Basic
import RagFlow.Math.Join

namespace RagFlow.Lucene

open RagFlow.Math

abbrev Text := List Char

/-! ## Grammar -/

inductive Item where
  | or
  | word (t : Text)
  | phrase (t : Text) (slop : Option Text)
  | group (items : List Item)
  | boosted (item : Item) (boost : Text)

/-- What is being read. -/
inductive Part where
  | between
  | word (t : Text)
  | escape (t : Text)
  | phrase (t : Text)
  | phraseEscape (t : Text)
  | closed (item : Item)
  | slop (t ds : Text)
  | boost (item : Item) (ds : Text)
  | point (item : Item) (int ds : Text)

structure State where
  /-- The levels around the open group, innermost first. -/
  outer : List (List Item)
  items : List Item
  part : Part

def isBlank (c : Char) : Bool := c ∈ [' ', '\t', '\n', '\r', '\u3000']

def isSpecial (c : Char) : Bool :=
  c ∈ ['+', '-', '&', '|', '!', '(', ')', '{', '}', '[', ']', '^', '"', '~', '*', '?', ':', '\\',
    '/']

def orWord : Text := "OR".toList

def reserved : List Text := [orWord, "AND".toList, "NOT".toList]

/-- The last item is a clause. -/
def ready : List Item → Bool
  | [] | .or :: _ => false
  | _ => true

/-- An unquoted text has been read: a connective, or else the clause `f t`. -/
def finishAs (f : Text → Item) (items : List Item) (t : Text) : Option (List Item) :=
  if t = orWord then if ready items then some (.or :: items) else none
  else if t ∈ reserved then none
  else some (f t :: items)

/-- The part ends here. -/
def finish (items : List Item) : Part → Option (List Item)
  | .between => some items
  | .word t => finishAs .word items t
  | .closed item => some (item :: items)
  | .slop t ds => if ds = [] then none else some (.phrase t (some ds) :: items)
  | .boost item ds => if ds = [] then none else some (.boosted item ds :: items)
  | .point item int ds =>
    if ds = [] then none else some (.boosted item (int ++ '.' :: ds) :: items)
  | .escape _ | .phrase _ | .phraseEscape _ => none

/-- The clause that a boost is for. -/
def boostable : Part → Option Item
  | .word t => if t ∈ reserved then none else some (.word t)
  | .closed item => some item
  | .slop t ds => if ds = [] then none else some (.phrase t (some ds))
  | _ => none

/-- A character that has no meaning of its own. -/
def letter (s : State) (c : Char) : Option State :=
  match s.part with
  | .word t => some { s with part := .word (t ++ [c]) }
  | .slop t ds => if c.isDigit then some { s with part := .slop t (ds ++ [c]) } else none
  | .boost item ds =>
    if c.isDigit then some { s with part := .boost item (ds ++ [c]) }
    else if c = '.' ∧ ds ≠ [] then some { s with part := .point item ds [] }
    else none
  | .point item int ds =>
    if c.isDigit then some { s with part := .point item int (ds ++ [c]) } else none
  | part => (finish s.items part).map fun items => ⟨s.outer, items, .word [c]⟩

/-- A character that has a meaning of its own. -/
def special (s : State) (c : Char) : Option State :=
  match c with
  | '(' => (finish s.items s.part).map fun items => ⟨items :: s.outer, [], .between⟩
  | ')' =>
    match finish s.items s.part, s.outer with
    | some items, above :: outer =>
      if ready items then some ⟨outer, above, .closed (.group items.reverse)⟩ else none
    | _, _ => none
  | '"' => (finish s.items s.part).map fun items => ⟨s.outer, items, .phrase []⟩
  | '^' => (boostable s.part).map fun item => { s with part := .boost item [] }
  | '~' =>
    match s.part with
    | .closed (.phrase t none) => some { s with part := .slop t [] }
    | _ => none
  | '\\' =>
    match s.part with
    | .word t => some { s with part := .escape t }
    | part => (finish s.items part).map fun items => ⟨s.outer, items, .escape []⟩
  | _ => none

/-- A character outside of quotes that is not escaped. -/
def plainStep (s : State) (c : Char) : Option State :=
  if isBlank c then (finish s.items s.part).map fun items => ⟨s.outer, items, .between⟩
  else if isSpecial c then special s c
  else letter s c

def step (s : State) (c : Char) : Option State :=
  match s.part with
  | .escape t => some { s with part := .word (t ++ ['\\', c]) }
  | .phraseEscape t => some { s with part := .phrase (t ++ ['\\', c]) }
  | .phrase t =>
    if c = '"' then some { s with part := .closed (.phrase t none) }
    else if c = '\\' then some { s with part := .phraseEscape t }
    else some { s with part := .phrase (t ++ [c]) }
  | _ => plainStep s c

def run (s : State) (t : Text) : Option State := t.foldlM step s

/-- The items of a query; there are none in a blank one. -/
def parse (t : Text) : Option (List Item) := do
  let s ← run ⟨[], [], .between⟩ t
  let items ← finish s.items s.part
  if s.outer.isEmpty ∧ (items.isEmpty ∨ ready items) then some items.reverse else none

/-! ## Runs -/

/-- Nothing is escaped or quoted. -/
def Part.outside : Part → Bool
  | .escape _ | .phrase _ | .phraseEscape _ => false
  | _ => true

/-- A character of a word. -/
def isPlain (c : Char) : Bool := !isBlank c && !isSpecial c

section Run

variable {outer : List (List Item)} {items : List Item} {part : Part} {t u w : Text} {item : Item}

@[simp]
theorem run_nil (s : State) : run s [] = some s := rfl

theorem run_cons (s : State) (c : Char) (t : Text) :
    run s (c :: t) = (step s c).bind fun s' => run s' t := rfl

theorem run_append (s : State) (t u : Text) :
    run s (t ++ u) = (run s t).bind fun s' => run s' u :=
  List.foldlM_append

theorem step_outside (h : part.outside = true) (c : Char) :
    step ⟨outer, items, part⟩ c = plainStep ⟨outer, items, part⟩ c := by
  cases part with
  | escape _ | phrase _ | phraseEscape _ => cases h
  | between | word _ | closed _ | slop _ _ | boost _ _ | point _ _ _ => rfl

theorem run_blank (h : part.outside = true) {c : Char} (hc : isBlank c = true) (t : Text) :
    run ⟨outer, items, part⟩ (c :: t) =
      (finish items part).bind fun items => run ⟨outer, items, .between⟩ t := by
  rw [run_cons, step_outside h, plainStep, if_pos hc, Option.bind_map]
  rfl

theorem run_open (h : part.outside = true) (t : Text) :
    run ⟨outer, items, part⟩ ('(' :: t) =
      (finish items part).bind fun items => run ⟨items :: outer, [], .between⟩ t := by
  rw [run_cons, step_outside h]
  exact Option.bind_map ..

theorem run_close (h : part.outside = true) (above : List Item) (t : Text) :
    run ⟨above :: outer, items, part⟩ (')' :: t) =
      (finish items part).bind fun items =>
        if ready items then run ⟨outer, above, .closed (.group items.reverse)⟩ t else none := by
  rw [run_cons, step_outside h]
  change (special ⟨above :: outer, items, part⟩ ')').bind _ = _
  rw [special]
  dsimp only
  cases finish items part with
  | none => rfl
  | some items =>
      dsimp only [Option.bind_some]
      split <;> rfl

theorem run_caret (h : part.outside = true) (t : Text) :
    run ⟨outer, items, part⟩ ('^' :: t) =
      (boostable part).bind fun item => run ⟨outer, items, .boost item []⟩ t := by
  rw [run_cons, step_outside h]
  exact Option.bind_map ..

theorem letter_of_plain {s : State} {c : Char} (hs : s.part.outside = true)
    (hc : isPlain c = true) : step s c = letter s c := by
  obtain ⟨outer, items, part⟩ := s
  rw [isPlain, Bool.and_eq_true, Bool.not_eq_true', Bool.not_eq_true'] at hc
  rw [step_outside hs, plainStep, hc.1, hc.2]
  rfl

theorem run_in_word (h : ∀ c ∈ t, isPlain c = true) (w u : Text) :
    run ⟨outer, items, .word w⟩ (t ++ u) = run ⟨outer, items, .word (w ++ t)⟩ u := by
  induction t generalizing w with
  | nil => rw [List.nil_append, List.append_nil]
  | cons c t ih =>
      rw [List.cons_append, run_cons, letter_of_plain rfl (h c List.mem_cons_self)]
      change run ⟨outer, items, .word (w ++ [c])⟩ (t ++ u) = _
      rw [ih fun d hd => h d (List.mem_cons_of_mem c hd), List.append_assoc, List.singleton_append]

theorem run_word (hne : t ≠ []) (h : ∀ c ∈ t, isPlain c = true) (u : Text) :
    run ⟨outer, items, .between⟩ (t ++ u) = run ⟨outer, items, .word t⟩ u := by
  obtain ⟨c, t, rfl⟩ := List.exists_cons_of_ne_nil hne
  rw [List.cons_append, run_cons, letter_of_plain rfl (h c List.mem_cons_self)]
  exact run_in_word (fun d hd => h d (List.mem_cons_of_mem c hd)) [c] u

theorem run_in_phrase (h : ∀ c ∈ t, c ≠ '"' ∧ c ≠ '\\') (w u : Text) :
    run ⟨outer, items, .phrase w⟩ (t ++ '"' :: u) =
      run ⟨outer, items, .closed (.phrase (w ++ t) none)⟩ u := by
  induction t generalizing w with
  | nil =>
      rw [List.append_nil]
      rfl
  | cons c t ih =>
      have hc := h c List.mem_cons_self
      have hstep : step ⟨outer, items, .phrase w⟩ c =
          some ⟨outer, items, .phrase (w ++ [c])⟩ := by
        change (if c = '"' then _ else if c = '\\' then _ else _) = _
        rw [if_neg hc.1, if_neg hc.2]
      rw [List.cons_append, run_cons, hstep, Option.bind_some,
        ih fun d hd => h d (List.mem_cons_of_mem c hd), List.append_assoc, List.singleton_append]

theorem run_quoted (h : ∀ c ∈ t, c ≠ '"' ∧ c ≠ '\\') (u : Text) :
    run ⟨outer, items, .between⟩ ('"' :: (t ++ '"' :: u)) =
      run ⟨outer, items, .closed (.phrase t none)⟩ u :=
  run_in_phrase h [] u

theorem step_digit {s : State} {c : Char} (hs : s.part.outside = true) (hc : c.isDigit = true) :
    step s c = letter s c := by
  refine letter_of_plain hs ?_
  have hall : ∀ n : Fin 128, (Char.ofNat n).isDigit = true → isPlain (Char.ofNat n) = true := by
    decide
  have hlt : c.toNat < 128 := by
    simp only [Char.isDigit, Bool.and_eq_true, decide_eq_true_eq] at hc
    have hle : c.val.toNat ≤ 57 := hc.2
    exact Nat.lt_of_le_of_lt hle (by decide)
  have hself : Char.ofNat c.toNat = c := Char.ofNat_toNat c
  simpa only [hself] using hall ⟨c.toNat, hlt⟩ (by rw [hself]; exact hc)

theorem run_boost (h : ∀ c ∈ t, c.isDigit = true) (ds u : Text) :
    run ⟨outer, items, .boost item ds⟩ (t ++ u) = run ⟨outer, items, .boost item (ds ++ t)⟩ u := by
  induction t generalizing ds with
  | nil => rw [List.nil_append, List.append_nil]
  | cons c t ih =>
      have hc := h c List.mem_cons_self
      have hstep : letter ⟨outer, items, .boost item ds⟩ c =
          some ⟨outer, items, .boost item (ds ++ [c])⟩ := if_pos hc
      rw [List.cons_append, run_cons, step_digit rfl hc, hstep, Option.bind_some,
        ih fun d hd => h d (List.mem_cons_of_mem c hd), List.append_assoc, List.singleton_append]

theorem run_point (h : ∀ c ∈ t, c.isDigit = true) (int ds u : Text) :
    run ⟨outer, items, .point item int ds⟩ (t ++ u) =
      run ⟨outer, items, .point item int (ds ++ t)⟩ u := by
  induction t generalizing ds with
  | nil => rw [List.nil_append, List.append_nil]
  | cons c t ih =>
      have hc := h c List.mem_cons_self
      have hstep : letter ⟨outer, items, .point item int ds⟩ c =
          some ⟨outer, items, .point item int (ds ++ [c])⟩ := if_pos hc
      rw [List.cons_append, run_cons, step_digit rfl hc, hstep, Option.bind_some,
        ih fun d hd => h d (List.mem_cons_of_mem c hd), List.append_assoc, List.singleton_append]

end Run

end RagFlow.Lucene
