/-
# The tokens of a query

A query is read character by character into words, quoted texts and signs. What a character
does depends on the mode that the text before it has left, so that texts that are put together
are read one after the other.
-/

import RagFlow.Math.Chars
import Mathlib.Data.List.Basic

namespace RagFlow.Sql

/-- What a query language takes for a character of a word, and what for a quote. -/
structure Dialect where
  isWord : Char → Bool
  isQuote : Char → Bool
  /-- A quote is no character of a word. -/
  isWord_quote : ∀ c, isQuote c = true → isWord c = false

inductive Token where
  | word (w : List Char)
  | quoted (q : Char) (t : List Char)
  | sign (c : Char)
deriving DecidableEq

inductive Mode where
  | idle
  | word (w : List Char)
  | inside (q : Char) (t : List Char)
  /-- A quote that closes the text, unless it comes twice. -/
  | after (q : Char) (t : List Char)
deriving DecidableEq

/-- The tokens that the end of the text completes. Inside quotes it may not end. -/
def Mode.flush : Mode → Option (List Token)
  | idle => some []
  | word w => some [.word w]
  | inside _ _ => none
  | after q t => some [.quoted q t]

/-- The quote of a quoted text is a quote of the language. -/
def Mode.Sound (d : Dialect) : Mode → Prop
  | idle => True
  | word _ => True
  | inside q _ => d.isQuote q = true
  | after q _ => d.isQuote q = true

/-- A quote in a quoted text is written twice. -/
def escape (q : Char) (t : List Char) : List Char :=
  t.flatMap fun c => if c = q then [q, q] else [c]

namespace Dialect

variable (d : Dialect)

/-- A character with nothing before it. -/
def start (c : Char) : List Token × Mode :=
  if d.isQuote c then ([], .inside c [])
  else if d.isWord c then ([], .word [c])
  else if c.isWhitespace then ([], .idle)
  else ([.sign c], .idle)

def step : Mode → Char → List Token × Mode
  | .idle, c => d.start c
  | .word w, c =>
    if d.isWord c then ([], .word (w ++ [c])) else (.word w :: (d.start c).1, (d.start c).2)
  | .inside q t, c => ([], if c = q then .after q t else .inside q (t ++ [c]))
  | .after q t, c =>
    if c = q then ([], .inside q (t ++ [q])) else (.quoted q t :: (d.start c).1, (d.start c).2)

def read : Mode → List Char → List Token × Mode
  | m, [] => ([], m)
  | m, c :: cs => ((d.step m c).1 ++ (read (d.step m c).2 cs).1, (read (d.step m c).2 cs).2)

/-- The tokens of a text that follows on a mode. -/
def tokensFrom (m : Mode) (t : List Char) : Option (List Token) :=
  (d.read m t).2.flush.map ((d.read m t).1 ++ ·)

def tokens (t : List Char) : Option (List Token) := d.tokensFrom .idle t

/-- A character that stands between words and quoted texts. -/
def IsApart (c : Char) : Prop := d.isWord c = false ∧ d.isQuote c = false

instance (c : Char) : Decidable (d.IsApart c) :=
  inferInstanceAs (Decidable (d.isWord c = false ∧ d.isQuote c = false))

end Dialect

section Reading

variable {d : Dialect} {m : Mode} {a b t w : List Char} {c q : Char} {ts us : List Token}

@[simp]
theorem tokens_nil : d.tokens [] = some [] := rfl

theorem read_append :
    d.read m (a ++ b) =
      ((d.read m a).1 ++ (d.read (d.read m a).2 b).1, (d.read (d.read m a).2 b).2) := by
  induction a generalizing m with
  | nil => rfl
  | cons c a ih =>
      rw [List.cons_append, Dialect.read, Dialect.read, ih, List.append_assoc]

theorem tokensFrom_append :
    d.tokensFrom m (a ++ b) =
      (d.tokensFrom (d.read m a).2 b).map ((d.read m a).1 ++ ·) := by
  rw [Dialect.tokensFrom, Dialect.tokensFrom, read_append, Option.map_map]
  congr 1
  funext ts
  exact List.append_assoc _ _ _

theorem start_sound : ((d.start c).2).Sound d := by
  rw [Dialect.start]
  split_ifs with hquote
  · exact hquote
  all_goals trivial

theorem step_sound (hm : m.Sound d) : ((d.step m c).2).Sound d := by
  cases m with
  | idle => exact start_sound
  | word w =>
      rw [Dialect.step]
      split_ifs
      · trivial
      · exact start_sound
  | inside q t =>
      rw [Dialect.step]
      split_ifs
      · exact hm
      · exact hm
  | after q t =>
      rw [Dialect.step]
      split_ifs
      · exact hm
      · exact start_sound

theorem read_sound (hm : m.Sound d) : ((d.read m a).2).Sound d := by
  induction a generalizing m with
  | nil => exact hm
  | cons c a ih => exact ih (step_sound hm)

/-- Outside quotes, a character that belongs to no word and is no quote begins anew. -/
theorem step_apart (hm : m.Sound d) (hflush : m.flush = some ts) (hc : d.IsApart c) :
    d.step m c = (ts ++ (d.start c).1, (d.start c).2) := by
  cases m with
  | idle =>
      obtain rfl := Option.some.inj hflush
      rfl
  | word w =>
      obtain rfl := Option.some.inj hflush
      rw [Dialect.step, hc.1]
      rfl
  | inside q t => cases hflush
  | after q t =>
      obtain rfl := Option.some.inj hflush
      have hne : c ≠ q := by
        intro heq
        rw [heq, Dialect.IsApart, hm] at hc
        exact Bool.noConfusion hc.2
      rw [Dialect.step, if_neg hne]
      rfl

/-- After a text whose tokens are complete, a character apart begins anew. -/
theorem tokens_apart (ha : d.tokens a = some ts) (hc : d.IsApart c) :
    d.tokens (a ++ c :: b) = (d.tokens (c :: b)).map (ts ++ ·) := by
  obtain ⟨vs, hflush, hts⟩ := Option.map_eq_some_iff.mp ha
  have hstep := step_apart (read_sound (m := .idle) trivial) hflush hc
  rw [Dialect.tokens, tokensFrom_append, Dialect.tokensFrom, Dialect.read, hstep, Dialect.tokens,
    Dialect.tokensFrom, Dialect.read, Option.map_map, Option.map_map]
  congr 1
  funext us
  rw [Function.comp_apply, Function.comp_apply, ← hts, Dialect.step]
  simp only [List.append_assoc]

theorem start_sign (hc : d.IsApart c) (hspace : c.isWhitespace = false) :
    d.start c = ([.sign c], .idle) := by
  rw [Dialect.start, hc.1, hc.2, hspace]
  rfl

theorem start_space (hc : d.IsApart c) (hspace : c.isWhitespace = true) :
    d.start c = ([], .idle) := by
  rw [Dialect.start, hc.1, hc.2, hspace]
  rfl

theorem start_word (hc : d.isWord c = true) : d.start c = ([], .word [c]) := by
  have hquote : d.isQuote c = false := by
    by_contra h
    rw [Bool.not_eq_false] at h
    exact Bool.noConfusion (hc.symm.trans (d.isWord_quote c h))
  rw [Dialect.start, hc, hquote]
  rfl

theorem tokens_cons_sign (hc : d.IsApart c) (hspace : c.isWhitespace = false) :
    d.tokens (c :: b) = (d.tokens b).map (.sign c :: ·) := by
  rw [Dialect.tokens, Dialect.tokensFrom, Dialect.read, Dialect.step, start_sign hc hspace,
    Dialect.tokens, Dialect.tokensFrom, Option.map_map]
  rfl

theorem tokens_cons_space (hc : d.IsApart c) (hspace : c.isWhitespace = true) :
    d.tokens (c :: b) = d.tokens b := by
  rw [Dialect.tokens, Dialect.tokensFrom, Dialect.read, Dialect.step, start_space hc hspace,
    Dialect.tokens, Dialect.tokensFrom]
  rfl

/-- A sign is a token of its own. -/
theorem tokens_sign (ha : d.tokens a = some ts) (hc : d.IsApart c)
    (hspace : c.isWhitespace = false) :
    d.tokens (a ++ c :: b) = (d.tokens b).map fun us => ts ++ .sign c :: us := by
  rw [tokens_apart ha hc, tokens_cons_sign hc hspace, Option.map_map]
  rfl

/-- A blank only separates. -/
theorem tokens_space (ha : d.tokens a = some ts) (hc : d.IsApart c)
    (hspace : c.isWhitespace = true) :
    d.tokens (a ++ c :: b) = (d.tokens b).map (ts ++ ·) := by
  rw [tokens_apart ha hc, tokens_cons_space hc hspace]

/-! ## Words -/

theorem read_word (hw : ∀ c ∈ w, d.isWord c = true) :
    d.read (.word a) w = ([], .word (a ++ w)) := by
  induction w generalizing a with
  | nil => rw [List.append_nil, Dialect.read]
  | cons c w ih =>
      have hc := hw c List.mem_cons_self
      rw [Dialect.read, Dialect.step, hc, if_pos rfl,
        ih fun x hx => hw x (List.mem_cons_of_mem _ hx), List.append_assoc]
      rfl

theorem read_word_idle (hne : w ≠ []) (hw : ∀ c ∈ w, d.isWord c = true) :
    d.read .idle w = ([], .word w) := by
  cases w with
  | nil => exact absurd rfl hne
  | cons c w =>
      have hc := hw c List.mem_cons_self
      rw [Dialect.read, Dialect.step, start_word hc,
        read_word fun x hx => hw x (List.mem_cons_of_mem _ hx)]
      rfl

theorem tokens_word (hne : w ≠ []) (hw : ∀ c ∈ w, d.isWord c = true) :
    d.tokens w = some [.word w] := by
  rw [Dialect.tokens, Dialect.tokensFrom, read_word_idle hne hw]
  rfl

/-- A word between blanks. -/
theorem tokens_between (hblank : d.IsApart ' ') (hne : w ≠ []) (hw : ∀ c ∈ w, d.isWord c = true)
    (ha : d.tokens a = some ts) :
    d.tokens (a ++ ' ' :: (w ++ ' ' :: b)) = (d.tokens b).map fun us => ts ++ .word w :: us := by
  rw [tokens_space ha hblank (by decide), tokens_space (tokens_word hne hw) hblank (by decide),
    Option.map_map]
  rfl

/-- Texts that are joined with a word between blanks. -/
theorem tokens_intercalate (hblank : d.IsApart ' ') (hne : w ≠ [])
    (hw : ∀ c ∈ w, d.isWord c = true) {texts : List (List Char)} {pieces : List (List Token)}
    (h : List.Forall₂ (fun text piece => d.tokens text = some piece) texts pieces) :
    d.tokens ((' ' :: (w ++ [' '])).intercalate texts) =
      some ([.word w].intercalate pieces) := by
  induction h with
  | nil => rfl
  | @cons text piece texts pieces hfirst hrest ih =>
      cases hrest with
      | nil =>
          rw [List.intercalate_singleton, List.intercalate_singleton]
          exact hfirst
      | cons _ _ =>
          rw [List.intercalate_cons_cons, List.intercalate_cons_cons]
          have happ : ∀ u v : List Char, (u ++ ' ' :: (w ++ [' '])) ++ v =
              u ++ ' ' :: (w ++ ' ' :: v) := by simp
          rw [happ, tokens_between hblank hne hw hfirst, ih]
          simp

/-! ## Quoted texts -/

theorem read_escape (b : List Char) :
    d.read (.inside q t) (escape q b) = ([], .inside q (t ++ b)) := by
  induction b generalizing t with
  | nil => rw [List.append_nil, escape, List.flatMap_nil, Dialect.read]
  | cons c b ih =>
      have hcons : escape q (c :: b) = (if c = q then [q, q] else [c]) ++ escape q b := by
        rw [escape, List.flatMap_cons, escape]
      have hone : d.read (.inside q t) (if c = q then [q, q] else [c]) =
          ([], .inside q (t ++ [c])) := by
        split_ifs with hc
        · subst hc
          simp [Dialect.read, Dialect.step]
        · simp [Dialect.read, Dialect.step, hc]
      rw [hcons, read_append, hone, ih, List.append_assoc]
      rfl

/-- What is written between quotes, with its quotes doubled, is one token. -/
theorem tokens_quoted (hq : d.isQuote q = true) (t : List Char) :
    d.tokens (q :: (escape q t ++ [q])) = some [.quoted q t] := by
  have hstart : d.start q = ([], .inside q []) := by
    rw [Dialect.start, hq]
    rfl
  have hread : d.read .idle (q :: (escape q t ++ [q])) = ([], .after q t) := by
    rw [Dialect.read, Dialect.step, hstart, read_append, read_escape]
    simp [Dialect.read, Dialect.step]
  rw [Dialect.tokens, Dialect.tokensFrom, hread]
  rfl

end Reading

end RagFlow.Sql
