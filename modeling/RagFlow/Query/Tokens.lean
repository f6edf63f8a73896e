/-
# Tokens and terms

Tokens are made of letters, digits and underscores, and terms are tokens with blanks between them.
What is done to clean and to escape them leaves them as they are.
-/

import Mathlib
import RagFlow.Lucene.Words
import RagFlow.Query.Question

namespace RagFlow.Query

open RagFlow.Lucene RagFlow.Math
open RagFlow.Ingestion (isSpace)

/-- A letter, a digit or an underscore, where beyond ASCII all but spaces may count as letters. -/
def isTokenChar (c : Char) : Bool := c.isAlphanum || c = '_' || (128 ≤ c.toNat && !isSpace c)

def IsToken (w : Text) : Prop := w ≠ [] ∧ ∀ c ∈ w, isTokenChar c = true

/-- A tokenizer returns tokens with blanks between them. -/
def Tokenizes (tokenize : Text → Text) : Prop :=
  ∀ t, ∃ ws : List Text, tokenize t = joinBlank ws ∧ ∀ w ∈ ws, IsToken w

/-- Tokens with blanks between them. -/
def IsTerm (t : Text) : Prop :=
  ∃ ws : List Text, ws ≠ [] ∧ t = joinBlank ws ∧ ∀ w ∈ ws, IsToken w

variable {c : Char} {t w : Text} {ws : List Text}

/-! ## Characters -/

theorem isAlphanum_lt (h : c.isAlphanum = true) : c.toNat < 128 := by
  simp only [Char.isAlphanum, Char.isAlpha, Char.isUpper, Char.isLower, Char.isDigit,
    Bool.or_eq_true, Bool.and_eq_true, decide_eq_true_eq] at h
  have hz : c.toNat ≤ 122 := by
    rcases h with (⟨_, h⟩ | ⟨_, h⟩) | ⟨_, h⟩
    · exact le_trans (UInt32.le_iff_toNat_le.mp h) (by decide)
    · exact UInt32.le_iff_toNat_le.mp h
    · exact le_trans (UInt32.le_iff_toNat_le.mp h) (by decide)
  omega

/-- Nothing in ASCII but letters, digits and underscores is in a token. -/
theorem isTokenChar_spec (h : isTokenChar c = true) :
    c.isAlphanum = true ∨ c = '_' ∨ 128 ≤ c.toNat ∧ isSpace c = false := by
  simp only [isTokenChar, Bool.or_eq_true, Bool.and_eq_true, decide_eq_true_eq,
    Bool.not_eq_true'] at h
  tauto

theorem ne_of_isTokenChar {d : Char} (h : isTokenChar c = true) (hd : isTokenChar d = false) :
    c ≠ d := by
  rintro rfl
  rw [h] at hd
  cases hd

theorem not_isSpace (h : isTokenChar c = true) : isSpace c = false := by
  rcases isTokenChar_spec h with h | rfl | ⟨_, h⟩
  · have hall : ∀ n : Fin 128, (Char.ofNat n).isAlphanum = true →
        isSpace (Char.ofNat n) = false := by decide
    have hself := hall ⟨c.toNat, isAlphanum_lt h⟩
    rw [Char.ofNat_toNat] at hself
    exact hself h
  · decide
  · exact h

theorem not_mem_of_isTokenChar {l : List Char} (h : isTokenChar c = true)
    (hl : ∀ d ∈ l, isTokenChar d = false) : c ∉ l := fun hmem => by
  rw [hl c hmem] at h
  cases h

theorem isPlain_of_isTokenChar (h : isTokenChar c = true) : isPlain c = true := by
  rw [isPlain, Bool.and_eq_true, Bool.not_eq_true', Bool.not_eq_true', isBlank, isSpecial,
    decide_eq_false_iff_not, decide_eq_false_iff_not]
  exact ⟨not_mem_of_isTokenChar h (by decide), not_mem_of_isTokenChar h (by decide)⟩

theorem isPlain_of_mem (h : IsToken w) (c : Char) (hc : c ∈ w) : isPlain c = true :=
  isPlain_of_isTokenChar (h.2 c hc)

/-! ## Joins of tokens -/

theorem mem_joinBlank (hws : ∀ w ∈ ws, IsToken w) (hc : c ∈ joinBlank ws) :
    isTokenChar c = true ∨ c = ' ' := by
  cases ws with
  | nil => cases hc
  | cons w ws =>
      rw [joinBlank, intercalate_cons_eq, List.mem_append, List.mem_flatMap] at hc
      rcases hc with hc | ⟨u, hu, hc⟩
      · exact .inl ((hws w List.mem_cons_self).2 c hc)
      · rcases List.mem_cons.mp hc with rfl | hc
        · exact .inr rfl
        · exact .inl ((hws u (List.mem_cons_of_mem w hu)).2 c hc)

theorem split_joinBlank (hws : ∀ w ∈ ws, IsToken w) : split (joinBlank ws) = ws :=
  cut_intercalate_of_pieces (by decide) fun w hw =>
    ⟨(hws w hw).1, fun c hc => not_isSpace ((hws w hw).2 c hc)⟩

theorem strip_eq_self (hfirst : ∀ c ∈ t.head?, isSpace c = false)
    (hlast : ∀ c ∈ t.getLast?, isSpace c = false) : strip t = t := by
  have hdrop : t.dropWhile isSpace = t := by
    refine List.dropWhile_eq_self_iff.mpr fun hpos => ?_
    have hhead : t[0] ∈ t.head? := by
      rw [List.head?_eq_getElem?]
      exact List.getElem?_eq_getElem hpos
    rw [hfirst _ hhead]
    exact Bool.false_ne_true
  have hrdrop : t.rdropWhile isSpace = t := by
    refine List.rdropWhile_eq_self_iff.mpr fun hne => ?_
    rw [hlast _ (List.getLast?_eq_some_getLast hne)]
    exact Bool.false_ne_true
  rw [strip, hdrop, hrdrop]

theorem getLast?_joinBlank (hws : ∀ w ∈ ws, IsToken w) :
    ∀ c ∈ (joinBlank ws).getLast?, isTokenChar c = true := by
  induction ws with
  | nil =>
      intro c hc
      cases hc
  | cons w ws ih =>
      cases ws with
      | nil =>
          intro c hc
          rw [joinBlank, List.intercalate_singleton] at hc
          exact (hws w List.mem_cons_self).2 c (List.mem_of_mem_getLast? hc)
      | cons u ws =>
          have hrest : ∀ v ∈ u :: ws, IsToken v := fun v hv => hws v (List.mem_cons_of_mem w hv)
          have hne : joinBlank (u :: ws) ≠ [] := by
            rw [joinBlank, intercalate_cons_eq]
            exact List.append_ne_nil_of_left_ne_nil (hrest u List.mem_cons_self).1 _
          intro c hc
          refine ih hrest c ?_
          rw [joinBlank, List.intercalate_cons_cons] at hc
          change c ∈ (w ++ [' '] ++ joinBlank (u :: ws)).getLast? at hc
          rwa [List.getLast?_append_of_ne_nil _ hne] at hc

theorem IsTerm.mem (h : IsTerm t) (hc : c ∈ t) : isTokenChar c = true ∨ c = ' ' := by
  obtain ⟨ws, _, rfl, hws⟩ := h
  exact mem_joinBlank hws hc

theorem IsTerm.head (h : IsTerm t) : ∃ c t', t = c :: t' ∧ isTokenChar c = true := by
  obtain ⟨ws, hne, rfl, hws⟩ := h
  obtain ⟨w, ws, rfl⟩ := List.exists_cons_of_ne_nil hne
  obtain ⟨c, w, rfl⟩ := List.exists_cons_of_ne_nil (hws w List.mem_cons_self).1
  rw [joinBlank, intercalate_cons_eq]
  exact ⟨c, _, rfl, (hws _ List.mem_cons_self).2 c List.mem_cons_self⟩

theorem IsTerm.ne_nil (h : IsTerm t) : t ≠ [] := by
  obtain ⟨_, _, rfl, _⟩ := h.head
  exact List.cons_ne_nil _ _

theorem IsTerm.strip_eq (h : IsTerm t) : strip t = t := by
  obtain ⟨c, t', ht, hc⟩ := h.head
  obtain ⟨ws, _, heq, hws⟩ := h
  refine strip_eq_self (fun d hd => ?_) fun d hd => ?_
  · rw [ht, List.head?_cons, Option.mem_some_iff] at hd
    exact hd ▸ not_isSpace hc
  · rw [heq] at hd
    exact not_isSpace (getLast?_joinBlank hws d hd)

theorem IsToken.isTerm (h : IsToken w) : IsTerm w := by
  refine ⟨[w], List.cons_ne_nil w [], ?_, fun u hu => ?_⟩
  · rw [joinBlank, List.intercalate_singleton]
  · rw [List.mem_singleton.mp hu]
    exact h

theorem IsTerm.isToken (h : IsTerm t) (hblank : ' ' ∉ t) : IsToken t :=
  ⟨h.ne_nil, fun _ hc => (h.mem hc).resolve_right fun heq => hblank (heq ▸ hc)⟩

theorem hasBlankInside_iff (h : IsTerm t) : hasBlankInside t = true ↔ ' ' ∈ t := by
  obtain ⟨c, t', rfl, hc⟩ := h.head
  have hne : c ≠ ' ' := ne_of_isTokenChar hc (by decide)
  rw [hasBlankInside, decide_eq_true_eq]
  exact and_iff_left fun heq => hne (Option.some.inj heq)

/-- What is between quotes has neither a quote nor a backslash in it. -/
theorem quotable_of_mem (h : ∀ c ∈ t, isTokenChar c = true ∨ c = ' ') :
    ∀ c ∈ t, c ≠ '"' ∧ c ≠ '\\' := fun c hc => by
  rcases h c hc with h | rfl
  · exact ⟨ne_of_isTokenChar h (by decide), ne_of_isTokenChar h (by decide)⟩
  · decide

/-- Nothing in a term is escaped. -/
theorem IsTerm.subSpecialChar_eq (h : IsTerm t) : subSpecialChar t = t := by
  have hfilter : t.filter (fun x => decide (x ≠ '\'')) = t := by
    refine List.filter_eq_self.mpr fun c hc => ?_
    rcases h.mem hc with h | rfl
    · exact decide_eq_true (ne_of_isTokenChar h (by decide))
    · decide
  have hflat : ∀ u : Text, (∀ c ∈ u, isTokenChar c = true ∨ c = ' ') →
      u.flatMap (fun c =>
        if c ∈ ":\x7b\x7d/[]-*?\"()|+~^".toList then ['\\', c] else [c]) = u := by
    intro u hu
    induction u with
    | nil => rfl
    | cons c u ih =>
        have hc : c ∉ ":\x7b\x7d/[]-*?\"()|+~^".toList := by
          rcases hu c List.mem_cons_self with h | rfl
          · exact not_mem_of_isTokenChar h (by decide)
          · decide
        rw [List.flatMap_cons, if_neg hc, ih fun d hd => hu d (List.mem_cons_of_mem c hd)]
        rfl
  rw [subSpecialChar, hfilter, hflat t fun c hc => h.mem hc, h.strip_eq]

/-! ## Tokenizers -/

section Tokenizer

variable {tokenize : Text → Text} (htok : Tokenizes tokenize)
include htok

theorem isToken_of_mem_split {s : Text} (h : w ∈ split (tokenize s)) : IsToken w := by
  obtain ⟨ws, hs, hws⟩ := htok s
  rw [hs, split_joinBlank hws] at h
  exact hws w h

theorem mem_tokenize {s : Text} (h : c ∈ tokenize s) : isTokenChar c = true ∨ c = ' ' := by
  obtain ⟨ws, hs, hws⟩ := htok s
  exact mem_joinBlank hws (hs ▸ h)

theorem tokenize_eq_nil_or_isTerm (s : Text) : tokenize s = [] ∨ IsTerm (tokenize s) := by
  obtain ⟨ws, hs, hws⟩ := htok s
  by_cases hne : ws = []
  · left
    rw [hs, hne]
    rfl
  · exact .inr ⟨ws, hne, hs, hws⟩

end Tokenizer

/-! ## Terms of a part -/

theorem isTerm_of_mem_mergeFrom {fuel : ℕ} {tks : List Text} (htks : ∀ w ∈ tks, IsToken w)
    (h : t ∈ TermWeight.mergeFrom fuel tks) : IsTerm t := by
  induction fuel generalizing tks with
  | zero =>
      rw [TermWeight.mergeFrom] at h
      cases h
  | succ fuel ih =>
      cases tks with
      | nil =>
          rw [TermWeight.mergeFrom] at h
          cases h
          simp
      | cons u tks =>
          have hrest : ∀ w ∈ tks, IsToken w := fun w hw => htks w (List.mem_cons_of_mem u hw)
          rw [TermWeight.mergeFrom] at h
          dsimp only at h
          split at h
          · next hshort =>
            rcases List.mem_cons.mp h with rfl | h
            · refine ⟨_, fun hnil => ?_, rfl, fun w hw => htks w (List.mem_of_mem_take hw)⟩
              rcases List.take_eq_nil_iff.mp hnil with hzero | hnil
              · split at hzero
                · omega
                · cases hzero
              · cases hnil
            · exact ih (fun w hw => htks w (List.mem_of_mem_drop hw)) h
          · split at h
            · exact ih hrest h
            · rcases List.mem_cons.mp h with rfl | h
              · exact (htks _ List.mem_cons_self).isTerm
              · exact ih hrest h

theorem isTerm_of_mem_tokenMerge {tks : List Text} (htks : ∀ w ∈ tks, IsToken w)
    (h : t ∈ TermWeight.tokenMerge tks) : IsTerm t := by
  rw [TermWeight.tokenMerge.eq_def] at h
  split at h
  · next first second rest =>
      split at h
      · rcases List.mem_cons.mp h with rfl | h
        · refine ⟨[first, second], List.cons_ne_nil _ _, rfl, fun w hw => htks w ?_⟩
          simp only [List.mem_cons, List.not_mem_nil, or_false] at hw ⊢
          tauto
        · exact isTerm_of_mem_mergeFrom (fun w hw => htks w (by simp [hw])) h
      · exact isTerm_of_mem_mergeFrom htks h
  · exact isTerm_of_mem_mergeFrom htks h

theorem isTerm_of_mem_weights {tw : TermWeight} (htok : Tokenizes tw.tokenize) {tt : Text}
    {x : Text × Weight} (h : x ∈ tw.weights tt) : IsTerm x.1 := by
  obtain ⟨u, hu, rfl⟩ := List.mem_map.mp h
  exact isTerm_of_mem_tokenMerge
    (fun w hw => isToken_of_mem_split htok (List.mem_filter.mp hw).1) hu

end RagFlow.Query
