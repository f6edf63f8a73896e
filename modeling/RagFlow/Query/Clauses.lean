/-
# Clauses of a question's query

What each text that is put into a query is read as: boosts with four decimals always are numbers,
weights are where they print without an exponent, tokens are words unless they are connectives,
and synonyms are read if there is a clause among them.
-/

import RagFlow.Query.Tokens

namespace RagFlow.Query

open RagFlow.Lucene RagFlow.Math

/-! ## Numbers -/

theorem isDigit_toDigits (n : ℕ) (c : Char) (hc : c ∈ Nat.toDigits 10 n) : c.isDigit = true :=
  Nat.isDigit_of_mem_toDigits (by decide) (by decide) hc

theorem isDigit_of_mem_leftpad {n : ℕ} {ds : Text} (hds : ∀ c ∈ ds, c.isDigit = true) (c : Char)
    (hc : c ∈ ds.leftpad n '0') : c.isDigit = true := by
  rw [List.leftpad, List.mem_append] at hc
  rcases hc with hc | hc
  · rw [(List.mem_replicate.mp hc).2]
    rfl
  · exact hds c hc

theorem isNumber_fixed (places : ℕ) (q : ℚ) : IsNumber (fixed places q) := by
  refine .point _ _ Nat.toDigits_ne_nil (fun hnil => ?_) (isDigit_toDigits _)
    (isDigit_of_mem_leftpad (isDigit_toDigits _))
  rw [List.leftpad, List.append_eq_nil_iff] at hnil
  exact Nat.toDigits_ne_nil hnil.2

theorem isDigit_of_mem_replicate {n : ℕ} (c : Char) (hc : c ∈ List.replicate n '0') :
    c.isDigit = true := by
  rw [(List.mem_replicate.mp hc).2]
  rfl

theorem isNumber_str {w : Weight} (h : w.Plain) : IsNumber w.str := by
  have hds := isDigit_toDigits w.digits
  rw [Weight.str]
  dsimp only
  rw [if_pos h]
  split
  · refine .point ['0'] _ (List.cons_ne_nil _ _) (fun hnil => ?_) (by decide) fun c hc => ?_
    · exact Nat.toDigits_ne_nil (List.append_eq_nil_iff.mp hnil).2
    · rcases List.mem_append.mp hc with hc | hc
      · exact isDigit_of_mem_replicate c hc
      · exact hds c hc
  · next hpos =>
      split
      · refine .point _ ['0'] (fun hnil => ?_) (List.cons_ne_nil _ _) (fun c hc => ?_) (by decide)
        · exact Nat.toDigits_ne_nil (List.append_eq_nil_iff.mp hnil).1
        · rcases List.mem_append.mp hc with hc | hc
          · exact hds c hc
          · exact isDigit_of_mem_replicate c hc
      · next hlong =>
          refine .point _ _ (fun hnil => ?_) (fun hnil => ?_)
            (fun c hc => hds c (List.mem_of_mem_take hc))
            fun c hc => hds c (List.mem_of_mem_drop hc)
          · rcases List.take_eq_nil_iff.mp hnil with hzero | hnil
            · omega
            · exact Nat.toDigits_ne_nil hnil
          · have hle := List.drop_eq_nil_iff.mp hnil
            omega

/-- An exponent is in the way. -/
theorem run_str_none {w : Weight} (h : ¬ w.Plain) (item : Item) (outer : List (List Item))
    (items : List Item) : run ⟨outer, items, .boost item []⟩ w.str = none := by
  have hds := isDigit_toDigits w.digits
  obtain ⟨d, ds, hcons⟩ := List.exists_cons_of_ne_nil (@Nat.toDigits_ne_nil w.digits 10)
  rw [hcons] at hds
  have hfirst : ∀ c ∈ [d], c.isDigit = true := fun c hc =>
    hds c (List.mem_cons.mpr (.inl (List.mem_singleton.mp hc)))
  rw [Weight.str]
  dsimp only
  rw [if_neg h, hcons, List.tail_cons]
  split
  · rw [List.append_nil]
    exact (run_boost hfirst [] _).trans rfl
  · next hne =>
      rw [List.append_assoc]
      exact (run_to_point (List.cons_ne_nil d []) hfirst
        (fun c hc => hds c (List.mem_cons_of_mem d hc)) _).trans rfl

theorem reads_boosted_str {t : Text} {r : Option Item} (h : Closes t r) (w : Weight) :
    Reads (boosted t w.str)
      (if w.Plain then r.map fun item => .boosted item w.str else none) := by
  split
  · next hw => exact h.boost (isNumber_str hw)
  · next hw => exact h.boost_none fun item outer items => run_str_none hw item outer items

/-! ## Questions in English -/

section English

variable {q : Queryer} (htok : Tokenizes q.tw.tokenize)
include htok

theorem isToken_of_mem_tokens {txt tk : Text} (h : tk ∈ q.tokens txt) : IsToken tk :=
  isToken_of_mem_split htok h

theorem mem_tokenSynonyms {tk s : Text} (h : s ∈ q.tokenSynonyms tk) {c : Char} (hc : c ∈ s) :
    isTokenChar c = true ∨ c = ' ' := by
  obtain ⟨u, _, rfl⟩ := List.mem_map.mp h
  exact mem_tokenize htok (List.mem_filter.mp hc).1

omit htok in
/-- Nothing is cleaned from tokens. -/
theorem cleanTokens_eq {tks : List (Text × Weight)} (h : ∀ x ∈ tks, IsToken x.1) :
    Queryer.cleanTokens tks = tks := by
  have hfirst : (tks.map fun x => (x.1.filter fun c => decide (c ∉ " \\\"'^".toList), x.2)) =
      tks := by
    refine (List.map_congr_left fun x hx => ?_).trans (List.map_id _)
    have hall : x.1.filter (fun c => decide (c ∉ " \\\"'^".toList)) = x.1 :=
      List.filter_eq_self.mpr fun c hc =>
        decide_eq_true (not_mem_of_isTokenChar ((h x hx).2 c hc) (by decide))
    rw [hall]
    rfl
  have hsecond : tks.filter (fun x => decide (x.1 ≠ [])) = tks :=
    List.filter_eq_self.mpr fun x hx => decide_eq_true (h x hx).1
  have hthird : (tks.map fun x =>
      (if x.1.head?.any (· ∈ ['+', '-']) then x.1.tail else x.1, x.2)) = tks := by
    refine (List.map_congr_left fun x hx => ?_).trans (List.map_id _)
    obtain ⟨c, t, ht, hc⟩ := (h x hx).isTerm.head
    have hnot : (x.1.head?.any fun c => decide (c ∈ ['+', '-'])) = false := by
      rw [ht]
      exact decide_eq_false (not_mem_of_isTokenChar hc (by decide))
    rw [hnot]
    rfl
  have hfourth : tks.filter (fun x => decide (strip x.1 ≠ [])) = tks :=
    List.filter_eq_self.mpr fun x hx => by
      rw [(h x hx).isTerm.strip_eq]
      exact decide_eq_true (h x hx).1
  have hfifth : (tks.map fun x => (strip x.1, x.2)) = tks := by
    refine (List.map_congr_left fun x hx => ?_).trans (List.map_id _)
    rw [(h x hx).isTerm.strip_eq]
    rfl
  rw [Queryer.cleanTokens]
  dsimp only
  rw [hfirst, hsecond, hthird, hfourth, hfifth]

/-- A token with its synonyms as a clause. -/
def tokenItem (q : Queryer) (tk : Text) (w : Weight) : Item :=
  .group (.boosted (.word tk) (fixed 4 w.value) ::
    ((q.tokenSynonyms tk).filter fun s => strip s ≠ []).map fun s =>
      .boosted (.phrase s none) (fixed 4 (w.value / 4)))

theorem closes_tokenClause {tk : Text} (htk : IsToken tk) (w : Weight) :
    Closes (q.tokenClause tk w) (if tk ∈ reserved then none else some (tokenItem q tk w)) := by
  have hword := reads_word_boost htk.1 (isPlain_of_mem htk) (isNumber_fixed 4 w.value)
  have hsyns : ∀ s ∈ (q.tokenSynonyms tk).filter fun s => strip s ≠ [],
      Reads (boosted (quote s) (fixed 4 (w.value / 4)))
        (some (.boosted (.phrase s none) (fixed 4 (w.value / 4)))) := fun s hs =>
    (closes_quoted (quotable_of_mem fun c hc =>
      mem_tokenSynonyms htok (List.mem_filter.mp hs).1 hc)).boost (isNumber_fixed 4 _)
  have hbody := (hword.body.blank_join hsyns).closes
  rw [mapM_eq_map fun s _ => rfl] at hbody
  change Closes (q.tokenClause tk w) _ at hbody
  convert hbody using 1
  by_cases hres : tk ∈ reserved
  · rw [if_pos hres, if_pos hres]
    rfl
  · rw [if_neg hres, if_neg hres]
    have hready : ∀ is : List Item, (∀ i ∈ is, i.isClause = true) →
        ready (is.reverse ++ [.boosted (.word tk) (fixed 4 w.value)]) = true := by
      intro is his
      refine ready_of_isClause (List.append_ne_nil_of_right_ne_nil _ (List.cons_ne_nil _ _))
        fun i hi => ?_
      rcases List.mem_append.mp hi with hi | hi
      · exact his i (List.mem_reverse.mp hi)
      · rw [List.mem_singleton.mp hi]
        rfl
    simp only [Option.map_some, Option.bind_some]
    rw [if_pos (hready _ fun i hi => ?_), List.reverse_append, List.reverse_reverse]
    · rfl
    · obtain ⟨s, _, rfl⟩ := List.mem_map.mp hi
      rfl

/-- Two tokens that follow each other as a clause. -/
def pairItem (l r : Text × Weight) : Item :=
  .boosted (.phrase (l.1 ++ ' ' :: r.1) none) (fixed 4 (max l.2.value r.2.value * 2))

omit htok in
theorem reads_pair {l r : Text × Weight} (hl : IsToken l.1) (hr : IsToken r.1) :
    Reads (boosted (quote (l.1 ++ ' ' :: r.1)) (fixed 4 (max l.2.value r.2.value * 2)))
      (some (pairItem l r)) := by
  refine (closes_quoted (quotable_of_mem fun c hc => ?_)).boost (isNumber_fixed 4 _)
  rcases List.mem_append.mp hc with hc | hc
  · exact .inl (hl.2 c hc)
  · rcases List.mem_cons.mp hc with rfl | hc
    · exact .inr rfl
    · exact .inl (hr.2 c hc)

/-- The texts that are put into the query for tokens, with what they are read as. -/
def englishClauses (q : Queryer) (tksW : List (Text × Weight)) : List (Text × Option Item) :=
  ((tksW.take 256).map fun x =>
    (q.tokenClause x.1 x.2, if x.1 ∈ reserved then none else some (tokenItem q x.1 x.2))) ++
  (tksW.zip tksW.tail).map fun x =>
    (boosted (quote (x.1.1 ++ ' ' :: x.2.1)) (fixed 4 (max x.1.2.value x.2.2.value * 2)),
      some (pairItem x.1 x.2))

theorem reads_englishClauses {tksW : List (Text × Weight)} (h : ∀ x ∈ tksW, IsToken x.1) :
    ∀ a ∈ englishClauses q tksW, Reads a.1 a.2 := by
  intro a ha
  rcases List.mem_append.mp ha with ha | ha
  · obtain ⟨x, hx, rfl⟩ := List.mem_map.mp ha
    exact (closes_tokenClause htok (h x (List.mem_of_mem_take hx)) x.2).reads
  · obtain ⟨x, hx, rfl⟩ := List.mem_map.mp ha
    obtain ⟨hl, hr⟩ := List.of_mem_zip (a := x.1) (b := x.2) hx
    exact reads_pair (h _ hl) (h _ (List.mem_of_mem_tail hr))

/-- The query of a question in English is made of these texts, if there is a token. -/
theorem english_eq (txt : Text) :
    (q.english txt).1 =
      if q.tokens (rmWWW txt) = [] then rmWWW txt
      else joinBlank ((englishClauses q
        (q.tw.tokenWeights (q.tokens (rmWWW txt)))).map Prod.fst) := by
  have htokens : ∀ x ∈ q.tw.tokenWeights (q.tokens (rmWWW txt)), IsToken x.1 := by
    intro x hx
    obtain ⟨tk, htk, rfl⟩ := List.mem_map.mp hx
    exact isToken_of_mem_tokens htok htk
  rw [Queryer.english]
  dsimp only
  rw [cleanTokens_eq htokens]
  generalize htks : q.tokens (rmWWW txt) = tks at htokens ⊢
  generalize hw : q.tw.tokenWeights tks = tksW at htokens ⊢
  have hclauses : (tksW.take 256).filter (fun x =>
      decide (x.1 ≠ [] ∧ !x.1.head?.any (· ∈ ".^+()-".toList))) = tksW.take 256 := by
    refine List.filter_eq_self.mpr fun x hx => decide_eq_true ?_
    obtain ⟨c, t, ht, hc⟩ := (htokens x (List.mem_of_mem_take hx)).isTerm.head
    rw [ht]
    refine ⟨List.cons_ne_nil c t, ?_⟩
    rw [List.head?_cons, Option.any_some, Bool.not_eq_true']
    exact decide_eq_false (not_mem_of_isTokenChar hc (by decide))
  have hpairs : (tksW.zip tksW.tail).filter (fun x =>
      decide (strip x.1.1 ≠ [] ∧ strip x.2.1 ≠ [])) = tksW.zip tksW.tail := by
    refine List.filter_eq_self.mpr fun x hx => decide_eq_true ?_
    obtain ⟨hl, hr⟩ := List.of_mem_zip (a := x.1) (b := x.2) hx
    have hl := htokens _ hl
    have hr := htokens _ (List.mem_of_mem_tail hr)
    rw [hl.isTerm.strip_eq, hr.isTerm.strip_eq]
    exact ⟨hl.1, hr.1⟩
  have htexts : ((tksW.take 256).filter (fun x =>
        decide (x.1 ≠ [] ∧ !x.1.head?.any (· ∈ ".^+()-".toList)))).map
        (fun x => q.tokenClause x.1 x.2) ++ Queryer.pairClauses tksW =
      (englishClauses q tksW).map Prod.fst := by
    rw [hclauses, Queryer.pairClauses, hpairs, englishClauses, List.map_append, List.map_map,
      List.map_map]
    rfl
  rw [htexts]
  have hempty : (englishClauses q tksW).map Prod.fst = [] ↔ tks = [] := by
    rw [← hw, englishClauses, TermWeight.tokenWeights]
    cases tks <;> simp
  by_cases hnil : tks = []
  · rw [if_pos hnil, if_pos (hempty.mpr hnil), joinBlank, List.intercalate_singleton]
  · rw [if_neg hnil, if_neg fun h => hnil (hempty.mp h)]

theorem parse_english {txt : Text} (hne : q.tokens (rmWWW txt) ≠ []) :
    parse (q.english txt).1 = (englishClauses q
      (q.tw.tokenWeights (q.tokens (rmWWW txt)))).mapM Prod.snd := by
  rw [english_eq htok, if_neg hne]
  refine parse_join (reads_englishClauses htok fun x hx => ?_)
  obtain ⟨tk, htk, rfl⟩ := List.mem_map.mp hx
  exact isToken_of_mem_tokens htok htk

/-- A question in English with tokens gives a query exactly if no token that is put into it is a
connective. -/
theorem english_iff {txt : Text} (hne : q.tokens (rmWWW txt) ≠ []) :
    (∃ items, parse (q.english txt).1 = some items ∧ items ≠ []) ↔
      ∀ tk ∈ (q.tokens (rmWWW txt)).take 256, tk ∉ reserved := by
  rw [parse_english htok hne]
  generalize q.tokens (rmWWW txt) = tks at hne ⊢
  have hsome : ((englishClauses q (q.tw.tokenWeights tks)).mapM Prod.snd).isSome ↔
      ∀ tk ∈ tks.take 256, tk ∉ reserved := by
    rw [isSome_mapM, englishClauses, TermWeight.tokenWeights, ← List.map_take]
    constructor
    · intro h tk htk hres
      have hclause := h _ (List.mem_append_left _ (List.mem_map_of_mem (List.mem_map_of_mem htk)))
      rw [if_pos hres] at hclause
      cases hclause
    · intro h a ha
      rcases List.mem_append.mp ha with ha | ha
      · obtain ⟨x, hx, rfl⟩ := List.mem_map.mp ha
        obtain ⟨tk, htk, rfl⟩ := List.mem_map.mp hx
        rw [if_neg (h tk htk)]
        rfl
      · obtain ⟨x, _, rfl⟩ := List.mem_map.mp ha
        rfl
  rw [← hsome, Option.isSome_iff_exists]
  refine exists_congr fun items => and_iff_left_of_imp fun hitems hnil => ?_
  rw [hnil, mapM_eq_some_iff] at hitems
  cases tks with
  | nil => exact hne rfl
  | cons tk tks => cases hitems

end English

end RagFlow.Query
