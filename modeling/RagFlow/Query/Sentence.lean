/-
# Which questions give a query that is read

A query is read except where the cleaned question is put into it as it is, with signs or as a
blank, where a connective or nothing at all stands for a term or its synonyms, and where a weight
prints with an exponent.
-/

import RagFlow.Query.Parts

namespace RagFlow.Query

open RagFlow.Lucene RagFlow.Math
open RagFlow.Ingestion (isSpace)

/-! ## Characters that are left -/

theorem mem_substRuns {p : Char → Bool} {new t : Text} {c : Char} (h : c ∈ substRuns p new t) :
    c ∈ new ∨ p c = false := by
  rcases mem_substitute h with ⟨u, _, hm⟩ | ⟨u, n, r, _, hm, hr⟩
  · right
    rw [Option.map_eq_none_iff, takeRun] at hm
    split at hm
    · next hnil =>
        cases hp : p c with
        | false => rfl
        | true =>
            rw [List.takeWhile_cons_of_pos hp] at hnil
            cases hnil
    · cases hm
  · left
    obtain ⟨_, _, hx⟩ := Option.map_eq_some_iff.mp hm
    rw [Prod.mk.injEq] at hx
    rw [hx.2]
    exact hr

theorem mem_of_mem_strip {t : Text} {c : Char} (h : c ∈ strip t) : c ∈ t :=
  (List.dropWhile_suffix _).subset ((List.rdropWhile_prefix _ _).subset h)

/-- In a substitution by nothing or a blank, nothing but blanks is new. -/
theorem mem_of_mem_substitute {m : Matcher Char} {t : Text} {c : Char}
    (hm : ∀ u n r, m u = some (n, r) → r = [] ∨ r = [' ']) (h : c ∈ substitute m t) :
    c ∈ t ∨ c = ' ' := by
  rcases mem_substitute h with ⟨u, hu, _⟩ | ⟨u, n, r, _, hr, hc⟩
  · exact .inl (hu.subset List.mem_cons_self)
  · rcases hm u n r hr with rfl | rfl
    · cases hc
    · exact .inr (List.mem_singleton.mp hc)

theorem mem_of_mem_removeStopWords {fold : Char → Char} {isStop : Text → Bool} {t : Text}
    {c : Char} (h : c ∈ removeStopWords fold isStop t) : c ∈ t ∨ c = ' ' := by
  have hblank : ∀ u n r, stopMatcher fold isStop u = some (n, r) → r = [] ∨ r = [' '] := by
    intro u n r hr
    rw [stopMatcher.eq_def] at hr
    split at hr
    · obtain ⟨_, _, hx⟩ := Option.map_eq_some_iff.mp hr
      rw [Prod.mk.injEq] at hx
      exact .inr hx.2.symm
    · cases hr
  rw [removeStopWords] at h
  split at h
  · rcases List.mem_cons.mp h with rfl | h
    · exact .inr rfl
    · rcases mem_of_mem_substitute hblank h with h | rfl
      · exact .inl (List.mem_of_mem_drop h)
      · exact .inr rfl
  · exact mem_of_mem_substitute hblank h

theorem mem_of_mem_rmWWW {t : Text} {c : Char} (h : c ∈ rmWWW t) : c ∈ t ∨ c = ' ' := by
  have hzh : ∀ u n r, ((zhStopLength u).map fun n => (n - 1, ([] : Text))) = some (n, r) →
      r = [] ∨ r = [' '] := by
    intro u n r hr
    obtain ⟨_, _, hx⟩ := Option.map_eq_some_iff.mp hr
    rw [Prod.mk.injEq] at hx
    exact .inl hx.2.symm
  rw [rmWWW, rmWWWBy] at h
  split at h
  · exact .inl h
  · rcases mem_of_mem_removeStopWords h with h | rfl
    · rcases mem_of_mem_removeStopWords h with h | rfl
      · exact mem_of_mem_substitute hzh h
      · exact .inr rfl
    · exact .inr rfl

variable {q : Queryer} {txt : Text}

/-- No special characters but signs are left of a question. -/
theorem special_of_mem_cleaned {c : Char} (h : c ∈ q.cleaned txt) (hc : isSpecial c = true) :
    c = '+' ∨ c = '-' := by
  rcases mem_substRuns (mem_of_mem_strip h) with h | h
  · rw [List.mem_singleton.mp h] at hc
    exact absurd hc (by decide)
  · simp only [isSpecial, List.mem_cons, List.not_mem_nil, or_false, decide_eq_true_eq] at hc
    rcases hc with rfl | rfl | rfl | rfl | rfl | rfl | rfl | rfl | rfl | rfl | rfl | rfl | rfl |
      rfl | rfl | rfl | rfl | rfl | rfl
    · exact .inl rfl
    · exact .inr rfl
    all_goals
      revert h
      decide

/-! ## The cleaned question as a query -/

/-- The text has no signs, and there are clauses in it. -/
def RawReads (x : Text) : Prop := '+' ∉ x ∧ '-' ∉ x ∧ ReadsAsClauses (cut isBlank x)

theorem parse_raw_iff {x : Text} (hx : ∀ c ∈ x, isSpecial c = true → c = '+' ∨ c = '-') :
    (∃ items, parse x = some items ∧ items ≠ []) ↔ RawReads x := by
  by_cases hspecial : ∃ c ∈ x, isSpecial c = true
  · have hnone : parse x = none := parse_of_refused (fun c hc hs => by
      rcases hx c hc hs with rfl | rfl <;> decide) hspecial
    rw [hnone]
    refine iff_of_false (fun ⟨_, h, _⟩ => by cases h) fun h => ?_
    obtain ⟨c, hc, hs⟩ := hspecial
    rcases hx c hc hs with rfl | rfl
    · exact h.1 hc
    · exact h.2.1 hc
  · have hplain : ∀ c ∈ x, isSpecial c = false := fun c hc => by
      rw [← Bool.not_eq_true]
      exact fun hs => hspecial ⟨c, hc, hs⟩
    have hsigns : '+' ∉ x ∧ '-' ∉ x :=
      ⟨fun hc => hspecial ⟨_, hc, by decide⟩, fun hc => hspecial ⟨_, hc, by decide⟩⟩
    rw [RawReads, and_iff_right hsigns.1, and_iff_right hsigns.2, parse_of_plain hplain,
      ← foldlM_finishAs_nil_iff (f := .word) fun _ => rfl]
    constructor
    · rintro ⟨items, hitems, hne⟩
      obtain ⟨items', hfold, hif⟩ := Option.bind_eq_some_iff.mp hitems
      split at hif
      · next h =>
          cases hif
          refine ⟨items', hfold, h.resolve_left fun hempty => hne ?_⟩
          rw [List.isEmpty_iff.mp hempty]
          rfl
      · cases hif
    · rintro ⟨items, hfold, hready⟩
      refine ⟨items.reverse, ?_, fun hnil => ?_⟩
      · rw [hfold, Option.bind_some, if_pos (.inr hready)]
      · rw [List.reverse_eq_nil_iff.mp hnil] at hready
        cases hready

/-! ## Questions -/

/-- The parts of a question that is not in English. -/
def questionParts (q : Queryer) (txt : Text) : List Text :=
  ((q.tw.split (rmWWW (rmWWW (q.cleaned txt)))).take 256).filter (· ≠ [])

/-- The tokens of a question in English. -/
def questionTokens (q : Queryer) (txt : Text) : List Text :=
  q.tokens (rmWWW (rmWWW (q.cleaned txt)))

/-- A question whose query is read: in English, no token is a connective, or there is none and
what is left of the question is read; otherwise there is a part if the question is not empty, each
term can be put into the query, and if there is nothing in it, the question itself is read. -/
def Answerable (q : Queryer) (txt : Text) : Prop :=
  if isChinese (rmWWW (q.cleaned txt)) then
    if questionParts q txt = [] then q.cleaned txt = []
    else
      (∀ s ∈ partStates q [] (questionParts q txt), ∀ x ∈ partTerms q s.1 s.2, TermReads q x) ∧
        ((∀ s ∈ partStates q [] (questionParts q txt),
          partTerms q s.1 s.2 = [] ∧ (q.tw.weights s.2).length ≤ 1) → RawReads (q.cleaned txt))
  else if questionTokens q txt = [] then RawReads (rmWWW (rmWWW (q.cleaned txt)))
  else ∀ tk ∈ (questionTokens q txt).take 256, tk ∉ reserved

/-- The text of the query; there is none in the query `None`. -/
def queryText (q : Queryer) (txt : Text) (minMatch : ℚ) : Text :=
  ((q.question txt minMatch).1.map (·.matchingText)).getD []

theorem partStates_eq_nil_iff {keywords tts : List Text} :
    partStates q keywords tts = [] ↔ tts = [] := by
  cases tts <;> simp [partStates]

theorem addPart_snd_eq_nil_iff (htok : Tokenizes q.tw.tokenize) {keywords : List Text} {tt : Text} :
    (q.addPart keywords tt).2 = [] ↔
      partTerms q keywords tt = [] ∧ (q.tw.weights tt).length ≤ 1 := by
  rw [← termsText_eq_nil_iff, addPart_snd htok]
  split
  · next h => exact iff_of_false (List.cons_ne_nil _ _) h.2
  · exact Iff.rfl

theorem parts_iff (htok : Tokenizes q.tw.tokenize) (hfine : Tokenizes q.fineGrainedTokenize)
    {tts : List Text} (hfilled : filledParts q tts ≠ []) :
    (∃ items, parse (joinOr (((q.addParts [] tts).2.filter (· ≠ [])).map paren)) = some items ∧
        items ≠ []) ↔
      ∀ s ∈ partStates q [] tts, ∀ x ∈ partTerms q s.1 s.2, TermReads q x := by
  have hsome : ((filledParts q tts).mapM fun s => partItem q s.1 s.2).isSome ↔
      ∀ s ∈ partStates q [] tts, ∀ x ∈ partTerms q s.1 s.2, TermReads q x := by
    rw [isSome_mapM]
    constructor
    · intro h s hs x hx
      refine isSome_partItem.mp (h s (List.mem_filter.mpr ⟨hs, decide_eq_true fun hnil => ?_⟩)) x hx
      rw [((addPart_snd_eq_nil_iff htok).mp hnil).1] at hx
      cases hx
    · exact fun h s hs => isSome_partItem.mpr (h s (List.mem_filter.mp hs).1)
  rw [parse_parts htok hfine, ← hsome, Option.isSome_iff_exists]
  constructor
  · rintro ⟨_, hitems, _⟩
    obtain ⟨items, hitems, _⟩ := Option.map_eq_some_iff.mp hitems
    exact ⟨items, hitems⟩
  · rintro ⟨items, hitems⟩
    refine ⟨_, Option.map_eq_some_iff.mpr ⟨items, hitems, rfl⟩, fun hnil => hfilled ?_⟩
    have hitems' : items = [] := by
      cases items with
      | nil => rfl
      | cons i is => cases is <;> cases hnil
    rw [hitems', mapM_eq_some_iff, List.forall₂_nil_right_iff] at hitems
    exact hitems

theorem filledParts_eq_nil_iff (htok : Tokenizes q.tw.tokenize) {tts : List Text} :
    filledParts q tts = [] ↔ ∀ s ∈ partStates q [] tts,
      partTerms q s.1 s.2 = [] ∧ (q.tw.weights s.2).length ≤ 1 := by
  rw [filledParts, List.filter_eq_nil_iff]
  refine forall₂_congr fun s _ => ?_
  rw [decide_eq_true_eq, not_not, addPart_snd_eq_nil_iff htok]

theorem other_iff (htok : Tokenizes q.tw.tokenize) (hfine : Tokenizes q.fineGrainedTokenize)
    {otxt : Text} (hotxt : ∀ c ∈ otxt, isSpecial c = true → c = '+' ∨ c = '-') {text : Text}
    (hne : ((q.tw.split (rmWWW text)).take 256).filter (· ≠ []) ≠ []) :
    (∃ items, parse ((q.other otxt text).1.getD []) = some items ∧ items ≠ []) ↔
      (∀ s ∈ partStates q [] (((q.tw.split (rmWWW text)).take 256).filter (· ≠ [])),
          ∀ x ∈ partTerms q s.1 s.2, TermReads q x) ∧
        ((∀ s ∈ partStates q [] (((q.tw.split (rmWWW text)).take 256).filter (· ≠ [])),
          partTerms q s.1 s.2 = [] ∧ (q.tw.weights s.2).length ≤ 1) → RawReads otxt) := by
  generalize htts : ((q.tw.split (rmWWW text)).take 256).filter (fun t => decide (t ≠ [])) = tts
    at hne ⊢
  have hqs : (q.addParts [] tts).2 ≠ [] := by
    rw [addParts_snd]
    exact fun h => hne (partStates_eq_nil_iff.mp (List.map_eq_nil_iff.mp h))
  have hquery : (q.other otxt text).1.getD [] =
      if joinOr (((q.addParts [] tts).2.filter (· ≠ [])).map paren) = [] then otxt
      else joinOr (((q.addParts [] tts).2.filter (· ≠ [])).map paren) := by
    rw [Queryer.other, htts]
    dsimp only
    rw [if_neg hqs]
    rfl
  have hempty : joinOr (((q.addParts [] tts).2.filter (· ≠ [])).map paren) = [] ↔
      filledParts q tts = [] := by
    rw [joinOr_filledParts]
    cases filledParts q tts with
    | nil => exact iff_of_true rfl rfl
    | cons s states =>
        rw [List.map_cons, joinOr, intercalate_cons_eq]
        exact iff_of_false (List.cons_ne_nil _ _) (List.cons_ne_nil s states)
  rw [hquery]
  by_cases hfilled : filledParts q tts = []
  · have hall := (filledParts_eq_nil_iff htok).mp hfilled
    rw [if_pos (hempty.mpr hfilled), parse_raw_iff hotxt]
    refine ⟨fun h => ⟨fun s hs x hx => ?_, fun _ => h⟩, fun h => h.2 hall⟩
    rw [(hall s hs).1] at hx
    cases hx
  · rw [if_neg fun h => hfilled (hempty.mp h), parts_iff htok hfine hfilled]
    exact ⟨fun h => ⟨h, fun hall => absurd ((filledParts_eq_nil_iff htok).mpr hall) hfilled⟩,
      fun h => h.1⟩

/-- A query is read, and is empty only if the cleaned question is, exactly for these questions. -/
theorem question_iff (q : Queryer) (htok : Tokenizes q.tw.tokenize)
    (hfine : Tokenizes q.fineGrainedTokenize) (txt : Text) (minMatch : ℚ) :
    (∃ items, parse (queryText q txt minMatch) = some items ∧
        (items = [] → q.cleaned txt = [])) ↔ Answerable q txt := by
  have hcleaned : ∀ c ∈ q.cleaned txt, isSpecial c = true → c = '+' ∨ c = '-' :=
    fun c hc => special_of_mem_cleaned hc
  rw [Answerable, queryText, Queryer.question]
  dsimp only
  by_cases hzh : isChinese (rmWWW (q.cleaned txt)) = true
  · rw [if_pos hzh, if_pos hzh]
    dsimp only
    rw [Option.map_map]
    change (∃ items, parse (((q.other (q.cleaned txt) (rmWWW (q.cleaned txt))).1.map
      fun query => query).getD []) = some items ∧ _) ↔ _
    rw [Option.map_id']
    by_cases hparts : questionParts q txt = []
    · rw [if_pos hparts]
      have hnone : (q.other (q.cleaned txt) (rmWWW (q.cleaned txt))).1 = none := by
        rw [questionParts] at hparts
        rw [Queryer.other, hparts]
        rfl
      rw [hnone]
      exact ⟨fun ⟨items, hitems, h⟩ => h (by cases hitems; rfl), fun h => ⟨[], rfl, fun _ => h⟩⟩
    · rw [if_neg hparts]
      refine Iff.trans ?_ (other_iff htok hfine hcleaned hparts)
      have hne : q.cleaned txt ≠ [] := by
        intro hnil
        apply hparts
        rw [questionParts, hnil]
        rfl
      exact exists_congr fun items => and_congr_right fun _ =>
        forall_congr' fun _ => iff_of_false hne id
  · rw [if_neg hzh, if_neg hzh]
    dsimp only
    rw [Option.map_some, Option.getD_some]
    have hne : q.cleaned txt ≠ [] := by
      intro hnil
      rw [hnil] at hzh
      exact hzh (by decide)
    have hitems : ∀ items : List Item, (items = [] → q.cleaned txt = []) ↔ items ≠ [] :=
      fun items => forall_congr' fun _ => iff_of_false hne id
    simp only [hitems]
    by_cases htokens : questionTokens q txt = []
    · rw [if_pos htokens, english_eq htok]
      rw [questionTokens] at htokens
      rw [if_pos htokens]
      refine parse_raw_iff fun c hc hs => ?_
      rcases mem_of_mem_rmWWW hc with hc | rfl
      · rcases mem_of_mem_rmWWW hc with hc | rfl
        · exact hcleaned c hc hs
        · exact absurd hs (by decide)
      · exact absurd hs (by decide)
    · rw [if_neg htokens]
      exact english_iff htok htokens

/-- Tokens are the runs of characters that can be in one. -/
def runTokenize (t : Text) : Text := joinBlank (cut (fun c => !isTokenChar c) t)

theorem tokenizes_runTokenize : Tokenizes runTokenize := fun t => by
  refine ⟨_, rfl, fun w hw => ?_⟩
  obtain ⟨hne, hall⟩ := mem_cut hw
  exact ⟨hne, fun c hc => by simpa using hall c hc⟩

/-- Every term has the same weight and no synonyms. -/
def plainQueryer : Queryer where
  normalize := List.map Char.toLower
  tw.tokenize := runTokenize
  tw.weigh tks _ := ⟨tks.length, -2⟩
  tw.isFunc _ := false
  fineGrainedTokenize := runTokenize
  lookup _ := []

theorem question_read :
    ∃ items, parse (queryText plainQueryer "Fast red racing cars!".toList (3 / 5)) = some items ∧
      (items = [] → plainQueryer.cleaned "Fast red racing cars!".toList = []) := by
  refine (question_iff plainQueryer tokenizes_runTokenize tokenizes_runTokenize
    "Fast red racing cars!".toList (3 / 5)).mpr ?_
  rw [Answerable, if_neg (by decide +kernel), if_neg (by decide +kernel)]
  decide +kernel

/-- A question of nothing but a sign is the query itself. -/
theorem question_not_read :
    (Tokenizes plainQueryer.tw.tokenize ∧ Tokenizes plainQueryer.fineGrainedTokenize) ∧
      ¬ ∃ items, parse (queryText plainQueryer ['-'] (3 / 5)) = some items ∧
        (items = [] → plainQueryer.cleaned ['-'] = []) := by
  refine ⟨⟨tokenizes_runTokenize, tokenizes_runTokenize⟩, ?_⟩
  have hquery : queryText plainQueryer ['-'] (3 / 5) = ['-'] := by decide
  rw [hquery]
  rintro ⟨items, hitems, _⟩
  cases hitems

end RagFlow.Query
