/-
# When position mode keeps the tokens

The two modes differ in stems with blanks, which only the mode without positions splits, and in
the stemming at the end of its fine-grained mode. They report the same texts exactly where
neither shows.
-/

import RagFlow.Analyzer.Twins

namespace RagFlow.Analyzer

open RagFlow.Math

/-! ## Clean stems -/

section Stems

variable {env : Env}

/-- A stem that both modes keep as one token, or drop. -/
def CleanStem (s : Text) : Prop := s = [' '] ∨ Clean s

theorem isKept_of_clean {t : Text} (hne : t ≠ []) (h : Clean t) : isKept t = true := by
  refine decide_eq_true ⟨hne, ?_⟩
  rintro rfl
  exact (h ' ' List.mem_cons_self).1 rfl

theorem filter_eq_splitBlanks {s : Text} (h : CleanStem s) :
    [s].filter isKept = splitBlanks s := by
  rcases h with rfl | h
  · rfl
  · by_cases hne : s = []
    · rw [hne]
      rfl
    · rw [splitBlanks_of_clean hne h, List.filter_singleton, isKept_of_clean hne h, cond_true]

/-- Of a string that is appended, the parts between blanks are kept. -/
theorem filter_emitted {s : Text} (h : NoNul s) : (emitted s).filter isKept = splitBlanks s := by
  rw [emitted]
  split_ifs with hblank
  · refine List.filter_eq_self.mpr fun t ht => ?_
    obtain ⟨hne, hclean⟩ := clean_of_mem_splitBlanks ht
    exact isKept_of_clean hne hclean
  · exact filter_eq_splitBlanks (Or.inr fun c hc => ⟨fun hc' => hblank (hc' ▸ hc), h c hc⟩)

variable (env) in
/-- The strings of Chinese segments have no NUL. -/
theorem noNul_stringsOf {L : Text} (hlang : ∀ c ∈ L, isChinese c = true) :
    ∀ s ∈ stringsOf env (L, true), NoNul s := by
  have hL : NoNul L := by
    rintro c hc rfl
    exact absurd (hlang _ hc) (by decide)
  rw [stringsOf, segmentStrings]
  split_ifs
  · intro s hs
    rw [List.mem_singleton.mp hs]
    exact hL
  · obtain ⟨out, hout, -, -, hchars⟩ := tokenizeInner_spec env.tables L
    rw [hout]
    intro s hs c hc
    rcases hchars s hs c hc with rfl | hc
    · decide
    · exact hL c hc

/-- In a segment with clean stems, the tokens that position mode keeps are the parts of its
strings. -/
theorem filter_positionTokens {x : Text × Bool} (hlang : ∀ c ∈ x.1, isChinese c = x.2)
    (hstems : x.2 = false → ∀ s ∈ stringsOf env x, CleanStem s) :
    (positionTokens env x).filter isKept = (stringsOf env x).flatMap splitBlanks ∧
      ∀ s ∈ stringsOf env x, NoNul s := by
  obtain ⟨L, lang⟩ := x
  cases lang with
  | false =>
      have hclean := hstems rfl
      refine ⟨?_, fun s hs => ?_⟩
      · rw [positionTokens, if_neg Bool.false_ne_true]
        generalize stringsOf env (L, false) = strs at hclean
        induction strs with
        | nil => rfl
        | cons s strs ih =>
            rw [List.flatMap_cons, ← filter_eq_splitBlanks (hclean s List.mem_cons_self),
              ← ih fun s' hs' => hclean s' (List.mem_cons_of_mem _ hs'), ← List.filter_append,
              List.singleton_append]
      · rcases hclean s hs with rfl | h
        · intro c hc
          rw [List.mem_singleton.mp hc]
          decide
        · exact h.noNul
  | true =>
      have hnul := noNul_stringsOf env hlang
      refine ⟨?_, hnul⟩
      rw [positionTokens, if_pos rfl, List.filter_flatMap]
      exact List.flatMap_congr fun s hs => filter_emitted (hnul s hs)

/-- With clean stems, both modes have the same tokens before the fine-grained mode. -/
theorem tokens_eq_of_clean (hnltk : ∀ sentence, InOrder (env.nltk sentence) sentence) {line : Text}
    (hstems : ∀ x ∈ splitByLang (prepare env line), x.2 = false →
      ∀ s ∈ stringsOf env x, CleanStem s) :
    ∃ out, tokenizeWithPosition env line = some out ∧
      tokenize env line = some ([' '].intercalate out.tokens) ∧
      splitBlanks ([' '].intercalate out.tokens) = out.tokens ∧
      out.positions.length = out.tokens.length := by
  obtain ⟨out, hout, htokens, hlength⟩ := tokenizeWithPosition_eq hnltk line
  have hsegments : ∀ x ∈ splitByLang (prepare env line),
      (positionTokens env x).filter isKept = (stringsOf env x).flatMap splitBlanks ∧
        ∀ s ∈ stringsOf env x, NoNul s := fun x hx =>
    filter_positionTokens ((splitByLang_spec (prepare env line)).2 x hx).2 (hstems x hx)
  have hnul : ∀ s ∈ (splitByLang (prepare env line)).flatMap (stringsOf env), NoNul s := by
    intro s hs
    obtain ⟨x, hx, hs⟩ := List.mem_flatMap.mp hs
    exact (hsegments x hx).2 s hs
  have hparts : ((splitByLang (prepare env line)).flatMap (positionTokens env)).filter isKept =
      ((splitByLang (prepare env line)).flatMap (stringsOf env)).flatMap splitBlanks := by
    rw [List.filter_flatMap, List.flatMap_assoc]
    exact List.flatMap_congr fun x hx => (hsegments x hx).1
  have hclean : ∀ t ∈ out.tokens, t ≠ [] ∧ Clean t := by
    rw [htokens, hparts]
    refine clean_of_mem_mergeFrom (fun t ht => ?_) 0
    obtain ⟨s, -, ht⟩ := List.mem_flatMap.mp ht
    exact clean_of_mem_splitBlanks ht
  refine ⟨out, hout, ?_, ?_, hlength⟩
  · rw [tokenize_eq, merge, splitBlanks_replaceSpaces (noNul_intercalate hnul),
      splitBlanks_intercalate hnul, ← hparts, ← htokens]
  · rw [splitBlanks, cString_eq (noNul_intercalate fun t ht => (hclean t ht).2.noNul)]
    exact cut_intercalate_of_pieces rfl fun t ht =>
      ⟨(hclean t ht).1, fun c hc => decide_eq_false ((hclean t ht).2 c hc).1⟩

end Stems

/-! ## The fine-grained mode -/

section Fine

variable {env : Env}

/-- The texts that are reported. -/
def reportedTexts (tokens : List Text) : List Text := tokens.filter (· ≠ [])

@[simp] theorem reportedTexts_nil_cons (tokens : List Text) :
    reportedTexts ([] :: tokens) = reportedTexts tokens := rfl

@[simp] theorem reportedTexts_cons {t : Text} (h : t ≠ []) (tokens : List Text) :
    reportedTexts (t :: tokens) = t :: reportedTexts tokens :=
  List.filter_cons_of_pos (decide_eq_true h)

theorem pushLines_appends (subTokens : List Text) (start : ℕ) (out : Positioned) :
    Appends out (reportedTexts subTokens) (pushLines subTokens start out) := by
  induction subTokens generalizing start out with
  | nil => exact .refl out
  | cons subToken subTokens ih =>
      rw [pushLines]
      by_cases hnil : subToken = []
      · rw [if_pos hnil, hnil, reportedTexts_nil_cons]
        exact ih start out
      · rw [if_neg hnil, reportedTexts_cons hnil]
        exact (Appends.push out subToken _).trans (ih _ _)

theorem pushFine_appends (length : Text → ℕ) (stk : List Text) (start : ℕ) (out : Positioned) :
    Appends out stk (pushFine length stk start out) := by
  induction stk generalizing start out with
  | nil => exact .refl out
  | cons t stk ih => exact (Appends.push out t _).trans (ih _ _)

variable (env) in
/-- Both modes cut a token the same way. -/
theorem pushFineTokens_appends (token : Text) (position : ℕ × ℕ) (out : Positioned) :
    Appends out (fineTokens env token) (pushFineTokens env token position out) := by
  rw [pushFineTokens, fineTokens]
  cases (sortTokens env (tokenList env token))[1]? with
  | none =>
      dsimp only
      split_ifs <;> exact .push _ _ _
  | some second =>
      dsimp only
      split_ifs
      · exact .push _ _ _
      · exact .push _ _ _
      · exact .push _ _ _
      · exact .push _ _ _
      · exact pushFine_appends _ _ _ _
      · exact pushFine_appends _ _ _ _

theorem pushEach_appends {body : Text → ℕ × ℕ → Positioned → Positioned}
    {parts : Text → List Text}
    (hbody : ∀ token position out, Appends out (parts token) (body token position out))
    {positions : List (ℕ × ℕ)} {tks : List Text} {i : ℕ} (h : positions.length = i + tks.length)
    (out : Positioned) :
    ∃ out', pushEach body positions i tks out = some out' ∧
      Appends out (tks.flatMap parts) out' := by
  induction tks generalizing i out with
  | nil => exact ⟨out, rfl, .refl out⟩
  | cons token tks ih =>
      rw [List.length_cons] at h
      have hi : i < positions.length := by omega
      have hrest : positions.length = i + 1 + tks.length := by omega
      obtain ⟨out', hout', happends⟩ := ih hrest (body token positions[i] out)
      rw [pushEach, List.getElem?_eq_getElem hi, Option.bind_eq_bind, Option.bind_some]
      exact ⟨out', hout', (hbody token _ out).trans happends⟩

variable (env) in
/-- The fine-grained tokens with positions: those without, but neither empty nor stemmed again. -/
theorem fineGrainedTokenizeWithPosition_eq {tokensStr : Text} {positions : List (ℕ × ℕ)}
    (h : positions.length = (splitBlanks tokensStr).length) :
    ∃ out, fineGrainedTokenizeWithPosition env tokensStr positions = some out ∧
      out.positions.length = out.tokens.length ∧
      out.tokens =
        if isEnglish (splitBlanks tokensStr) then
          (splitBlanks tokensStr).flatMap fun token => reportedTexts (getlines '/' [] token)
        else (splitBlanks tokensStr).flatMap (fineTokens env) := by
  have hlength : positions.length = 0 + (splitBlanks tokensStr).length := by rw [h, Nat.zero_add]
  rw [fineGrainedTokenizeWithPosition]
  split_ifs
  · obtain ⟨out, hout, happends⟩ := pushEach_appends
      (fun token position => pushLines_appends (getlines '/' [] token) position.1) hlength .empty
    refine ⟨out, hout, ?_, happends.tokens_eq⟩
    rw [happends.length_eq, happends.tokens_eq]
    exact Nat.zero_add _
  · obtain ⟨out, hout, happends⟩ :=
      pushEach_appends (pushFineTokens_appends env) hlength .empty
    refine ⟨out, hout, ?_, happends.tokens_eq⟩
    rw [happends.length_eq, happends.tokens_eq]
    exact Nat.zero_add _

end Fine

/-! ## Reports -/

section Reports

theorem reportPositions_eq {positions : List (ℕ × ℕ)} {tokens : List Text} {i : ℕ}
    (h : positions.length = i + tokens.length) :
    ∃ terms, reportPositions positions i tokens = some terms ∧
      terms.map Term.text = reportedTexts tokens := by
  induction tokens generalizing i with
  | nil => exact ⟨[], rfl, rfl⟩
  | cons token tokens ih =>
      rw [List.length_cons] at h
      have hi : i < positions.length := by omega
      have hrest : positions.length = i + 1 + tokens.length := by omega
      obtain ⟨terms, hterms, htexts⟩ := ih hrest
      rw [reportPositions]
      by_cases hnil : token = []
      · rw [if_pos hnil, hnil, reportedTexts_nil_cons]
        exact ⟨terms, hterms, htexts⟩
      · rw [if_neg hnil, reportedTexts_cons hnil, List.getElem?_eq_getElem hi, hterms]
        refine ⟨_, rfl, ?_⟩
        rw [List.map_cons, htexts]

theorem reportOffsets_eq (offset : ℕ) (tokens : List Text) :
    (reportOffsets offset tokens).map Term.text = reportedTexts tokens := by
  induction tokens generalizing offset with
  | nil => rfl
  | cons token tokens ih =>
      rw [reportOffsets]
      by_cases hnil : token = []
      · rw [if_pos hnil, hnil, reportedTexts_nil_cons]
        exact ih offset
      · rw [if_neg hnil, reportedTexts_cons hnil, List.map_cons, ih]

theorem length_reportedTexts_map_le {g : Text → Text} (hg : g [] = []) (tokens : List Text) :
    (reportedTexts (tokens.map g)).length ≤ (reportedTexts tokens).length := by
  induction tokens with
  | nil => exact le_rfl
  | cons t tokens ih =>
      by_cases ht : t = []
      · rwa [List.map_cons, ht, hg, reportedTexts_nil_cons, reportedTexts_nil_cons]
      · rw [List.map_cons, reportedTexts_cons ht, List.length_cons]
        by_cases hgt : g t = []
        · rw [hgt, reportedTexts_nil_cons]
          omega
        · rw [reportedTexts_cons hgt, List.length_cons]
          omega

/-- A normal form that keeps the empty text changes no report exactly if it changes no token. -/
theorem reportedTexts_map_eq_iff {g : Text → Text} (hg : g [] = []) (tokens : List Text) :
    reportedTexts tokens = reportedTexts (tokens.map g) ↔ ∀ t ∈ tokens, g t = t := by
  induction tokens with
  | nil => simp
  | cons t tokens ih =>
      rw [List.forall_mem_cons, ← ih, List.map_cons]
      by_cases ht : t = []
      · rw [ht, hg, reportedTexts_nil_cons, reportedTexts_nil_cons]
        exact (and_iff_right rfl).symm
      · rw [reportedTexts_cons ht]
        by_cases hgt : g t = []
        · -- One text is missing from the report, and the others cannot make up for it.
          rw [hgt, reportedTexts_nil_cons]
          have hle := length_reportedTexts_map_le hg tokens
          refine iff_of_false (fun h => ?_) fun h => ht h.1.symm
          have hlength := congrArg List.length h
          rw [List.length_cons] at hlength
          omega
        · rw [reportedTexts_cons hgt, List.cons.injEq, eq_comm (a := t)]

/-- Leaving empty texts out of each part changes no report. -/
theorem reportedTexts_flatMap (parts : Text → List Text) (tokens : List Text) :
    reportedTexts (tokens.flatMap fun token => reportedTexts (parts token)) =
      reportedTexts (tokens.flatMap parts) := by
  rw [reportedTexts, reportedTexts, List.filter_flatMap, List.filter_flatMap]
  refine List.flatMap_congr fun token _ => ?_
  rw [reportedTexts, List.filter_filter]
  simp only [Bool.and_self]

end Reports

/-! ## Agreement -/

section Agreement

/-- Both modes report the same texts, coarse and fine, and position mode reads positions only
where there are some. -/
def SameTexts (env : Env) (input : Text) : Prop :=
  ∀ fineGrained, ∃ positioned plain,
    analyzeImpl env input fineGrained true = some positioned ∧
    analyzeImpl env input fineGrained false = some plain ∧
    positioned.map Term.text = plain.map Term.text

/-- The stems of a text that both modes read alike. -/
structure StemsKept (env : Env) (input : Text) : Prop where
  /-- The stems have no blanks in them. -/
  clean : ∀ x ∈ splitByLang (prepare env input), x.2 = false →
    ∀ s ∈ stemTerms env x.1, CleanStem s
  /-- Where the text is Chinese enough, the fine tokens that end in a letter are stems of
  themselves. -/
  stable : ∀ result, tokenize env input = some result → isEnglish (splitBlanks result) = false →
    ∀ t ∈ (splitBlanks result).flatMap (fineTokens env), pattern1 t → normalize env t = t

variable {env : Env}

variable (env) in
theorem analyzeImpl_false (input : Text) (fineGrained : Bool) :
    ∃ result plain, tokenize env input = some result ∧
      analyzeImpl env input fineGrained false = some plain ∧
      plain.map Term.text = reportedTexts
        (if fineGrained then fineGrainedTokenize env result else splitBlanks result) := by
  refine ⟨_, _, tokenize_eq input, ?_, reportOffsets_eq 0 _⟩
  rw [analyzeImpl, if_neg Bool.false_ne_true, tokenize_eq]
  rfl

/-- Coarse position mode reports the tokens of `TokenizeWithPosition`. -/
theorem analyzeImpl_true {input : Text} {out : Positioned}
    (hout : tokenizeWithPosition env input = some out)
    (hlength : out.positions.length = out.tokens.length) :
    ∃ positioned, analyzeImpl env input false true = some positioned ∧
      positioned.map Term.text = reportedTexts out.tokens := by
  obtain ⟨terms, hterms, htexts⟩ :=
    reportPositions_eq (i := 0) (hlength.trans (Nat.zero_add _).symm)
  refine ⟨terms, ?_, htexts⟩
  rw [analyzeImpl, if_pos rfl, hout]
  exact hterms

/-- A stem with a blank stays one token in position mode only. -/
theorem cleanStem_of_sameTexts (hnltk : ∀ sentence, InOrder (env.nltk sentence) sentence)
    {input : Text} (h : SameTexts env input) :
    ∀ x ∈ splitByLang (prepare env input), x.2 = false →
      ∀ s ∈ stemTerms env x.1, CleanStem s := by
  rintro ⟨L, lang⟩ hx rfl s hs
  obtain ⟨out, hout, htokens, hlength⟩ := tokenizeWithPosition_eq hnltk input
  obtain ⟨positioned, hpositioned, htexts⟩ := analyzeImpl_true hout hlength
  obtain ⟨result, plain, -, hplain, hplainTexts⟩ := analyzeImpl_false env input false
  obtain ⟨positioned', plain', hpositioned', hplain', heq⟩ := h false
  obtain rfl := Option.some.inj (hpositioned.symm.trans hpositioned')
  obtain rfl := Option.some.inj (hplain.symm.trans hplain')
  rw [htexts, hplainTexts, if_neg Bool.false_ne_true] at heq
  have hclean : ∀ t ∈ out.tokens, Clean t := by
    intro t ht
    by_cases hnil : t = []
    · rw [hnil]
      exact fun c hc => absurd hc List.not_mem_nil
    · have hmem : t ∈ reportedTexts out.tokens :=
        List.mem_filter.mpr ⟨ht, decide_eq_true hnil⟩
      rw [heq] at hmem
      exact (clean_of_mem_splitBlanks (List.mem_of_mem_filter hmem)).2
  by_cases hblank : s = [' ']
  · exact Or.inl hblank
  refine Or.inr fun c hc => ?_
  have hkept : s ∈ ((splitByLang (prepare env input)).flatMap (positionTokens env)).filter
      isKept := by
    refine List.mem_filter.mpr ⟨List.mem_flatMap.mpr ⟨_, hx, hs⟩, decide_eq_true ⟨?_, hblank⟩⟩
    exact List.ne_nil_of_mem hc
  have hflat : c ∈ out.tokens.flatten := by
    rw [htokens, flatten_mergeFrom]
    exact List.mem_flatten.mpr ⟨s, hkept, hc⟩
  obtain ⟨t, ht, hct⟩ := List.mem_flatten.mp hflat
  exact hclean t ht c hct

/-- Fine position mode, where the tokens are those of the plain text. -/
theorem analyzeImpl_true_fine {input : Text} {out : Positioned}
    (hout : tokenizeWithPosition env input = some out)
    (hsplit : splitBlanks ([' '].intercalate out.tokens) = out.tokens)
    (hlength : out.positions.length = out.tokens.length) :
    ∃ positioned, analyzeImpl env input true true = some positioned ∧
      positioned.map Term.text = reportedTexts
        (if isEnglish out.tokens then
            out.tokens.flatMap fun token => reportedTexts (getlines '/' [] token)
          else out.tokens.flatMap (fineTokens env)) := by
  have hpositions : out.positions.length =
      (splitBlanks ([' '].intercalate out.tokens)).length := by rw [hsplit, hlength]
  obtain ⟨fine, hfine, haligned, htokens⟩ := fineGrainedTokenizeWithPosition_eq env hpositions
  obtain ⟨terms, hterms, htexts⟩ :=
    reportPositions_eq (i := 0) (haligned.trans (Nat.zero_add _).symm)
  rw [hsplit] at htokens
  refine ⟨terms, ?_, by rw [htexts, htokens]⟩
  rw [analyzeImpl, if_pos rfl, hout]
  simp only [if_true, hfine, Option.bind_eq_bind, Option.bind_some]
  exact hterms

variable (env) in
/-- The fine tokens in English are the same; the others differ by the stemming at the end. -/
theorem reportedTexts_fine_iff (result : Text) :
    reportedTexts
          (if isEnglish (splitBlanks result) then
            (splitBlanks result).flatMap fun token => reportedTexts (getlines '/' [] token)
          else (splitBlanks result).flatMap (fineTokens env)) =
        reportedTexts (fineGrainedTokenize env result) ↔
      (isEnglish (splitBlanks result) = false →
        ∀ t ∈ (splitBlanks result).flatMap (fineTokens env),
          pattern1 t → normalize env t = t) := by
  rw [fineGrainedTokenize]
  by_cases henglish : isEnglish (splitBlanks result)
  · rw [if_pos henglish, if_pos henglish, reportedTexts_flatMap]
    exact iff_of_true rfl fun hfalse => absurd (henglish.symm.trans hfalse) Bool.true_eq_false.mp
  · rw [if_neg henglish, if_neg henglish, englishNormalize, reportedTexts_map_eq_iff rfl,
      forall_prop_of_true (Bool.eq_false_iff.mpr henglish)]
    refine forall₂_congr fun t _ => ?_
    by_cases hpattern : pattern1 t
    · rw [if_pos hpattern, forall_prop_of_true hpattern]
    · rw [if_neg hpattern]
      exact iff_of_true rfl fun h => absurd h hpattern

/-- With clean stems, the two modes differ at most by the stemming of fine tokens. -/
theorem sameTexts_iff_of_clean (hnltk : ∀ sentence, InOrder (env.nltk sentence) sentence)
    {input : Text} (hclean : ∀ x ∈ splitByLang (prepare env input), x.2 = false →
      ∀ s ∈ stemTerms env x.1, CleanStem s) :
    SameTexts env input ↔
      ∀ result, tokenize env input = some result → isEnglish (splitBlanks result) = false →
        ∀ t ∈ (splitBlanks result).flatMap (fineTokens env), pattern1 t → normalize env t = t := by
  have hstrings : ∀ x ∈ splitByLang (prepare env input), x.2 = false →
      ∀ s ∈ stringsOf env x, CleanStem s := by
    rintro ⟨L, lang⟩ hx rfl
    exact hclean _ hx rfl
  obtain ⟨out, hout, htokenize, hsplit, hlength⟩ := tokens_eq_of_clean hnltk hstrings
  obtain ⟨fine, hfine, hfineTexts⟩ := analyzeImpl_true_fine hout hsplit hlength
  obtain ⟨result, plain, hresult, hplain, hplainTexts⟩ := analyzeImpl_false env input true
  have hresult' : result = [' '].intercalate out.tokens :=
    Option.some.inj (hresult.symm.trans htokenize)
  have hiff := reportedTexts_fine_iff env result
  rw [hresult', hsplit] at hiff
  rw [if_pos rfl, hresult'] at hplainTexts
  constructor
  · intro h result₁ hresult₁
    obtain rfl : result₁ = [' '].intercalate out.tokens :=
      Option.some.inj (hresult₁.symm.trans htokenize)
    obtain ⟨positioned, plain', hpositioned, hplain', heq⟩ := h true
    obtain rfl := Option.some.inj (hfine.symm.trans hpositioned)
    obtain rfl := Option.some.inj (hplain.symm.trans hplain')
    rw [hsplit]
    exact hiff.mp (hfineTexts.symm.trans (heq.trans hplainTexts))
  · intro hstable fineGrained
    cases fineGrained with
    | true =>
        have hsame := hiff.mpr (hsplit ▸ hstable _ htokenize)
        exact ⟨fine, plain, hfine, hplain, hfineTexts.trans (hsame.trans hplainTexts.symm)⟩
    | false =>
        obtain ⟨coarse, hcoarse, hcoarseTexts⟩ := analyzeImpl_true hout hlength
        obtain ⟨result₁, plain₁, hresult₁, hplain₁, hplainTexts₁⟩ :=
          analyzeImpl_false env input false
        obtain rfl : result₁ = [' '].intercalate out.tokens :=
          Option.some.inj (hresult₁.symm.trans htokenize)
        rw [if_neg Bool.false_ne_true, hsplit] at hplainTexts₁
        exact ⟨coarse, plain₁, hcoarse, hplain₁, hcoarseTexts.trans hplainTexts₁.symm⟩

/-- Both modes report the same texts, and position mode reads positions only where there are some,
exactly if no stem has a blank in it and the fine tokens of Chinese text are stems. -/
theorem analyzeImpl_agrees_iff (env : Env)
    (hnltk : ∀ sentence, InOrder (env.nltk sentence) sentence) (input : Text) :
    SameTexts env input ↔ StemsKept env input := by
  constructor
  · intro h
    have hclean := cleanStem_of_sameTexts hnltk h
    exact ⟨hclean, (sameTexts_iff_of_clean hnltk hclean).mp h⟩
  · rintro ⟨hclean, hstable⟩
    exact (sameTexts_iff_of_clean hnltk hclean).mpr hstable

end Agreement

/-! ## Stems that are no stems of themselves -/

section Instance

/-- A dictionary of one word, terms between blanks, and the English stems of one word. -/
def universityEnv : Env where
  tables := { trie := loadTrie [("大学".toList, encode (-5) 0)], double := id }
  lemmatize := id
  stem := fun term =>
    if term = "university".toList then "univers".toList
    else if term = "univers".toList then "univer".toList
    else term
  convert := id
  nltk := cut (· = ' ')
  isWord := fun c => latin c || digit c || isChinese c || c = '_'
  expFreq := fun v => if v = -5 then 6738 else 0
  sort := fun l => l.mergeSort fun a b => b.2.getD 0 ≤ a.2.getD 0

/-- A word that is its own stem. -/
theorem analyzeImpl_agrees_dragon : SameTexts universityEnv "大学 dragon".toList := by
  refine (analyzeImpl_agrees_iff universityEnv inOrder_cut "大学 dragon".toList).mpr ⟨?_, ?_⟩
  · -- As a test of lists: a quantifier over characters may be decided for all there are.
    have hclean : (splitByLang (prepare universityEnv "大学 dragon".toList)).all (fun x =>
        x.2 || (stemTerms universityEnv x.1).all fun s =>
          s = [' '] || s.all fun c => c ≠ ' ' ∧ c ≠ '\x00') = true := by
      decide +kernel
    intro x hx hlang s hs
    have hstems := List.all_eq_true.mp hclean x hx
    rw [hlang, Bool.false_or] at hstems
    rcases Bool.or_eq_true_iff.mp (List.all_eq_true.mp hstems s hs) with hblank | hchars
    · exact Or.inl (of_decide_eq_true hblank)
    · exact Or.inr fun c hc => of_decide_eq_true (List.all_eq_true.mp hchars c hc)
  · intro result hresult _
    have htokenize : tokenize universityEnv "大学 dragon".toList = some "大学 dragon".toList := by
      decide +kernel
    obtain rfl := Option.some.inj (htokenize.symm.trans hresult)
    decide +kernel

/-- The stem of a university is stemmed once more without positions. -/
theorem analyzeImpl_differs :
    (∀ sentence, InOrder (universityEnv.nltk sentence) sentence) ∧
      ¬ SameTexts universityEnv "大学 university".toList := by
  refine ⟨inOrder_cut, fun h => ?_⟩
  obtain ⟨positioned, plain, hpositioned, hplain, htexts⟩ := h true
  have hdiffer : (analyzeImpl universityEnv "大学 university".toList true true).map
        (fun terms => terms.map Term.text) ≠
      (analyzeImpl universityEnv "大学 university".toList true false).map
        (fun terms => terms.map Term.text) := by
    decide +kernel
  rw [hpositioned, hplain] at hdiffer
  exact hdiffer (congrArg some htexts)

end Instance

end RagFlow.Analyzer
