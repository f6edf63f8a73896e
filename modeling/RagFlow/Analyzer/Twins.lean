/-
# The functions with positions and their twins

Each function with positions appends the tokens of its twin, or the same strings with their blanks
split off, and as many positions, so that it reads positions only where there are some.
-/

import RagFlow.Analyzer.Conservation
import RagFlow.Analyzer.Positions
import RagFlow.Math.Except
import Mathlib.Data.List.TakeWhile

namespace RagFlow.Analyzer

open RagFlow.Math

/-! ## Blanks -/

section Blanks

/-- A text that is neither cut at a blank nor at a NUL. -/
def Clean (s : Text) : Prop := ∀ c ∈ s, c ≠ ' ' ∧ c ≠ '\x00'

/-- A text without a NUL. -/
def NoNul (s : Text) : Prop := ∀ c ∈ s, c ≠ '\x00'

theorem Clean.noNul {s : Text} (h : Clean s) : NoNul s := fun c hc => (h c hc).2

theorem cString_eq {s : Text} (h : NoNul s) : cString s = s :=
  List.takeWhile_eq_self_iff.mpr fun c hc => decide_eq_true (h c hc)

theorem mem_cString {s : Text} {c : Char} (h : c ∈ cString s) : c ∈ s ∧ c ≠ '\x00' :=
  ⟨(List.takeWhile_sublist _).subset h,
    of_decide_eq_true (List.mem_takeWhile_imp (p := fun c => decide (c ≠ '\x00')) h)⟩

/-- The parts between blanks are clean. -/
theorem clean_of_mem_splitBlanks {s t : Text} (h : t ∈ splitBlanks s) : t ≠ [] ∧ Clean t := by
  obtain ⟨hne, hblank⟩ := mem_cut h
  refine ⟨hne, fun c hc => ⟨of_decide_eq_false (hblank c hc), ?_⟩⟩
  exact (mem_cString (mem_of_mem_cut h hc)).2

theorem splitBlanks_of_clean {s : Text} (hne : s ≠ []) (h : Clean s) : splitBlanks s = [s] := by
  rw [splitBlanks, cString_eq h.noNul]
  exact cut_eq_singleton hne fun c hc => decide_eq_false (h c hc).1

theorem noNul_intercalate {strs : List Text} (h : ∀ s ∈ strs, NoNul s) :
    NoNul ([' '].intercalate strs) := by
  intro c hc
  rcases mem_intercalate hc with rfl | hc
  · decide
  · obtain ⟨s, hs, hc⟩ := List.mem_flatten.mp hc
    exact h s hs c hc

/-- A join is split into the parts of its strings. -/
theorem splitBlanks_intercalate {strs : List Text} (h : ∀ s ∈ strs, NoNul s) :
    splitBlanks ([' '].intercalate strs) = strs.flatMap splitBlanks := by
  rw [splitBlanks, cString_eq (noNul_intercalate h), cut_intercalate rfl]
  exact List.flatMap_congr fun s hs => by rw [splitBlanks, cString_eq (h s hs)]

/-- Blanks in a row are split like one. -/
theorem cutFrom_replaceSpaces {cur : Text} {afterBlank : Bool} (s : Text)
    (h : afterBlank = true → cur = []) :
    cutFrom (· = ' ') cur (replaceSpaces afterBlank s) = cutFrom (· = ' ') cur s := by
  induction s generalizing cur afterBlank with
  | nil => rfl
  | cons c s ih =>
      by_cases hc : c = ' '
      · cases afterBlank with
        | true =>
            rw [h rfl]
            simp [replaceSpaces, cutFrom, hc, ih]
        | false => simp [replaceSpaces, cutFrom, hc, ih]
      · simp [replaceSpaces, cutFrom, hc, ih]

theorem replaceSpaces_subset {afterBlank : Bool} {s : Text} {c : Char}
    (h : c ∈ replaceSpaces afterBlank s) : c ∈ s := by
  induction s generalizing afterBlank with
  | nil => exact h
  | cons d s ih =>
      rw [replaceSpaces] at h
      split_ifs at h with hd hafter
      · exact List.mem_cons_of_mem _ (ih h)
      · rcases List.mem_cons.mp h with rfl | h
        · rw [hd]
          exact List.mem_cons_self
        · exact List.mem_cons_of_mem _ (ih h)
      · rcases List.mem_cons.mp h with rfl | h
        · exact List.mem_cons_self
        · exact List.mem_cons_of_mem _ (ih h)

theorem splitBlanks_replaceSpaces {s : Text} (h : NoNul s) :
    splitBlanks (replaceSpaces false s) = splitBlanks s := by
  rw [splitBlanks, splitBlanks, cString_eq h,
    cString_eq fun c hc => h c (replaceSpaces_subset hc)]
  exact cutFrom_replaceSpaces s fun hfalse => absurd hfalse Bool.false_ne_true

end Blanks

/-! ## Languages -/

section Languages

theorem languagesFrom_spec {segment : Text} {zh : Bool} (cs : Text) (hne : segment ≠ [])
    (hzh : ∀ c ∈ segment, isChinese c = zh) :
    ((languagesFrom segment zh cs).map Prod.fst).flatten = segment ++ cs ∧
      ∀ x ∈ languagesFrom segment zh cs, x.1 ≠ [] ∧ ∀ c ∈ x.1, isChinese c = x.2 := by
  induction cs generalizing segment zh with
  | nil =>
      refine ⟨by simp [languagesFrom], fun x hx => ?_⟩
      obtain rfl := List.mem_singleton.mp hx
      exact ⟨hne, hzh⟩
  | cons c cs ih =>
      rw [languagesFrom]
      split_ifs with hc
      · have hlast : ∀ d ∈ segment ++ [c], isChinese d = zh := by
          intro d hd
          rcases List.mem_append.mp hd with hd | hd
          · exact hzh d hd
          · rw [List.mem_singleton.mp hd, hc]
        obtain ⟨hflat, hall⟩ := ih (List.append_ne_nil_of_left_ne_nil hne _) hlast
        refine ⟨?_, hall⟩
        rw [hflat, List.append_assoc, List.singleton_append]
      · obtain ⟨hflat, hall⟩ := @ih [c] (isChinese c) (List.cons_ne_nil _ _)
          fun d hd => by rw [List.mem_singleton.mp hd]
        refine ⟨?_, fun x hx => ?_⟩
        · rw [List.map_cons, List.flatten_cons, hflat, List.singleton_append]
        · rcases List.mem_cons.mp hx with rfl | hx
          · exact ⟨hne, hzh⟩
          · exact hall x hx

/-- The segments make up the text up to its end, and each is of one language. -/
theorem splitByLang_spec (line : Text) :
    ((splitByLang line).map Prod.fst).flatten = cString line ∧
      ∀ x ∈ splitByLang line, x.1 ≠ [] ∧ ∀ c ∈ x.1, isChinese c = x.2 := by
  have hpieces : (splitDelimiters line).flatten = cString line := by
    rw [splitDelimiters, List.flatten_filter_ne_nil, flatten_splitMatches]
  have hparts : ∀ a ∈ splitDelimiters line, ∃ c cs, a = c :: cs := by
    intro a ha
    exact List.exists_cons_of_ne_nil (of_decide_eq_true (List.mem_filter.mp ha).2)
  rw [← hpieces, splitByLang]
  generalize splitDelimiters line = pieces at hparts
  induction pieces with
  | nil => exact ⟨rfl, fun x hx => absurd hx List.not_mem_nil⟩
  | cons a pieces ih =>
      obtain ⟨c, cs, rfl⟩ := hparts a List.mem_cons_self
      obtain ⟨hrest, hall⟩ := ih fun b hb => hparts b (List.mem_cons_of_mem _ hb)
      obtain ⟨hflat, hfirst⟩ := @languagesFrom_spec [c] (isChinese c) cs (List.cons_ne_nil _ _)
        fun d hd => by rw [List.mem_singleton.mp hd]
      rw [List.flatMap_cons, List.map_append, List.flatten_append, hrest, List.flatten_cons]
      refine ⟨by rw [hflat, List.singleton_append], fun x hx => ?_⟩
      exact (List.mem_append.mp hx).elim (hfirst x) (hall x)

end Languages

/-! ## Vectors in step -/

/-- Tokens are appended, and as many positions. -/
structure Appends (out : Positioned) (tokens : List Text) (out' : Positioned) : Prop where
  tokens_eq : out'.tokens = out.tokens ++ tokens
  length_eq : out'.positions.length = out.positions.length + tokens.length

namespace Appends

variable {out out₁ out₂ : Positioned} {ts us : List Text}

theorem refl (out : Positioned) : Appends out [] out := ⟨(List.append_nil _).symm, rfl⟩

theorem trans (h : Appends out ts out₁) (h' : Appends out₁ us out₂) :
    Appends out (ts ++ us) out₂ := by
  refine ⟨?_, ?_⟩
  · rw [h'.tokens_eq, h.tokens_eq, List.append_assoc]
  · rw [h'.length_eq, h.length_eq, List.length_append, Nat.add_assoc]

theorem push (out : Positioned) (token : Text) (position : ℕ × ℕ) :
    Appends out [token] (out.push token position) :=
  ⟨rfl, List.length_append⟩

end Appends

/-! ## `TokenizeInnerWithPosition` -/

section Inner

variable {tables : Tables} {basePos : ℕ} {posMapping : Option (List ℕ)} {tks1 tks : List Text}

/-- The tokens of a string that is appended. -/
def emitted (s : Text) : List Text := if ' ' ∈ s then splitBlanks s else [s]

theorem pushParts_appends (parts : List Text) (start : ℕ) (out : Positioned) :
    Appends out parts (out.pushParts posMapping parts start) := by
  induction parts generalizing start out with
  | nil => exact .refl out
  | cons part parts ih => exact (Appends.push out part _).trans (ih _ _)

theorem pushString_appends (s : Text) (start stop : ℕ) (out : Positioned) :
    Appends out (emitted s) (out.pushString posMapping s start stop) := by
  rw [Positioned.pushString, emitted]
  split_ifs
  · exact pushParts_appends _ _ _
  · exact .push _ _ _

theorem search_appends {base outP : Positioned} {out : Inner}
    (h : Appends base (out.res.flatMap emitted) outP) (text : Text) (start : ℕ) :
    Appends base ((out.search tables text).res.flatMap emitted)
      (outP.search tables basePos posMapping tks text start) := by
  rw [Inner.search, List.flatMap_append, List.flatMap_singleton]
  exact h.trans (pushString_appends _ _ _ _)

theorem pushTokens_appends {base outP : Positioned} {out : Inner}
    (h : Appends base (out.res.flatMap emitted) outP) (token : Text) (start : ℕ) :
    Appends base ((out.push token).res.flatMap emitted)
      (outP.pushTokens basePos posMapping tks token start) := by
  rw [Inner.push, List.flatMap_append, List.flatMap_singleton]
  exact h.trans (pushString_appends _ _ _ _)

/-- The loop with positions goes on in step with the loop without them. -/
theorem walkWithPosition_appends {i j i₀ j₀ : ℕ} {base outP : Positioned} {out : Inner}
    {result : ℕ × ℕ × Inner} (hout : Appends base (out.res.flatMap emitted) outP)
    (hwalk : walk tables tks1 tks i j i₀ j₀ out = some result) :
    ∃ outP', walkWithPosition tables basePos posMapping tks1 tks i j i₀ j₀ outP =
        some (result.1, result.2.1, outP') ∧
      Appends base (result.2.2.res.flatMap emitted) outP' := by
  rw [walk] at hwalk
  rw [walkWithPosition]
  by_cases hinside : i < tks1.length ∧ j < tks.length
  · rw [if_pos hinside] at hwalk ⊢
    cases htk1 : join tks1 i₀ i [] with
    | none => simp [htk1] at hwalk
    | some tk1 =>
        cases htk : join tks j₀ j [] with
        | none => simp [htk1, htk] at hwalk
        | some tk =>
            simp only [htk1, htk, Option.bind_eq_bind, Option.bind_some] at hwalk ⊢
            by_cases htext : tk1 ≠ tk
            · rw [if_pos htext] at hwalk ⊢
              by_cases hlonger : byteSize tk < byteSize tk1
              · rw [if_pos hlonger] at hwalk ⊢
                exact walkWithPosition_appends hout hwalk
              · rw [if_neg hlonger] at hwalk ⊢
                exact walkWithPosition_appends hout hwalk
            · rw [if_neg htext] at hwalk ⊢
              by_cases htoken : tks1[i]? ≠ tks[j]?
              · rw [if_pos htoken] at hwalk ⊢
                exact walkWithPosition_appends hout hwalk
              · rw [if_neg htoken] at hwalk ⊢
                cases hsame : join tks j (j + countSame tks1 tks i j 1) [' '] with
                | none => simp [hsame] at hwalk
                | some token =>
                    simp only [hsame, Option.bind_some] at hwalk ⊢
                    exact walkWithPosition_appends
                      (pushTokens_appends (search_appends hout tk j₀) token j) hwalk
  · rw [if_neg hinside] at hwalk ⊢
    obtain rfl := Option.some.inj hwalk
    exact ⟨outP, rfl, hout⟩
termination_by (tks1.length - i) + (tks.length - j)
decreasing_by all_goals omega

/-- `TokenizeInnerWithPosition` appends the strings of `TokenizeInner`. -/
theorem tokenizeInnerWithPosition_appends {L : Text} {out : Inner}
    (h : tokenizeInner tables L = some out) (base : Positioned) :
    ∃ outP, tokenizeInnerWithPosition tables L base basePos posMapping = some outP ∧
      Appends base (out.res.flatMap emitted) outP := by
  rw [tokenizeInner] at h
  rw [tokenizeInnerWithPosition]
  generalize maxBackward tables L = tks1 at h ⊢
  generalize maxForward tables L = tks at h ⊢
  generalize countSame tks1 tks 0 0 0 = same at h ⊢
  cases htoken : join tks 0 same [' '] with
  | none => simp [htoken] at h
  | some token =>
      simp only [htoken, Option.bind_eq_bind, Option.bind_some] at h ⊢
      have hstart : Appends base
          (List.flatMap emitted (if 0 < same then [token] else []))
          (if 0 < same then base.pushTokens basePos posMapping tks token 0 else base) := by
        split_ifs
        · rw [List.flatMap_singleton]
          exact pushString_appends _ _ _ _
        · exact .refl base
      cases hwalk : walk tables tks1 tks (same + 1) (same + 1) same same
          { res := if 0 < same then [token] else [], searches := [] } with
      | none => simp [hwalk] at h
      | some result =>
          obtain ⟨outP, hwalkP, happends⟩ : ∃ outP,
              walkWithPosition tables basePos posMapping tks1 tks (same + 1) (same + 1) same same
                (if 0 < same then base.pushTokens basePos posMapping tks token 0 else base) =
                  some (result.1, result.2.1, outP) ∧
              Appends base (result.2.2.res.flatMap emitted) outP :=
            walkWithPosition_appends hstart hwalk
          simp only [hwalk, hwalkP, Option.bind_some] at h ⊢
          split_ifs at h ⊢ with hrest
          · cases htext : join tks result.2.1 tks.length [] with
            | none => simp [htext] at h
            | some text =>
                simp only [htext, Option.bind_some] at h ⊢
                obtain rfl := Option.some.inj h
                exact ⟨_, rfl, search_appends happends text _⟩
          · obtain rfl := Option.some.inj h
            exact ⟨outP, rfl, happends⟩

end Inner

/-! ## Sentences and terms -/

section Terms

variable {env : Env} {line : Text} {mapping : List ℕ}

theorem byteSize_append (s t : Text) : byteSize (s ++ t) = byteSize s + byteSize t :=
  totalSize_append Char.utf8Size s t

/-- Terms that occur in order are found, within the sentence. -/
theorem pushTerms_appends {sentence before rest : Text} {start : ℕ} {terms : List Text}
    (hsentence : sentence = before ++ rest) (hterms : InOrder terms rest)
    (hmapping : start + byteSize sentence < mapping.length) {pos : ℕ}
    (hpos : pos ≤ byteSize before) (out : Positioned) :
    ∃ out', pushTerms env line mapping sentence start terms pos out = some out' ∧
      Appends out (terms.map (normalize env)) out' := by
  induction hterms generalizing before pos out with
  | nil => exact ⟨out, rfl, .refl out⟩
  | @cons terms rest gap term hrest ih =>
      have hwhole : sentence = (before ++ gap) ++ term ++ rest := by
        rw [hsentence]
        simp only [List.append_assoc]
      have hstart : pos ≤ 0 + totalSize Char.utf8Size (before ++ gap) := by
        rw [Nat.zero_add, totalSize_append]
        exact hpos.trans (Nat.le_add_right _ _)
      obtain ⟨found, hfound, hle⟩ : ∃ found, findFrom Char.utf8Size term pos 0
            ((before ++ gap) ++ term ++ rest) = some found ∧
          found ≤ 0 + totalSize Char.utf8Size (before ++ gap) :=
        findFrom_of_occurs Char.utf8Size hstart
      rw [← hwhole] at hfound
      rw [Nat.zero_add] at hle
      have hsize : byteSize sentence =
          byteSize (before ++ gap) + byteSize term + byteSize rest := by
        rw [hwhole, byteSize_append, byteSize_append]
      have hend : start + found + byteSize term < mapping.length := by
        have : found ≤ byteSize (before ++ gap) := hle
        omega
      have hbegin : start + found < mapping.length := by omega
      have hnext : found + byteSize term ≤ byteSize (before ++ gap ++ term) := by
        rw [byteSize_append]
        exact Nat.add_le_add_right hle _
      rw [pushTerms, hfound]
      simp only [if_pos hbegin, List.getElem?_eq_getElem hbegin, List.getElem?_eq_getElem hend,
        Option.bind_eq_bind, Option.bind_some]
      obtain ⟨out', hout', happends⟩ := ih hwhole hnext
        (out.push (normalize env term) (mapping[start + found],
          mapping[start + found + byteSize term]))
      exact ⟨out', hout', (Appends.push out _ _).trans happends⟩

/-- The sentences are not longer than the text. -/
theorem byteSize_sentencesOf (pieces : List Text) :
    byteSize (sentencesOf pieces).flatten ≤ byteSize pieces.flatten := by
  induction pieces using sentencesOf.induct with
  | case1 => exact le_rfl
  | case2 => exact le_rfl
  | case3 rest h =>
      rw [sentencesOf, if_neg h]
  | case4 stop rest ih =>
      rw [sentencesOf, if_pos rfl, List.flatten_cons, List.flatten_cons, byteSize_append,
        byteSize_append]
      omega
  | case5 sentence stop rest h ih =>
      rw [sentencesOf, if_neg h, List.flatten_cons, List.flatten_cons, List.flatten_cons,
        byteSize_append, byteSize_append, byteSize_append, byteSize_append]
      omega

theorem pushSentences_appends (hnltk : ∀ sentence, InOrder (env.nltk sentence) sentence)
    {sentences : List Text} {start : ℕ}
    (hmapping : start + byteSize sentences.flatten < mapping.length) (out : Positioned) :
    ∃ out', pushSentences env line mapping sentences start out = some out' ∧
      Appends out ((sentences.flatMap env.nltk).map (normalize env)) out' := by
  induction sentences generalizing start out with
  | nil => exact ⟨out, rfl, .refl out⟩
  | cons sentence sentences ih =>
      rw [List.flatten_cons, byteSize_append] at hmapping
      have hfirst : start + byteSize sentence < mapping.length := by omega
      have hothers : start + byteSize sentence + byteSize sentences.flatten < mapping.length := by
        omega
      obtain ⟨out₁, hout₁, happends₁⟩ : ∃ out₁,
          pushTerms env line mapping sentence start (env.nltk sentence) 0 out = some out₁ ∧
            Appends out ((env.nltk sentence).map (normalize env)) out₁ :=
        pushTerms_appends (List.nil_append sentence).symm (hnltk sentence) hfirst (Nat.zero_le _)
          out
      obtain ⟨out₂, hout₂, happends₂⟩ := ih hothers out₁
      rw [pushSentences, hout₁, Option.bind_eq_bind, Option.bind_some, hout₂]
      refine ⟨out₂, rfl, ?_⟩
      rw [List.flatMap_cons, List.map_append]
      exact happends₁.trans happends₂

end Terms

/-! ## Segments -/

section Segments

variable {env : Env} {line : Text} {mapping : List ℕ}

/-- The strings of a segment, which `TokenizeInner` finds. -/
def stringsOf (env : Env) (x : Text × Bool) : List Text := (segmentStrings env x).getD []

/-- The tokens that a segment appends with positions. -/
def positionTokens (env : Env) (x : Text × Bool) : List Text :=
  if x.2 then (stringsOf env x).flatMap emitted else stringsOf env x

theorem segmentStrings_eq (x : Text × Bool) : segmentStrings env x = some (stringsOf env x) := by
  obtain ⟨L, lang⟩ := x
  rw [stringsOf]
  cases lang with
  | false => rfl
  | true =>
      rw [segmentStrings]
      split_ifs
      · rfl
      · obtain ⟨out, hout, -⟩ := tokenizeInner_spec env.tables L
        rw [hout]
        rfl

/-- One segment appends its strings, with blanks split off if it is Chinese. -/
theorem pushSegment_appends (hnltk : ∀ sentence, InOrder (env.nltk sentence) sentence)
    {L : Text} {lang : Bool} (hlang : ∀ c ∈ L, isChinese c = lang) {start : ℕ}
    (hmapping : start + byteSize L < mapping.length) (out : Positioned) :
    ∃ out', pushSegment env line mapping L lang start out = some out' ∧
      Appends out (positionTokens env (L, lang)) out' := by
  rw [pushSegment, positionTokens, stringsOf]
  cases lang with
  | false =>
      rw [if_pos rfl, if_neg Bool.false_ne_true]
      refine pushSentences_appends hnltk ?_ out
      have hle : byteSize (sentenceSplitter L).flatten ≤ byteSize L := by
        have h := byteSize_sentencesOf (splitMatches sentenceEnd L)
        rwa [flatten_splitMatches] at h
      omega
  | true =>
      rw [if_neg Bool.true_eq_false.mp, if_pos rfl, segmentStrings]
      by_cases hone : isOneToken L
      · have hblank : ' ' ∉ L := fun h => absurd (hlang ' ' h) (by decide)
        have hstart : start < mapping.length := by omega
        rw [if_pos hone, if_pos hone, if_pos ⟨hstart, hmapping⟩]
        simp only [List.getElem?_eq_getElem hstart, List.getElem?_eq_getElem hmapping,
          Option.bind_eq_bind, Option.bind_some, Option.getD_some, List.flatMap_singleton,
          emitted, if_neg hblank]
        exact ⟨_, rfl, .push _ _ _⟩
      · obtain ⟨inner, hinner, -⟩ := tokenizeInner_spec env.tables L
        rw [if_neg hone, if_neg hone, hinner]
        exact tokenizeInnerWithPosition_appends hinner out

/-- All segments are found where they are, and append their strings. -/
theorem pushSegments_appends (hnltk : ∀ sentence, InOrder (env.nltk sentence) sentence)
    {strline before after : Text} {arr : List (Text × Bool)}
    (hstrline : strline = before ++ (arr.map Prod.fst).flatten ++ after)
    (harr : ∀ x ∈ arr, x.1 ≠ [] ∧ ∀ c ∈ x.1, isChinese c = x.2)
    (hmapping : byteSize strline < mapping.length) (out : Positioned) :
    ∃ out', pushSegments env line mapping strline arr (byteSize before) out = some out' ∧
      Appends out (arr.flatMap (positionTokens env)) out' := by
  induction arr generalizing before out with
  | nil => exact ⟨out, rfl, .refl out⟩
  | cons x arr ih =>
      obtain ⟨L, lang⟩ := x
      obtain ⟨hne, hlang⟩ := harr (L, lang) List.mem_cons_self
      have hwhole : strline = before ++ L ++ ((arr.map Prod.fst).flatten ++ after) := by
        rw [hstrline, List.map_cons, List.flatten_cons]
        simp only [List.append_assoc]
      have hnext : strline = (before ++ L) ++ (arr.map Prod.fst).flatten ++ after := by
        rw [hwhole]
        simp only [List.append_assoc]
      have hsize : byteSize strline = byteSize before + byteSize L +
          byteSize ((arr.map Prod.fst).flatten ++ after) := by
        rw [hwhole, byteSize_append, byteSize_append]
      obtain ⟨found, hfound, -⟩ : ∃ found, findFrom Char.utf8Size L (byteSize before) 0
            (before ++ L ++ ((arr.map Prod.fst).flatten ++ after)) = some found ∧
          found ≤ 0 + totalSize Char.utf8Size before :=
        findFrom_of_occurs Char.utf8Size (Nat.zero_add _).ge
      rw [← hwhole] at hfound
      have hinside : byteSize before + byteSize L < mapping.length := by omega
      obtain ⟨out₁, hout₁, happends₁⟩ : ∃ out₁,
          pushSegment env line mapping L lang (byteSize before) out = some out₁ ∧
            Appends out (positionTokens env (L, lang)) out₁ :=
        pushSegment_appends hnltk hlang hinside out
      obtain ⟨out₂, hout₂, happends₂⟩ := ih hnext
        (fun x hx => harr x (List.mem_cons_of_mem _ hx)) out₁
      rw [pushSegments, if_neg hne, hfound]
      rw [byteSize_append] at hout₂
      simp only [hout₁, hout₂, Option.bind_eq_bind, Option.bind_some]
      exact ⟨out₂, rfl, happends₁.trans happends₂⟩

end Segments

/-! ## Merging -/

section Merge

variable {env : Env}

/-- Merging keeps the characters. -/
theorem flatten_mergeFrom (tokens : List Text) (s : ℕ) :
    (mergeFrom env tokens s).flatten = (tokens.drop s).flatten := by
  induction s using mergeFrom.induct env tokens with
  | case1 s hs hlt E ih =>
      have htake : ((tokens.take (mergeEnd env tokens s)).drop s) ++
          tokens.drop (mergeEnd env tokens s) = tokens.drop s := by
        have hsplit := List.take_append_drop (mergeEnd env tokens s - s) (tokens.drop s)
        rwa [List.drop_drop, Nat.add_sub_cancel' hlt.le, ← List.drop_take] at hsplit
      rw [mergeFrom, if_pos hs, List.flatten_cons, ih, ← htake, List.flatten_append]
  | case2 s hs =>
      rw [mergeFrom, if_neg hs, List.drop_eq_nil_of_le (Nat.le_of_not_lt hs)]

/-- Merged tokens of clean tokens are clean. -/
theorem clean_of_mem_mergeFrom {tokens : List Text} (h : ∀ t ∈ tokens, t ≠ [] ∧ Clean t) (s : ℕ) :
    ∀ t ∈ mergeFrom env tokens s, t ≠ [] ∧ Clean t := by
  induction s using mergeFrom.induct env tokens with
  | case1 s hs hlt E ih =>
      rw [mergeFrom, if_pos hs]
      intro t ht
      rcases List.mem_cons.mp ht with rfl | ht
      · refine ⟨fun hnil => ?_, fun c hc => ?_⟩
        · have hmem : tokens[s] ∈ (tokens.take (mergeEnd env tokens s)).drop s := by
            rw [List.mem_drop_iff_getElem]
            refine ⟨0, ?_, ?_⟩
            · rw [List.length_take]
              omega
            · simp
          exact (h _ (List.getElem_mem hs)).1 (List.flatten_eq_nil_iff.mp hnil _ hmem)
        · obtain ⟨t, ht, hc⟩ := List.mem_flatten.mp hc
          exact (h t (List.mem_of_mem_take (List.mem_of_mem_drop ht))).2 c hc
      · exact ih t ht
  | case2 s hs =>
      rw [mergeFrom, if_neg hs]
      exact fun t ht => absurd ht List.not_mem_nil

/-- What the first loop of `MergeWithPosition` keeps. -/
def isKept (t : Text) : Bool := t ≠ [] ∧ t ≠ [' ']

theorem filterPositions_appends {positions : List (ℕ × ℕ)} {tokens : List Text} {i : ℕ}
    (h : positions.length = i + tokens.length) (out : Positioned) :
    ∃ out', filterPositions positions i tokens out = some out' ∧
      Appends out (tokens.filter isKept) out' := by
  induction tokens generalizing i out with
  | nil => exact ⟨out, rfl, .refl out⟩
  | cons token tokens ih =>
      rw [List.length_cons] at h
      have hi : i < positions.length := by omega
      have hrest : positions.length = i + 1 + tokens.length := by omega
      rw [filterPositions]
      by_cases hkept : token ≠ [] ∧ token ≠ [' ']
      · have hfilter : isKept token = true := decide_eq_true hkept
        obtain ⟨out', hout', happends⟩ := ih hrest (out.push token positions[i])
        rw [if_pos hkept, List.getElem?_eq_getElem hi, Option.bind_eq_bind, Option.bind_some,
          List.filter_cons_of_pos hfilter]
        exact ⟨out', hout', (Appends.push out token _).trans happends⟩
      · have hfilter : ¬ isKept token = true := fun h => hkept (of_decide_eq_true h)
        rw [if_neg hkept, List.filter_cons_of_neg hfilter]
        exact ih hrest out

variable (env) in
theorem mergeWithPositionFrom_appends {filtered : Positioned}
    (h : filtered.positions.length = filtered.tokens.length) {s : ℕ} (out : Positioned) :
    ∃ out', mergeWithPositionFrom env filtered s out = some out' ∧
      Appends out (mergeFrom env filtered.tokens s) out' := by
  induction s using mergeFrom.induct env filtered.tokens generalizing out with
  | case1 s hs hlt E ih =>
      have hE : mergeEnd env filtered.tokens s - 1 < filtered.positions.length := by
        have := mergeEnd_le env hs
        omega
      rw [mergeWithPositionFrom, mergeFrom, if_pos hs, if_pos hs]
      simp only [List.getElem?_eq_getElem (h.symm ▸ hs : s < filtered.positions.length),
        List.getElem?_eq_getElem hE, Option.bind_eq_bind, Option.bind_some]
      obtain ⟨out', hout', happends⟩ := ih (out.push
        ((filtered.tokens.take (mergeEnd env filtered.tokens s)).drop s).flatten _)
      exact ⟨out', hout', (Appends.push out _ _).trans happends⟩
  | case2 s hs =>
      rw [mergeWithPositionFrom, mergeFrom, if_neg hs, if_neg hs]
      exact ⟨out, rfl, .refl out⟩

end Merge

/-! ## `TokenizeWithPosition` and `Tokenize` -/

section Tokenize

variable {env : Env}

theorem length_finalPosMapping (line : Text) :
    (finalPosMapping env line).length = byteSize (prepare env line) + 1 := by
  rw [finalPosMapping, List.length_append, List.length_map, List.length_range]
  rfl

/-- `TokenizeWithPosition` merges what its segments append, with a position for each token. -/
theorem tokenizeWithPosition_eq (hnltk : ∀ sentence, InOrder (env.nltk sentence) sentence)
    (line : Text) :
    ∃ out, tokenizeWithPosition env line = some out ∧
      out.tokens = mergeFrom env (((splitByLang (prepare env line)).flatMap
        (positionTokens env)).filter isKept) 0 ∧
      out.positions.length = out.tokens.length := by
  have hmapping : byteSize (prepare env line) < (finalPosMapping env line).length := by
    rw [length_finalPosMapping]
    exact Nat.lt_succ_self _
  obtain ⟨hflat, harr⟩ := splitByLang_spec (prepare env line)
  have hstrline : prepare env line =
      [] ++ ((splitByLang (prepare env line)).map Prod.fst).flatten ++
        (prepare env line).dropWhile (· ≠ '\x00') := by
    rw [hflat, List.nil_append, cString, List.takeWhile_append_dropWhile]
  obtain ⟨out, hout, hsegments⟩ : ∃ out, pushSegments env line (finalPosMapping env line)
        (prepare env line) (splitByLang (prepare env line)) 0 .empty = some out ∧
      Appends .empty ((splitByLang (prepare env line)).flatMap (positionTokens env)) out :=
    pushSegments_appends hnltk hstrline harr hmapping .empty
  have htokens : out.tokens = (splitByLang (prepare env line)).flatMap (positionTokens env) :=
    hsegments.tokens_eq
  have hlength : out.positions.length = 0 + out.tokens.length := by
    rw [hsegments.length_eq, htokens]
    rfl
  obtain ⟨filtered, hfiltered, hkept⟩ := filterPositions_appends hlength .empty
  have hkeptTokens : filtered.tokens = out.tokens.filter isKept := hkept.tokens_eq
  have haligned : filtered.positions.length = filtered.tokens.length := by
    rw [hkept.length_eq, hkeptTokens]
    exact Nat.zero_add _
  obtain ⟨merged, hmerged, hmerge⟩ := mergeWithPositionFrom_appends env haligned (s := 0) .empty
  have hmergeTokens : merged.tokens = mergeFrom env filtered.tokens 0 := hmerge.tokens_eq
  refine ⟨merged, ?_, ?_, ?_⟩
  · rw [tokenizeWithPosition]
    simp only [hout, mergeWithPosition, hfiltered, hmerged, Option.bind_eq_bind, Option.bind_some]
  · rw [hmergeTokens, hkeptTokens, htokens]
  · rw [hmerge.length_eq, hmergeTokens]
    exact Nat.zero_add _

/-- `Tokenize` merges the strings of the segments. -/
theorem tokenize_eq (line : Text) :
    tokenize env line = some (merge env ([' '].intercalate
      ((splitByLang (prepare env line)).flatMap (stringsOf env)))) := by
  rw [tokenize, mapM_eq_map fun x _ => segmentStrings_eq x]
  rfl

end Tokenize

end RagFlow.Analyzer
