/-
# The pieces of a line

Position mode reads its tokens from pieces of the line, in order and apart from each other: Chinese
words as they are, and other words by their stems. Up to five pieces that are a word of the
dictionary together become one token, from where the first starts to where the last stops.
-/

import RagFlow.Analyzer.Spans

namespace RagFlow.Analyzer

open RagFlow.Math

/-! ## Sentences and terms -/

section Terms

variable {env : Env} {strline L : Text} (line : Text) {mapping : List ℕ} {origin : ℕ → ℕ}
  {out : Positioned} {a : ℕ}

/-- The places between characters are in the order of their bytes. -/
theorem le_of_byteOffset_le {c d : ℕ} (hc : c ≤ L.length) (h : byteOffset L c ≤ byteOffset L d) :
    c ≤ d := by
  by_contra hlt
  have htake : L.take c = L.take d ++ (L.take c).drop d := by
    have hshort : L.take d = (L.take c).take d := by
      rw [List.take_take, Nat.min_eq_left (by omega)]
    rw [hshort, List.take_append_drop]
  have hrest : (L.take c).drop d ≠ [] := by
    intro hnil
    have hlength := congrArg List.length hnil
    rw [List.length_drop, List.length_take, List.length_nil] at hlength
    omega
  have hpos := byteSize_pos hrest
  rw [byteOffset, byteOffset, htake, byteSize_append] at h
  omega

theorem lt_length_of_maps (hmaps : Maps strline mapping origin) {k : ℕ} (hk : k ≤ strline.length) :
    byteOffset strline k < mapping.length :=
  (List.getElem?_eq_some_iff.mp (hmaps k hk)).1

/-- Without the mark of an end, a text is one sentence. -/
theorem sentenceSplitter_eq (hne : L ≠ []) (h : ∀ c ∈ L, c ∉ ['.', '?', '!']) :
    sentenceSplitter L = [L] := by
  have hmatch : ∀ s, s <:+ L → sentenceEnd s = 0 := by
    intro s hs
    rw [sentenceEnd]
    dsimp only
    split
    · rfl
    · rename_i c cs hdrop
      have hc : c ∈ s := List.mem_of_mem_drop (hdrop ▸ List.mem_cons_self)
      rw [if_neg (h c (hs.subset hc))]
  rw [sentenceSplitter, splitMatches_eq_singleton fun a s hs => hmatch _ hs, sentencesOf,
    if_neg hne]

/-- The terms that are found are read one after another. -/
theorem Traced.pushTerms (hmaps : Maps strline mapping origin) (hat : Occurs strline a L)
    (hlang : ∀ c ∈ L, isChinese c = false) {terms : List Text}
    (hterms : ∀ t ∈ terms, t ≠ [] ∧ ' ' ∉ t) {c : ℕ} (hc : c ≤ L.length)
    (h : Traced env strline origin out (a + c)) :
    ∃ out', pushTerms env line mapping L (byteOffset strline a) terms (byteOffset L c) out =
        some out' ∧ Traced env strline origin out' (a + L.length) := by
  induction terms generalizing c out with
  | nil => exact ⟨out, rfl, h.mono (Nat.add_le_add_left hc a)⟩
  | cons term terms ih =>
      obtain ⟨⟨hne, hblank⟩, hrest⟩ := List.forall_mem_cons.mp hterms
      rw [Analyzer.pushTerms]
      cases hfind : findFrom Char.utf8Size term (byteOffset L c) 0 L with
      | none => exact ih hrest hc h
      | some found =>
          obtain ⟨gap, rest, rfl, hfound, hle⟩ := findFrom_eq_some Char.utf8Size hfind
          have hgap : byteOffset (gap ++ term ++ rest) gap.length = byteSize gap := by
            rw [byteOffset, List.append_assoc, List.take_left]
          have hboth : byteOffset (gap ++ term ++ rest) (gap.length + term.length) =
              byteSize gap + byteSize term := by
            rw [byteOffset, ← List.length_append, List.take_left, byteSize_append]
          have hfound' : found = byteSize gap := hfound.trans (Nat.zero_add _)
          have hbehind : c ≤ gap.length := by
            apply le_of_byteOffset_le hc
            rw [hgap, ← hfound']
            exact hle
          have hterm := hat.sub
          have hstart : byteOffset strline a + found = byteOffset strline (a + gap.length) := by
            rw [List.append_assoc] at hat
            rw [hat.left.byteOffset, hfound']
          have hstop : byteOffset strline (a + gap.length) + byteSize term =
              byteOffset strline (a + gap.length + term.length) := hterm.byteOffset.symm
          have hfits := hterm.le
          have hfrom : a + gap.length ≤ strline.length := by omega
          dsimp only
          rw [hstart, if_pos (lt_length_of_maps hmaps hfrom), hstop, hmaps _ hfrom, hmaps _ hfits]
          simp only [Option.bind_eq_bind, Option.bind_some]
          have hread : ReadFrom env (normalize env term) term :=
            .inr ⟨rfl, hblank, fun c hc => hlang c (by simp [hc])⟩
          have hnext := h.push (Nat.add_le_add_left hbehind a) hterm fun _ => ⟨hne, hread⟩
          rw [hfound', ← hboth]
          apply ih hrest
          · simp only [List.length_append]
            omega
          · rw [← Nat.add_assoc]
            exact hnext

end Terms

/-! ## Segments -/

section Segments

/-- The terms of NLTK are split at blanks. -/
def SplitsAtBlanks (env : Env) : Prop :=
  ∀ sentence, ∀ t ∈ env.nltk sentence, t ≠ [] ∧ ' ' ∉ t

variable {env : Env} {strline L : Text} (line : Text) {mapping : List ℕ} {origin : ℕ → ℕ}
  {out : Positioned} {a : ℕ}

theorem Traced.segment (hnltk : SplitsAtBlanks env) (hmaps : Maps strline mapping origin)
    (hat : Occurs strline a L) (hne : L ≠ []) {lang : Bool} (hlang : ∀ c ∈ L, isChinese c = lang)
    (hmarks : ∀ c ∈ L, c ∉ ['.', '?', '!']) (h : Traced env strline origin out a) :
    ∃ out', pushSegment env line mapping L lang (byteOffset strline a) out = some out' ∧
      Traced env strline origin out' (a + L.length) := by
  rw [pushSegment]
  cases lang with
  | false =>
      obtain ⟨out', hout', htraced⟩ := h.pushTerms line (c := 0) hmaps hat hlang
        (hnltk L) (Nat.zero_le _)
      have hzero : byteOffset L 0 = 0 := rfl
      rw [hzero] at hout'
      rw [if_pos rfl, sentenceSplitter_eq hne hmarks, pushSentences, hout']
      exact ⟨out', rfl, htraced⟩
  | true =>
      rw [if_neg Bool.true_eq_false.mp]
      split_ifs with hone
      · have hfits := hat.le
        have hfrom : a ≤ strline.length := by omega
        dsimp only
        rw [← hat.byteOffset, if_pos ⟨lt_length_of_maps hmaps hfrom, lt_length_of_maps hmaps hfits⟩,
          hmaps _ hfrom, hmaps _ hfits]
        exact ⟨_, rfl, h.push le_rfl hat fun _ => ⟨hne, .inl ⟨rfl, hlang⟩⟩⟩
      · obtain ⟨inner, hinner, -⟩ := tokenizeInner_spec env.tables L
        obtain ⟨out', hout', -⟩ : ∃ out', tokenizeInnerWithPosition env.tables L out
              (byteOffset strline a) (some mapping) = some out' ∧
            Appends out (inner.res.flatMap emitted) out' :=
          tokenizeInnerWithPosition_appends hinner out
        exact ⟨out', hout', h.inner hmaps hat hlang hout'⟩

end Segments

/-! ## Merging -/

section Merging

variable {env : Env} {ps group : List Piece}

/-- The token of neighbouring pieces. -/
def groupToken (group : List Piece) : Text := (group.map Piece.token).flatten

variable (env) in
/-- One piece, or up to five with a delimiter, a letter or a digit that are a word together. -/
def IsMerged (group : List Piece) : Prop :=
  group.length = 1 ∨ 2 ≤ group.length ∧ group.length ≤ 5 ∧
    (groupToken group).any (fun c => delimiter c || wordLike c) = true ∧
    0 < freq env (groupToken group)

end Merging

/-! ## Back to the line -/

section Line

variable (env : Env)

/-- A token that is kept and its bytes in the line, which are word characters of either width. -/
def Piece.Reads (line : Text) (p : Piece) : Prop :=
  p.token ≠ [] ∧ ∃ before text after, line = before ++ text ++ after ∧ text ≠ [] ∧
    p.start = byteSize before ∧ p.stop = byteSize (before ++ text) ∧
    (∀ c ∈ text, env.isWord c = true) ∧ ReadFrom env p.token (strQ2B text)

variable {env} {line : Text} {pieces : List (Stretch Char)}

theorem preparedOf_take (pieces : List (Stretch Char)) (k : ℕ) :
    (preparedOf pieces).take k = preparedOf (pieces.take k) := by
  rw [preparedOf, preparedOf, strQ2B, strQ2B, ← List.map_take, ← List.map_take]

theorem preparedOf_drop (pieces : List (Stretch Char)) (k : ℕ) :
    (preparedOf pieces).drop k = preparedOf (pieces.drop k) := by
  rw [preparedOf, preparedOf, strQ2B, strQ2B, ← List.map_drop, ← List.map_drop]

/-- The bytes of the line before a piece. -/
def originOf (pieces : List (Stretch Char)) (k : ℕ) : ℕ := byteSize (lineOf (pieces.take k))

/-- Pieces that become text without blanks are word characters. -/
theorem lineOf_eq (hkinds : ∀ p ∈ pieces, ∀ a ∈ p.toList, env.isWord a = p.isMark)
    (hblank : ' ' ∉ preparedOf pieces) :
    lineOf pieces = pieces.map keptChar ∧ ∀ c ∈ lineOf pieces, env.isWord c = true := by
  induction pieces with
  | nil => exact ⟨rfl, fun _ hc => absurd hc List.not_mem_nil⟩
  | cons p ps ih =>
      obtain ⟨hp, hrest⟩ := List.forall_mem_cons.mp hkinds
      have hcons : preparedOf (p :: ps) = strQ2B [keptChar p] ++ preparedOf ps := rfl
      rw [hcons, List.mem_append, not_or] at hblank
      obtain ⟨hmap, hword⟩ := ih hrest hblank.2
      cases p with
      | mark c =>
          rw [lineOf_cons, hmap]
          refine ⟨rfl, fun d hd => ?_⟩
          rcases List.mem_cons.mp hd with rfl | hd
          · exact hp d List.mem_cons_self
          · exact hword d (hmap ▸ hd)
      | run l => exact absurd List.mem_cons_self hblank.1

/-- What covers characters of the prepared text reads bytes of the line. -/
theorem Piece.Covers.reads (hcut : CutAt env.isWord line pieces) {p : Piece}
    (h : p.Covers env (preparedOf pieces)) :
    Piece.Reads env line
      { token := p.token, start := originOf pieces p.start, stop := originOf pieces p.stop } := by
  obtain ⟨hnil, t, ⟨before, after, hstrline, hstart⟩, hne, hstop, hread⟩ := h
  have hmid : preparedOf ((pieces.drop p.start).take t.length) = t := by
    rw [← preparedOf_take, ← preparedOf_drop, hstrline, ← hstart, List.append_assoc,
      List.drop_left, List.take_left]
  have hsplit : pieces.take p.start ++ (pieces.drop p.start).take t.length ++
      (pieces.drop p.start).drop t.length = pieces := by
    rw [List.append_assoc, List.take_append_drop, List.take_append_drop]
  have htake : pieces.take p.stop =
      pieces.take p.start ++ (pieces.drop p.start).take t.length := by
    rw [hstop, List.take_add]
  generalize (pieces.drop p.start).take t.length = mid at *
  have hkinds : ∀ q ∈ mid, ∀ a ∈ q.toList, env.isWord a = q.isMark := by
    intro q hq
    apply (hcut.kinds q _).2
    rw [← hsplit]
    simp [hq]
  have hblank : ' ' ∉ preparedOf mid := by
    rw [hmid]
    rcases hread with ⟨-, hzh⟩ | ⟨-, hblank, -⟩
    · exact fun h => absurd (hzh ' ' h) (by decide)
    · exact hblank
  obtain ⟨hmap, hword⟩ := lineOf_eq hkinds hblank
  have hwidth : strQ2B (lineOf mid) = t := by rw [hmap, ← hmid]; rfl
  refine ⟨hnil, lineOf (pieces.take p.start), lineOf mid,
    lineOf ((pieces.drop p.start).drop t.length), ?_, ?_, rfl, ?_, hword, ?_⟩
  · rw [← lineOf_append, ← lineOf_append, hsplit]
    exact hcut.whole.symm
  · intro hempty
    rw [hempty] at hwidth
    exact hne hwidth.symm
  · rw [← lineOf_append, ← htake]
    rfl
  · rw [hwidth]
    exact hread

theorem Piece.Reads.bounds {p : Piece} (h : p.Reads env line) :
    p.start < p.stop ∧ p.stop ≤ byteSize line := by
  obtain ⟨-, before, text, after, rfl, hne, hstart, hstop, -⟩ := h
  have hpos := byteSize_pos hne
  rw [hstart, hstop, byteSize_append, byteSize_append]
  rw [byteSize_append]
  omega

theorem IsMerged.ne_nil {group : List Piece} (h : IsMerged env group) : group ≠ [] := by
  rintro rfl
  rcases h with hone | ⟨htwo, -⟩
  · cases hone
  · cases htwo

end Line

section Wide

end Wide

end RagFlow.Analyzer
