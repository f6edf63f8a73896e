/-
# Where tokens are read

The tokens that position mode appends are read one after another from the prepared text: each from
characters of its own, behind those of the one before. A token that is empty is read from nothing,
and dropped later.
-/

import RagFlow.Analyzer.LineMap

namespace RagFlow.Analyzer

open RagFlow.Math

/-! ## Occurrences -/

/-- `t` is at the character `a` of a text. -/
def Occurs (text : Text) (a : ℕ) (t : Text) : Prop :=
  ∃ before after, text = before ++ t ++ after ∧ before.length = a

/-- The bytes before a character. -/
def byteOffset (text : Text) (a : ℕ) : ℕ := byteSize (text.take a)

section Occurs

variable {text t u v : Text} {a : ℕ}

theorem Occurs.sub (h : Occurs text a (t ++ u ++ v)) : Occurs text (a + t.length) u := by
  obtain ⟨before, after, rfl, rfl⟩ := h
  exact ⟨before ++ t, v ++ after, by simp only [List.append_assoc], List.length_append⟩

theorem Occurs.left (h : Occurs text a (t ++ u)) : Occurs text a t := by
  obtain ⟨before, after, rfl, rfl⟩ := h
  exact ⟨before, u ++ after, by simp only [List.append_assoc], rfl⟩

theorem Occurs.right (h : Occurs text a (t ++ u)) : Occurs text (a + t.length) u := by
  rw [← List.append_nil (t ++ u)] at h
  exact h.sub

theorem Occurs.le (h : Occurs text a t) : a + t.length ≤ text.length := by
  obtain ⟨before, after, rfl, rfl⟩ := h
  rw [List.length_append, List.length_append]
  omega

theorem Occurs.byteOffset (h : Occurs text a t) :
    byteOffset text (a + t.length) = byteOffset text a + byteSize t := by
  obtain ⟨before, after, rfl, rfl⟩ := h
  rw [Analyzer.byteOffset, Analyzer.byteOffset, ← List.length_append, List.take_left,
    List.append_assoc, List.take_left, byteSize_append]

end Occurs

/-! ## Traces -/

/-- A token and what it was read from. -/
structure Piece where
  token : Text
  start : ℕ
  stop : ℕ

section Trace

variable (env : Env) (strline : Text)

/-- A token is Chinese text as it is, or the stem of a term. -/
def ReadFrom (token t : Text) : Prop :=
  token = t ∧ (∀ c ∈ t, isChinese c = true) ∨
    token = normalize env t ∧ ' ' ∉ t ∧ ∀ c ∈ t, isChinese c = false

/-- A token that is kept and its characters in the prepared text. -/
def Piece.Covers (p : Piece) : Prop :=
  p.token ≠ [] ∧ ∃ t, Occurs strline p.start t ∧ t ≠ [] ∧ p.stop = p.start + t.length ∧
    ReadFrom env p.token t

/-- Up to the character `reach`, the tokens that are kept have been read in order; `origin` takes
the places between characters to the line. -/
structure Traced (origin : ℕ → ℕ) (out : Positioned) (reach : ℕ) : Prop where
  aligned : out.positions.length = out.tokens.length
  pieces : ∃ ps : List Piece,
    (out.tokens.zip out.positions).filter (fun x => isKept x.1) =
      ps.map (fun p => (p.token, origin p.start, origin p.stop)) ∧
    ps.Pairwise (fun p q => p.stop ≤ q.start) ∧
    ∀ p ∈ ps, p.Covers env strline ∧ p.stop ≤ reach

variable {env strline} {origin : ℕ → ℕ} {out : Positioned} {reach a b : ℕ} {token t : Text}

theorem Traced.mono (h : Traced env strline origin out a) (hab : a ≤ b) :
    Traced env strline origin out b := by
  obtain ⟨haligned, ps, hps, hordered, hall⟩ := h
  exact ⟨haligned, ps, hps, hordered, fun p hp => ⟨(hall p hp).1, (hall p hp).2.trans hab⟩⟩

/-- Append a token that is read behind the others. -/
theorem Traced.push (h : Traced env strline origin out reach) (ha : reach ≤ a)
    (ht : Occurs strline a t) (htoken : isKept token = true → t ≠ [] ∧ ReadFrom env token t) :
    Traced env strline origin (out.push token (origin a, origin (a + t.length)))
      (a + t.length) := by
  obtain ⟨haligned, ps, hps, hordered, hall⟩ := h
  refine ⟨?_, ?_⟩
  · rw [Positioned.push, List.length_append, List.length_append, haligned]
    rfl
  · have hzip : (out.push token (origin a, origin (a + t.length))).tokens.zip
        (out.push token (origin a, origin (a + t.length))).positions =
          out.tokens.zip out.positions ++ [(token, origin a, origin (a + t.length))] :=
      List.zip_append haligned.symm
    rw [hzip, List.filter_append, hps]
    by_cases hkept : isKept token = true
    · obtain ⟨hne, hread⟩ := htoken hkept
      have hnil : token ≠ [] := (of_decide_eq_true hkept).1
      refine ⟨ps ++ [{ token, start := a, stop := a + t.length }], ?_, ?_, ?_⟩
      · rw [List.map_append,
          List.filter_cons_of_pos (p := fun x : Text × ℕ × ℕ => isKept x.1) hkept]
        rfl
      · refine List.pairwise_append.mpr ⟨hordered, List.pairwise_singleton _ _, ?_⟩
        intro p hp q hq
        rw [List.mem_singleton.mp hq]
        exact (hall p hp).2.trans ha
      · intro p hp
        rcases List.mem_append.mp hp with hp | hp
        · exact ⟨(hall p hp).1, ((hall p hp).2.trans ha).trans (Nat.le_add_right _ _)⟩
        · rw [List.mem_singleton.mp hp]
          exact ⟨⟨hnil, t, ht, hne, rfl, hread⟩, le_rfl⟩
    · refine ⟨ps, ?_, hordered, fun p hp => ⟨(hall p hp).1, ?_⟩⟩
      · rw [List.filter_cons_of_neg (p := fun x : Text × ℕ × ℕ => isKept x.1) hkept,
          List.filter_nil, List.append_nil]
      · exact ((hall p hp).2.trans ha).trans (Nat.le_add_right _ _)

end Trace

/-! ## `TokenizeInnerWithPosition` -/

/-- A mapping that knows the origin of each place between characters. -/
def Maps (strline : Text) (mapping : List ℕ) (origin : ℕ → ℕ) : Prop :=
  ∀ k ≤ strline.length, mapping[byteOffset strline k]? = some (origin k)

section Inner

variable {env : Env} {strline : Text} {mapping : List ℕ} {origin : ℕ → ℕ} {out : Positioned}
  {reach a : ℕ} {parts tks : List Text}

theorem mapPosition_eq (hmaps : Maps strline mapping origin) {k : ℕ} (hk : k ≤ strline.length) :
    mapPosition (some mapping) (byteOffset strline k) = origin k := by
  rw [mapPosition, hmaps k hk]
  rfl

/-- Tokens that are Chinese text as it is. -/
def ChineseTokens (tokens : List Text) : Prop :=
  ∀ t ∈ tokens, t ≠ [] ∧ ∀ c ∈ t, isChinese c = true

theorem clean_of_isChinese {t : Text} (h : ∀ c ∈ t, isChinese c = true) : Clean t := by
  intro c hc
  have hzh := h c hc
  constructor
  · rintro rfl
    exact absurd hzh (by decide)
  · rintro rfl
    exact absurd hzh (by decide)

theorem splitBlanks_of_chinese (h : ChineseTokens parts) :
    splitBlanks ([' '].intercalate parts) = parts := by
  have hclean : ∀ t ∈ parts, Clean t := fun t ht => clean_of_isChinese (h t ht).2
  rw [splitBlanks, cString_eq (noNul_intercalate fun t ht => (hclean t ht).noNul)]
  exact cut_intercalate_of_pieces rfl fun t ht =>
    ⟨(h t ht).1, fun c hc => decide_eq_false (hclean t ht c hc).1⟩

/-- The parts of a string are read one after another. -/
theorem Traced.pushParts (hmaps : Maps strline mapping origin)
    (h : Traced env strline origin out reach) (ha : reach ≤ a)
    (hat : Occurs strline a parts.flatten) (hparts : ChineseTokens parts) :
    Traced env strline origin (out.pushParts (some mapping) parts (byteOffset strline a))
      (a + parts.flatten.length) := by
  induction parts generalizing a reach out with
  | nil => exact h.mono (ha.trans (Nat.le_add_right _ _))
  | cons part parts ih =>
      obtain ⟨⟨hne, hzh⟩, hrest⟩ := List.forall_mem_cons.mp hparts
      rw [List.flatten_cons] at hat
      have hpart := hat.left
      have hnext := ih (h.push ha hpart fun _ => ⟨hne, .inl ⟨rfl, hzh⟩⟩) le_rfl hat.right hrest
      rw [Positioned.pushParts, mapPosition_eq hmaps (by have := hpart.le; omega),
        ← hpart.byteOffset, mapPosition_eq hmaps hpart.le, List.flatten_cons, List.length_append,
        ← Nat.add_assoc]
      exact hnext

/-- A string of tokens with blanks between them, whose end is not looked at if it has a blank. -/
theorem Traced.pushString (hmaps : Maps strline mapping origin)
    (h : Traced env strline origin out reach) (ha : reach ≤ a)
    (hat : Occurs strline a parts.flatten) (hparts : ChineseTokens parts) {endPos : ℕ}
    (hend : ' ' ∉ [' '].intercalate parts →
      endPos = byteOffset strline a + byteSize parts.flatten) :
    Traced env strline origin (out.pushString (some mapping) ([' '].intercalate parts)
      (byteOffset strline a) endPos) (a + parts.flatten.length) := by
  rw [Positioned.pushString]
  split_ifs with hblank
  · rw [splitBlanks_of_chinese hparts]
    exact h.pushParts hmaps ha hat hparts
  · rw [hend hblank, mapPosition_eq hmaps (by have := hat.le; omega), ← hat.byteOffset,
      mapPosition_eq hmaps hat.le, intercalate_eq_flatten hblank]
    apply h.push ha hat
    intro hkept
    refine ⟨(of_decide_eq_true hkept).1, .inl ⟨rfl, fun c hc => ?_⟩⟩
    obtain ⟨t, ht, hc⟩ := List.mem_flatten.mp hc
    exact (hparts t ht).2 c hc

/-! ### Slices of a segmentation -/

/-- Where the token `j` starts, in a segmentation of the text at `a`. -/
def tokenStart (a : ℕ) (tks : List Text) (j : ℕ) : ℕ := a + (tks.take j).flatten.length

theorem tokenStart_add {j k : ℕ} (hjk : j ≤ k) :
    tokenStart a tks j + ((tks.take k).drop j).flatten.length = tokenStart a tks k := by
  rw [tokenStart, tokenStart, Nat.add_assoc, ← List.length_append, flatten_take_append hjk]

theorem occurs_slice (hat : Occurs strline a tks.flatten) {j k : ℕ} (hjk : j ≤ k) :
    Occurs strline (tokenStart a tks j) ((tks.take k).drop j).flatten := by
  rw [← List.take_append_drop k tks, List.flatten_append, ← flatten_take_append hjk] at hat
  exact hat.sub

theorem byteOffset_tokenStart (hat : Occurs strline a tks.flatten) (j : ℕ) :
    byteOffset strline (tokenStart a tks j) =
      byteOffset strline a + calculateTokensLength tks 0 j := by
  rw [← List.take_append_drop j tks, List.flatten_append] at hat
  exact hat.left.byteOffset

theorem ChineseTokens.slice (h : ChineseTokens tks) (j k : ℕ) :
    ChineseTokens ((tks.take k).drop j) := fun t ht =>
  h t (List.mem_of_mem_take (List.mem_of_mem_drop ht))

/-- Tokens of both segmentations are read where they are. -/
theorem Traced.pushTokens (hmaps : Maps strline mapping origin) {j k : ℕ}
    (h : Traced env strline origin out (tokenStart a tks j))
    (hat : Occurs strline a tks.flatten) (htks : ChineseTokens tks) (hjk : j ≤ k) :
    Traced env strline origin
      (out.pushTokens (byteOffset strline a) (some mapping) tks
        ([' '].intercalate ((tks.take k).drop j)) j) (tokenStart a tks k) := by
  rw [Positioned.pushTokens, ← byteOffset_tokenStart hat, ← tokenStart_add hjk]
  apply h.pushString hmaps le_rfl (occurs_slice hat hjk) (htks.slice j k)
  intro hblank
  rw [intercalate_eq_flatten hblank]

/-- What a search finds is read where it was searched. -/
theorem Traced.search (hmaps : Maps strline mapping origin) {j k : ℕ}
    (h : Traced env strline origin out (tokenStart a tks j))
    (hat : Occurs strline a tks.flatten) (htks : ChineseTokens tks) (hjk : j ≤ k) :
    Traced env strline origin
      (out.search env.tables (byteOffset strline a) (some mapping) tks
        ((tks.take k).drop j).flatten j) (tokenStart a tks k) := by
  have hslice := occurs_slice hat hjk
  have hzh : ∀ c ∈ ((tks.take k).drop j).flatten, isChinese c = true := by
    intro c hc
    obtain ⟨t, ht, hc⟩ := List.mem_flatten.mp hc
    exact (htks.slice j k t ht).2 c hc
  rw [Positioned.search, ← byteOffset_tokenStart hat, ← tokenStart_add hjk]
  generalize ((tks.take k).drop j).flatten = text at *
  have hbest : (dfs env.tables text false (MAX_DFS_DEPTH + 1) 0 [] .start).2.bestTokens = [] ∨
      IsSegmentation text
        (dfs env.tables text false (MAX_DFS_DEPTH + 1) 0 [] .start).2.bestTokens := by
    by_cases hnil : text = []
    · exact .inl (hnil ▸ search_nil env.tables)
    · exact (search_spec env.tables hnil).1
  generalize (dfs env.tables text false (MAX_DFS_DEPTH + 1) 0 [] .start).2.bestTokens = best at *
  rcases hbest with rfl | ⟨rfl, hne⟩
  · -- Nothing is found, and the empty token that stands for the text is not kept.
    have hempty : [' '].intercalate ([] : List Text) = [] := rfl
    rw [hempty, Positioned.pushString, if_neg List.not_mem_nil,
      mapPosition_eq hmaps (by have := hslice.le; omega), ← hslice.byteOffset,
      mapPosition_eq hmaps hslice.le]
    apply h.push le_rfl hslice
    intro hkept
    exact absurd rfl (of_decide_eq_true hkept).1
  · apply h.pushString hmaps le_rfl hslice
    · intro t ht
      exact ⟨hne t ht, fun c hc => hzh c (List.mem_flatten.mpr ⟨t, ht, hc⟩)⟩
    · exact fun _ => rfl

/-! ### The walk -/

theorem join_eq_some {tokens : List Text} {start stop : ℕ} {delim s : Text}
    (h : join tokens start stop delim = some s) :
    (start < stop → stop ≤ tokens.length) ∧
      s = delim.intercalate ((tokens.take stop).drop start) := by
  rw [join] at h
  split_ifs at h with hout
  exact ⟨fun hlt => Nat.le_of_not_lt fun hlong => hout ⟨hlt, hlong⟩, (Option.some.inj h).symm⟩

theorem le_countSame (tks1 tks : List Text) (i j same : ℕ) :
    same ≤ countSame tks1 tks i j same := by
  induction same using countSame.induct tks1 tks i j with
  | case1 same h ih =>
      rw [countSame, if_pos h]
      exact (Nat.le_succ same).trans ih
  | case2 same h =>
      rw [countSame, if_neg h]

/-- The loop reads up to where the tokens begin that it has not appended. -/
theorem Traced.walk (hmaps : Maps strline mapping origin) (hat : Occurs strline a tks.flatten)
    (htks : ChineseTokens tks) {tks1 : List Text} {i j i₀ j₀ : ℕ} {out : Positioned} (hj : j₀ ≤ j)
    (h : Traced env strline origin out (tokenStart a tks j₀)) {result : ℕ × ℕ × Positioned}
    (hwalk : walkWithPosition env.tables (byteOffset strline a) (some mapping) tks1 tks i j i₀ j₀
      out = some result) :
    Traced env strline origin result.2.2 (tokenStart a tks result.2.1) ∧
      (j₀ ≤ tks.length → result.2.1 ≤ tks.length) := by
  rw [walkWithPosition] at hwalk
  by_cases hinside : i < tks1.length ∧ j < tks.length
  · rw [if_pos hinside] at hwalk
    cases htk1 : join tks1 i₀ i [] with
    | none => simp [htk1] at hwalk
    | some tk1 =>
        cases htk : join tks j₀ j [] with
        | none => simp [htk1, htk] at hwalk
        | some tk =>
            simp only [htk1, htk, Option.bind_eq_bind, Option.bind_some] at hwalk
            split_ifs at hwalk with htext hlonger htoken
            · exact Traced.walk hmaps hat htks (hj.trans (Nat.le_succ j)) h hwalk
            · exact Traced.walk hmaps hat htks hj h hwalk
            · exact Traced.walk hmaps hat htks (hj.trans (Nat.le_succ j)) h hwalk
            · cases hsame : join tks j (j + countSame tks1 tks i j 1) [' '] with
              | none => simp [hsame] at hwalk
              | some token =>
                  simp only [hsame, Option.bind_some] at hwalk
                  obtain ⟨hlast, rfl⟩ := join_eq_some hsame
                  have hone := le_countSame tks1 tks i j 1
                  rw [(join_eq_some htk).2, intercalate_nil_left] at hwalk
                  have hnext := (h.search hmaps hat htks hj).pushTokens hmaps hat htks
                    (Nat.le_add_right j (countSame tks1 tks i j 1))
                  obtain ⟨htraced, hbound⟩ :=
                    Traced.walk hmaps hat htks (Nat.le_succ _) hnext hwalk
                  exact ⟨htraced, fun _ => hbound (hlast (by omega))⟩
  · rw [if_neg hinside] at hwalk
    obtain rfl := Option.some.inj hwalk
    exact ⟨h, id⟩
termination_by (tks1.length - i) + (tks.length - j)
decreasing_by all_goals omega

/-- The tokens of a Chinese text are read within it. -/
theorem Traced.inner (hmaps : Maps strline mapping origin) {L : Text}
    (h : Traced env strline origin out a) (hat : Occurs strline a L)
    (hzh : ∀ c ∈ L, isChinese c = true) {out' : Positioned}
    (hinner : tokenizeInnerWithPosition env.tables L out (byteOffset strline a) (some mapping) =
      some out') :
    Traced env strline origin out' (a + L.length) := by
  obtain ⟨hflat, hne⟩ := maxForward_isSegmentation env.tables L
  have htks : ChineseTokens (maxForward env.tables L) := by
    intro t ht
    refine ⟨hne t ht, fun c hc => hzh c ?_⟩
    rw [← hflat]
    exact List.mem_flatten.mpr ⟨t, ht, hc⟩
  have hend : tokenStart a (maxForward env.tables L) (maxForward env.tables L).length =
      a + L.length := by rw [tokenStart, List.take_length, hflat]
  have hbounded : ∀ j ≤ (maxForward env.tables L).length,
      tokenStart a (maxForward env.tables L) j ≤ a + L.length := by
    intro j hj
    rw [← hend, ← tokenStart_add hj]
    exact Nat.le_add_right _ _
  rw [← hflat] at hat
  rw [tokenizeInnerWithPosition] at hinner
  generalize maxBackward env.tables L = tks1 at hinner
  generalize maxForward env.tables L = tks at *
  generalize countSame tks1 tks 0 0 0 = same at hinner
  cases htoken : join tks 0 same [' '] with
  | none => simp [htoken] at hinner
  | some token =>
      obtain ⟨hsame, rfl⟩ := join_eq_some htoken
      simp only [htoken, Option.bind_eq_bind, Option.bind_some] at hinner
      have hstart : Traced env strline origin
          (if 0 < same then out.pushTokens (byteOffset strline a) (some mapping) tks
            ([' '].intercalate ((tks.take same).drop 0)) 0 else out) (tokenStart a tks same) := by
        split_ifs with hpos
        · exact Traced.pushTokens hmaps h hat htks (Nat.zero_le _)
        · rw [Nat.eq_zero_of_not_pos hpos]
          exact h
      cases hwalk : walkWithPosition env.tables (byteOffset strline a) (some mapping) tks1 tks
          (same + 1) (same + 1) same same
          (if 0 < same then out.pushTokens (byteOffset strline a) (some mapping) tks
            ([' '].intercalate ((tks.take same).drop 0)) 0 else out) with
      | none => simp only [hwalk, Option.bind_none, reduceCtorEq] at hinner
      | some result =>
          obtain ⟨htraced, hlast⟩ := hstart.walk hmaps hat htks (Nat.le_succ same) hwalk
          have hresult : result.2.1 ≤ tks.length := by
            apply hlast
            rcases Nat.eq_zero_or_pos same with rfl | hpos
            · exact Nat.zero_le _
            · exact hsame hpos
          simp only [hwalk, Option.bind_some] at hinner
          split_ifs at hinner with hrest
          · cases htext : join tks result.2.1 tks.length [] with
            | none => simp [htext] at hinner
            | some text =>
                simp only [htext, Option.bind_some] at hinner
                obtain rfl := Option.some.inj hinner
                rw [(join_eq_some htext).2, intercalate_nil_left, ← hend]
                exact htraced.search hmaps hat htks hresult
          · obtain rfl := Option.some.inj hinner
            exact htraced.mono (hbounded _ hresult)

end Inner

end RagFlow.Analyzer
