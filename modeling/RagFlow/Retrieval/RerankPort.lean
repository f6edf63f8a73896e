/-
# Where the two rerankers agree

Both rerankers are written out chunk by chunk, with the same cosine, the same rank score and the
same similarity of terms where they are defined and where they read the same. What is left are
the inputs on which they read something else, or on which one of them has no result.
-/

import RagFlow.Retrieval.Rerank
import Mathlib.Algebra.Order.BigOperators.Group.List
import Mathlib.Tactic.FieldSimp
import Mathlib.Tactic.Ring
import Mathlib.Tactic.Linarith

namespace RagFlow.Retrieval

open RagFlow.Math
open RagFlow.Ingestion (isSpace)

variable {K : Type} [Field K]

/-! ## Vectors -/

section Vectors

theorem dot_cons (x y : K) (a b : List K) : dot (x :: a) (y :: b) = x * y + dot a b := by
  simp [dot]

theorem dot_comm (a b : List K) : dot a b = dot b a := by
  unfold dot
  rw [List.zipWith_comm]
  simp only [mul_comm]

/-- Scaling the vectors scales their product. -/
theorem dot_div (a b : List K) (p q : K) :
    dot (a.map (· / p)) (b.map (· / q)) = dot a b / (p * q) := by
  induction a generalizing b with
  | nil => simp [dot]
  | cons x a ih =>
      cases b with
      | nil => simp [dot]
      | cons y b =>
          rw [List.map_cons, List.map_cons, dot_cons, dot_cons, ih, add_div, div_mul_div_comm]

variable [LinearOrder K] [IsStrictOrderedRing K]

theorem dot_self_nonneg (a : List K) : 0 ≤ dot a a := by
  induction a with
  | nil => simp [dot]
  | cons x a ih =>
      rw [dot_cons]
      exact add_nonneg (mul_self_nonneg x) ih

/-- A vector of length zero is orthogonal to every vector. -/
theorem dot_eq_zero_of_self {a : List K} (h : dot a a = 0) (b : List K) : dot a b = 0 := by
  induction a generalizing b with
  | nil => simp [dot]
  | cons x a ih =>
      rw [dot_cons] at h
      have hx : x * x = 0 := by
        have := mul_self_nonneg x
        have := dot_self_nonneg a
        linarith
      have ha : dot a a = 0 := by
        rw [hx, zero_add] at h
        exact h
      cases b with
      | nil => simp [dot]
      | cons y b => rw [dot_cons, ih ha, mul_self_eq_zero.mp hx, zero_mul, add_zero]

variable (env : RerankEnv K)

/-- The library's cosine is that of the port. -/
theorem dot_normalized {a b : List K} (hlength : b.length = a.length) :
    dot (normalized env a) (normalized env b) = cosineSimilarity env a b := by
  rw [normalized, normalized, dot_div, cosineSimilarity, if_neg (not_not.mpr hlength.symm)]
  by_cases ha : dot a a = 0
  · rw [if_pos (Or.inl ha), dot_eq_zero_of_self ha, zero_div]
  by_cases hb : dot b b = 0
  · rw [if_pos (Or.inr hb), dot_comm, dot_eq_zero_of_self hb, zero_div]
  have ha' : env.sqrt (dot a a) ≠ 0 := mt (env.sqrt_eq_zero _ (dot_self_nonneg a)).mp ha
  have hb' : env.sqrt (dot b b) ≠ 0 := mt (env.sqrt_eq_zero _ (dot_self_nonneg b)).mp hb
  rw [if_neg (not_or.mpr ⟨ha, hb⟩), if_neg ha', if_neg hb']

/-- Vectors of one length have no cosine exactly if they are orthogonal. -/
theorem cosineSimilarity_eq_zero_iff {a b : List K} (hlength : b.length = a.length) :
    cosineSimilarity env a b = 0 ↔ dot a b = 0 := by
  rw [cosineSimilarity, if_neg (not_not.mpr hlength.symm)]
  by_cases ha : dot a a = 0
  · simp [ha, dot_eq_zero_of_self ha]
  by_cases hb : dot b b = 0
  · rw [if_pos (Or.inr hb), dot_comm, dot_eq_zero_of_self hb]
  have ha' : env.sqrt (dot a a) ≠ 0 := mt (env.sqrt_eq_zero _ (dot_self_nonneg a)).mp ha
  have hb' : env.sqrt (dot b b) ≠ 0 := mt (env.sqrt_eq_zero _ (dot_self_nonneg b)).mp hb
  rw [if_neg (not_or.mpr ⟨ha, hb⟩), div_eq_zero_iff]
  simp [ha', hb']

end Vectors

/-! ## Terms -/

section Terms

variable [LinearOrder K]

theorem toDict_entries_ne_nil {d : Dict Token K} {wts : List (Token × K)}
    (h : d.entries ≠ [] ∨ wts ≠ []) : (toDict d wts).entries ≠ [] := by
  have hadd : ∀ (d : Dict Token K) (t : Token) (c : K), (addWeight d t c).entries ≠ [] := by
    intro d t c hnil
    have hmem : t ∈ addWeight d t c := Dict.mem_of_get? (Dict.get?_set_self _ _ _)
    rw [Dict.mem_iff, Dict.keys, hnil] at hmem
    exact List.not_mem_nil hmem
  induction d, wts using toDict.induct with
  | case1 d => simpa [toDict] using h
  | case2 d t c => exact hadd _ _ _
  | case3 d t c t' c' wts ih =>
      rw [toDict]
      exact ih (Or.inl (hadd _ _ _))

variable [IsStrictOrderedRing K]

/-- Sums of weights that are not negative are not negative. -/
theorem toDict_nonneg {d : Dict Token K} {wts : List (Token × K)}
    (hd : ∀ e ∈ d.entries, 0 ≤ e.2) (hwts : ∀ tw ∈ wts, 0 ≤ tw.2) :
    ∀ e ∈ (toDict d wts).entries, 0 ≤ e.2 := by
  have hadd : ∀ {d : Dict Token K} (t : Token) {c : K}, (∀ e ∈ d.entries, 0 ≤ e.2) → 0 ≤ c →
      ∀ e ∈ (addWeight d t c).entries, 0 ≤ e.2 := by
    rintro d t c hd hc ⟨k, v⟩ he
    rw [addWeight, Dict.mem_entries_set] at he
    split_ifs at he
    · rw [← he]
      refine add_nonneg ?_ hc
      cases hget : d.get? t with
      | none => exact le_rfl
      | some w => exact hd _ (Dict.get?_eq_some_iff.mp hget)
    · exact hd _ he
  induction d, wts using toDict.induct with
  | case1 d => exact hd
  | case2 d t c =>
      exact hadd t hd (mul_nonneg (hwts _ List.mem_cons_self) (by norm_num))
  | case3 d t c t' c' wts ih =>
      rw [toDict]
      have hc : 0 ≤ c := hwts (t, c) List.mem_cons_self
      refine ih (hadd _ (hadd t hd (mul_nonneg hc (by norm_num))) ?_)
        fun tw htw => hwts tw (List.mem_cons_of_mem _ htw)
      exact mul_nonneg (le_max_of_le_left hc) (by norm_num)

theorem epsilon_pos : (0 : K) < epsilon := by
  unfold epsilon
  positivity

variable (env : RerankEnv K)

theorem tokensToDict_nonneg (tks : List Token) :
    ∀ e ∈ (tokensToDict env tks).entries, 0 ≤ e.2 :=
  toDict_nonneg (fun _ he => absurd he List.not_mem_nil) (env.termWeight.nonneg tks)

omit [IsStrictOrderedRing K] in
theorem tokensToDict_entries_eq_nil {tks : List Token} :
    (tokensToDict env tks).entries = [] ↔ tks = [] := by
  constructor
  · intro h
    by_contra hne
    refine toDict_entries_ne_nil (Or.inr fun hnil => hne ?_) h
    rw [← env.termWeight.terms tks, hnil, List.map_nil]
  · rintro rfl
    have hnil : env.termWeight.weights [] = [] := List.map_eq_nil_iff.mp (env.termWeight.terms [])
    rw [tokensToDict, hnil]
    rfl

theorem totalWeight_nonneg (tks : List Token) : 0 ≤ totalWeight (tokensToDict env tks) := by
  refine List.sum_nonneg fun x hx => ?_
  obtain ⟨e, he, rfl⟩ := List.mem_map.mp hx
  exact tokensToDict_nonneg env tks e he

theorem hitWeight_nonneg (tks : List Token) (dtwt : Dict Token K) :
    0 ≤ hitWeight (tokensToDict env tks) dtwt := by
  refine List.sum_nonneg fun x hx => ?_
  obtain ⟨e, he, rfl⟩ := List.mem_map.mp hx
  exact tokensToDict_nonneg env tks e (List.mem_of_mem_filter he)

/-- The similarities of one query are equal exactly if the port has terms on both sides and the
chunk has the same weight of the query for both. -/
theorem tokenDictSimilarity_eq_iff {atks goTks pyTks : List Token} :
    tokenDictSimilarity (tokensToDict env atks) (tokensToDict env goTks) =
        similarity (tokensToDict env atks) (tokensToDict env pyTks) ↔
      atks ≠ [] ∧ goTks ≠ [] ∧
        hitWeight (tokensToDict env atks) (tokensToDict env goTks) =
          hitWeight (tokensToDict env atks) (tokensToDict env pyTks) := by
  have hq : 0 < epsilon + totalWeight (tokensToDict env atks) :=
    add_pos_of_pos_of_nonneg epsilon_pos (totalWeight_nonneg env atks)
  rw [tokenDictSimilarity, similarity]
  by_cases hnil : atks = [] ∨ goTks = []
  · have hpos : 0 < (epsilon + hitWeight (tokensToDict env atks) (tokensToDict env pyTks)) /
        (epsilon + totalWeight (tokensToDict env atks)) :=
      div_pos (add_pos_of_pos_of_nonneg epsilon_pos (hitWeight_nonneg env atks _)) hq
    rw [if_pos (hnil.imp (tokensToDict_entries_eq_nil env).mpr
      (tokensToDict_entries_eq_nil env).mpr)]
    constructor
    · intro h
      exact absurd h hpos.ne
    · rintro ⟨ha, hg, -⟩
      exact absurd hnil (not_or.mpr ⟨ha, hg⟩)
  · obtain ⟨ha, hg⟩ := not_or.mp hnil
    rw [if_neg (not_or.mpr ⟨mt (tokensToDict_entries_eq_nil env).mp ha,
      mt (tokensToDict_entries_eq_nil env).mp hg⟩), div_left_inj' hq.ne', add_right_inj]
    simp [ha, hg]

/-- The similarities of terms agree exactly where there are terms on both sides. -/
theorem tokenSimilarity_eq_iff (atks : List Token) (btkss : List (List Token)) :
    tokenSimilarity env atks btkss = token_similarity env atks btkss ↔
      ∀ btks ∈ btkss, atks ≠ [] ∧ btks ≠ [] := by
  rw [tokenSimilarity, token_similarity, List.map_inj_left]
  refine forall₂_congr fun btks _ => ?_
  exact (tokenDictSimilarity_eq_iff env).trans (by simp)

end Terms

/-! ## Rank features -/

section Ranks

variable [LinearOrder K]

/-- The cosine of a chunk's tags with those of the query, before the norm of the query. -/
def tagCosine (env : RerankEnv K) (query_rfea tag_feas : Dict String K) : K :=
  if tagSquares tag_feas = 0 then 0
  else tagProduct query_rfea tag_feas / env.sqrt (tagSquares tag_feas)

/-- Where the query has rank features: without a weight, the port reads no tags; with one, the
tags that it reads have the cosine of those that the original reads. -/
def RanksAlike (env : RerankEnv K) (rf : Dict String K) (chunk : Candidate K) : Prop :=
  rf.entries = [] ∨ if querySquares rf = 0 then tagSquares (parseTagFeasRerank env chunk) = 0
    else tagCosine env rf (parseTagFeasRerank env chunk) =
      tagCosine env rf (tagFeatures env chunk)

variable [IsStrictOrderedRing K] {env : RerankEnv K} {rf : Dict String K} {chunk : Candidate K}

theorem sum_squares_nonneg (l : List (String × K)) : 0 ≤ (l.map fun e => e.2 * e.2).sum := by
  refine List.sum_nonneg fun x hx => ?_
  obtain ⟨e, -, rfl⟩ := List.mem_map.mp hx
  exact mul_self_nonneg e.2

/-- The rank scores agree exactly if the rank features are read alike. -/
theorem rankScore_eq_iff :
    rankScore env rf chunk = some (rankFeatureScore env rf chunk) ↔ RanksAlike env rf chunk := by
  have hsqrt : env.sqrt (querySquares rf) = 0 ↔ querySquares rf = 0 :=
    env.sqrt_eq_zero _ (sum_squares_nonneg _)
  rw [rankScore, rankFeatureScore, RanksAlike, tagCosine, tagCosine]
  by_cases hnil : rf.entries = []
  · simp [hnil]
  by_cases hquery : querySquares rf = 0
  · have hzero : env.sqrt 0 = 0 := (env.sqrt_eq_zero 0 le_rfl).mpr rfl
    by_cases hgo : tagSquares (parseTagFeasRerank env chunk) = 0
    · simp [hnil, hquery, hzero, hgo]
    · simp [hnil, hquery, hzero, hgo, quotient]
  · have hquery' := mt hsqrt.mp hquery
    by_cases hgo : tagSquares (parseTagFeasRerank env chunk) = 0 <;>
      by_cases hpy : tagSquares (tagFeatures env chunk) = 0
    · simp [hnil, hgo, hpy]
    · simp [hnil, hquery, hquery', hgo, hpy, eq_comm (a := (0 : K))]
    · simp [hnil, hquery, hquery', hgo, hpy, quotient]
    · simp [hnil, hquery, hquery', hgo, hpy, quotient, div_left_inj' hquery']

end Ranks

/-! ## Scores -/

section Scores

/-- The same result with other numbers. -/
def RerankResult.map {L : Type} (f : K → L) (r : RerankResult K) : RerankResult L :=
  { sim := r.sim.map f, tsim := r.tsim.map f, vsim := r.vsim.map f }

variable {α : Type} [LinearOrder K]

/-- The scores of the original, by what it finds for each chunk. -/
def originalScores (chunks : List α) (cosine token rank : α → K) (t v : K) : RerankResult K :=
  { sim := chunks.map fun chunk =>
      (if (chunks.map cosine).sum = 0 then token chunk
        else cosine chunk * v + token chunk * t) + rank chunk
    tsim := chunks.map token
    vsim := chunks.map cosine }

/-- The scores of the port, by what it finds for each chunk. -/
def portScores (chunks : List α) (cosine token : α → K) (rank : α → Option K) (t v : K) :
    RerankResult (Option K) :=
  let added := fun sim : α → K => chunks.map fun chunk => (rank chunk).map (sim chunk + ·)
  if ∀ chunk ∈ chunks, cosine chunk = 0 then
    { sim := added token
      tsim := added token
      vsim := chunks.map fun chunk => some (cosine chunk) }
  else
    { sim := added fun chunk => cosine chunk * v + token chunk * t
      tsim := chunks.map fun chunk => some (token chunk)
      vsim := chunks.map fun chunk => some (cosine chunk) }

variable {chunks : List α} {cosine cosine' token token' rank' : α → K} {rank : α → Option K}

omit [LinearOrder K] in
/-- Where all cosines are zero, the port adds the rank score to both scores. -/
theorem chunk_of_zero {g p ρ : K} {rank : Option K}
    (halike : g = p ∨ ∀ x, rank = some x → x = ρ)
    (hsim : rank.map (g + ·) = some (p + ρ)) (htsim : rank.map (g + ·) = some p) :
    g = p ∧ rank = some ρ ∧ ρ = 0 := by
  have hzero : ρ = 0 := by
    rw [htsim] at hsim
    exact left_eq_add.mp (Option.some.inj hsim)
  obtain ⟨x, hx, hsum⟩ := Option.map_eq_some_iff.mp htsim
  rcases halike with rfl | hrank
  · have hx' : x = 0 := add_eq_left.mp hsum
    exact ⟨rfl, by rw [hx, hx', hzero], hzero⟩
  · rw [hrank x hx, hzero, add_zero] at hsum
    exact ⟨hsum, by rw [hx, hrank x hx], hzero⟩

/-- The port reads the cosines of the original. -/
theorem cosine_of_agree {t v : K} (h : portScores chunks cosine token rank t v =
    (originalScores chunks cosine' token' rank' t v).map some) :
    ∀ chunk ∈ chunks, cosine chunk = cosine' chunk := by
  have hvsim : (chunks.map fun chunk => some (cosine chunk)) =
      chunks.map fun chunk => some (cosine' chunk) := by
    have := congrArg RerankResult.vsim h
    simp only [RerankResult.map, originalScores, List.map_map] at this
    rw [portScores] at this
    split_ifs at this <;> exact this
  exact fun chunk hchunk => Option.some.inj (List.map_inj_left.mp hvsim chunk hchunk)

/-- Agreement where all cosines are zero. -/
theorem agree_of_zero {t v : K}
    (halike : ∀ chunk ∈ chunks, token chunk = token' chunk ∨
      ∀ x, rank chunk = some x → x = rank' chunk)
    (hzero : ∀ chunk ∈ chunks, cosine chunk = 0)
    (h : portScores chunks cosine token rank t v =
      (originalScores chunks cosine' token' rank' t v).map some) :
    ∀ chunk ∈ chunks, token chunk = token' chunk ∧ rank chunk = some (rank' chunk) ∧
      rank' chunk = 0 := by
  have hcosine := cosine_of_agree h
  have hsum : (chunks.map cosine').sum = 0 := by
    refine List.sum_eq_zero fun x hx => ?_
    obtain ⟨chunk, hchunk, rfl⟩ := List.mem_map.mp hx
    rw [← hcosine chunk hchunk, hzero chunk hchunk]
  rw [portScores, if_pos hzero] at h
  have hsim := congrArg RerankResult.sim h
  have htsim := congrArg RerankResult.tsim h
  simp only [RerankResult.map, originalScores, hsum, if_true, List.map_map,
    List.map_inj_left, Function.comp_apply] at hsim htsim
  exact fun chunk hchunk =>
    chunk_of_zero (halike chunk hchunk) (hsim chunk hchunk) (htsim chunk hchunk)

/-- Agreement where there is a cosine: they do not cancel, since the original would leave them
out. -/
theorem agree_of_not_zero (hzero : ¬ ∀ chunk ∈ chunks, cosine chunk = 0)
    (h : ∀ t v, portScores chunks cosine token rank t v =
      (originalScores chunks cosine' token' rank' t v).map some) :
    (∀ chunk ∈ chunks, token chunk = token' chunk ∧ rank chunk = some (rank' chunk)) ∧
      (chunks.map cosine').sum ≠ 0 := by
  have hscores : ∀ t v, ∀ chunk ∈ chunks,
      (rank chunk).map (cosine chunk * v + token chunk * t + ·) =
        some ((if (chunks.map cosine').sum = 0 then token' chunk
          else cosine' chunk * v + token' chunk * t) + rank' chunk) ∧
      token chunk = token' chunk := by
    intro t v chunk hchunk
    have heq := h t v
    rw [portScores, if_neg hzero] at heq
    have hsim := congrArg RerankResult.sim heq
    have htsim := congrArg RerankResult.tsim heq
    simp only [RerankResult.map, originalScores, List.map_map, List.map_inj_left,
      Function.comp_apply, Option.some.injEq] at hsim htsim
    exact ⟨hsim chunk hchunk, htsim chunk hchunk⟩
  have hsum : (chunks.map cosine').sum ≠ 0 := by
    intro hsum
    refine hzero fun chunk hchunk => ?_
    -- The weights are left out, so that no weight of the cosine changes the score.
    have hnone := (hscores 0 0 chunk hchunk).1
    have hcosine := (hscores 0 1 chunk hchunk).1
    simp only [hsum, if_true, mul_zero, mul_one, add_zero, zero_add] at hnone hcosine
    obtain ⟨x, hx, hnone'⟩ := Option.map_eq_some_iff.mp hnone
    rw [hx, Option.map_some, ← hnone'] at hcosine
    exact add_eq_right.mp (Option.some.inj hcosine)
  refine ⟨fun chunk hchunk => ⟨(hscores 0 0 chunk hchunk).2, ?_⟩, hsum⟩
  have hrank := (hscores 0 0 chunk hchunk).1
  simp only [hsum, if_false, mul_zero, add_zero, zero_add, Option.map_id'] at hrank
  exact hrank

/-- Where the similarities of terms or else the rank scores are known to agree, all scores agree
exactly if they agree chunk by chunk, and the cosines do not cancel; where all of them are zero,
so are the rank scores. -/
theorem scores_agree_iff
    (halike : ∀ chunk ∈ chunks, token chunk = token' chunk ∨
      ∀ x, rank chunk = some x → x = rank' chunk) :
    (∀ t v, portScores chunks cosine token rank t v =
        (originalScores chunks cosine' token' rank' t v).map some) ↔
      (∀ chunk ∈ chunks, cosine chunk = cosine' chunk) ∧
      (∀ chunk ∈ chunks, token chunk = token' chunk) ∧
      (∀ chunk ∈ chunks, rank chunk = some (rank' chunk)) ∧
      ((chunks.map cosine').sum = 0 → ∀ chunk ∈ chunks, cosine' chunk = 0 ∧ rank' chunk = 0) := by
  constructor
  · intro h
    have hcosine := cosine_of_agree (h 0 0)
    by_cases hzero : ∀ chunk ∈ chunks, cosine chunk = 0
    · have hchunk := agree_of_zero halike hzero (h 0 0)
      refine ⟨hcosine, fun c hc => (hchunk c hc).1, fun c hc => (hchunk c hc).2.1,
        fun _ c hc => ⟨?_, (hchunk c hc).2.2⟩⟩
      rw [← hcosine c hc, hzero c hc]
    · obtain ⟨hchunk, hsum⟩ := agree_of_not_zero hzero h
      exact ⟨hcosine, fun c hc => (hchunk c hc).1, fun c hc => (hchunk c hc).2,
        fun hsum' => absurd hsum' hsum⟩
  · rintro ⟨hcosine, htoken, hrank, hcancel⟩ t v
    by_cases hsum : (chunks.map cosine').sum = 0
    · have hzero : ∀ chunk ∈ chunks, cosine chunk = 0 := fun chunk hchunk => by
        rw [hcosine chunk hchunk, (hcancel hsum chunk hchunk).1]
      rw [portScores, if_pos hzero, RerankResult.map, originalScores]
      simp only [hsum, if_true, List.map_map, RerankResult.mk.injEq, List.map_inj_left,
        Function.comp_apply]
      refine ⟨fun c hc => ?_, fun c hc => ?_, fun c hc => ?_⟩
      · rw [hrank c hc, htoken c hc, Option.map_some]
      · rw [hrank c hc, htoken c hc, Option.map_some, (hcancel hsum c hc).2, add_zero]
      · rw [hcosine c hc]
    · have hzero : ¬ ∀ chunk ∈ chunks, cosine chunk = 0 := by
        intro hall
        refine hsum (List.sum_eq_zero fun x hx => ?_)
        obtain ⟨chunk, hchunk, rfl⟩ := List.mem_map.mp hx
        rw [← hcosine chunk hchunk, hall chunk hchunk]
      rw [portScores, if_neg hzero, RerankResult.map, originalScores]
      simp only [hsum, if_false, List.map_map, RerankResult.mk.injEq, List.map_inj_left,
        Function.comp_apply]
      refine ⟨fun c hc => ?_, fun c hc => ?_, fun c hc => ?_⟩
      · rw [hrank c hc, htoken c hc, hcosine c hc, Option.map_some]
      · rw [htoken c hc]
      · rw [hcosine c hc]

end Scores

/-! ## Agreement -/

section Agreement

section Tokens

omit [Field K]

variable {chunks : List (Candidate K)}

/-- The tokens that the original combines. -/
def originalTokens (chunk : Candidate K) : List Token := (candidateTokens chunk).getD []

theorem mapM_candidateTokens (h : ∀ chunk ∈ chunks, chunk.content.isSome) :
    chunks.mapM candidateTokens = some (chunks.map originalTokens) := by
  refine mapM_eq_map fun chunk hchunk => ?_
  obtain ⟨content, hcontent⟩ := Option.isSome_iff_exists.mp (h chunk hchunk)
  rw [originalTokens, candidateTokens, hcontent]
  rfl

theorem mapM_candidateTokens_eq_none (h : ¬ ∀ chunk ∈ chunks, chunk.content.isSome) :
    chunks.mapM (candidateTokens ) = none := by
  rw [← Option.not_isSome_iff_eq_none, isSome_mapM]
  simpa [candidateTokens] using h

end Tokens

variable [LinearOrder K]

/-- An order of the chunks by their scores, the highest first; equal scores come in any order. -/
def IsArgsortDescending (values : List (Option K)) (order : List ℕ) : Prop :=
  order.Perm (List.range values.length) ∧ order.Pairwise fun i j =>
    ∀ x y, values[i]? = some (some x) → values[j]? = some (some y) → y ≤ x

/-- The original has a result, and the port has the same scores in the same order. -/
structure SameScores (port : RerankResult (Option K)) (original : Option (RerankResult K)) :
    Prop where
  scores : ∃ r, original = some r ∧ port = r.map some
  order : ∀ r, original = some r → ∀ order,
    IsArgsortDescending port.sim order ↔ IsArgsortDescending (r.sim.map some) order

/-- The vector that the original compares. -/
def originalVector (questionVector : List K) (chunk : Candidate K) : List K :=
  candidateVector chunk (List.replicate questionVector.length 0)

/-- The original does not raise. -/
structure Readable (chunks : List (Candidate K)) (questionVector : List K) : Prop where
  vector : questionVector ≠ []
  lengths : ∀ chunk ∈ chunks,
    (originalVector questionVector chunk).length = questionVector.length
  contents : ∀ chunk ∈ chunks, chunk.content.isSome

/-- The query and a chunk have tokens, and those that the port reads have the same weight of the
query as those that the original reads. -/
def TokensAlike (env : RerankEnv K) (query : String) (chunk : Candidate K) : Prop :=
  env.question query ≠ [] ∧ combinedTokens chunk ≠ [] ∧
    hitWeight (tokensToDict env (env.question query)) (tokensToDict env (combinedTokens chunk)) =
      hitWeight (tokensToDict env (env.question query)) (tokensToDict env (originalTokens chunk))

/-- The inputs with chunks on which the two programs agree. -/
structure ReadAlike (env : RerankEnv K) (chunks : List (Candidate K)) (questionVector : List K)
    (query : String) (rankFeature : Dict String K) : Prop where
  readable : Readable chunks questionVector
  /-- A vector in text, which the port does not read, is orthogonal to that of the query. -/
  texts : ∀ chunk ∈ chunks, ∀ v, chunk.vector = some (.text v) → dot questionVector v = 0
  tokens : ∀ chunk ∈ chunks, TokensAlike env query chunk
  ranks : ∀ chunk ∈ chunks, RanksAlike env rankFeature chunk
  /-- The cosines do not cancel; where all of them are zero, so are the rank scores. -/
  cosines : (chunks.map fun chunk =>
      cosineSimilarity env questionVector (originalVector questionVector chunk)).sum = 0 →
    ∀ chunk ∈ chunks, dot questionVector (originalVector questionVector chunk) = 0 ∧
      chunk.pagerank.getD 0 = 0 ∧ rankFeatureScore env rankFeature chunk = 0

variable [IsStrictOrderedRing K] {env : RerankEnv K} {chunks : List (Candidate K)}
  {questionVector : List K} {query : String} {rankFeature : Dict String K} {t v : K}

/-- The cosines of the original, chunk by chunk. -/
theorem cosine_similarity_eq (h : Readable chunks questionVector) :
    cosine_similarity env questionVector
        (chunks.map fun chunk => originalVector questionVector chunk) =
      some (chunks.map fun chunk =>
        cosineSimilarity env questionVector (originalVector questionVector chunk)) := by
  rw [cosine_similarity, if_pos ⟨h.vector, by simpa using h.lengths⟩, List.map_map]
  refine congrArg some (List.map_congr_left fun chunk hchunk => ?_)
  exact dot_normalized env (h.lengths chunk hchunk)

/-- The result of the original, chunk by chunk. -/
def originalResult (env : RerankEnv K) (chunks : List (Candidate K)) (questionVector : List K)
    (query : String) (rankFeature : Dict String K) (t v : K) : RerankResult K :=
  originalScores chunks
    (fun chunk => cosineSimilarity env questionVector (originalVector questionVector chunk))
    (fun chunk => similarity (tokensToDict env (env.question query))
      (tokensToDict env (originalTokens chunk)))
    (rankFeatureScore env rankFeature) t v

theorem rerank_eq (hne : chunks ≠ []) (hreadable : Readable chunks questionVector) :
    rerank env chunks questionVector query t v rankFeature =
      some (originalResult env chunks questionVector query rankFeature t v) := by
  have htokens : token_similarity env (env.question query) (chunks.map originalTokens) =
      chunks.map fun chunk => similarity (tokensToDict env (env.question query))
        (tokensToDict env (originalTokens chunk)) := by
    rw [token_similarity, List.map_map]
    rfl
  have hcosines : cosine_similarity env questionVector
      (chunks.map fun chunk => originalVector questionVector chunk) = _ :=
    cosine_similarity_eq hreadable
  unfold originalVector at hcosines
  rw [rerank, if_neg hne]
  simp only [mapM_candidateTokens hreadable.contents, hybrid_similarity, hcosines, htokens,
    Option.bind_eq_bind, Option.bind_some, Option.map_some]
  by_cases hsum : (chunks.map fun chunk => cosineSimilarity env questionVector
      (candidateVector chunk (List.replicate questionVector.length 0))).sum = 0
  · simp [originalResult, originalScores, originalVector, hsum, List.zipWith_map, List.zipWith_self]
  · simp [originalResult, originalScores, originalVector, hsum, List.zipWith_map, List.zipWith_self]

omit [IsStrictOrderedRing K] in
theorem rerank_eq_none (hne : chunks ≠ []) (h : ¬ Readable chunks questionVector) :
    rerank env chunks questionVector query t v rankFeature = none := by
  rw [rerank, if_neg hne]
  by_cases hcontents : ∀ chunk ∈ chunks, chunk.content.isSome
  · have hvectors : ¬ (questionVector ≠ [] ∧ ∀ bvec ∈ chunks.map fun chunk =>
        candidateVector chunk (List.replicate questionVector.length 0),
          bvec.length = questionVector.length) := by
      intro hall
      exact h ⟨hall.1, by simpa [originalVector] using hall.2, hcontents⟩
    simp only [mapM_candidateTokens hcontents, hybrid_similarity, cosine_similarity,
      if_neg hvectors, Option.bind_eq_bind, Option.bind_some, Option.map_none, Option.bind_none]
  · simp only [mapM_candidateTokens_eq_none hcontents, Option.bind_eq_bind, Option.bind_none]

omit [IsStrictOrderedRing K] in
/-- The result of the port, chunk by chunk. -/
theorem rerankStandard_eq :
    rerankStandard env chunks (env.question query) questionVector query t v rankFeature =
      portScores chunks
        (fun chunk => cosineSimilarity env questionVector
          (extractVector chunk (List.replicate questionVector.length 0)))
        (fun chunk => tokenDictSimilarity (tokensToDict env (env.question query))
          (tokensToDict env (combinedTokens chunk)))
        (rankScore env rankFeature) t v := by
  simp only [rerankStandard, portScores, ite_self, applyRankFeatureScores, tokenSimilarity,
    List.map_map, List.zipWith_map_left, List.zipWith_map_right, List.zipWith_self,
    List.forall_mem_map]
  rfl

/-- The port reads the cosines of the original exactly if the vectors in text are orthogonal to
that of the query. -/
theorem cosines_eq_iff (hreadable : Readable chunks questionVector) :
    (∀ chunk ∈ chunks, cosineSimilarity env questionVector
        (extractVector chunk (List.replicate questionVector.length 0)) =
      cosineSimilarity env questionVector (originalVector questionVector chunk)) ↔
    ∀ chunk ∈ chunks, ∀ v, chunk.vector = some (.text v) → dot questionVector v = 0 := by
  have hzero : ∀ a : List K, dot a (List.replicate a.length 0) = 0 := by
    intro a
    rw [dot_comm]
    refine dot_eq_zero_of_self ?_ a
    induction a with
    | nil => simp [dot]
    | cons x a ih => rw [List.length_cons, List.replicate_succ, dot_cons, ih, mul_zero, add_zero]
  refine forall₂_congr fun chunk hchunk => ?_
  have hlength := hreadable.lengths chunk hchunk
  rcases hvector : chunk.vector with _ | (w | w)
  · simp [extractVector, originalVector, candidateVector, hvector]
  · simp [extractVector, originalVector, candidateVector, hvector]
  · simp only [originalVector, candidateVector, hvector] at hlength
    simp only [extractVector, originalVector, candidateVector, hvector, Option.some.injEq,
      VectorField.text.injEq, forall_eq']
    rw [(cosineSimilarity_eq_zero_iff env List.length_replicate).mpr (hzero questionVector),
      eq_comm, cosineSimilarity_eq_zero_iff env hlength]

/-- Agreement, with the results written out. -/
theorem sameScores_iff (hne : chunks ≠ []) :
    SameScores (rerankStandard env chunks (env.question query) questionVector query t v rankFeature)
        (rerank env chunks questionVector query t v rankFeature) ↔
      Readable chunks questionVector ∧
      rerankStandard env chunks (env.question query) questionVector query t v rankFeature =
        (originalResult env chunks questionVector query rankFeature t v).map some := by
  constructor
  · rintro ⟨⟨r, hr, hscores⟩, -⟩
    have hreadable : Readable chunks questionVector := by
      by_contra hnot
      rw [rerank_eq_none hne hnot] at hr
      cases hr
    rw [rerank_eq hne hreadable] at hr
    obtain rfl := Option.some.inj hr
    exact ⟨hreadable, hscores⟩
  · rintro ⟨hreadable, hscores⟩
    refine ⟨⟨_, rerank_eq hne hreadable, hscores⟩, fun r hr order => ?_⟩
    rw [rerank_eq hne hreadable] at hr
    obtain rfl := Option.some.inj hr
    rw [hscores]
    rfl

/-- Agreement of the results, with what the two programs read. -/
theorem results_eq_iff (hreadable : Readable chunks questionVector)
    (halike : (∀ chunk ∈ chunks, TokensAlike env query chunk) ∨
      ∀ chunk ∈ chunks, RanksAlike env rankFeature chunk) :
    (∀ t v,
        rerankStandard env chunks (env.question query) questionVector query t v rankFeature =
          (originalResult env chunks questionVector query rankFeature t v).map some) ↔
      (∀ chunk ∈ chunks, ∀ v, chunk.vector = some (.text v) → dot questionVector v = 0) ∧
      (∀ chunk ∈ chunks, TokensAlike env query chunk) ∧
      (∀ chunk ∈ chunks, RanksAlike env rankFeature chunk) ∧
      ((chunks.map fun chunk =>
          cosineSimilarity env questionVector (originalVector questionVector chunk)).sum = 0 →
        ∀ chunk ∈ chunks, dot questionVector (originalVector questionVector chunk) = 0 ∧
          rankFeatureScore env rankFeature chunk = 0) := by
  simp only [rerankStandard_eq, originalResult]
  rw [scores_agree_iff, cosines_eq_iff hreadable]
  · refine and_congr_right' (and_congr ?_ (and_congr ?_ ?_))
    · exact forall₂_congr fun chunk _ => tokenDictSimilarity_eq_iff env
    · exact forall₂_congr fun chunk _ => rankScore_eq_iff
    · refine imp_congr_right fun _ => forall₂_congr fun chunk hchunk => ?_
      rw [cosineSimilarity_eq_zero_iff env (hreadable.lengths chunk hchunk)]
  · intro chunk hchunk
    refine halike.imp (fun htokens => ?_) fun hranks x hx => ?_
    · exact (tokenDictSimilarity_eq_iff env).mpr (htokens chunk hchunk)
    · rw [rankScore_eq_iff.mpr (hranks chunk hchunk)] at hx
      exact (Option.some.inj hx).symm

/-- The scores of chunks agree, with the rank features and without them, exactly if the inputs are
read alike. -/
theorem sameScores_iff_readAlike (hne : chunks ≠ []) :
    (∀ rf ∈ [rankFeature, .empty], ∀ t v, SameScores
        (rerankStandard env chunks (env.question query) questionVector query t v rf)
        (rerank env chunks questionVector query t v rf)) ↔
      ReadAlike env chunks questionVector query rankFeature := by
  have hempty : ∀ chunk : Candidate K, RanksAlike env .empty chunk := fun chunk => Or.inl rfl
  have hpagerank : ∀ chunk : Candidate K,
      rankFeatureScore env .empty chunk = chunk.pagerank.getD 0 := by
    intro chunk
    rw [rankFeatureScore]
    exact if_pos rfl
  simp only [sameScores_iff hne, forall_and, forall_const, List.forall_mem_cons, List.not_mem_nil,
    IsEmpty.forall_iff, implies_true, and_true]
  constructor
  · rintro ⟨⟨hreadable, -⟩, hfeatures, hnone⟩
    obtain ⟨htexts, htokens, -, hzero⟩ :=
      (results_eq_iff hreadable (Or.inr fun chunk _ => hempty chunk)).mp hnone
    obtain ⟨-, -, hranks, hcancel⟩ := (results_eq_iff hreadable (Or.inl htokens)).mp hfeatures
    refine ⟨hreadable, htexts, htokens, hranks, fun hsum chunk hchunk => ?_⟩
    obtain ⟨hdot, hpage⟩ := hzero hsum chunk hchunk
    exact ⟨hdot, (hpagerank chunk).symm.trans hpage, (hcancel hsum chunk hchunk).2⟩
  · rintro ⟨hreadable, htexts, htokens, hranks, hcosines⟩
    refine ⟨⟨hreadable, hreadable⟩, ?_, ?_⟩
    · refine (results_eq_iff hreadable (Or.inl htokens)).mpr
        ⟨htexts, htokens, hranks, fun hsum chunk hchunk => ?_⟩
      obtain ⟨hdot, -, hscore⟩ := hcosines hsum chunk hchunk
      exact ⟨hdot, hscore⟩
    · refine (results_eq_iff hreadable (Or.inl htokens)).mpr
        ⟨htexts, htokens, fun chunk _ => hempty chunk, fun hsum chunk hchunk => ?_⟩
      obtain ⟨hdot, hpage, -⟩ := hcosines hsum chunk hchunk
      exact ⟨hdot, (hpagerank chunk).trans hpage⟩

omit [IsStrictOrderedRing K] in
/-- Both programs score no chunks alike. -/
theorem sameScores_nil : SameScores
    (rerankStandard env [] (env.question query) questionVector query t v rankFeature)
    (rerank env [] questionVector query t v rankFeature) := by
  have horiginal : rerank env [] questionVector query t v rankFeature =
      some { sim := [], tsim := [], vsim := [] } := by
    rw [rerank]
    exact if_pos rfl
  have hport : rerankStandard env [] (env.question query) questionVector query t v rankFeature =
      RerankResult.map some { sim := [], tsim := [], vsim := [] } := by
    rw [rerankStandard_eq, portScores, if_pos fun _ h => absurd h List.not_mem_nil]
    rfl
  refine ⟨⟨_, horiginal, hport⟩, fun r hr order => ?_⟩
  rw [horiginal] at hr
  rw [← Option.some.inj hr, hport]
  rfl

/-- The port agrees with the original exactly where the query and the chunks have tokens, and, for
all weights, with the rank features and without them, where the inputs are read alike. -/
theorem rerankStandard_agrees_iff (env : RerankEnv K) (chunks : List (Candidate K))
    (questionVector : List K) (query : String) (rankFeature : Dict String K) :
    (∀ atks btkss, tokenSimilarity env atks btkss = token_similarity env atks btkss ↔
      ∀ btks ∈ btkss, atks ≠ [] ∧ btks ≠ []) ∧
    ((∀ rf ∈ [rankFeature, .empty], ∀ t v, SameScores
        (rerankStandard env chunks (env.question query) questionVector query t v rf)
        (rerank env chunks questionVector query t v rf)) ↔
      chunks = [] ∨ ReadAlike env chunks questionVector query rankFeature) := by
  refine ⟨tokenSimilarity_eq_iff env, ?_⟩
  by_cases hne : chunks = []
  · subst hne
    simp [sameScores_nil]
  · rw [sameScores_iff_readAlike hne, or_iff_right hne]

end Agreement

/-! ## A query of one word -/

section Instance

/-- Terms of weight one, and a query of the word it is. -/
def unitEnv : RerankEnv ℚ where
  termWeight :=
    { weights := fun tks => tks.map fun t => (t, 1)
      terms := fun tks => by
        rw [List.map_map]
        exact List.map_id tks
      nonneg := fun tks tw htw => by
        obtain ⟨t, -, rfl⟩ := List.mem_map.mp htw
        exact zero_le_one }
  question := fun s => [s.toList]
  sqrt := id
  sqrt_eq_zero := fun _ _ => Iff.rfl
  unmarshal := fun _ => none
  loads := fun _ => none
  strip := id

/-- A chunk with content and a vector. -/
def contentChunk (s : String) : Candidate ℚ :=
  { vector := some (.numbers [1])
    content := some s.toList
    titleTks := none
    questionTks := none
    importantKwd := none
    pagerank := none
    tagFeas := none }

theorem rerankStandard_agrees_latin :
    SameScores
        (rerankStandard unitEnv [contentChunk "b a"] (unitEnv.question "a") [1] "a" (1 / 2) (1 / 2)
          (Dict.empty.set "tag" 1))
        (rerank unitEnv [contentChunk "b a"] [1] "a" (1 / 2) (1 / 2) (Dict.empty.set "tag" 1)) ∧
      SameScores
        (rerankStandard unitEnv [contentChunk "b a"] (unitEnv.question "a") [1] "a" (1 / 2) (1 / 2)
          .empty)
        (rerank unitEnv [contentChunk "b a"] [1] "a" (1 / 2) (1 / 2) .empty) := by
  have hread : ReadAlike unitEnv [contentChunk "b a"] [1] "a" (Dict.empty.set "tag" 1) := by
    refine ⟨⟨by decide, by decide, by decide⟩, ?_, ?_, ?_, ?_⟩
    · intro chunk hchunk v hv
      obtain rfl := List.mem_singleton.mp hchunk
      cases hv
    · intro chunk hchunk
      obtain rfl := List.mem_singleton.mp hchunk
      exact ⟨by decide, by decide +kernel, by decide +kernel⟩
    · intro chunk hchunk
      obtain rfl := List.mem_singleton.mp hchunk
      exact Or.inr (by decide +kernel)
    · intro hsum
      exact absurd hsum (by decide +kernel)
  have hagree := (rerankStandard_agrees_iff unitEnv [contentChunk "b a"] [1] "a"
    (Dict.empty.set "tag" 1)).2.mpr (Or.inr hread)
  exact ⟨hagree _ (by simp) _ _, hagree _ (by simp) _ _⟩

/-- Between Chinese words the port takes the blanks out before it cuts the content. -/
theorem rerankStandard_disagrees :
    ¬ SameScores
      (rerankStandard unitEnv [contentChunk "甲 乙"] (unitEnv.question "乙") [1] "乙" (1 / 2) (1 / 2)
        .empty)
      (rerank unitEnv [contentChunk "甲 乙"] [1] "乙" (1 / 2) (1 / 2) .empty) := by
  rintro ⟨⟨r, hr, hscores⟩, -⟩
  have htsim : (rerank unitEnv [contentChunk "甲 乙"] [1] "乙" (1 / 2) (1 / 2) .empty).map
      (fun r => r.tsim.map some) = some (rerankStandard unitEnv [contentChunk "甲 乙"]
        (unitEnv.question "乙") [1] "乙" (1 / 2) (1 / 2) .empty).tsim := by
    rw [hr, hscores]
    rfl
  exact absurd htsim (by decide +kernel)

end Instance

end RagFlow.Retrieval
