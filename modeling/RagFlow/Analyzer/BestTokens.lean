/-
# The best segmentations

`GetBestTokensTopN` keeps, for each place in the text, the best segmentations up to there among
those with as many tokens and as many long ones. Of those for the whole text it takes the first as
they come, and a later one only if it is better than the last of them.
-/

import RagFlow.Analyzer.Trie
import RagFlow.Math.Sorted
import Mathlib.Data.Set.Card

namespace RagFlow.Analyzer.BestTokens

open RagFlow.Math

/-- The trie of an analyzer. Building it refuses negative values. -/
structure Dictionary extends Tables where
  nonneg : ∀ k v, trie.get? k = some v → 0 ≤ v.toInt

/-- `traverse`: the value of a key, -1 where only longer ones start so, and -2 where none do. -/
def Dictionary.traverse (d : Dictionary) (k : Text) : ℤ :=
  match d.trie.get? k with
  | some v => v.toInt
  | none => if d.hasKeysWithPrefix k then -1 else -2

/-! ## Candidates -/

/-- A segmentation of the beginning of the text, with the last token first. -/
structure BestTokenCandidate where
  tl : List Text
  N : ℕ
  L : ℕ
  F : ℤ
deriving DecidableEq

namespace BestTokenCandidate

def k (c : BestTokenCandidate) : ℕ × ℕ := (c.N, c.L)

/-- In exact arithmetic. -/
def score (c : BestTokenCandidate) : ℚ := c.F + (30 + c.L) / c.N

def update (c : BestTokenCandidate) (newToken : Text) (keyF : ℤ) (addL : ℕ) :
    BestTokenCandidate where
  tl := newToken :: c.tl
  N := c.N + 1
  L := c.L + addL
  F := c.F + keyF

def first : BestTokenCandidate where
  tl := []
  N := 0
  L := 0
  F := 0

end BestTokenCandidate

/-- `<` of pairs. -/
def lessK (a b : ℕ × ℕ) : Bool := a.1 < b.1 || (a.1 = b.1 && a.2 < b.2)

/-- The first of the least elements, with what is before and behind it. -/
def minElement : List BestTokenCandidate →
    Option (List BestTokenCandidate × BestTokenCandidate × List BestTokenCandidate)
  | [] => none
  | a :: rest =>
    match minElement rest with
    | none => some ([], a, [])
    | some (before, m, behind) =>
      if m.F < a.F then some (a :: before, m, behind) else some ([], a, rest)

/-- `AddBestTokenCandidateTopN`. There is no value where it would read the least element of an empty
range. -/
def addBestTokenCandidateTopN (topN : ℤ) (candidates : List BestTokenCandidate)
    (add : BestTokenCandidate) : Option (List BestTokenCandidate) :=
  let itB := partitionPoint (fun a => lessK a.k add.k) candidates
  let itE := partitionPoint (fun a => !lessK add.k a.k) candidates
  let range := (candidates.take itE).drop itB
  if topN ≤ range.length then
    (minElement range).map fun (before, it, behind) =>
      if add.F ≤ it.F then candidates
      else candidates.take itB ++ (before ++ add :: behind) ++ candidates.drop itE
  else some (candidates.take itB ++ add :: candidates.drop itB)

/-! ## The table -/

section Table

variable (d : Dictionary) (topN : ℤ)

/-- Each candidate at `i` is continued by a token of `j` characters. -/
def dpF (i j : ℕ) (token : Text) (keyF : ℤ) (addL : ℕ)
    (dpVec : List (List BestTokenCandidate)) : Option (List (List BestTokenCandidate)) :=
  let updated := (dpVec.getD i []).map fun c => c.update token keyF addL
  (updated.foldlM (addBestTokenCandidateTopN topN) (dpVec.getD (i + j) [])).map fun target =>
    dpVec.set (i + j) target

/-- The tokens from `i` on with `j` and more characters, of which there are `left`; `rest` is the
text from `i` on. -/
def tokensFrom (i : ℕ) (rest : Text) : ℕ → ℕ → List (List BestTokenCandidate) →
    Option (List (List BestTokenCandidate))
  | 0, _, dpVec => some dpVec
  | left + 1, j, dpVec =>
    let token := rest.take j
    let traverseResult := d.traverse (key token)
    if 0 ≤ traverseResult then
      let keyF := decodeFreq (BitVec.ofInt 32 traverseResult)
      (dpF topN i j token keyF (if 2 ≤ j then 1 else 0) dpVec).bind (tokensFrom i rest left (j + 1))
    else
      (if j = 1 then dpF topN i j token (-12) 0 dpVec else some dpVec).bind fun dpVec =>
        if traverseResult = -2 then some dpVec else tokensFrom i rest left (j + 1) dpVec

/-- The table after the first places. -/
def tableUpTo (chars : Text) : ℕ → Option (List (List BestTokenCandidate))
  | 0 => some ([.first] :: List.replicate (UTF8Length chars) [])
  | i + 1 => (tableUpTo chars i).bind
      (tokensFrom d topN i (chars.drop i) (UTF8Length (chars.drop i)) 1)

end Table

/-! ## The selection -/

/-- A candidate for the whole text is taken while there is room, and then if it is better than the
last one. There is no value where no candidate is last. -/
def takeCandidate (n : ℕ) (midResult : List BestTokenCandidate) (c : BestTokenCandidate) :
    Option (List BestTokenCandidate) :=
  if midResult.length < n then some (midResult ++ [c])
  else midResult.getLast?.map fun back =>
    if back.score < c.score then
      let kept := midResult.dropLast
      let insertPos := partitionPoint (fun a => c.score < a.score) kept
      kept.take insertPos ++ c :: kept.drop insertPos
    else midResult

/-- `GetBestTokensTopN`, where `top_n` is an `int32_t`. -/
def getBestTokensTopN (d : Dictionary) (chars : Text) (n : ℕ) : Option (List (List Text × ℚ)) :=
  (tableUpTo d (BitVec.ofNat 32 n).toInt chars (UTF8Length chars)).bind fun dpVec =>
    ((dpVec.getLastD []).foldlM (takeCandidate n) []).map fun midResult =>
      midResult.map fun c => (c.tl.reverse, c.score)

/-! ## What should come out -/

def Dictionary.IsWord (d : Dictionary) (t : Text) : Prop := (d.trie.get? (key t)).isSome

/-- The frequency of a word, and what a character counts that is none. -/
def Dictionary.freq (d : Dictionary) (t : Text) : ℤ :=
  match d.trie.get? (key t) with
  | some v => decodeFreq v
  | none => -12

/-- The words of the dictionary and single characters that make up the text. -/
def IsSegmentation (d : Dictionary) (chars : Text) (tokens : List Text) : Prop :=
  tokens.flatten = chars ∧ ∀ t ∈ tokens, t ≠ [] ∧ (t.length = 1 ∨ d.IsWord t)

/-- The number of tokens and that of the long ones. -/
def sizes (tokens : List Text) : ℕ × ℕ := (tokens.length, tokens.countP fun t => 2 ≤ t.length)

def scoreOf (d : Dictionary) (tokens : List Text) : ℚ :=
  (tokens.map d.freq).sum + (30 + (sizes tokens).2) / (sizes tokens).1

/-- The `n` best segmentations, the best first. -/
structure Optimal (d : Dictionary) (chars : Text) (n : ℕ) (result : List (List Text × ℚ)) :
    Prop where
  sound : ∀ r ∈ result, IsSegmentation d chars r.1 ∧ r.2 = scoreOf d r.1
  nodup : (result.map Prod.fst).Nodup
  length : result.length = min n {tokens | IsSegmentation d chars tokens}.ncard
  sorted : result.Pairwise fun r r' => r'.2 ≤ r.2
  best : ∀ tokens, IsSegmentation d chars tokens → tokens ∉ result.map Prod.fst →
    ∀ r ∈ result, scoreOf d tokens ≤ r.2

def FindsBest (d : Dictionary) (chars : Text) (n : ℕ) : Prop :=
  ∃ result, getBestTokensTopN d chars n = some result ∧ Optimal d chars n result

end RagFlow.Analyzer.BestTokens
