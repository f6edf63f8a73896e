/-
# Reranking without a model

`rerank` scores the chunks that a search has found by the terms they share with the query, by
the cosine of their vectors, and by their rank features; `rerankStandard` is its port to the
other server. Both are modelled in exact arithmetic over any ordered field. The weights of terms,
the words of a query, the square root and the parsers of tag features are parameters; a division
by zero has no result.
-/

import RagFlow.Ingestion.Parents
import RagFlow.Math.Dict
import Mathlib.Algebra.Order.Field.Basic

namespace RagFlow.Retrieval

open RagFlow.Math
open RagFlow.Ingestion (isSpace)

/-- A token, and what joining two makes. -/
abbrev Token := List Char

/-! ## Candidates -/

/-- A vector, or text with its numbers between tabs. -/
inductive VectorField (K : Type) where
  | numbers (v : List K)
  | text (v : List K)

/-- `important_kwd`: one text, or a list. -/
inductive KeywordField where
  | text (s : Token)
  | list (ks : List Token)

/-- `tag_feas`: text, or an object that is read already. -/
inductive TagField (K : Type) where
  | text (s : String)
  | object (features : Dict String K)

/-- The fields of a chunk that the scores depend on. -/
structure Candidate (K : Type) where
  vector : Option (VectorField K)
  content : Option Token
  titleTks : Option Token
  questionTks : Option Token
  importantKwd : Option KeywordField
  pagerank : Option K
  tagFeas : Option (TagField K)

/-- The weighting of terms keeps the terms, and no weight is negative. -/
structure TermWeights (K : Type) [Zero K] [LE K] where
  weights : List Token → List (Token × K)
  terms : ∀ tks, (weights tks).map Prod.fst = tks
  nonneg : ∀ tks, ∀ tw ∈ weights tks, 0 ≤ tw.2

/-- What the two programs call. -/
structure RerankEnv (K : Type) [Zero K] [LE K] where
  termWeight : TermWeights K
  /-- The words of a query. -/
  question : String → List Token
  sqrt : K → K
  sqrt_eq_zero : ∀ x, 0 ≤ x → (sqrt x = 0 ↔ x = 0)
  /-- The numbers of the object that `json.Unmarshal` reads. -/
  unmarshal : String → Option (Dict String K)
  /-- The numbers of the object that `json.loads` or else `ast.literal_eval` reads. -/
  loads : String → Option (Dict String K)
  /-- `str.strip`. -/
  strip : String → String

structure RerankResult (K : Type) where
  sim : List K
  tsim : List K
  vsim : List K

def PAGERANK_FLD : String := "pagerank_fea"

/-- The words of a text that is cut at a kind of characters. -/
def words (blank : Char → Bool) (s : Token) : List Token :=
  (s.splitOnP blank).filter (· ≠ [])

/-! ## Dictionaries of terms -/

section Terms

variable {K : Type} [Field K] [LinearOrder K]

/-- `d[t] += c`. -/
def addWeight (d : Dict Token K) (t : Token) (c : K) : Dict Token K :=
  d.set t ((d.get? t).getD 0 + c)

/-- The loop over the weights: each term, and each pair of neighbours joined. -/
def toDict : Dict Token K → List (Token × K) → Dict Token K
  | d, [] => d
  | d, [(t, c)] => addWeight d t (c * (2 / 5))
  | d, (t, c) :: (t', c') :: wts =>
    toDict (addWeight (addWeight d t (c * (2 / 5))) (t ++ t') (max c c' * (3 / 5)))
      ((t', c') :: wts)

def epsilon : K := 1 / 10 ^ 9

/-- The weight of the terms of the query that a dictionary has. -/
def hitWeight (qtwt dtwt : Dict Token K) : K :=
  ((qtwt.entries.filter fun e => e.1 ∈ dtwt).map Prod.snd).sum

def totalWeight (qtwt : Dict Token K) : K := (qtwt.entries.map Prod.snd).sum

/-- `similarity`. -/
def similarity (qtwt dtwt : Dict Token K) : K :=
  (epsilon + hitWeight qtwt dtwt) / (epsilon + totalWeight qtwt)

/-- `tokenDictSimilarity`. -/
def tokenDictSimilarity (qtwt dtwt : Dict Token K) : K :=
  if qtwt.entries = [] ∨ dtwt.entries = [] then 0
  else (epsilon + hitWeight qtwt dtwt) / (epsilon + totalWeight qtwt)

def dot (a b : List K) : K := (List.zipWith (· * ·) a b).sum

end Terms

variable {K : Type} [Field K] [LinearOrder K]

/-! ## The original -/

section Original

variable (env : RerankEnv K)

/-- `token_similarity`. -/
def token_similarity (atks : List Token) (btkss : List (List Token)) : List K :=
  let atksDict := toDict .empty (env.termWeight.weights atks)
  btkss.map fun btks => similarity atksDict (toDict .empty (env.termWeight.weights btks))

/-- A row of `cosine_similarity`: the rows are normalised where their norm is not zero. -/
def normalized (v : List K) : List K :=
  let norm := env.sqrt (dot v v)
  v.map fun x => x / if norm = 0 then 1 else norm

/-- `cosine_similarity([avec], bvecs)[0]`, which takes vectors of one length. -/
def cosine_similarity (avec : List K) (bvecs : List (List K)) : Option (List K) :=
  if avec ≠ [] ∧ ∀ bvec ∈ bvecs, bvec.length = avec.length then
    some (bvecs.map fun bvec => dot (normalized env avec) (normalized env bvec))
  else none

def hybrid_similarity (avec : List K) (bvecs : List (List K)) (atks : List Token)
    (btkss : List (List Token)) (tkweight vtweight : K) : Option (RerankResult K) :=
  (cosine_similarity env avec bvecs).map fun sims =>
    let tksim := token_similarity env atks btkss
    { sim := if sims.sum = 0 then tksim
        else List.zipWith (fun v t => v * vtweight + t * tkweight) sims tksim
      tsim := tksim
      vsim := sims }

/-- `parse_tag_features`, for text or an object: keys are stripped, and not empty. -/
def parse_tag_features : TagField K → Dict String K
  | .text s => ((env.loads s).map clean).getD .empty
  | .object features => clean features
where
  clean (parsed : Dict String K) : Dict String K :=
    parsed.entries.foldl (fun cleaned e =>
      if env.strip e.1 = "" then cleaned else cleaned.set (env.strip e.1) e.2) .empty

/-- The numerator and the denominator of a tag score. -/
def tagProduct (query_rfea tag_feas : Dict String K) : K :=
  (tag_feas.entries.map fun e => ((query_rfea.get? e.1).map (· * e.2)).getD 0).sum

def tagSquares (tag_feas : Dict String K) : K :=
  (tag_feas.entries.map fun e => e.2 * e.2).sum

/-- The weights of the query's tags, squared. -/
def querySquares (query_rfea : Dict String K) : K :=
  ((query_rfea.entries.filter fun e => e.1 ≠ PAGERANK_FLD).map fun e => e.2 * e.2).sum

/-- The tag features of a chunk, which may have none. -/
def tagFeatures (chunk : Candidate K) : Dict String K :=
  (chunk.tagFeas.map (parse_tag_features env)).getD .empty

/-- `_rank_feature_scores` for one chunk. -/
def rankFeatureScore (query_rfea : Dict String K) (chunk : Candidate K) : K :=
  let pagerank := chunk.pagerank.getD 0
  let q_denor := env.sqrt (querySquares query_rfea)
  if query_rfea.entries = [] then pagerank
  else if q_denor = 0 then pagerank
  else
    let denor := tagSquares (tagFeatures env chunk)
    (if denor = 0 then 0
      else tagProduct query_rfea (tagFeatures env chunk) / env.sqrt denor / q_denor) * 10 + pagerank

def KeywordField.tokens : KeywordField → List Token
  | text s => [s]
  | list ks => ks

/-- The tokens of a chunk with its fields repeated by their weight; a chunk without content
raises. -/
def candidateTokens (chunk : Candidate K) : Option (List Token) :=
  chunk.content.map fun content =>
    let content_ltks := (words isSpace content).eraseDups
    let title_tks := words isSpace (chunk.titleTks.getD [])
    let question_tks := words isSpace (chunk.questionTks.getD [])
    let important_kwd := (chunk.importantKwd.map KeywordField.tokens).getD []
    content_ltks ++ (List.replicate 2 title_tks).flatten ++
      (List.replicate 5 important_kwd).flatten ++ (List.replicate 6 question_tks).flatten

/-- The vector of a chunk, whichever way it is stored. -/
def candidateVector (chunk : Candidate K) (zero_vector : List K) : List K :=
  match chunk.vector with
  | none => zero_vector
  | some (.numbers v) => v
  | some (.text v) => v

/-- `Dealer.rerank`. -/
def rerank (chunks : List (Candidate K)) (query_vector : List K) (query : String)
    (tkweight vtweight : K) (rank_feature : Dict String K) : Option (RerankResult K) :=
  if chunks = [] then some { sim := [], tsim := [], vsim := [] }
  else do
    let keywords := env.question query
    let zero_vector := List.replicate query_vector.length 0
    let ins_embd := chunks.map fun chunk => candidateVector chunk zero_vector
    let ins_tw ← chunks.mapM candidateTokens
    let rank_fea := chunks.map (rankFeatureScore env rank_feature)
    let hybrid ← hybrid_similarity env query_vector ins_embd keywords ins_tw tkweight vtweight
    some { hybrid with sim := List.zipWith (· + ·) hybrid.sim rank_fea }

end Original

/-! ## The port -/

section Port

/-- `\s` of the regular expressions. -/
def reSpace (c : Char) : Bool := c ∈ ['\t', '\n', '\x0c', '\r', ' ']

def lowerOrDigit (c : Char) : Bool := ('a' ≤ c && c ≤ 'z') || ('0' ≤ c && c ≤ '9')

/-- Remove the blanks between a character that satisfies `left` and one that satisfies `right`.
The state has the blanks since a character that may start a match; the character that ends one
starts none. -/
def removeSpaces (left right : Char → Bool) : Option ℕ → Token → Token
  | blanks, [] => List.replicate (blanks.getD 0) ' '
  | none, c :: cs => c :: removeSpaces left right (if left c then some 0 else none) cs
  | some k, c :: cs =>
    if c = ' ' then removeSpaces left right (some (k + 1)) cs
    else if 0 < k ∧ right c = true then c :: removeSpaces left right none cs
    else List.replicate k ' ' ++ c :: removeSpaces left right (if left c then some 0 else none) cs

/-- `RemoveRedundantSpaces`. -/
def removeRedundantSpaces (s : Token) : Token :=
  let first := removeSpaces
    (fun c => !(reSpace c || lowerOrDigit c || c ∈ ['.', ',', ')', '>'])) (fun c => !reSpace c)
    none s
  removeSpaces (fun c => !reSpace c)
    (fun c => !(reSpace c || lowerOrDigit c || c ∈ ['.', ',', '('])) none first

/-- `unicode.IsSpace`, by which `strings.Fields` cuts. -/
def goIsSpace (c : Char) : Bool := isSpace c && !(28 ≤ c.toNat && c.toNat ≤ 31)

def extractContentTokens (chunk : Candidate K) : List Token :=
  match chunk.content with
  | none => []
  | some v => (words goIsSpace (removeRedundantSpaces v)).eraseDups

def extractTitleTokens (chunk : Candidate K) : List Token :=
  match chunk.titleTks with
  | none => []
  | some v => words goIsSpace (removeRedundantSpaces v)

def extractQuestionTokens (chunk : Candidate K) : List Token :=
  match chunk.questionTks with
  | none => []
  | some v => words goIsSpace v

def extractImportantKeywords (chunk : Candidate K) : List Token :=
  match chunk.importantKwd with
  | none => []
  | some (.text s) => [s]
  | some (.list ks) => ks

/-- The tokens that `RerankStandard` combines. -/
def combinedTokens (chunk : Candidate K) : List Token :=
  extractContentTokens chunk ++ (List.replicate 2 (extractTitleTokens chunk)).flatten ++
    (List.replicate 5 (extractImportantKeywords chunk)).flatten ++
    (List.replicate 6 (extractQuestionTokens chunk)).flatten

/-- A vector that is no list of numbers is replaced. -/
def extractVector (chunk : Candidate K) (zeroVector : List K) : List K :=
  match chunk.vector with
  | some (.numbers v) => v
  | _ => zeroVector

variable (env : RerankEnv K)

def cosineSimilarity (a b : List K) : K :=
  if a.length ≠ b.length then 0
  else if dot a a = 0 ∨ dot b b = 0 then 0
  else dot a b / (env.sqrt (dot a a) * env.sqrt (dot b b))

def tokensToDict (tks : List Token) : Dict Token K := toDict .empty (env.termWeight.weights tks)

/-- `TokenSimilarity`. -/
def tokenSimilarity (atks : List Token) (btkss : List (List Token)) : List K :=
  btkss.map fun btks => tokenDictSimilarity (tokensToDict env atks) (tokensToDict env btks)

/-- `parseTagFeasRerank`, of a field that is text. -/
def parseTagFeasRerank (chunk : Candidate K) : Dict String K :=
  match chunk.tagFeas with
  | some (.text s) => if s = "" ∨ s = "\x7b\x7d" then .empty else (env.unmarshal s).getD .empty
  | _ => .empty

/-- The quotient, of which there is none by zero. -/
def quotient (x y : K) : Option K := if y = 0 then none else some (x / y)

/-- What `applyRankFeatureScores` adds to the score of a chunk. -/
def rankScore (rankFeature : Dict String K) (chunk : Candidate K) : Option K :=
  let pagerank := chunk.pagerank.getD 0
  if rankFeature.entries = [] then some pagerank
  else
    let qDenor := env.sqrt (querySquares rankFeature)
    let denor := tagSquares (parseTagFeasRerank env chunk)
    (if denor = 0 then some 0
      else quotient (tagProduct rankFeature (parseTagFeasRerank env chunk) / env.sqrt denor)
        qDenor).map fun tagScore => tagScore * 10 + pagerank

def applyRankFeatureScores (chunks : List (Candidate K)) (sim : List K)
    (rankFeature : Dict String K) : List (Option K) :=
  List.zipWith (fun s chunk => (rankScore env rankFeature chunk).map (s + ·)) sim chunks

/-- `RerankStandard`. Where all vector similarities are zero, `HybridSimilarity` returns one
slice for both `sim` and `tsim`, and the rank scores are added to it. -/
def rerankStandard (chunks : List (Candidate K)) (keywords : List Token)
    (questionVector : List K) (query : String) (tkWeight vtWeight : K)
    (rankFeature : Dict String K) : RerankResult (Option K) :=
  let keywords := if keywords = [] then env.question query else keywords
  let zeroVector := List.replicate questionVector.length 0
  let vsim := chunks.map fun chunk =>
    cosineSimilarity env questionVector (extractVector chunk zeroVector)
  let tsim := tokenSimilarity env keywords (chunks.map combinedTokens)
  if ∀ s ∈ vsim, s = 0 then
    let sim := applyRankFeatureScores env chunks tsim rankFeature
    { sim := sim, tsim := sim, vsim := vsim.map some }
  else
    let sim := List.zipWith (fun v t => v * vtWeight + t * tkWeight) vsim tsim
    { sim := applyRankFeatureScores env chunks sim rankFeature
      tsim := tsim.map some
      vsim := vsim.map some }

end Port

end RagFlow.Retrieval
