/-
# Tokens without positions

`Tokenize` cuts a text into tokens by language and merges neighbours that are a word together;
`FineGrainedTokenize` cuts its tokens again. The lemmatizer, the stemmer, the conversion of
characters, the tokenizer of words, the regular expression class of word characters, the
exponential function and the sort of the standard library are parameters.
-/

import RagFlow.Analyzer.Languages
import RagFlow.Analyzer.Segment

namespace RagFlow.Analyzer

open RagFlow.Math

/-- What the analyzer calls. -/
structure Env where
  tables : Tables
  /-- The lemmatizer of WordNet. -/
  lemmatize : Text → Text
  stem : Text → Text
  /-- `OpenCC::convert`. -/
  convert : Text → Text
  /-- `NLTKWordTokenizer::Tokenize`, of one sentence. -/
  nltk : Text → List Text
  /-- `\w` of PCRE2. -/
  isWord : Char → Bool
  /-- `static_cast<int32_t>(std::exp(v) * DENOMINATOR + 0.5)`. -/
  expFreq : ℤ → ℤ
  /-- `std::sort` by falling scores. -/
  sort : List (List Text × Option ℚ) → List (List Text × Option ℚ)

variable (env : Env)

/-! ## Normalisation -/

/-- A term in lower case, lemmatised and stemmed. -/
def normalize (term : Text) : Text := env.stem (env.lemmatize (toLowerString (cString term)))

/-- `EnglishNormalize`. -/
def englishNormalize (tokens : List Text) : List Text :=
  tokens.map fun t => if pattern1 t then normalize env t else t

/-- `Freq`. -/
def freq (k : Text) : ℤ := env.expFreq (decodeFreq (env.tables.get k))

/-! ## Merging -/

/-- The inner loop of `Merge`: the end of the longest word of up to five tokens from `s` on. -/
def mergeEnd (tokens : List Text) (s : ℕ) : ℕ :=
  (List.range' (s + 2) (min (tokens.length + 1) (s + 6) - (s + 2))).foldl (fun E e =>
    let tk := ((tokens.take e).drop s).flatten
    if tk.any (fun c => delimiter c || wordLike c) ∧ 0 < freq env tk then e else E) (s + 1)

/-- The end is behind the first token, or one of the ends that are tried. -/
theorem mergeEnd_spec (tokens : List Text) (s : ℕ) :
    mergeEnd env tokens s = s + 1 ∨
      s + 2 ≤ mergeEnd env tokens s ∧ mergeEnd env tokens s ≤ tokens.length := by
  refine List.foldlRecOn (motive := fun E => E = s + 1 ∨ s + 2 ≤ E ∧ E ≤ tokens.length)
    _ _ (Or.inl rfl) fun E hE e he => ?_
  have htried := List.mem_range'_1.mp he
  dsimp only
  split_ifs
  · exact Or.inr (by omega)
  · exact hE

theorem lt_mergeEnd (tokens : List Text) (s : ℕ) : s < mergeEnd env tokens s := by
  rcases mergeEnd_spec env tokens s with h | ⟨h, -⟩ <;> omega

theorem mergeEnd_le {tokens : List Text} {s : ℕ} (hs : s < tokens.length) :
    mergeEnd env tokens s ≤ tokens.length := by
  rcases mergeEnd_spec env tokens s with h | ⟨-, h⟩ <;> omega

/-- The loop of `Merge` from `s` on. -/
def mergeFrom (tokens : List Text) (s : ℕ) : List Text :=
  if s < tokens.length then
    have := lt_mergeEnd env tokens s
    let E := mergeEnd env tokens s
    ((tokens.take E).drop s).flatten :: mergeFrom tokens E
  else []
termination_by tokens.length - s

/-- `Merge`. -/
def merge (tksStr : Text) : Text :=
  [' '].intercalate (mergeFrom env (splitBlanks (replaceSpaces false tksStr)) 0)

/-! ## `Tokenize` -/

/-- The text that is tokenized. -/
def prepare (line : Text) : Text := env.convert (strQ2B (globalReplace env.isWord line).1)

/-- The terms of text that is not Chinese, stemmed. -/
def stemTerms (L : Text) : List Text :=
  ((sentenceSplitter L).flatMap env.nltk).map (normalize env)

/-- The test for a text that is one token. -/
def isOneToken (L : Text) : Bool := UTF8Length L < 2 || pattern2 L || pattern3 L

/-- The strings that a segment of the text appends. -/
def segmentStrings : Text × Bool → Option (List Text)
  | (L, false) => some (stemTerms env L)
  | (L, true) => if isOneToken L then some [L] else (tokenizeInner env.tables L).map Inner.res

/-- `Tokenize`. -/
def tokenize (line : Text) : Option Text :=
  ((splitByLang (prepare env line)).mapM (segmentStrings env)).map fun res =>
    merge env ([' '].intercalate res.flatten)

/-! ## `FineGrainedTokenize` -/

/-- The test for text that is not Chinese: a double rounds `size * 0.2` to the integer where it
is one. -/
def isEnglish (tks : List Text) : Bool :=
  5 * (tks.map fun token => token.countP isChinese).sum < tks.length

/-- The lines that `std::getline` reads up to a character. -/
def getlines (delim : Char) : Text → Text → List Text
  | cur, [] => if cur.isEmpty then [] else [cur]
  | cur, c :: cs =>
    if c = delim then cur :: getlines delim [] cs else getlines delim (cur ++ [c]) cs

/-- All segmentations of a token, or the token alone if it is long. -/
def tokenList (token : Text) : List (List (Text × Value)) :=
  if 10 < UTF8Length token then [[(token, encode (-1) 0)]]
  else (dfs env.tables token true (MAX_DFS_DEPTH + 1) 0 [] .start).2.tokenList

/-- `SortTokens`. -/
def sortTokens (tokenList : List (List (Text × Value))) : List (List Text × Option ℚ) :=
  env.sort (tokenList.map fun tfts => (tfts.map Prod.fst, score env.tables tfts))

/-- The body of the loop of `FineGrainedTokenize`. -/
def fineTokens (token : Text) : List Text :=
  if UTF8Length token < 3 ∨ pattern4 token then [token]
  else if (tokenList env token).length < 2 then [token]
  else
    match (sortTokens env (tokenList env token))[1]? with
    | none => [token]
    | some (stk, _) =>
      if stk.length = UTF8Length token then [token]
      else if pattern5 token then
        if ∃ t ∈ stk, UTF8Length t < 3 then [token] else stk
      else stk

/-- `FineGrainedTokenize`. -/
def fineGrainedTokenize (tokens : Text) : List Text :=
  let tks := splitBlanks tokens
  if isEnglish tks then tks.flatMap (getlines '/' [])
  else englishNormalize env (tks.flatMap (fineTokens env))

end RagFlow.Analyzer
