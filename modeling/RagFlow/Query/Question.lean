/-
# The query for a question

A question is cleaned, and then either its tokens are put into the query one by one, with their
synonyms and with phrases of neighbours, or it is split into parts with terms in them. If nothing
can be put there, the cleaned question is the query.
-/

import Mathlib.Data.List.Sort
import RagFlow.Query.TermWeight

namespace RagFlow.Query

open RagFlow.Math
open RagFlow.Ingestion (isSpace)

structure MatchTextExpr where
  fields : List String
  matchingText : Text
  topn : ℕ
  minimumShouldMatch : Option ℚ
  originalQuery : Text

def queryFields : List String :=
  ["title_tks^10", "title_sm_tks^5", "important_kwd^30", "important_tks^20", "question_tks^20",
    "content_ltks^2", "content_sm_ltks"]

/-- What a query is made with. -/
structure Queryer where
  /-- Lower case, half width and simplified characters. -/
  normalize : Text → Text
  tw : TermWeight
  fineGrainedTokenize : Text → Text
  /-- The synonyms of a text. -/
  lookup : Text → List Text

def quote (t : Text) : Text := '"' :: (t ++ ['"'])

def paren (t : Text) : Text := '(' :: (t ++ [')'])

def joinBlank (ts : List Text) : Text := [' '].intercalate ts

def joinOr (ts : List Text) : Text := " OR ".toList.intercalate ts

/-- `t^n`. -/
def boosted (t n : Text) : Text := t ++ '^' :: n

/-- `t.find(" ") > 0`. -/
def hasBlankInside (t : Text) : Bool := ' ' ∈ t ∧ t.head? ≠ some ' '

namespace Queryer

variable (q : Queryer)

/-- The question without special characters. -/
def cleaned (txt : Text) : Text :=
  strip (substRuns isCleaned [' '] (q.normalize (addSpaceBetweenEngZh txt)))

/-! ## Questions in English -/

/-- Tokens with their weights, without quotes, carets and one leading sign. -/
def cleanTokens (tks : List (Text × Weight)) : List (Text × Weight) :=
  let tks := tks.map fun (tk, w) => (tk.filter fun c => c ∉ " \\\"'^".toList, w)
  let tks := (tks.filter fun (tk, _) => tk ≠ []).map fun (tk, w) =>
    (if tk.head?.any (· ∈ ['+', '-']) then tk.tail else tk, w)
  (tks.filter fun (tk, _) => strip tk ≠ []).map fun (tk, w) => (strip tk, w)

/-- The synonyms of a token, tokenized. -/
def tokenSynonyms (tk : Text) : List Text :=
  (q.lookup tk).map fun s => (q.tw.tokenize s).filter (· ≠ '\'')

/-- A token with its synonyms. -/
def tokenClause (tk : Text) (w : Weight) : Text :=
  paren (boosted tk (fixed 4 w.value) ++ ' ' ::
    joinBlank (((q.tokenSynonyms tk).filter fun s => strip s ≠ []).map fun s =>
      boosted (quote s) (fixed 4 (w.value / 4))))

/-- Two tokens that follow each other. -/
def pairClauses (tks : List (Text × Weight)) : List Text :=
  ((tks.zip tks.tail).filter fun (l, r) => strip l.1 ≠ [] ∧ strip r.1 ≠ []).map fun (l, r) =>
    boosted (quote (l.1 ++ ' ' :: r.1)) (fixed 4 (max l.2.value r.2.value * 2))

/-- The tokens of a question. -/
def tokens (txt : Text) : List Text := split (q.tw.tokenize txt)

/-- The query and the keywords of a question in English. -/
def english (txt : Text) : Text × List Text :=
  let txt := rmWWW txt
  let tks := q.tokens txt
  let tksW := cleanTokens (q.tw.tokenWeights tks)
  let keywords := tks.filter (· ≠ []) ++ (tksW.take 256).flatMap fun (tk, _) => q.tokenSynonyms tk
  let clauses := ((tksW.take 256).filter fun (tk, _) =>
    tk ≠ [] ∧ !tk.head?.any (· ∈ ".^+()-".toList)).map fun (tk, w) => q.tokenClause tk w
  let qs := clauses ++ pairClauses tksW
  (joinBlank (if qs = [] then [txt] else qs), keywords)

/-! ## Other questions -/

def needFineGrainedTokenize (tk : Text) : Bool :=
  3 ≤ tk.length ∧
    !(tk.all fun c => c.isDigit || c.isLower || c ∈ ".+#_*-".toList)

/-- What is taken out of the parts of a term. -/
def isPartMark (c : Char) : Bool :=
  c ∈ (" ,./;'[]\\`~!@#$%^&*()=+_<>?:\"\x7b\x7d|，。；‘’【】、！￥…（）—《》？：“”-").toList

/-- The parts of a term. -/
def termParts (tk : Text) : List Text :=
  let sm := if needFineGrainedTokenize tk then split (q.fineGrainedTokenize tk) else []
  let sm := sm.map fun m => m.filter fun c => !isPartMark c
  ((sm.filter fun m => 1 < m.length).map subSpecialChar).filter fun m => 1 < m.length

def termSynonyms (tk : Text) : List Text :=
  ((q.lookup tk).map subSpecialChar).filter (· ≠ [])

/-- The synonyms of a term as they are put into the query. -/
def synonymTexts (tk : Text) : List Text :=
  (q.termSynonyms tk).map fun s =>
    let s := q.fineGrainedTokenize s
    if hasBlankInside s then quote s else s

/-- The keywords after those of a term. -/
def termKeywords (keywords : List Text) (tk : Text) : List Text :=
  let keywords :=
    if keywords.length < 32 then
      keywords ++ (tk.filter fun c => c ∉ " \\\"'".toList) :: q.termParts tk
    else keywords
  if keywords.length < 32 then keywords ++ q.termSynonyms tk else keywords

/-- What is put into the query for a term. -/
def termText (tk : Text) : Text :=
  let t := subSpecialChar tk
  let t := if hasBlankInside t then quote t else t
  let t :=
    if q.synonymTexts tk = [] then t
    else paren (t ++ " OR ".toList ++
      boosted (paren (joinBlank (q.synonymTexts tk))) "0.2".toList)
  if q.termParts tk = [] then t
  else
    let sm := joinBlank (q.termParts tk)
    t ++ " OR ".toList ++ quote sm ++ " OR ".toList ++
      boosted (paren (quote sm ++ "~2".toList)) "0.5".toList

/-- The loop over the terms of a part: it ends when there are keywords enough. -/
def addTerms : List Text → List (Text × Weight) → List Text × List (Text × Weight)
  | keywords, [] => (keywords, [])
  | keywords, (tk, w) :: twts =>
    let keywords := q.termKeywords keywords tk
    if 32 ≤ keywords.length then (keywords, [])
    else
      let (keywords, tms) := addTerms keywords twts
      (keywords, if strip (q.termText tk) = [] then tms else (q.termText tk, w) :: tms)

def sortTerms (twts : List (Text × Weight)) : List (Text × Weight) :=
  twts.insertionSort fun a b => b.2.value ≤ a.2.value

/-- The keywords before the terms of a part. -/
def partKeywords (keywords : List Text) (tt : Text) : List Text :=
  let keywords := keywords ++ [tt]
  if q.lookup tt ≠ [] ∧ keywords.length < 32 then keywords ++ q.lookup tt else keywords

/-- The query of one part, after the keywords so far. -/
def addPart (keywords : List Text) (tt : Text) : List Text × Text :=
  let twts := q.tw.weights tt
  let (keywords, tms) := q.addTerms (q.partKeywords keywords tt) (sortTerms twts)
  let text := joinBlank (tms.map fun (t, w) => boosted (paren t) w.str)
  let text :=
    if 1 < twts.length then
      text ++ ' ' :: boosted (paren (quote (q.tw.tokenize tt) ++ "~2".toList)) "1.5".toList
    else text
  let syns := joinOr ((q.lookup tt).map fun s => quote (q.tw.tokenize (subSpecialChar s)))
  (keywords,
    if syns ≠ [] ∧ text ≠ [] then
      boosted (paren text) ['5'] ++ " OR ".toList ++ boosted (paren syns) "0.7".toList
    else text)

/-- The loop over the parts. -/
def addParts : List Text → List Text → List Text × List Text
  | keywords, [] => (keywords, [])
  | keywords, tt :: tts =>
    let (keywords, text) := q.addPart keywords tt
    let (keywords, qs) := addParts keywords tts
    (keywords, text :: qs)

/-- The query, if there is one, and the keywords of another question; `otxt` is there for a query
with nothing in it. -/
def other (otxt txt : Text) : Option Text × List Text :=
  let parts := ((q.tw.split (rmWWW txt)).take 256).filter (· ≠ [])
  let (keywords, qs) := q.addParts [] parts
  if qs = [] then (none, keywords)
  else
    let query := joinOr ((qs.filter (· ≠ [])).map paren)
    (some (if query = [] then otxt else query), keywords)

/-- `FulltextQueryer.question`. -/
def question (txt : Text) (minMatch : ℚ) : Option MatchTextExpr × List Text :=
  let otxt := q.cleaned txt
  let text := rmWWW otxt
  if isChinese text then
    let (query, keywords) := q.other otxt text
    (query.map fun query => ⟨queryFields, query, 100, some minMatch, txt⟩, keywords)
  else
    let (query, keywords) := q.english text
    (some ⟨queryFields, query, 100, none, txt⟩, keywords)

end Queryer

end RagFlow.Query
