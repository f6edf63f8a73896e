/-
# The pages of a retrieval

`Dealer.retrieval` asks the store for one window of its ranked candidates,
reorders that window by similarity and returns a slice of it. The width of the
windows is computed from the page size, and it stays a multiple of the page size
until a rerank model caps it at `top` and 64. This file models the whole function
and states when paging through it returns every candidate once.
-/

import RagFlow.Math.Window
import Mathlib.Algebra.Order.Ring.Rat
import Mathlib.Tactic.NormNum

namespace RagFlow.Retrieval

open RagFlow.Math

/-! ## Records -/

/-- What the store keeps of a chunk, as far as a retrieval reads it. -/
structure Chunk (σ : Type) where
  contentLtks : String := ""
  contentWithWeight : String := ""
  kbId : String := ""
  docnmKwd : Option String := none
  docId : Option String := none
  importantKwd : Option (List String) := none
  tagKwd : Option (List String) := none
  imgId : Option String := none
  docTypeKwd : Option String := none
  momId : Option String := none
  /-- The normalised `_score` that Infinity returns. -/
  score : Option σ := none

/-- One entry of the answer. -/
structure RankedChunk (σ : Type) where
  chunkId : String
  contentLtks : String
  contentWithWeight : String
  docId : String
  docnmKwd : String
  kbId : String
  importantKwd : List String
  tagKwd : List String
  imageId : String
  similarity : σ
  vectorSimilarity : σ
  termSimilarity : σ
  docTypeKwd : String
  momId : String

structure DocAgg where
  docName : String
  docId : String
  count : ℕ

structure Ranks (σ : Type) where
  total : ℕ := 0
  chunks : List (RankedChunk σ) := []
  docAggs : List DocAgg := []

/-- The result of one search: the number of all hits, and the identifiers and the
fields of those in the window. -/
structure SearchResult (σ : Type) where
  total : ℕ
  ids : List String
  field : String → Chunk σ

/-- The three similarities of one chunk to the question. -/
structure Similarity (σ : Type) where
  sim : σ
  tsim : σ
  vsim : σ

/-- The arguments of a retrieval, apart from the page. -/
structure Query (σ : Type) where
  question : String
  pageSize : ℕ
  similarityThreshold : σ
  vectorSimilarityWeight : σ
  top : ℕ := 1024
  docIds : List String := []
  aggs : Bool := true
  /-- Whether an external rerank model is given. -/
  rerankMdl : Bool := false

/-- A store that answers the question with a fixed ranked list, and the scoring the
retrieval relies on: each scorer returns one entry for every chunk of the window,
and sorting by descending similarity returns every position once. -/
structure Dealer (σ : Type) where
  ranked : List String
  field : String → Chunk σ
  docEngineInfinity : Bool
  rerank : SearchResult σ → List (Similarity σ)
  rerankByModel : SearchResult σ → List (Similarity σ)
  argsort : List σ → List ℕ
  length_rerank : ∀ s, (rerank s).length = s.ids.length
  length_rerankByModel : ∀ s, (rerankByModel s).length = s.ids.length
  argsort_perm : ∀ s, (argsort s).Perm (List.range s.length)

/-! ## The window of a page -/

/-- `RERANK_LIMIT`. The quotient is rounded up before the multiplication. -/
def rerankLimit (pageSize top : ℕ) (rerankMdl : Bool) : ℕ :=
  let limit := if 1 < pageSize then (64 + pageSize - 1) / pageSize * pageSize else 1
  let limit := max 30 limit
  if rerankMdl ∧ 0 < top then min (min limit top) 64 else limit

section Limit

variable {pageSize top : ℕ}

/-- Rounded up to whole pages, 64 stays at least 64. -/
theorem le_roundUp (hsize : 0 < pageSize) :
    64 ≤ (64 + pageSize - 1) / pageSize * pageSize := by
  have hlt := Nat.lt_div_mul_add (a := 64 + pageSize - 1) hsize
  omega

theorem rerankLimit_of_one_lt (hsize : 1 < pageSize) :
    rerankLimit pageSize top false = (64 + pageSize - 1) / pageSize * pageSize := by
  have hround := le_roundUp (Nat.zero_lt_of_lt hsize)
  simp only [rerankLimit, if_pos hsize, Bool.false_eq_true, false_and, if_false]
  omega

/-- Without a rerank model the windows are whole pages. -/
theorem dvd_rerankLimit (hsize : 0 < pageSize) :
    pageSize ∣ rerankLimit pageSize top false := by
  rcases Nat.eq_or_lt_of_le hsize with rfl | hmore
  · exact Nat.one_dvd _
  · rw [rerankLimit_of_one_lt hmore]
    exact Nat.dvd_mul_left _ _

/-- With a rerank model the rounding has no effect on pages of two chunks and more. -/
theorem rerankLimit_capped (hsize : 1 < pageSize) (htop : 0 < top) :
    rerankLimit pageSize top true = min top 64 := by
  have hround := le_roundUp (Nat.zero_lt_of_lt hsize)
  simp only [rerankLimit, if_pos hsize, htop, and_self, if_true]
  omega

theorem rerankLimit_pos (pageSize top : ℕ) (rerankMdl : Bool) :
    0 < rerankLimit pageSize top rerankMdl := by
  simp only [rerankLimit]
  split_ifs <;> omega

/-- When no page straddles two windows that both have candidates. -/
theorem dvd_or_le_rerankLimit_iff (hsize : 0 < pageSize) (htop : 0 < top)
    (rerankMdl : Bool) (n : ℕ) :
    pageSize ∣ rerankLimit pageSize top rerankMdl ∨ n ≤ rerankLimit pageSize top rerankMdl ↔
      rerankMdl = false ∨ pageSize ∣ min top 64 ∨ n ≤ min top 64 := by
  cases rerankMdl with
  | false => simp [dvd_rerankLimit hsize]
  | true =>
      rcases Nat.eq_or_lt_of_le hsize with rfl | hmore
      · simp
      · simp [rerankLimit_capped hmore htop]

end Limit

/-! ## The retrieval -/

variable {σ : Type}

/-- `Dealer.search`, as far as the window is concerned: pages count from one. -/
def Dealer.search (d : Dealer σ) (page size : ℕ) : SearchResult σ :=
  let pg := page - 1
  { total := d.ranked.length, ids := (d.ranked.drop (pg * size)).take size, field := d.field }

/-- The similarities of the chunks of a search result. Infinity has scored them already. -/
def Dealer.similarities [Zero σ] (d : Dealer σ) (q : Query σ) (sres : SearchResult σ) :
    List (Similarity σ) :=
  if q.rerankMdl ∧ 0 < sres.total then d.rerankByModel sres
  else if d.docEngineInfinity then
    sres.ids.map fun id =>
      let s := (sres.field id).score.getD 0
      { sim := s, tsim := s, vsim := s }
  else d.rerank sres

variable [Zero σ] [LE σ] [DecidableLE σ]

/-- The threshold means nothing for term-only scores and is not applied to documents
that were asked for. -/
def Query.postThreshold (q : Query σ) : σ :=
  let threshold := if q.vectorSimilarityWeight ≤ 0 then 0 else q.similarityThreshold
  if q.docIds ≠ [] then 0 else threshold

/-- The positions of the window in the order of their similarity, without those
below the threshold. -/
def Dealer.validIdx (d : Dealer σ) (q : Query σ) (sims : List (Similarity σ)) : List ℕ :=
  (d.argsort (sims.map Similarity.sim)).filter fun i =>
    (sims[i]?).any fun s => q.postThreshold ≤ s.sim

/-- The entry of the answer for one position of the window. -/
def rankedChunk (sres : SearchResult σ) (sims : List (Similarity σ)) (i : ℕ) :
    Option (RankedChunk σ) := do
  let id ← sres.ids[i]?
  let s ← sims[i]?
  let chunk := sres.field id
  return {
    chunkId := id
    contentLtks := chunk.contentLtks
    contentWithWeight := chunk.contentWithWeight
    docId := chunk.docId.getD ""
    docnmKwd := chunk.docnmKwd.getD ""
    kbId := chunk.kbId
    importantKwd := chunk.importantKwd.getD []
    tagKwd := chunk.tagKwd.getD []
    imageId := chunk.imgId.getD ""
    similarity := s.sim
    vectorSimilarity := s.vsim
    termSimilarity := s.tsim
    docTypeKwd := chunk.docTypeKwd.getD ""
    momId := chunk.momId.getD "" }

/-- Count one more chunk of a document; a document keeps the place and the identifier
it was first met with. -/
def countDoc (aggs : List DocAgg) (chunk : Chunk σ) : List DocAgg :=
  let dnm := chunk.docnmKwd.getD ""
  if aggs.any fun a => a.docName == dnm then
    aggs.map fun a => if a.docName == dnm then { a with count := a.count + 1 } else a
  else aggs ++ [{ docName := dnm, docId := chunk.docId.getD "", count := 1 }]

/-- The documents of all valid chunks, most frequent first. -/
def docAggs (sres : SearchResult σ) (validIdx : List ℕ) : List DocAgg :=
  let chunks := validIdx.filterMap fun i => (sres.ids[i]?).map sres.field
  (chunks.foldl countDoc []).mergeSort fun a b => b.count ≤ a.count

/-- The page of `retrieval` that starts at a global offset. -/
def Dealer.pageAt (d : Dealer σ) (q : Query σ) (globalOffset : ℕ) : Ranks σ :=
  let limit := rerankLimit q.pageSize q.top q.rerankMdl
  let sres := d.search (globalOffset / limit + 1) limit
  let sims := d.similarities q sres
  if sims.length = 0 then {}
  else
    let validIdx := d.validIdx q sims
    if validIdx.length = 0 then {}
    else
      let start := globalOffset % limit
      let pageIdx := (validIdx.drop start).take q.pageSize
      { total := validIdx.length
        chunks := pageIdx.filterMap (rankedChunk sres sims)
        docAggs := if q.aggs then docAggs sres validIdx else [] }

/-- `Dealer.retrieval`. -/
def Dealer.retrieval (d : Dealer σ) (q : Query σ) (page : ℕ) : Ranks σ :=
  if q.question = "" then {} else d.pageAt q ((max page 1 - 1) * q.pageSize)

/-- The identifiers that the first `pages` pages return, one behind the other. -/
def Dealer.listing (d : Dealer σ) (q : Query σ) (pages : ℕ) : List String :=
  (List.range pages).flatMap fun k => (d.retrieval q (k + 1)).chunks.map RankedChunk.chunkId

/-- The threshold lets every candidate of every window pass. -/
def Dealer.FiltersNothing (d : Dealer σ) (q : Query σ) : Prop :=
  ∀ page, ∀ s ∈ d.similarities q (d.search page (rerankLimit q.pageSize q.top q.rerankMdl)),
    q.postThreshold ≤ s.sim

/-! ## A page is read out of a rearranged window -/

section Pages

variable {d : Dealer σ} {q : Query σ}

omit [LE σ] [DecidableLE σ] in
theorem length_similarities (d : Dealer σ) (q : Query σ) (sres : SearchResult σ) :
    (d.similarities q sres).length = sres.ids.length := by
  unfold Dealer.similarities
  split_ifs
  · exact d.length_rerankByModel sres
  · exact List.length_map _
  · exact d.length_rerank sres

omit [Zero σ] [LE σ] [DecidableLE σ] in
theorem mem_argsort {d : Dealer σ} {s : List σ} {i : ℕ} (h : i ∈ d.argsort s) :
    i < s.length :=
  List.mem_range.mp ((d.argsort_perm s).mem_iff.mp h)

/-- The window in the order of its similarities. -/
def Dealer.arrange (d : Dealer σ) (q : Query σ) (ids : List String) : List String :=
  let sres : SearchResult σ := { total := d.ranked.length, ids := ids, field := d.field }
  (d.argsort ((d.similarities q sres).map Similarity.sim)).map fun i => ids.getD i ""

theorem map_getD_range (l : List String) :
    (List.range l.length).map (fun i => l.getD i "") = l := by
  apply List.ext_getElem
  · simp
  · intro i hi hl
    simp [List.getD, hl]

omit [LE σ] [DecidableLE σ] in
theorem arrange_perm (d : Dealer σ) (q : Query σ) (ids : List String) :
    (d.arrange q ids).Perm ids := by
  have hperm := d.argsort_perm ((d.similarities q ⟨d.ranked.length, ids, d.field⟩).map
    Similarity.sim)
  rw [List.length_map, length_similarities] at hperm
  exact (hperm.map fun i => ids.getD i "").trans (List.Perm.of_eq (map_getD_range ids))

/-- Where the threshold filters nothing, every position of a window is valid. -/
theorem validIdx_eq {sims : List (Similarity σ)} (hall : ∀ s ∈ sims, q.postThreshold ≤ s.sim) :
    d.validIdx q sims = d.argsort (sims.map Similarity.sim) := by
  apply List.filter_eq_self.mpr
  intro i hi
  have hlt : i < sims.length := by simpa using mem_argsort hi
  simpa [List.getElem?_eq_getElem hlt] using hall _ (List.getElem_mem hlt)

omit [Zero σ] [LE σ] [DecidableLE σ] in
/-- The identifiers of the entries built for positions inside the window. -/
theorem map_chunkId_filterMap {sres : SearchResult σ} {sims : List (Similarity σ)}
    (hlen : sims.length = sres.ids.length) {idx : List ℕ} (hin : ∀ i ∈ idx, i < sims.length) :
    (idx.filterMap (rankedChunk sres sims)).map RankedChunk.chunkId
      = idx.map fun i => sres.ids.getD i "" := by
  rw [List.map_filterMap, ← List.filterMap_eq_map]
  apply List.filterMap_congr
  intro i hi
  have hsim : i < sims.length := hin i hi
  have hid : i < sres.ids.length := hlen ▸ hsim
  simp [rankedChunk, List.getElem?_eq_getElem hsim, List.getElem?_eq_getElem hid]

/-- A page returns its slice of the rearranged window. -/
theorem chunkIds_pageAt (hall : d.FiltersNothing q) (k : ℕ) :
    (d.pageAt q (k * q.pageSize)).chunks.map RankedChunk.chunkId
      = windowPage (d.arrange q) (rerankLimit q.pageSize q.top q.rerankMdl) q.pageSize
          d.ranked k := by
  set limit := rerankLimit q.pageSize q.top q.rerankMdl with hlimit
  set sres := d.search (k * q.pageSize / limit + 1) limit with hsres
  set sims := d.similarities q sres with hsims
  set idx := d.argsort (sims.map Similarity.sim) with hidx
  have hvalid : d.validIdx q sims = idx := validIdx_eq (hall _)
  have hlen : idx.length = sims.length := by
    simpa using (d.argsort_perm (sims.map Similarity.sim)).length_eq
  have hpage : windowPage (d.arrange q) limit q.pageSize d.ranked k
      = ((idx.drop (k * q.pageSize % limit)).take q.pageSize).map
          fun i => sres.ids.getD i "" := by
    rw [List.map_take, List.map_drop]
    rfl
  rw [hpage]
  by_cases hempty : sims.length = 0
  · have hnil : idx = [] := List.eq_nil_of_length_eq_zero (hlen.trans hempty)
    simp [Dealer.pageAt, ← hlimit, ← hsres, ← hsims, hempty, hnil]
  · have hsome : ¬ idx.length = 0 := fun h => hempty (hlen.symm.trans h)
    simp only [Dealer.pageAt, ← hlimit, ← hsres, ← hsims, hvalid, if_neg hempty, if_neg hsome]
    apply map_chunkId_filterMap (length_similarities d q sres)
    intro i hi
    simpa using mem_argsort (List.mem_of_mem_drop (List.mem_of_mem_take hi))

theorem chunkIds_retrieval (hq : q.question ≠ "") (hall : d.FiltersNothing q) (k : ℕ) :
    (d.retrieval q (k + 1)).chunks.map RankedChunk.chunkId
      = windowPage (d.arrange q) (rerankLimit q.pageSize q.top q.rerankMdl) q.pageSize
          d.ranked k := by
  have hpage : max (k + 1) 1 - 1 = k := by omega
  rw [Dealer.retrieval, if_neg hq, hpage, chunkIds_pageAt hall]

theorem listing_eq_flatMap (hq : q.question ≠ "") (hall : d.FiltersNothing q) (pages : ℕ) :
    d.listing q pages = (List.range pages).flatMap
      (windowPage (d.arrange q) (rerankLimit q.pageSize q.top q.rerankMdl) q.pageSize
        d.ranked) := by
  rw [Dealer.listing, funext (chunkIds_retrieval hq hall)]

theorem listing_of_no_question (hq : q.question = "") (pages : ℕ) : d.listing q pages = [] := by
  simp [Dealer.listing, Dealer.retrieval, hq]

/-- For a question that is asked, the pages are complete as long as none straddles two
windows. -/
theorem listing_perm_iff_of_question (hq : q.question ≠ "") (hsize : 0 < q.pageSize)
    (htop : 0 < q.top) (hall : d.FiltersNothing q) :
    (∃ P₀, ∀ P, P₀ ≤ P → (d.listing q P).Perm d.ranked) ↔
      q.rerankMdl = false ∨ q.pageSize ∣ min q.top 64 ∨ d.ranked.length ≤ min q.top 64 := by
  simp only [listing_eq_flatMap hq hall]
  rw [windowPages_perm_iff (arrange_perm d q) (rerankLimit_pos _ _ _) hsize,
    dvd_or_le_rerankLimit_iff hsize htop]

/-- Paging returns every candidate once exactly when there is none, or the question is
asked and one of three things holds: no rerank model caps the windows, the cap is a
whole number of pages, or all candidates fit into the first window. -/
theorem listing_perm_iff (hsize : 0 < q.pageSize) (htop : 0 < q.top)
    (hall : d.FiltersNothing q) :
    (∃ P₀, ∀ P, P₀ ≤ P → (d.listing q P).Perm d.ranked) ↔
      d.ranked = [] ∨ q.question ≠ "" ∧
        (q.rerankMdl = false ∨ q.pageSize ∣ min q.top 64 ∨
          d.ranked.length ≤ min q.top 64) := by
  by_cases hq : q.question = ""
  · simp only [listing_of_no_question hq, hq, ne_eq, not_true_eq_false, false_and, or_false]
    constructor
    · rintro ⟨P₀, hP₀⟩
      exact (hP₀ P₀ le_rfl).nil_eq.symm
    · intro hnone
      exact ⟨0, fun _ _ => hnone ▸ List.Perm.refl _⟩
  · rw [listing_perm_iff_of_question hq hsize htop hall]
    constructor
    · exact fun h => Or.inr ⟨hq, h⟩
    · rintro (hnone | ⟨_, h⟩)
      · exact Or.inr (Or.inr (by simp [hnone]))
      · exact h

end Pages

/-! ## A store whose candidates all score the same -/

/-- Positions by descending score, the first of equal ones first. -/
def byScore (s : List ℚ) : List ℕ :=
  (List.range s.length).mergeSort fun i j => s.getD j 0 ≤ s.getD i 0

/-- `n` candidates `c0`, `c1`, ... with similarity one. -/
def evenDealer (n : ℕ) : Dealer ℚ where
  ranked := (List.range n).map fun i => "c" ++ toString i
  field := fun _ => {}
  docEngineInfinity := false
  rerank := fun s => s.ids.map fun _ => ⟨1, 1, 1⟩
  rerankByModel := fun s => s.ids.map fun _ => ⟨1, 1, 1⟩
  argsort := byScore
  length_rerank := fun _ => List.length_map _
  length_rerankByModel := fun _ => List.length_map _
  argsort_perm := fun _ => List.mergeSort_perm _ _

/-- Pages of ten under the default thresholds. -/
def tenPerPage (rerankMdl : Bool) : Query ℚ :=
  { question := "q", pageSize := 10, similarityThreshold := 1 / 5,
    vectorSimilarityWeight := 3 / 10, rerankMdl := rerankMdl }

theorem evenDealer_filtersNothing (n : ℕ) (rerankMdl : Bool) :
    (evenDealer n).FiltersNothing (tenPerPage rerankMdl) := by
  intro page s hs
  have hone : s = ⟨1, 1, 1⟩ := by
    simp only [Dealer.similarities, evenDealer, Bool.false_eq_true, if_false] at hs
    split_ifs at hs <;> simpa using (List.mem_map.mp hs).choose_spec.2.symm
  rw [hone]
  norm_num [Query.postThreshold, tenPerPage]

theorem listing_perm_even :
    ∃ P₀, ∀ P, P₀ ≤ P →
      ((evenDealer 65).listing (tenPerPage false) P).Perm (evenDealer 65).ranked :=
  (listing_perm_iff (by decide) (by decide) (evenDealer_filtersNothing 65 false)).mpr
    (Or.inr ⟨by decide, Or.inl rfl⟩)

/-- With a rerank model the seventh page of ten ends with the first window of 64, and
the eighth begins at position 6 of the second. -/
theorem straddling_page_loses_candidates :
    0 < (tenPerPage true).pageSize ∧ 0 < (tenPerPage true).top ∧
      (evenDealer 65).FiltersNothing (tenPerPage true) ∧
      ¬ ∃ P₀, ∀ P, P₀ ≤ P →
        ((evenDealer 65).listing (tenPerPage true) P).Perm (evenDealer 65).ranked := by
  refine ⟨by decide, by decide, evenDealer_filtersNothing 65 true, ?_⟩
  rw [listing_perm_iff_of_question (by decide) (by decide) (by decide)
    (evenDealer_filtersNothing 65 true)]
  simp [tenPerPage, evenDealer]

/-! ## The Go port

`RetrievalService.Retrieval` computes the window by comparisons and cuts the page off
at the end of the valid positions itself. -/

/-- `rerankLimit` of the Go service. -/
def goRerankLimit (pageSize top : ℕ) (rerankModel : Bool) : ℕ :=
  let limit := if 1 < pageSize then (64 + pageSize - 1) / pageSize * pageSize else 1
  let limit := if limit < 30 then 30 else limit
  if rerankModel ∧ 0 < top then
    let limit := if top < limit then top else limit
    if 64 < limit then 64 else limit
  else limit

/-- `pageIdx` of the Go service. -/
def goPageIdx (validIdx : List ℕ) (start pageSize : ℕ) : List ℕ :=
  if start < validIdx.length then
    let stop := if validIdx.length < start + pageSize then validIdx.length
      else start + pageSize
    (validIdx.drop start).take (stop - start)
  else []

/-- Both services search the same window for a page. -/
theorem goRerankLimit_eq (pageSize top : ℕ) (rerankModel : Bool) :
    goRerankLimit pageSize top rerankModel = rerankLimit pageSize top rerankModel := by
  simp only [goRerankLimit, rerankLimit]
  split_ifs <;> omega

/-- Both services cut the same page out of it. -/
theorem goPageIdx_eq (validIdx : List ℕ) (start pageSize : ℕ) :
    goPageIdx validIdx start pageSize = (validIdx.drop start).take pageSize := by
  simp only [goPageIdx]
  split_ifs with hin hlast
  · rw [List.take_of_length_le, List.take_of_length_le]
    · rw [List.length_drop]
      omega
    · rw [List.length_drop]
  · rw [Nat.add_sub_cancel_left]
  · rw [List.drop_eq_nil_of_le (Nat.le_of_not_lt hin), List.take_nil]

end RagFlow.Retrieval
