/-
# Deep paging

Elasticsearch serves the first ten thousand hits by their ranks. A page that reaches further
is put together from batches, each of which starts after the sort values of the last hit
before it. One loop skips the hits in front of the page, another one takes those on it; the
first answer is kept for its total and its aggregations. `chunk_list` asks for page after page
until one is not full.
-/

import RagFlow.Math.Assoc
import RagFlow.Math.Sorted
import Mathlib.Order.Lattice
import Mathlib.Data.Int.Init

namespace RagFlow.Elastic

open RagFlow.Math

universe u

def maxResultWindow : ℕ := 10000

def searchAfterBatchSize : ℕ := 1000

/-- The `order` of a sort field. -/
inductive Direction
  | asc
  | desc
  deriving DecidableEq

/-- The values that a hit is sorted by, one a field; a missing one is `none`. -/
abbrev SortValues (V : Type u) := List (Option V)

/-- A hit, with its `sort` if it has one. -/
structure Hit (D V : Type u) where
  doc : D
  sort : Option (SortValues V)

/-- A query without `from` and `size`: all that is left alone, and the aggregations. -/
structure SearchBody (B G : Type u) where
  body : B
  aggs : Option G

structure Request (B G V : Type u) extends SearchBody B G where
  start : ℕ
  size : ℕ
  searchAfter : Option (SortValues V)

structure Response (D V A : Type u) where
  hits : List (Hit D V)
  total : ℕ
  aggregations : A

variable {B G D A V : Type u} [LinearOrder V]

/-- The variables of `_search_with_search_after`. -/
structure Paging (D V A : Type u) where
  searchAfter : Option (SortValues V)
  templateRes : Option (Response D V A)
  collectedHits : List (Hit D V)
  remainingSkip : ℕ
  remainingTake : ℕ
  withAggs : Bool

/-- `_es_search_once`, by whether the hits are to be counted. -/
abbrev SearchOnce (B G D V A : Type u) := Request B G V → Bool → Response D V A

namespace Paging

variable (esSearchOnce : SearchOnce B G D V A) (query : SearchBody B G)

/-- `q_iter` -/
def request (st : Paging D V A) (batch : ℕ) : Request B G V where
  body := query.body
  aggs := if st.withAggs then query.aggs else none
  start := 0
  size := batch
  searchAfter := st.searchAfter

/-- The answer to the next batch, which counts the hits if it is the first one. -/
def ask (st : Paging D V A) (batch : ℕ) : Response D V A :=
  esSearchOnce (st.request query batch) st.templateRes.isNone

/-- The sort values of the last hit, if they lead on. -/
def nextSearchAfter (st : Paging D V A) (hits : List (Hit D V)) : Option (SortValues V) :=
  match hits.getLast? with
  | none => none
  | some last =>
      match last.sort with
      | none => none
      | some next => if next = [] ∨ some next = st.searchAfter then none else some next

/-- The loop that skips: every turn that is not the last one takes hits off what remains. -/
def skipLoop : ℕ → Paging D V A → Paging D V A
  | 0, st => st
  | fuel + 1, st =>
      if st.remainingSkip = 0 then st
      else
        let batch := min searchAfterBatchSize st.remainingSkip
        let res := st.ask esSearchOnce query batch
        let asked := { st with templateRes := st.templateRes.or (some res) }
        match st.nextSearchAfter res.hits with
        | none => asked
        | some next =>
            let moved := { asked with
              searchAfter := some next
              remainingSkip := st.remainingSkip - res.hits.length
              withAggs := false }
            if res.hits.length < batch then moved else skipLoop fuel moved

/-- The loop that takes; it is not entered if hits remain to be skipped. -/
def takeLoop : ℕ → Paging D V A → Paging D V A
  | 0, st => st
  | fuel + 1, st =>
      if st.remainingSkip = 0 ∧ 0 < st.remainingTake then
        let batch := min searchAfterBatchSize st.remainingTake
        let res := st.ask esSearchOnce query batch
        let asked := { st with templateRes := st.templateRes.or (some res) }
        if res.hits.isEmpty then asked
        else
          let taken := { asked with
            collectedHits := st.collectedHits ++ res.hits
            remainingTake := st.remainingTake - res.hits.length }
          match st.nextSearchAfter res.hits with
          | none => taken
          | some next =>
              let moved := { taken with searchAfter := some next, withAggs := false }
              if res.hits.length < batch then moved else takeLoop fuel moved
      else st

/-- Before the loops. -/
def start (offset limit : ℤ) : Paging D V A where
  searchAfter := none
  templateRes := none
  collectedHits := []
  remainingSkip := (max 0 offset).toNat
  remainingTake := (max 0 limit).toNat
  withAggs := true

end Paging

/-- `_search_with_search_after` -/
def searchWithSearchAfter (esSearchOnce : SearchOnce B G D V A) (query : SearchBody B G)
    (offset limit : ℤ) : Response D V A :=
  let st : Paging D V A := .start offset limit
  let st := st.skipLoop esSearchOnce query st.remainingSkip
  let st := st.takeLoop esSearchOnce query st.remainingTake
  let templateRes := st.templateRes.getD
    (esSearchOnce { query with start := 0, size := 0, searchAfter := none } true)
  { templateRes with hits := st.collectedHits }

/-- `use_search_after` -/
def useSearchAfter (offset limit : ℤ) (hasExplicitSort hasDense : Bool) : Bool :=
  0 < limit && maxResultWindow < offset + limit && hasExplicitSort && !hasDense

/-- The part of `search` that asks for a page; a page has ten hits where nothing is said. -/
def searchPage (esSearchOnce : SearchOnce B G D V A) (query : SearchBody B G)
    (offset limit : ℤ) (hasExplicitSort hasDense : Bool) : Response D V A :=
  if useSearchAfter offset limit hasExplicitSort hasDense then
    searchWithSearchAfter esSearchOnce query offset limit
  else if 0 < limit then
    esSearchOnce { query with start := offset.toNat, size := limit.toNat, searchAfter := none } true
  else
    esSearchOnce { query with start := 0, size := 10, searchAfter := none } true

/-! ### The order of the hits -/

/-- The order of one field; hits without a value come last in either direction. -/
def fieldBefore : Direction → Option V → Option V → Bool
  | .asc, some a, some b => a < b
  | .desc, some a, some b => b < a
  | _, some _, none => true
  | _, none, _ => false

/-- The order of the requested sort: the first field in which two hits differ decides. -/
def sortBefore : List Direction → SortValues V → SortValues V → Bool
  | d :: ds, a :: as, b :: bs => fieldBefore d a b || (a = b && sortBefore ds as bs)
  | _, _, _ => false

theorem fieldBefore_asymm (d : Direction) (a b : Option V) (h : fieldBefore d a b) :
    ¬ fieldBefore d b a := by
  cases d <;> cases a <;> cases b <;> simp [fieldBefore] at h ⊢ <;> exact h.le

theorem fieldBefore_self (d : Direction) (a : Option V) : ¬ fieldBefore d a a :=
  fun h => fieldBefore_asymm d a a h h

theorem sortBefore_asymm (ds : List Direction) (as bs : SortValues V) (h : sortBefore ds as bs) :
    ¬ sortBefore ds bs as := by
  induction ds generalizing as bs with
  | nil => simp [sortBefore] at h
  | cons d ds ih =>
      cases as with
      | nil => simp [sortBefore] at h
      | cons a as =>
          cases bs with
          | nil => simp [sortBefore] at h
          | cons b bs =>
              simp only [sortBefore, Bool.or_eq_true, Bool.and_eq_true, decide_eq_true_eq] at h ⊢
              rintro (hfield | ⟨rfl, hrest⟩)
              · rcases h with hfield' | ⟨rfl, -⟩
                · exact fieldBefore_asymm d a b hfield' hfield
                · exact fieldBefore_self d a hfield
              · rcases h with hfield' | ⟨-, hrest'⟩
                · exact fieldBefore_self d b hfield'
                · exact ih as bs hrest' hrest

/-! ### What the service answers -/

/-- A document as a hit, with its sort values. -/
def toHit (key : D → SortValues V) (d : D) : Hit D V := { doc := d, sort := some (key d) }

/-- What the service says of a query with an explicit sort: `ranked` are the documents that it
finds, in the order of the sort. Requests within the result window are answered by the
documents after the cursor; the total and the aggregations are asked for without a cursor. -/
structure Answers (esSearchOnce : SearchOnce B G D V A) (query : SearchBody B G)
    (sort : List Direction) (key : D → SortValues V) (ranked : List D) (aggregations : A) :
    Prop where
  sort_ne_nil : sort ≠ []
  length_key : ∀ d ∈ ranked, (key d).length = sort.length
  sorted : ranked.Pairwise fun a b => sortBefore sort (key a) (key b)
  hits : ∀ aggs cursor size track, size ≤ maxResultWindow →
    (esSearchOnce { query with aggs, start := 0, size, searchAfter := cursor } track).hits =
      ((afterCursor key (sortBefore sort) cursor ranked).take size).map (toHit key)
  total : ∀ size, size ≤ maxResultWindow →
    (esSearchOnce { query with start := 0, size, searchAfter := none } true).total = ranked.length
  aggregations : ∀ size track, size ≤ maxResultWindow →
    (esSearchOnce { query with start := 0, size, searchAfter := none } track).aggregations =
      aggregations

namespace Paging

variable {esSearchOnce : SearchOnce B G D V A} {query : SearchBody B G} {sort : List Direction}
  {key : D → SortValues V} {ranked : List D} {aggregations : A} {st : Paging D V A} {k batch : ℕ}

/-- The next batch starts behind the first `k` documents, and the answer that is kept is one
to the whole query. -/
structure At (key : D → SortValues V) (ranked : List D) (aggregations : A) (k : ℕ)
    (st : Paging D V A) : Prop where
  le : k ≤ ranked.length
  searchAfter : st.searchAfter = cursorAt key ranked k
  template : ∀ res ∈ st.templateRes, res.total = ranked.length ∧ res.aggregations = aggregations
  fresh : st.templateRes = none → k = 0 ∧ st.withAggs = true

omit [LinearOrder V] in
theorem at_start (offset limit : ℤ) :
    At key ranked aggregations 0 (start offset limit : Paging D V A) where
  le := Nat.zero_le _
  searchAfter := rfl
  template := by simp [start]
  fresh := fun _ => ⟨rfl, rfl⟩

theorem At.hits_ask (h : At key ranked aggregations k st)
    (hes : Answers esSearchOnce query sort key ranked aggregations)
    (hbatch : batch ≤ maxResultWindow) :
    (st.ask esSearchOnce query batch).hits = ((ranked.drop k).take batch).map (toHit key) := by
  rw [ask, request, hes.hits _ _ _ _ hbatch, h.searchAfter,
    afterCursor_cursorAt (sortBefore_asymm sort) hes.sorted]

/-- Once an answer is there, it is kept; the first one is to the whole query. -/
theorem At.asked (h : At key ranked aggregations k st)
    (hes : Answers esSearchOnce query sort key ranked aggregations)
    (hbatch : batch ≤ maxResultWindow) :
    ∀ res ∈ st.templateRes.or (some (st.ask esSearchOnce query batch)),
      res.total = ranked.length ∧ res.aggregations = aggregations := by
  intro res hres
  cases htemplate : st.templateRes with
  | some first =>
      rw [htemplate] at hres
      exact h.template res (by rw [htemplate]; exact hres)
  | none =>
      obtain ⟨rfl, haggs⟩ := h.fresh htemplate
      rw [htemplate] at hres
      obtain rfl : st.ask esSearchOnce query batch = res := by simpa using hres
      have hask : st.ask esSearchOnce query batch =
          esSearchOnce { query with start := 0, size := batch, searchAfter := none } true := by
        simp [ask, request, haggs, htemplate, h.searchAfter]
      rw [hask]
      exact ⟨hes.total batch hbatch, hes.aggregations batch true hbatch⟩

/-- A batch leads on exactly if there are hits. -/
theorem At.nextSearchAfter_hits (h : At key ranked aggregations k st)
    (hes : Answers esSearchOnce query sort key ranked aggregations) (n : ℕ) :
    st.nextSearchAfter (((ranked.drop k).take n).map (toHit key)) =
      ((ranked.drop k).take n).getLast?.map key := by
  rw [nextSearchAfter, List.getLast?_map]
  cases hlast : ((ranked.drop k).take n).getLast? with
  | none => rfl
  | some d =>
      have hmem : d ∈ ranked :=
        List.mem_of_mem_drop (List.mem_of_mem_take (List.mem_of_getLast? hlast))
      have hne : key d ≠ [] := by
        intro hnil
        have hlen := hes.length_key d hmem
        rw [hnil] at hlen
        exact hes.sort_ne_nil (List.eq_nil_of_length_eq_zero hlen.symm)
      have hmoves : some (key d) ≠ st.searchAfter := by
        rw [h.searchAfter]
        exact (cursorAt_ne (sortBefore_asymm sort) hes.sorted hlast).symm
      simp [toHit, hne, hmoves]

omit [LinearOrder V] in
/-- After a batch that is not empty. -/
theorem At.move (h : At key ranked aggregations k st) {n : ℕ} {next : SortValues V}
    {t : Paging D V A} (hnext : ((ranked.drop k).take n).getLast?.map key = some next)
    (hsearchAfter : t.searchAfter = some next)
    (htemplate : ∀ res ∈ t.templateRes, res.total = ranked.length ∧
      res.aggregations = aggregations)
    (hsome : t.templateRes ≠ none) :
    At key ranked aggregations (k + ((ranked.drop k).take n).length) t where
  le := by
    have hle := h.le
    rw [List.length_take, List.length_drop]
    omega
  searchAfter := by
    obtain ⟨d, hlast, rfl⟩ := Option.map_eq_some_iff.mp hnext
    rw [hsearchAfter, cursorAt_add hlast]
  template := htemplate
  fresh := fun hnone => absurd hnone hsome

theorem or_some_ne_none {α : Type u} (o : Option α) (a : α) : o.or (some a) ≠ none := by
  cases o <;> simp

/-- The first loop comes to a rank, as far as there are documents. -/
structure Skipped (key : D → SortValues V) (ranked : List D) (aggregations : A) (k : ℕ)
    (st st' : Paging D V A) : Prop where
  collected : st'.collectedHits = st.collectedHits
  take : st'.remainingTake = st.remainingTake
  reached : ∃ k', At key ranked aggregations k' st' ∧
    k' + st'.remainingSkip = k + st.remainingSkip ∧
      (st'.remainingSkip = 0 ∨ k' = ranked.length)
  asked : 0 < st.remainingSkip → st'.templateRes ≠ none

theorem skipLoop_of_skip_eq_zero (hskip : st.remainingSkip = 0) (fuel : ℕ) :
    st.skipLoop esSearchOnce query fuel = st := by
  cases fuel with
  | zero => rfl
  | succ fuel => rw [skipLoop, if_pos hskip]

theorem takeLoop_of_skip_ne_zero (hskip : st.remainingSkip ≠ 0) (fuel : ℕ) :
    st.takeLoop esSearchOnce query fuel = st := by
  cases fuel with
  | zero => rfl
  | succ fuel => rw [takeLoop, if_neg fun h => hskip h.1]

theorem At.skipLoop (hes : Answers esSearchOnce query sort key ranked aggregations) (fuel : ℕ)
    (h : At key ranked aggregations k st) (hfuel : st.remainingSkip ≤ fuel) :
    Skipped key ranked aggregations k st (st.skipLoop esSearchOnce query fuel) := by
  induction fuel generalizing k st with
  | zero =>
      have hzero := Nat.le_zero.mp hfuel
      exact ⟨rfl, rfl, ⟨k, h, rfl, .inl hzero⟩, fun hpos => absurd hzero hpos.ne'⟩
  | succ fuel ih =>
      rw [Paging.skipLoop]
      by_cases hzero : st.remainingSkip = 0
      · rw [if_pos hzero]
        exact ⟨rfl, rfl, ⟨k, h, rfl, .inl hzero⟩, fun hpos => absurd hzero hpos.ne'⟩
      · have hbatch : min searchAfterBatchSize st.remainingSkip ≤ maxResultWindow :=
          (Nat.min_le_left _ _).trans (by decide)
        have hpos : 0 < min searchAfterBatchSize st.remainingSkip :=
          Nat.lt_min.mpr ⟨by decide, Nat.pos_of_ne_zero hzero⟩
        have hle : min searchAfterBatchSize st.remainingSkip ≤ st.remainingSkip :=
          Nat.min_le_right _ _
        have htemplate := h.asked hes hbatch
        simp only [if_neg hzero]
        rw [h.hits_ask hes hbatch, h.nextSearchAfter_hits hes, List.length_map]
        generalize min searchAfterBatchSize st.remainingSkip = batch at *
        cases hnext : ((ranked.drop k).take batch).getLast?.map key with
        | none =>
            -- no hits: the documents are used up
            have hempty : (ranked.drop k).take batch = [] := by simpa using hnext
            have hend : k = ranked.length := by
              rcases List.take_eq_nil_iff.mp hempty with rfl | hdrop
              · omega
              · exact le_antisymm h.le (List.drop_eq_nil_iff.mp hdrop)
            refine ⟨rfl, rfl, ⟨k, ⟨h.le, h.searchAfter, htemplate, fun hnone => ?_⟩, rfl,
              .inr hend⟩, fun _ => or_some_ne_none _ _⟩
            exact absurd hnone (or_some_ne_none _ _)
        | some next =>
            have hmoved := h.move
              (t := { st with
                searchAfter := some next
                templateRes := st.templateRes.or (some (st.ask esSearchOnce query batch))
                remainingSkip := st.remainingSkip - ((ranked.drop k).take batch).length
                withAggs := false })
              hnext rfl htemplate (or_some_ne_none _ _)
            have hlength : ((ranked.drop k).take batch).length ≤ batch := List.length_take_le _ _
            have hne : (ranked.drop k).take batch ≠ [] := by
              intro hempty
              simp [hempty] at hnext
            have hlengthPos := List.length_pos_iff.mpr hne
            by_cases hshort : ((ranked.drop k).take batch).length < batch
            · simp only [if_pos hshort]
              refine ⟨rfl, rfl, ⟨_, hmoved, ?_, .inr ?_⟩, fun _ => or_some_ne_none _ _⟩
              · simp only
                omega
              · rw [List.length_take, List.length_drop] at hshort ⊢
                have := h.le
                omega
            · simp only [if_neg hshort]
              obtain ⟨hcollected, htake, ⟨k', hat, hsum, hend⟩, hasked⟩ :=
                ih hmoved (by simp only; omega)
              refine ⟨hcollected, htake, ⟨k', hat, ?_, hend⟩, fun _ => ?_⟩
              · simp only at hsum
                omega
              · -- a turn that asked leaves an answer behind
                rcases Nat.eq_zero_or_pos
                  (st.remainingSkip - ((ranked.drop k).take batch).length) with hdone | hmore
                · rw [skipLoop_of_skip_eq_zero hdone]
                  exact or_some_ne_none _ _
                · exact hasked hmore

/-- The second loop takes a page from where the first one has come to. -/
structure Taken (key : D → SortValues V) (ranked : List D) (aggregations : A) (k : ℕ)
    (st st' : Paging D V A) : Prop where
  collected : st'.collectedHits =
    st.collectedHits ++ ((ranked.drop k).take st.remainingTake).map (toHit key)
  template : ∀ res ∈ st'.templateRes, res.total = ranked.length ∧ res.aggregations = aggregations
  asked : 0 < st.remainingTake ∨ st.templateRes ≠ none → st'.templateRes ≠ none

theorem At.takeLoop (hes : Answers esSearchOnce query sort key ranked aggregations) (fuel : ℕ)
    (h : At key ranked aggregations k st) (hskip : st.remainingSkip = 0)
    (hfuel : st.remainingTake ≤ fuel) :
    Taken key ranked aggregations k st (st.takeLoop esSearchOnce query fuel) := by
  induction fuel generalizing k st with
  | zero =>
      have hzero := Nat.le_zero.mp hfuel
      exact ⟨by simp [Paging.takeLoop, hzero], h.template, fun hasked => by
        simpa [Paging.takeLoop, hzero] using hasked⟩
  | succ fuel ih =>
      rw [Paging.takeLoop]
      by_cases hzero : st.remainingTake = 0
      · rw [if_neg (by omega)]
        exact ⟨by simp [hzero], h.template, fun hasked => by simpa [hzero] using hasked⟩
      · have hbatch : min searchAfterBatchSize st.remainingTake ≤ maxResultWindow :=
          (Nat.min_le_left _ _).trans (by decide)
        have hpos : 0 < min searchAfterBatchSize st.remainingTake :=
          Nat.lt_min.mpr ⟨by decide, Nat.pos_of_ne_zero hzero⟩
        have hle : min searchAfterBatchSize st.remainingTake ≤ st.remainingTake :=
          Nat.min_le_right _ _
        have htemplate := h.asked hes hbatch
        rw [if_pos ⟨hskip, Nat.pos_of_ne_zero hzero⟩]
        simp only
        rw [h.hits_ask hes hbatch, h.nextSearchAfter_hits hes, List.length_map]
        generalize min searchAfterBatchSize st.remainingTake = batch at *
        by_cases hempty : (ranked.drop k).take batch = []
        · have hdrop : ranked.drop k = [] := by
            rcases List.take_eq_nil_iff.mp hempty with rfl | hdrop
            · omega
            · exact hdrop
          rw [if_pos (by simp [hempty])]
          exact ⟨by simp [hdrop], htemplate, fun _ => or_some_ne_none _ _⟩
        · rw [if_neg (by simpa using hempty)]
          obtain ⟨d, hlast⟩ := Option.ne_none_iff_exists'.mp
            (mt List.getLast?_eq_none_iff.mp hempty)
          have hnext : ((ranked.drop k).take batch).getLast?.map key = some (key d) := by
            rw [hlast]
            rfl
          have hlengthPos := List.length_pos_iff.mpr hempty
          have hlength : ((ranked.drop k).take batch).length ≤ batch := List.length_take_le _ _
          rw [hnext]
          by_cases hshort : ((ranked.drop k).take batch).length < batch
          · -- a short batch is the last one
            have hall : (ranked.drop k).length ≤ batch := by
              rw [List.length_take] at hshort
              omega
            simp only [if_pos hshort]
            refine ⟨?_, htemplate, fun _ => or_some_ne_none _ _⟩
            rw [List.take_of_length_le hall, List.take_of_length_le (hall.trans hle)]
          · have hfull : ((ranked.drop k).take batch).length = batch := by omega
            have hmoved := h.move
              (t := { st with
                searchAfter := some (key d)
                templateRes := st.templateRes.or (some (st.ask esSearchOnce query batch))
                collectedHits :=
                  st.collectedHits ++ ((ranked.drop k).take batch).map (toHit key)
                remainingTake := st.remainingTake - ((ranked.drop k).take batch).length
                withAggs := false })
              hnext rfl htemplate (or_some_ne_none _ _)
            simp only [if_neg hshort]
            obtain ⟨hcollected, hkept, hasked⟩ := ih hmoved hskip (by simp only; omega)
            refine ⟨?_, hkept, fun _ => hasked (.inr (or_some_ne_none _ _))⟩
            have hsplit : (ranked.drop k).take st.remainingTake =
                (ranked.drop k).take batch ++
                  (ranked.drop (k + batch)).take (st.remainingTake - batch) := by
              conv_lhs => rw [← Nat.add_sub_cancel' hle]
              rw [List.take_add, List.drop_drop]
            rw [hcollected, hsplit, List.map_append, hfull, List.append_assoc]

end Paging

section Page

variable {esSearchOnce : SearchOnce B G D V A} {query : SearchBody B G} {sort : List Direction}
  {key : D → SortValues V} {ranked : List D} {aggregations : A}

/-- The batches make up the page that ranks would give, with the total and the aggregations of
the whole query. -/
theorem searchWithSearchAfter_eq_page
    (hes : Answers esSearchOnce query sort key ranked aggregations) (offset limit : ℤ)
    (hoffset : 0 ≤ offset) (hlimit : 1 ≤ limit) :
    searchWithSearchAfter esSearchOnce query offset limit =
      { hits := ((ranked.drop offset.toNat).take limit.toNat).map (toHit key)
        total := ranked.length
        aggregations } := by
  have hskip : (Paging.start offset limit : Paging D V A).remainingSkip = offset.toNat := by
    rw [Paging.start, max_eq_right hoffset]
  have htake : (Paging.start offset limit : Paging D V A).remainingTake = limit.toNat := by
    have hmax : max 0 limit = limit := max_eq_right (by omega)
    rw [Paging.start, hmax]
  have hstart : Paging.At key ranked aggregations 0 (.start offset limit) :=
    Paging.at_start offset limit
  have hskipped := hstart.skipLoop hes _ le_rfl
  unfold searchWithSearchAfter
  simp only
  generalize Paging.skipLoop esSearchOnce query _ _ = st at hskipped ⊢
  obtain ⟨hcollected, htaken, ⟨k, hat, hsum, hend⟩, hasked⟩ := hskipped
  rw [hskip, Nat.zero_add] at hsum
  rw [htake] at htaken
  have hnil : st.collectedHits = [] := hcollected
  by_cases hzero : st.remainingSkip = 0
  · have htakenFrom := hat.takeLoop hes st.remainingTake hzero le_rfl
    obtain ⟨res, hres⟩ := Option.ne_none_iff_exists'.mp (htakenFrom.asked (.inl (by omega)))
    obtain ⟨htotal, haggs⟩ := htakenFrom.template res hres
    have hk : k = offset.toNat := by omega
    rw [hres, htakenFrom.collected, hnil, htaken, hk]
    simp [htotal, haggs]
  · obtain ⟨res, hres⟩ := Option.ne_none_iff_exists'.mp (hasked (by omega))
    obtain ⟨htotal, haggs⟩ := hat.template res hres
    have hdrop : ranked.drop offset.toNat = [] := by
      rw [List.drop_eq_nil_iff]
      omega
    rw [Paging.takeLoop_of_skip_ne_zero hzero, hnil, hres, hdrop]
    simp [htotal, haggs]

/-- So a sorted page is the one that the ranks give, however far it reaches. -/
theorem searchPage_eq_page (hes : Answers esSearchOnce query sort key ranked aggregations)
    (hplain : ∀ start size, start + size ≤ maxResultWindow →
      esSearchOnce { query with start, size, searchAfter := none } true =
        { hits := ((ranked.drop start).take size).map (toHit key)
          total := ranked.length
          aggregations })
    (offset limit : ℤ) (hoffset : 0 ≤ offset) (hlimit : 1 ≤ limit) :
    searchPage esSearchOnce query offset limit true false =
      { hits := ((ranked.drop offset.toNat).take limit.toNat).map (toHit key)
        total := ranked.length
        aggregations } := by
  have hpos : 0 < limit := by omega
  unfold searchPage
  by_cases hwindow : useSearchAfter offset limit true false
  · rw [if_pos hwindow]
    exact searchWithSearchAfter_eq_page hes offset limit hoffset hlimit
  · have hle : offset + limit ≤ maxResultWindow := by
      simpa [useSearchAfter, hpos] using hwindow
    rw [if_neg hwindow, if_pos hpos]
    exact hplain _ _ (by omega)

end Page

/-! ### Listing the chunks of a document -/

section ChunkList

variable {F : Type u} (id : D → String) (fields : D → Option F)

/-- A hit with at least one of the requested fields, under its id. -/
def chunkOf (d : D) : Option (String × F) := (fields d).map fun m => (id d, m)

def getFields (res : Response D V A) : List (String × F) :=
  (res.hits.filterMap fun hit => chunkOf id fields hit.doc).foldl (fun es e => put e.1 e.2 es) []

/-- The loop of `chunk_list`, by the values of `p` that are left. -/
def chunkBatches (search : ℤ → ℤ → Response D V A) (maxCount : ℤ) : List ℤ → List (String × F)
  | [] => []
  | p :: ps =>
      let limit := min 128 (maxCount - p)
      if limit ≤ 0 then []
      else
        let dictChunks := getFields id fields (search p limit)
        let chunkCount := dictChunks.length
        if chunkCount = 0 ∨ chunkCount < limit then dictChunks
        else dictChunks ++ chunkBatches search maxCount ps

/-- `chunk_list` with `sort_by_position`. -/
def chunkList (esSearchOnce : SearchOnce B G D V A) (query : SearchBody B G)
    (maxCount offset : ℕ) : List (String × F) :=
  chunkBatches id fields (fun p limit => searchPage esSearchOnce query p limit true false) maxCount
    ((List.range' offset ((maxCount - offset + 127) / 128) 128).map Nat.cast)

variable {ranked : List D} {search : ℤ → ℤ → Response D V A} {key : D → SortValues V}

theorem map_fst_chunkOf {docs : List D} (hfields : ∀ d ∈ docs, (fields d).isSome) :
    (docs.filterMap (chunkOf id fields)).map Prod.fst = docs.map id := by
  induction docs with
  | nil => rfl
  | cons d docs ih =>
      obtain ⟨m, hm⟩ := Option.isSome_iff_exists.mp (hfields d List.mem_cons_self)
      have hd : chunkOf id fields d = some (id d, m) := by rw [chunkOf, hm, Option.map_some]
      rw [List.filterMap_cons_some hd, List.map_cons, List.map_cons,
        ih fun d hd => hfields d (List.mem_cons_of_mem _ hd)]

omit [LinearOrder V] in
/-- No hit is dropped, and none takes the place of another. -/
theorem getFields_eq {docs : List D} {res : Response D V A} (hres : res.hits = docs.map (toHit key))
    (hids : (docs.map id).Nodup) (hfields : ∀ d ∈ docs, (fields d).isSome) :
    getFields id fields res = docs.filterMap (chunkOf id fields) ∧
      (getFields id fields res).length = docs.length := by
  have hfst := map_fst_chunkOf id fields hfields
  have heq : getFields id fields res = docs.filterMap (chunkOf id fields) := by
    have hput := foldl_put [] (docs.filterMap (chunkOf id fields)) (by simpa [hfst] using hids)
    rw [getFields, hres, List.filterMap_map]
    exact hput
  refine ⟨heq, ?_⟩
  rw [heq, ← List.length_map Prod.fst, hfst, List.length_map]

omit [LinearOrder V] in
/-- The batches from `p` on list what is left up to `maxCount`. -/
theorem chunkBatches_eq (hids : (ranked.map id).Nodup) (hfields : ∀ d ∈ ranked, (fields d).isSome)
    (hsearch : ∀ p limit : ℤ, 0 ≤ p → 1 ≤ limit → (search p limit).hits =
      ((ranked.drop p.toNat).take limit.toNat).map (toHit key)) (maxCount n p : ℕ)
    (hn : n = (maxCount - p + 127) / 128) :
    chunkBatches id fields search maxCount ((List.range' p n 128).map Nat.cast) =
      ((ranked.take maxCount).drop p).filterMap (chunkOf id fields) := by
  induction n generalizing p with
  | zero =>
      rw [List.drop_eq_nil_of_le ((List.length_take_le _ _).trans (by omega))]
      rfl
  | succ n ih =>
      have hlt : p < maxCount := by omega
      have hlimit : min 128 ((maxCount : ℤ) - p) = (min 128 (maxCount - p) : ℕ) := by omega
      have hsub : ((ranked.drop p).take (min 128 (maxCount - p))).Sublist ranked :=
        (List.take_sublist _ _).trans (List.drop_sublist _ _)
      obtain ⟨hchunks, hlength⟩ := getFields_eq id fields
        (hsearch p (min 128 (maxCount - p) : ℕ) (by omega) (by omega))
        (hids.sublist (hsub.map _)) fun d hd => hfields d (hsub.subset hd)
      rw [List.range'_succ, List.map_cons, chunkBatches, hlimit]
      simp only [Int.toNat_natCast] at hchunks hlength ⊢
      rw [if_neg (by omega), hlength, hchunks, ih (p + 128) (by omega), ← List.filterMap_append,
        List.drop_take, List.drop_take, ← List.drop_drop, List.length_take, List.length_drop]
      split_ifs with hend
      · rw [List.take_of_length_le, List.take_of_length_le] <;> rw [List.length_drop] <;> omega
      · rw [← Nat.sub_sub]
        rcases Nat.le_total (maxCount - p) 128 with hle | hle
        · rw [min_eq_right hle, Nat.sub_eq_zero_of_le hle, List.take_zero, List.append_nil]
        · rw [min_eq_left hle, ← List.take_add, Nat.add_sub_cancel' hle]

end ChunkList

/-- The chunks of a document are listed from `offset` up to `maxCount` in the order of their
positions, however many batches that takes and whichever way a batch is asked for. -/
theorem chunkList_eq {F : Type u} {id : D → String} {fields : D → Option F}
    {esSearchOnce : SearchOnce B G D V A} {query : SearchBody B G} {sort : List Direction}
    {key : D → SortValues V} {ranked : List D} {aggregations : A}
    (hes : Answers esSearchOnce query sort key ranked aggregations)
    (hplain : ∀ start size, start + size ≤ maxResultWindow →
      esSearchOnce { query with start, size, searchAfter := none } true =
        { hits := ((ranked.drop start).take size).map (toHit key)
          total := ranked.length
          aggregations })
    (hids : (ranked.map id).Nodup) (hfields : ∀ d ∈ ranked, (fields d).isSome)
    (maxCount offset : ℕ) :
    chunkList id fields esSearchOnce query maxCount offset =
      ((ranked.take maxCount).drop offset).filterMap (chunkOf id fields) := by
  have hsearch : ∀ p limit : ℤ, 0 ≤ p → 1 ≤ limit →
      (searchPage esSearchOnce query p limit true false).hits =
        ((ranked.drop p.toNat).take limit.toNat).map (toHit key) := fun p limit hp hlimit => by
    rw [searchPage_eq_page hes hplain p limit hp hlimit]
  exact chunkBatches_eq id fields hids hfields hsearch maxCount _ offset rfl

/-! ### A service that holds numbers -/

/-- A service whose documents are the numbers below `n`, in their order. -/
def rangeService (n : ℕ) : SearchOnce Unit Unit ℕ ℕ ℕ := fun req _ =>
  { hits := (((afterCursor (fun d => [some d]) (sortBefore [.asc]) req.searchAfter
      (List.range n)).drop req.start).take req.size).map (toHit fun d => [some d])
    total := n
    aggregations := n }

theorem answers_rangeService (n : ℕ) :
    Answers (rangeService n) ⟨(), some ()⟩ [.asc] (fun d => [some d]) (List.range n) n where
  sort_ne_nil := by simp
  length_key := by simp
  sorted := by
    refine List.pairwise_lt_range.imp fun {a b} hab => ?_
    simpa [sortBefore, fieldBefore] using hab
  hits := by simp [rangeService]
  total := by simp [rangeService]
  aggregations := by simp [rangeService]

theorem page_of_rangeService :
    searchWithSearchAfter (rangeService 12000) ⟨(), some ()⟩ 10000 1500 =
      { hits := (((List.range 12000).drop (10000 : ℤ).toNat).take (1500 : ℤ).toNat).map
          (toHit fun d => [some d])
        total := (List.range 12000).length
        aggregations := 12000 } :=
  searchWithSearchAfter_eq_page (answers_rangeService 12000) 10000 1500 (by decide) (by decide)

theorem chunkList_rangeService :
    chunkList Nat.repr some (rangeService 12000) ⟨(), some ()⟩ 11000 9990 =
      (((List.range 12000).take 11000).drop 9990).filterMap (chunkOf Nat.repr some) :=
  chunkList_eq (answers_rangeService 12000)
    (fun start size _ => by simp [rangeService, afterCursor])
    (List.nodup_range.map fun _ _ h => Nat.repr_inj.mp h) (by simp) 11000 9990

end RagFlow.Elastic
