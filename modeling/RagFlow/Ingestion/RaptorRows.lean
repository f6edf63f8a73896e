/-
# Indexing the summaries

`generate` writes a row for every chunk that RAPTOR returns behind the number of chunks it was
given. RAPTOR itself goes on with those chunks only that have a text and an embedding, so where one
has none, as many summaries are taken for input and get no row. The layer of a summary is looked
up by its place among all chunks, and that place is right.
-/

import Mathlib
import RagFlow.Ingestion.Raptor
import RagFlow.Math.Dict

namespace RagFlow.Ingestion.Raptor

open RagFlow.Math

/-! ## The rows -/

def graphRaptorFakeDocId : String := "graph_raptor_x"

/-- What the tokenizer, the hash and the clock give; the clock by the place of a chunk. -/
structure RowEnv where
  tokenize : String → String
  fineGrainedTokenize : String → String
  xxh64 : String → String
  numTokensFromString : String → ℕ
  createTime : ℕ → String
  createTimestamp : ℕ → ℚ

/-- The fields of the task that a row takes over. -/
structure TaskRow where
  name : String
  kbId : String
  pagerank : ℤ

structure RaptorRow where
  docId : String
  kbId : List String
  docnmKwd : String
  titleTks : String
  raptorKwd : String
  pagerank : Option ℤ
  id : String
  createTime : String
  createTimestampFlt : ℚ
  vctr : List ℚ
  contentWithWeight : String
  contentLtks : String
  contentSmLtks : String
  raptorLayerInt : ℕ

/-- `chunk_layer`: the layer of each place behind the first layer. -/
def chunkLayer (layers : List (ℕ × ℕ)) : Dict ℕ ℕ :=
  layers.zipIdx.foldl
    (fun m layer =>
      if layer.2 = 0 then m else (span layer.1).foldl (fun m ci => m.set ci layer.2) m)
    Dict.empty

/-- The row of the chunk at a place. -/
def raptorRow (env : RowEnv) (task : TaskRow) (docNameById : Dict String String) (did : String)
    (layers : List (ℕ × ℕ)) (idx : ℕ) (chunk : Node) : RaptorRow :=
  let effectiveDocName :=
    if did = graphRaptorFakeDocId then task.name else (docNameById.get? did).getD task.name
  { docId := did
    kbId := [task.kbId]
    docnmKwd := effectiveDocName
    titleTks := env.tokenize effectiveDocName
    raptorKwd := "raptor"
    pagerank := if task.pagerank = 0 then none else some task.pagerank
    id := env.xxh64 (chunk.1 ++ graphRaptorFakeDocId)
    createTime := env.createTime idx
    createTimestampFlt := env.createTimestamp idx
    vctr := chunk.2
    contentWithWeight := chunk.1
    contentLtks := env.tokenize chunk.1
    contentSmLtks := env.fineGrainedTokenize (env.tokenize chunk.1)
    raptorLayerInt := ((chunkLayer layers).get? idx).getD 1 }

/-- `generate`: append the rows to the result and count their tokens. -/
def generate (env : RowEnv) (task : TaskRow) (docNameById : Dict String String) (cfg : Config)
    (B : Behaviour) (chunks : List (String × Option (List ℚ))) (did : String)
    (done : List RaptorRow × ℕ) : Except RaptorError (List RaptorRow × ℕ) := do
  let originalLength := chunks.length
  let t ← raptor cfg B chunks
  let rows := (t.chunks.drop originalLength).mapIdx fun i chunk =>
    raptorRow env task docNameById did t.layers (originalLength + i) chunk
  let tokens := (t.chunks.drop originalLength).map fun chunk => env.numTokensFromString chunk.1
  return (done.1 ++ rows, done.2 + tokens.sum)

/-! ## The law -/

/-- The rows are the summaries in their order, each with the layer that it lies in. -/
structure Indexed (input : List (String × Option (List ℚ))) (t : State) (rows : List RaptorRow) :
    Prop where
  summaries : rows.map (fun row => (row.contentWithWeight, row.vctr)) =
    t.chunks.drop (usable input).length
  layer : ∀ i row, rows[i]? = some row → ∃ layer, t.layers[row.raptorLayerInt]? = some layer ∧
    1 ≤ row.raptorLayerInt ∧ (usable input).length + i ∈ span layer

def IsUsable (ck : String × Option (List ℚ)) : Prop :=
  ck.1 ≠ "" ∧ ∃ a, ck.2 = some a ∧ a ≠ []

/-- Every chunk has a text and an embedding, or there is nothing to summarise, or the only summary
is skipped. -/
def KeepsPlaces (B : Behaviour) (input : List (String × Option (List ℚ))) : Prop :=
  (∀ ck ∈ input, IsUsable ck) ∨ (usable input).length ≤ 1 ∨
    (usable input).length = 2 ∧ B.summary 0 0 = none

section Rows

variable {cfg : Config} {B : Behaviour} {pass : ℕ} {s t : State} {cks : List Node}
  {input : List (String × Option (List ℚ))} {layers : List (ℕ × ℕ)} {l ci : ℕ}

/-! ## Places of chunks -/

theorem usable_eq_map (h : ∀ ck ∈ input, IsUsable ck) : (usable input).length = input.length := by
  rw [usable, List.filterMap_length_eq_length]
  rintro ⟨text, vctr⟩ hck
  obtain ⟨htext, a, rfl, ha⟩ := h _ hck
  simp [htext, ha]

/-- A chunk without a text or an embedding is left out. -/
theorem length_usable_lt (h : ∃ ck ∈ input, ¬ IsUsable ck) :
    (usable input).length < input.length := by
  obtain ⟨⟨text, vctr⟩, hck, hbad⟩ := h
  refine lt_of_le_of_ne (List.length_filterMap_le _ _) fun hall => ?_
  have hsome := List.filterMap_length_eq_length.mp hall _ hck
  cases vctr with
  | none => simp at hsome
  | some a =>
      refine hbad ?_
      by_cases hboth : text ≠ "" ∧ a ≠ []
      · exact ⟨hboth.1, a, rfl, hboth.2⟩
      · simp [hboth] at hsome

/-- The chunks that are there stay where they are. -/
theorem raptorLoop_begins {fuel : ℕ} (h : WellLayered B cks s) (hpass : s.clusters.length = pass)
    (hok : raptorLoop cfg B fuel pass s = .ok t) : s.chunks <+: t.chunks := by
  induction fuel generalizing pass s with
  | zero =>
      by_cases hdone : s.stop - s.start ≤ 1
      · rw [raptorLoop_done hdone] at hok
        exact Except.ok.inj hok ▸ List.prefix_rfl
      · rw [raptorLoop_zero (by omega)] at hok
        cases hok
  | succ fuel ih =>
      subst hpass
      rcases Nat.lt_trichotomy (s.stop - s.start) 2 with hdone | hpair | hlayer
      · rw [raptorLoop_done (by omega)] at hok
        exact Except.ok.inj hok ▸ List.prefix_rfl
      · rw [raptorLoop_pair hpair] at hok
        obtain ⟨u, hu, hok⟩ := bind_eq_ok.mp hok
        obtain ⟨-, hwell, hlen⟩ := pairLayer_wellLayered h hpair hu
        obtain ⟨e, rfl⟩ := pairLayer_eq_ok hu
        exact (List.prefix_append _ _).trans (ih hwell hlen hok)
      · rw [raptorLoop_layer hlayer] at hok
        obtain ⟨u, hu, hok⟩ := bind_eq_ok.mp hok
        obtain ⟨-, hwell, hlen⟩ := clusterLayer_wellLayered h hu
        obtain ⟨made, e, -, -, -, rfl⟩ := clusterLayer_eq_ok h.stop_eq hu
        exact (List.prefix_append _ _).trans (ih hwell hlen hok)

/-- A pair has one summary, unless it is skipped. -/
theorem length_summaries_pair (a b : ℕ) :
    (summaries B pass [[a, b]]).length = (B.summary pass 0).toList.length := by
  rw [(summaries_perm [[a, b]]).length_eq]
  cases hsum : B.summary pass 0 with
  | none => simp [hsum]
  | some x => simp [hsum]

/-- A loop makes summaries unless there is nothing to summarise or the only one is skipped. -/
theorem length_lt_raptorLoop_iff {fuel : ℕ} (h : WellLayered B cks s)
    (hpass : s.clusters.length = pass) (hok : raptorLoop cfg B fuel pass s = .ok t) :
    s.chunks.length < t.chunks.length ↔
      ¬ (s.stop - s.start ≤ 1 ∨ s.stop - s.start = 2 ∧ B.summary pass 0 = none) := by
  by_cases hdone : s.stop - s.start ≤ 1
  · rw [raptorLoop_done hdone] at hok
    rw [← Except.ok.inj hok]
    exact iff_of_false (lt_irrefl _) (not_not.mpr (.inl hdone))
  cases fuel with
  | zero =>
      rw [raptorLoop_zero (by omega)] at hok
      cases hok
  | succ fuel =>
      subst hpass
      by_cases hpair : s.stop - s.start = 2
      · rw [raptorLoop_pair hpair] at hok
        obtain ⟨u, hu, hok⟩ := bind_eq_ok.mp hok
        obtain ⟨hend, -, -⟩ := pairLayer_wellLayered h hpair hu
        obtain ⟨e, rfl⟩ := pairLayer_eq_ok hu
        rw [raptorLoop_done hend] at hok
        rw [← Except.ok.inj hok]
        change s.chunks.length < (s.chunks ++ summaries B _ _).length ↔ _
        rw [List.length_append, length_summaries_pair, hpair]
        cases B.summary s.clusters.length 0 with
        | none => simp
        | some x => simp
      · rw [raptorLoop_layer (by omega)] at hok
        obtain ⟨u, hu, hok⟩ := bind_eq_ok.mp hok
        obtain ⟨hfits, hwell, hlen⟩ := clusterLayer_wellLayered h hu
        have hle := (raptorLoop_begins hwell hlen hok).length_le
        obtain ⟨made, e, hfits', -, -, rfl⟩ := clusterLayer_eq_ok h.stop_eq hu
        have hall := length_summaries_eq.mpr hfits'.summarised
        have hpos := (getOptimalClusters_lt hfits'.chosen).1
        change (s.chunks ++ summaries B _ made).length ≤ _ at hle
        rw [List.length_append, hall] at hle
        refine iff_of_true (by omega) ?_
        rintro (hone | ⟨htwo, -⟩)
        · exact hdone hone
        · exact hpair htwo

/-- With two chunks or more the tree is that of a loop over the usable ones. -/
theorem raptor_eq_loop (hinput : 2 ≤ input.length) (hok : raptor cfg B input = .ok t) :
    WellLayered B (usable input) t ∧
      ((usable input).length < t.chunks.length ↔
        ¬ ((usable input).length ≤ 1 ∨ (usable input).length = 2 ∧ B.summary 0 0 = none)) := by
  have hstart : WellLayered B (usable input) _ := wellLayered_start cfg.errorCount
  rw [raptor, if_neg (by omega)] at hok
  exact ⟨(raptorLoop_wellLayered hstart rfl hok).1, length_lt_raptorLoop_iff hstart rfl hok⟩

/-! ## Layers of places -/

theorem get?_foldl_set (cis : List ℕ) (m : Dict ℕ ℕ) :
    (cis.foldl (fun m ci => m.set ci l) m).get? ci = if ci ∈ cis then some l else m.get? ci := by
  induction cis generalizing m with
  | nil => rfl
  | cons c cis ih =>
      rw [List.foldl_cons, ih, Dict.get?_set]
      by_cases hin : ci ∈ cis
      · rw [if_pos hin, if_pos (List.mem_cons_of_mem c hin)]
      · by_cases hc : ci = c
        · rw [if_neg hin, if_pos hc, if_pos (hc ▸ List.mem_cons_self)]
        · rw [if_neg hin, if_neg hc, if_neg (by simp [hc, hin])]

/-- Layers that do not overlap: a place is in one of them at most. -/
theorem layer_unique (h : (layers.flatMap span).Nodup) {i j : ℕ} {a b : ℕ × ℕ}
    (ha : layers[i]? = some a) (hb : layers[j]? = some b) (hia : ci ∈ span a)
    (hjb : ci ∈ span b) : i = j := by
  have hdisjoint := (List.nodup_flatMap.mp h).2
  obtain ⟨hi, rfl⟩ := List.getElem?_eq_some_iff.mp ha
  obtain ⟨hj, rfl⟩ := List.getElem?_eq_some_iff.mp hb
  rcases lt_trichotomy i j with hlt | rfl | hlt
  · exact absurd hjb (List.pairwise_iff_getElem.mp hdisjoint i j hi hj hlt hia)
  · rfl
  · exact absurd hia (List.pairwise_iff_getElem.mp hdisjoint j i hj hi hlt hjb)

/-- The layer that is looked up for a place is the one behind the first that it lies in. -/
theorem get?_chunkLayer (h : (layers.flatMap span).Nodup) :
    (chunkLayer layers).get? ci = some l ↔
      l ≠ 0 ∧ ∃ a, layers[l]? = some a ∧ ci ∈ span a := by
  let P (done : List ((ℕ × ℕ) × ℕ)) (m : Dict ℕ ℕ) : Prop :=
    ∀ l, m.get? ci = some l ↔ l ≠ 0 ∧ ∃ a, (a, l) ∈ done ∧ ci ∈ span a
  have hloop : P layers.zipIdx (chunkLayer layers) := by
    rw [chunkLayer]
    apply foldl_induction
    · intro l
      exact iff_of_false (Option.some_ne_none l).symm fun hl => absurd hl.2 (by simp)
    · rintro done ⟨a, k⟩ m hpart hm l
      have hmem : ∀ b j, (b, j) ∈ done ++ [(a, k)] → layers[j]? = some b := by
        intro b j hbj
        exact List.mk_mem_zipIdx_iff_getElem?.mp (hpart.subset hbj)
      by_cases hzero : k = 0
      · rw [if_pos hzero, hm]
        subst hzero
        constructor
        · rintro ⟨hl, b, hb, hci⟩
          exact ⟨hl, b, List.mem_append_left _ hb, hci⟩
        · rintro ⟨hl, b, hb, hci⟩
          rcases List.mem_append.mp hb with hb | hb
          · exact ⟨hl, b, hb, hci⟩
          · exact absurd (Prod.mk.inj (List.mem_singleton.mp hb)).2 hl
      · rw [if_neg hzero, get?_foldl_set]
        by_cases hin : ci ∈ span a
        · rw [if_pos hin]
          constructor
          · intro hl
            obtain rfl := Option.some.inj hl
            exact ⟨hzero, a, by simp, hin⟩
          · rintro ⟨-, b, hb, hci⟩
            exact congrArg some (layer_unique h (hmem a k (by simp)) (hmem b l hb) hin hci)
        · rw [if_neg hin, hm]
          constructor
          · rintro ⟨hl, b, hb, hci⟩
            exact ⟨hl, b, List.mem_append_left _ hb, hci⟩
          · rintro ⟨hl, b, hb, hci⟩
            rcases List.mem_append.mp hb with hb | hb
            · exact ⟨hl, b, hb, hci⟩
            · obtain ⟨rfl, -⟩ := Prod.mk.inj (List.mem_singleton.mp hb)
              exact absurd hci hin
  rw [hloop l]
  refine and_congr_right fun _ => exists_congr fun a => and_congr_left fun _ => ?_
  exact List.mk_mem_zipIdx_iff_getElem?

/-- A summary has the layer that it lies in. -/
theorem exists_layer (h : WellLayered B cks t) {idx : ℕ} (hcks : cks.length ≤ idx)
    (hidx : idx < t.chunks.length) :
    ∃ layer, t.layers[((chunkLayer t.layers).get? idx).getD 1]? = some layer ∧
      1 ≤ ((chunkLayer t.layers).get? idx).getD 1 ∧ idx ∈ span layer := by
  have hnodup : (t.layers.flatMap span).Nodup := h.partition ▸ List.nodup_range
  have hmem : idx ∈ t.layers.flatMap span := h.partition ▸ List.mem_range.mpr hidx
  obtain ⟨a, ha, hia⟩ := List.mem_flatMap.mp hmem
  obtain ⟨l, hl⟩ := List.mem_iff_getElem?.mp ha
  have hpos : l ≠ 0 := by
    rintro rfl
    rw [← List.head?_eq_getElem?, h.first] at hl
    obtain rfl := Option.some.inj hl
    rw [span, List.mem_range'_1] at hia
    omega
  rw [(get?_chunkLayer hnodup).mpr ⟨hpos, a, hl, hia⟩, Option.getD_some]
  exact ⟨a, hl, Nat.one_le_iff_ne_zero.mpr hpos, hia⟩

/-! ## The rows that are written -/

variable {env : RowEnv} {task : TaskRow} {docNameById : Dict String String} {did : String}
  {done : List RaptorRow × ℕ}

/-- The rows of the chunks behind the place `n`. -/
def rowsFrom (env : RowEnv) (task : TaskRow) (docNameById : Dict String String) (did : String)
    (t : State) (n : ℕ) : List RaptorRow :=
  (t.chunks.drop n).mapIdx fun i chunk =>
    raptorRow env task docNameById did t.layers (n + i) chunk

theorem rowsFrom_chunks (n : ℕ) :
    (rowsFrom env task docNameById did t n).map (fun row => (row.contentWithWeight, row.vctr)) =
      t.chunks.drop n := by
  refine List.ext_getElem? fun i => ?_
  rw [rowsFrom, List.getElem?_map, List.getElem?_mapIdx, Option.map_map]
  exact congrFun Option.map_id _

/-- Every row has the layer of its place. -/
theorem rowsFrom_layer {i : ℕ} {row : RaptorRow} (h : WellLayered B cks t)
    (hrow : (rowsFrom env task docNameById did t cks.length)[i]? = some row) :
    ∃ layer, t.layers[row.raptorLayerInt]? = some layer ∧ 1 ≤ row.raptorLayerInt ∧
      cks.length + i ∈ span layer := by
  rw [rowsFrom, List.getElem?_mapIdx] at hrow
  obtain ⟨chunk, hchunk, rfl⟩ := Option.map_eq_some_iff.mp hrow
  obtain ⟨hlt, -⟩ := List.getElem?_eq_some_iff.mp hchunk
  rw [List.length_drop] at hlt
  exact exists_layer h (Nat.le_add_right _ i) (by omega)

theorem generate_eq_ok {r : List RaptorRow × ℕ} (hok : raptor cfg B input = .ok t) :
    generate env task docNameById cfg B input did done = .ok r ↔
      r = (done.1 ++ rowsFrom env task docNameById did t input.length,
        done.2 + ((t.chunks.drop input.length).map fun chunk =>
          env.numTokensFromString chunk.1).sum) := by
  rw [generate, hok]
  exact pure_eq_ok.trans eq_comm

/-- The rows behind the number of chunks given are the summaries exactly where RAPTOR goes on with
all of these chunks, or has nothing to write. -/
theorem rowsFrom_indexed_iff (hok : raptor cfg B input = .ok t) :
    Indexed input t (rowsFrom env task docNameById did t input.length) ↔ KeepsPlaces B input := by
  have hle : (usable input).length ≤ input.length := List.length_filterMap_le _ _
  constructor
  · intro h
    by_cases hall : ∀ ck ∈ input, IsUsable ck
    · exact .inl hall
    push Not at hall
    have hlt := length_usable_lt hall
    rcases Nat.lt_or_ge input.length 2 with hsmall | hinput
    · exact .inr (.inl (by omega))
    · refine .inr (not_not.mp fun hnone => ?_)
      have hmore := (raptor_eq_loop hinput hok).2.mpr hnone
      have hlen := congrArg List.length h.summaries
      rw [rowsFrom_chunks, List.length_drop, List.length_drop] at hlen
      omega
  · intro hkeeps
    rcases Nat.lt_or_ge input.length 2 with hsmall | hinput
    · rw [raptor, if_pos (by omega)] at hok
      rw [← Except.ok.inj hok]
      exact ⟨by simp [rowsFrom], by simp [rowsFrom]⟩
    obtain ⟨hwell, hmore⟩ := raptor_eq_loop hinput hok
    rcases hkeeps with hall | hnone
    · have hsame := usable_eq_map hall
      rw [← hsame]
      exact ⟨rowsFrom_chunks _, fun i row hrow => rowsFrom_layer hwell hrow⟩
    · have hend : t.chunks.length ≤ (usable input).length :=
        Nat.le_of_not_lt fun hlt => hmore.mp hlt hnone
      have hrows : rowsFrom env task docNameById did t input.length = [] := by
        rw [rowsFrom, List.drop_eq_nil_of_le (hend.trans hle)]
        rfl
      rw [hrows]
      refine ⟨?_, fun i row hrow => by cases hrow⟩
      rw [List.drop_eq_nil_of_le hend]
      rfl

theorem exists_rows_iff (hok : raptor cfg B input = .ok t) :
    (∃ rows tokens, generate env task docNameById cfg B input did done =
        .ok (done.1 ++ rows, tokens) ∧ Indexed input t rows) ↔
      Indexed input t (rowsFrom env task docNameById did t input.length) := by
  constructor
  · rintro ⟨rows, tokens, h, hindexed⟩
    have hrows := (Prod.mk.inj ((generate_eq_ok hok).mp h)).1
    rw [← List.append_cancel_left hrows]
    exact hindexed
  · exact fun h => ⟨_, _, (generate_eq_ok hok).mpr rfl, h⟩

/-- The rows that are appended are the summaries, each with its layer, exactly where the chunks
keep their places. -/
theorem generate_indexed_iff (env : RowEnv) (task : TaskRow) (docNameById : Dict String String)
    (did : String) (done : List RaptorRow × ℕ) (hok : raptor cfg B input = .ok t) :
    (∃ rows tokens, generate env task docNameById cfg B input did done =
        .ok (done.1 ++ rows, tokens) ∧ Indexed input t rows) ↔ KeepsPlaces B input := by
  rw [exists_rows_iff hok, rowsFrom_indexed_iff hok]

end Rows

/-! ## A chunk without a text -/

def plainRows : RowEnv where
  tokenize := id
  fineGrainedTokenize := id
  xxh64 := id
  numTokensFromString := String.length
  createTime _ := ""
  createTimestamp _ := 0

def raptorTask : TaskRow := { name := "kb", kbId := "kb1", pagerank := 0 }

def oneSummary : Behaviour := alternating fun _ _ => some ("sum", [1])

/-- Three chunks with a text become two summaries and then one. -/
theorem generate_indexed_three :
    ∃ t, raptor { threshold := 1 / 10 } oneSummary
        [("a", some [1]), ("b", some [2]), ("c", some [3])] = .ok t ∧
      ∃ rows tokens, generate plainRows raptorTask Dict.empty { threshold := 1 / 10 } oneSummary
          [("a", some [1]), ("b", some [2]), ("c", some [3])] "d1" ([], 0) =
        .ok ([] ++ rows, tokens) ∧
        Indexed [("a", some [1]), ("b", some [2]), ("c", some [3])] t rows := by
  obtain ⟨t, ht⟩ := exists_of_isSome (x := raptor { threshold := 1 / 10 } oneSummary
    [("a", some [1]), ("b", some [2]), ("c", some [3])]) (by decide +kernel)
  refine ⟨t, ht, (generate_indexed_iff plainRows raptorTask Dict.empty "d1" ([], 0) ht).mpr ?_⟩
  exact .inl (by simp [IsUsable])

/-- The only summary of two chunks gets no row where a third chunk has no text. -/
theorem not_generate_indexed :
    ∃ t, raptor { threshold := 1 / 10 } oneSummary
        [("a", some [1]), ("", some [2]), ("c", some [3])] = .ok t ∧
      ¬ ∃ rows tokens, generate plainRows raptorTask Dict.empty { threshold := 1 / 10 } oneSummary
          [("a", some [1]), ("", some [2]), ("c", some [3])] "d1" ([], 0) =
        .ok ([] ++ rows, tokens) ∧
        Indexed [("a", some [1]), ("", some [2]), ("c", some [3])] t rows := by
  obtain ⟨t, ht⟩ := exists_of_isSome (x := raptor { threshold := 1 / 10 } oneSummary
    [("a", some [1]), ("", some [2]), ("c", some [3])]) (by decide +kernel)
  refine ⟨t, ht, fun h => ?_⟩
  have hkeeps := (rowsFrom_indexed_iff ht).mp ((exists_rows_iff ht).mp h)
  have htwo : (usable [("a", some [1]), ("", some [2]), ("c", some [3])]).length = 2 := by decide
  rcases hkeeps with hall | hsmall | ⟨-, hnone⟩
  · exact (hall ("", some [2]) (by simp)).1 rfl
  · omega
  · cases hnone

end RagFlow.Ingestion.Raptor
