/-
# Building a tree of summaries

RAPTOR clusters a layer of chunks, summarises each cluster into a new chunk and goes on with
the layer of the summaries, until one chunk is left. The clustering and the summariser come
from outside; whatever they do, a layer has fewer clusters than chunks, so this ends. But a
chunk may be in no cluster, a cluster may be empty, and a summary that is skipped after an
error leaves the next layer short of a chunk that an assertion asks for.
-/

import RagFlow.Math.Except
import RagFlow.Math.Partition
import Mathlib.Algebra.BigOperators.Fin
import Mathlib.Algebra.Order.Ring.Rat
import Mathlib.Data.List.Chain
import Mathlib.Data.List.MinMax

namespace RagFlow.Ingestion.Raptor

open RagFlow.Math

/-! ## What comes from outside -/

/-- A text with its embedding. -/
abbrev Node := String × List ℚ

/-- The probabilities with which each row is a member of each cluster. -/
structure Membership (rows cols : ℕ) where
  prob : Fin rows → Fin cols → ℚ
  nonneg : ∀ i c, 0 ≤ prob i c
  sum_eq_one : ∀ i, ∑ c, prob i c = 1

/-- What the clustering and the summariser do in each pass of the loop: the score of a
number of clusters, the membership of the rows, the summary of a cluster, or none for an
exception, and the order in which the summaries are finished. -/
structure Behaviour where
  bic : ℕ → ℕ → ℚ
  membership : ℕ → (rows cols : ℕ) → 2 ≤ cols → Membership rows cols
  summary : ℕ → ℕ → Option Node
  order : ℕ → List ℕ → List ℕ
  order_perm : ∀ pass l, (order pass l).Perm l

/-- The settings, and the errors that the object has counted before. -/
structure Config where
  maxCluster : ℕ := 64
  threshold : ℚ
  maxErrors : ℕ := 3
  errorCount : ℕ := 0

inductive RaptorError where
  | assertionError
  | indexError
  | valueError
  /-- "RAPTOR aborted after … errors". -/
  | aborted
  | outOfFuel
  deriving DecidableEq

/-- The variables of the loop, `end` being `stop`, and the clusters of each pass. -/
structure State where
  chunks : List Node
  layers : List (ℕ × ℕ)
  start : ℕ
  stop : ℕ
  errors : ℕ
  clusters : List (List (List ℕ)) := []
  deriving DecidableEq

/-! ## Clustering -/

/-- `_get_optimal_clusters`: the first of the best scores, and `argmin` of nothing raises. -/
def getOptimalClusters (cfg : Config) (B : Behaviour) (pass n : ℕ) : Except RaptorError ℕ :=
  let nClusters := (List.range (min cfg.maxCluster n - 1)).map (· + 1)
  match nClusters.argmin (B.bic pass) with
  | some k => .ok k
  | none => .error .valueError

/-- `np.where(prob > threshold)[0][0]`. -/
def firstAbove (threshold : ℚ) {k : ℕ} (prob : Fin k → ℚ) : Option (Fin k) :=
  (List.finRange k).find? fun c => threshold < prob c

/-- The label of each row. -/
def labels (cfg : Config) (B : Behaviour) (pass n k : ℕ) : Except RaptorError (List ℕ) :=
  if hk : 2 ≤ k then
    (List.finRange n).mapM fun i =>
      match firstAbove cfg.threshold ((B.membership pass n k hk).prob i) with
      | some c => .ok c.val
      | none => .error .indexError
  else .ok (List.replicate n 0)

/-- The chunks with a label. -/
def clusterOf (start : ℕ) (lbls : List ℕ) (c : ℕ) : List ℕ :=
  ((List.range lbls.length).filter fun i => lbls[i]? = some c).map (· + start)

/-! ## The loop -/

/-- The summaries of the clusters, in the order in which they are finished. -/
def summaries (B : Behaviour) (pass : ℕ) (made : List (List ℕ)) : List Node :=
  (B.order pass (List.range made.length)).filterMap (B.summary pass)

/-- The clusters are summarised at the same time; a summary is appended when it is finished,
and one that fails is skipped, unless there are too many. -/
def gather (cfg : Config) (B : Behaviour) (pass : ℕ) (made : List (List ℕ)) (s : State) :
    Except RaptorError State :=
  let failures := (List.range made.length).countP fun c => (B.summary pass c).isNone
  if failures ≠ 0 ∧ max 1 cfg.maxErrors ≤ s.errors + failures then .error .aborted
  else .ok { s with
    chunks := s.chunks ++ summaries B pass made
    errors := s.errors + failures }

/-- What was appended becomes the next layer. -/
def State.close (s : State) (made : List (List ℕ)) : State :=
  { s with
    layers := s.layers ++ [(s.stop, s.chunks.length)]
    start := s.stop
    stop := s.chunks.length
    clusters := s.clusters ++ [made] }

/-- A layer of more than two chunks. -/
def clusterLayer (cfg : Config) (B : Behaviour) (pass : ℕ) (s : State) :
    Except RaptorError State := do
  let n := s.stop - s.start
  let k ← getOptimalClusters cfg B pass n
  let lbls ← labels cfg B pass n k
  let made := (List.range k).map (clusterOf s.start lbls)
  if made.any List.isEmpty then .error .assertionError
  else
    let t ← gather cfg B pass made s
    if t.chunks.length - t.stop ≠ k then .error .assertionError
    else return t.close made

/-- A layer of two chunks is one cluster. -/
def pairLayer (cfg : Config) (B : Behaviour) (pass : ℕ) (s : State) :
    Except RaptorError State := do
  let made := [[s.start, s.start + 1]]
  let t ← gather cfg B pass made s
  return t.close made

def raptorLoop (cfg : Config) (B : Behaviour) : ℕ → ℕ → State → Except RaptorError State
  | fuel, pass, s =>
    if s.stop - s.start ≤ 1 then .ok s
    else
      match fuel with
      | 0 => .error .outOfFuel
      | fuel + 1 => do
        let t ← if s.stop - s.start = 2 then pairLayer cfg B pass s else clusterLayer cfg B pass s
        raptorLoop cfg B fuel (pass + 1) t

/-- The chunks with a text and an embedding. -/
def usable (chunks : List (String × Option (List ℚ))) : List Node :=
  chunks.filterMap fun ck =>
    match ck.2 with
    | some a => if ck.1 ≠ "" ∧ a ≠ [] then some (ck.1, a) else none
    | none => none

/-- `__call__`, with as many passes as there are chunks at most. -/
def raptor (cfg : Config) (B : Behaviour) (chunks : List (String × Option (List ℚ))) :
    Except RaptorError State :=
  if chunks.length ≤ 1 then
    .ok { chunks := [], layers := [], start := 0, stop := 0, errors := cfg.errorCount }
  else
    let chunks := usable chunks
    raptorLoop cfg B chunks.length 0 {
      chunks
      layers := [(0, chunks.length)]
      start := 0
      stop := chunks.length
      errors := cfg.errorCount }

/-! ## One layer -/

variable {cfg : Config} {B : Behaviour} {pass n k : ℕ} {s t : State} {cks : List Node}

theorem getOptimalClusters_lt (h : getOptimalClusters cfg B pass n = .ok k) : 0 < k ∧ k < n := by
  rw [getOptimalClusters] at h
  split at h
  · rename_i c hc
    obtain rfl : c = k := Except.ok.inj h
    have hmem := List.argmin_mem hc
    obtain ⟨i, hi, rfl⟩ := List.mem_map.mp hmem
    have := List.mem_range.mp hi
    omega
  · exact absurd h nofun

/-- The cluster of a row: the first above the threshold, and the only one if there is one. -/
def rowLabel (cfg : Config) (B : Behaviour) (pass n k : ℕ) (i : Fin n) : Option ℕ :=
  if hk : 2 ≤ k then (firstAbove cfg.threshold ((B.membership pass n k hk).prob i)).map Fin.val
  else some 0

theorem labels_eq_ok {lbls : List ℕ} :
    labels cfg B pass n k = .ok lbls ↔
      (List.finRange n).map (rowLabel cfg B pass n k) = lbls.map some := by
  by_cases hk : 2 ≤ k
  · rw [labels, dif_pos hk]
    refine mapM_eq_ok fun i c => ?_
    rw [rowLabel, dif_pos hk]
    cases firstAbove cfg.threshold ((B.membership pass n k hk).prob i) with
    | none => simp
    | some c => simp
  · have hzero : rowLabel cfg B pass n k = fun _ => some 0 := by
      funext i
      rw [rowLabel, dif_neg hk]
    have hsome : List.replicate n (some 0) = (List.replicate n 0).map some :=
      List.map_replicate.symm
    rw [labels, dif_neg hk, hzero, List.map_const', List.length_finRange, hsome,
      List.map_inj_right fun _ _ h => Option.some.inj h, Except.ok.injEq]

theorem rowLabel_lt {i : Fin n} {c : ℕ} (hk : 0 < k) (h : rowLabel cfg B pass n k i = some c) :
    c < k := by
  rw [rowLabel] at h
  split at h
  · obtain ⟨d, -, rfl⟩ := Option.map_eq_some_iff.mp h
    exact d.isLt
  · obtain rfl : 0 = c := Option.some.inj h
    exact hk

/-- A layer of more than two goes through if every row has a cluster, every cluster a row,
and every cluster is summarised. -/
structure PassFits (cfg : Config) (B : Behaviour) (pass n k : ℕ) : Prop where
  chosen : getOptimalClusters cfg B pass n = .ok k
  labelled : ∀ i : Fin n, rowLabel cfg B pass n k i ≠ none
  inhabited : ∀ c < k, ∃ i : Fin n, rowLabel cfg B pass n k i = some c
  summarised : ∀ c < k, B.summary pass c ≠ none

/-- The labels, seen from the rows. -/
theorem labels_getElem? {lbls : List ℕ} (h : labels cfg B pass n k = .ok lbls) :
    lbls.length = n ∧ ∀ i : Fin n, lbls[i.val]? = rowLabel cfg B pass n k i := by
  have hmap := labels_eq_ok.mp h
  have hlen : lbls.length = n := by simpa using (congrArg List.length hmap).symm
  refine ⟨hlen, fun i => ?_⟩
  have hi : i.val < lbls.length := hlen ▸ i.isLt
  have hrow := congrArg (·[i.val]?) hmap
  simpa [hi] using hrow.symm

theorem exists_labels (h : ∀ i : Fin n, rowLabel cfg B pass n k i ≠ none) :
    ∃ lbls, labels cfg B pass n k = .ok lbls := by
  refine ⟨(List.finRange n).map fun i => (rowLabel cfg B pass n k i).getD 0, labels_eq_ok.mpr ?_⟩
  rw [List.map_map]
  refine List.map_congr_left fun i _ => ?_
  obtain ⟨c, hc⟩ := Option.ne_none_iff_exists'.mp (h i)
  simp [hc]

theorem labels_lt {lbls : List ℕ} (hk : 0 < k) (h : labels cfg B pass n k = .ok lbls) :
    ∀ c ∈ lbls, c < k := by
  obtain ⟨hlen, hrow⟩ := labels_getElem? h
  intro c hc
  obtain ⟨i, hi, hic⟩ := List.mem_iff_getElem.mp hc
  have hlabel := hrow ⟨i, hlen ▸ hi⟩
  rw [List.getElem?_eq_getElem hi, hic] at hlabel
  exact rowLabel_lt hk hlabel.symm

theorem mem_clusterOf {start : ℕ} {lbls : List ℕ} {c j : ℕ} :
    j ∈ clusterOf start lbls c ↔ ∃ i, lbls[i]? = some c ∧ i + start = j := by
  simp only [clusterOf, List.mem_map, List.mem_filter, List.mem_range, decide_eq_true_eq]
  constructor
  · rintro ⟨i, ⟨-, hi⟩, rfl⟩
    exact ⟨i, hi, rfl⟩
  · rintro ⟨i, hi, rfl⟩
    obtain ⟨hlt, -⟩ := List.getElem?_eq_some_iff.mp hi
    exact ⟨i, ⟨hlt, hi⟩, rfl⟩

/-- The clusters are the layer, each chunk of it once. -/
theorem clusters_perm {start : ℕ} {lbls : List ℕ} (hlbls : ∀ i ∈ lbls, i < k) :
    ((List.range k).map (clusterOf start lbls)).flatten.Perm
      (span (start, start + lbls.length)) := by
  let key (i : ℕ) : Option ℕ := lbls[i]?
  have hkeys : ((List.range k).map some).Nodup :=
    List.nodup_range.map fun _ _ h => Option.some.inj h
  have hkey : ∀ i ∈ List.range lbls.length, key i ∈ (List.range k).map some := by
    intro i hi
    have hlt := List.mem_range.mp hi
    have hmem := hlbls _ (List.getElem_mem hlt)
    exact List.mem_map.mpr ⟨lbls[i], List.mem_range.mpr hmem, (List.getElem?_eq_getElem hlt).symm⟩
  have hclasses := (flatMap_filter_perm hkeys hkey).map (· + start)
  have hspan : (List.range lbls.length).map (· + start) = span (start, start + lbls.length) := by
    rw [span, Nat.add_sub_cancel_left, List.range'_eq_map_range]
    simp only [Nat.add_comm]
  rw [hspan, List.flatMap_map, List.map_flatMap] at hclasses
  exact hclasses

theorem summaries_perm (made : List (List ℕ)) :
    (summaries B pass made).Perm ((List.range made.length).filterMap (B.summary pass)) :=
  (B.order_perm pass _).filterMap _

theorem length_summaries_le (made : List (List ℕ)) :
    (summaries B pass made).length ≤ made.length := by
  rw [(summaries_perm made).length_eq]
  exact (List.length_filterMap_le _ _).trans List.length_range.le

/-- No summary is missing exactly if every cluster is summarised. -/
theorem length_summaries_eq {made : List (List ℕ)} :
    (summaries B pass made).length = made.length ↔ ∀ c < made.length, B.summary pass c ≠ none := by
  have hall := List.filterMap_length_eq_length (f := B.summary pass) (l := List.range made.length)
  rw [List.length_range] at hall
  rw [(summaries_perm made).length_eq, hall]
  simp only [List.mem_range, Option.isSome_iff_ne_none]

theorem gather_eq_ok {made : List (List ℕ)} (h : gather cfg B pass made s = .ok t) :
    ∃ e, t = { s with chunks := s.chunks ++ summaries B pass made, errors := e } := by
  rw [gather] at h
  split at h
  · exact absurd h nofun
  · exact ⟨_, (Except.ok.inj h).symm⟩

theorem gather_of_ne_aborted {made : List (List ℕ)}
    (h : gather cfg B pass made s ≠ .error .aborted) : ∃ t, gather cfg B pass made s = .ok t := by
  rw [gather] at h ⊢
  split at h
  · exact absurd rfl h
  · rename_i hfew
    rw [if_neg hfew]
    exact ⟨_, rfl⟩

theorem gather_of_summarised {made : List (List ℕ)}
    (h : ∀ c < made.length, B.summary pass c ≠ none) :
    ∃ t, gather cfg B pass made s = .ok t := by
  have hnone : (List.range made.length).countP (fun c => (B.summary pass c).isNone) = 0 := by
    rw [List.countP_eq_zero]
    intro c hc
    simpa [Option.isNone_iff_eq_none] using h c (List.mem_range.mp hc)
  rw [gather, hnone, if_neg fun hf => hf.1 rfl]
  exact ⟨_, rfl⟩

/-- The next layer is what was appended. -/
theorem length_appended (hstop : s.stop = s.chunks.length) (new : List Node) :
    (s.chunks ++ new).length - s.stop = new.length := by
  rw [List.length_append, hstop, Nat.add_sub_cancel_left]

/-- What a layer of more than two does, if it does anything: the layer is divided into clusters,
and every cluster has its summary. -/
theorem clusterLayer_eq_ok (hstop : s.stop = s.chunks.length)
    (h : clusterLayer cfg B pass s = .ok t) :
    ∃ made e, PassFits cfg B pass (s.stop - s.start) made.length ∧ [] ∉ made ∧
      made.flatten.Perm (span (s.start, s.stop)) ∧
      t = State.close { s with chunks := s.chunks ++ summaries B pass made, errors := e } made := by
  obtain ⟨k, hk, h⟩ := bind_eq_ok.mp h
  obtain ⟨lbls, hlbls, h⟩ := bind_eq_ok.mp h
  obtain ⟨hpos, hlt⟩ := getOptimalClusters_lt hk
  obtain ⟨hlen, hrow⟩ := labels_getElem? hlbls
  let made := (List.range k).map (clusterOf s.start lbls)
  have hmade : made.length = k := by simp [made]
  have hcover : s.start + lbls.length = s.stop := by omega
  change (if made.any List.isEmpty then _ else _) = _ at h
  split at h
  · exact absurd h nofun
  rename_i hne
  obtain ⟨u, hu, h⟩ := bind_eq_ok.mp h
  obtain ⟨e, rfl⟩ := gather_eq_ok hu
  split at h
  · exact absurd h nofun
  rename_i hcount
  have hlabel := labels_lt hpos hlbls
  have hnil : [] ∉ made := by
    intro hmem
    exact hne (List.any_eq_true.mpr ⟨[], hmem, rfl⟩)
  have hperm : made.flatten.Perm (span (s.start, s.stop)) := by
    rw [← hcover]
    exact clusters_perm hlabel
  refine ⟨made, e, ⟨hmade ▸ hk, ?_, ?_, ?_⟩, hnil, hperm, (pure_eq_ok.mp h).symm⟩
  · intro i
    have hi : i.val < lbls.length := i.isLt.trans_eq hlen.symm
    rw [hmade, ← hrow i, List.getElem?_eq_getElem hi]
    exact Option.some_ne_none _
  · intro c hc
    rw [hmade] at hc ⊢
    have hmem : clusterOf s.start lbls c ∈ made :=
      List.mem_map.mpr ⟨c, List.mem_range.mpr hc, rfl⟩
    obtain ⟨j, hj⟩ := List.exists_mem_of_ne_nil _ fun hnone => hnil (hnone ▸ hmem)
    obtain ⟨i, hi, -⟩ := mem_clusterOf.mp hj
    obtain ⟨hilt, -⟩ := List.getElem?_eq_some_iff.mp hi
    exact ⟨⟨i, hlen ▸ hilt⟩, hrow ⟨i, hlen ▸ hilt⟩ ▸ hi⟩
  · refine length_summaries_eq.mp ?_
    rw [hmade, ← length_appended hstop]
    exact not_not.mp hcount

/-- Where a layer fits, it goes through. -/
theorem exists_clusterLayer (hstop : s.stop = s.chunks.length)
    (h : PassFits cfg B pass (s.stop - s.start) k) : ∃ t, clusterLayer cfg B pass s = .ok t := by
  obtain ⟨lbls, hlbls⟩ := exists_labels h.labelled
  obtain ⟨hlen, hrow⟩ := labels_getElem? hlbls
  let made := (List.range k).map (clusterOf s.start lbls)
  have hmade : made.length = k := by simp [made]
  have hne : ¬ made.any List.isEmpty := by
    intro hany
    obtain ⟨cl, hcl, hnil⟩ := List.any_eq_true.mp hany
    obtain ⟨c, hc, rfl⟩ := List.mem_map.mp hcl
    obtain ⟨i, hi⟩ := h.inhabited c (List.mem_range.mp hc)
    have hmem : i.val + s.start ∈ clusterOf s.start lbls c :=
      mem_clusterOf.mpr ⟨i.val, (hrow i).trans hi, rfl⟩
    rw [List.isEmpty_iff.mp hnil] at hmem
    exact absurd hmem List.not_mem_nil
  have hgather : ∃ u, gather cfg B pass made s = .ok u :=
    gather_of_summarised (hmade.symm ▸ h.summarised)
  obtain ⟨u, hu⟩ := hgather
  obtain ⟨e, rfl⟩ := gather_eq_ok hu
  have hnew : (summaries B pass made).length = k :=
    (length_summaries_eq.mpr (hmade.symm ▸ h.summarised)).trans hmade
  refine ⟨State.close { s with chunks := s.chunks ++ summaries B pass made, errors := e } made,
    bind_eq_ok.mpr ⟨k, h.chosen, bind_eq_ok.mpr ⟨lbls, hlbls, ?_⟩⟩⟩
  change (if made.any List.isEmpty then _ else _) = _
  rw [if_neg hne]
  refine bind_eq_ok.mpr ⟨_, hu, ?_⟩
  rw [if_neg (not_not.mpr ((length_appended hstop _).trans hnew))]
  rfl

theorem gather_ne_outOfFuel (made : List (List ℕ)) :
    gather cfg B pass made s ≠ .error .outOfFuel := by
  rw [gather]
  split
  · exact nofun
  · exact nofun

theorem labels_ne_outOfFuel : labels cfg B pass n k ≠ .error .outOfFuel := by
  rw [labels]
  split
  · refine mapM_ne_error fun i => ?_
    split
    · exact nofun
    · exact nofun
  · exact nofun

theorem getOptimalClusters_ne_outOfFuel :
    getOptimalClusters cfg B pass n ≠ .error .outOfFuel := by
  rw [getOptimalClusters]
  split
  · exact nofun
  · exact nofun

theorem clusterLayer_ne_outOfFuel : clusterLayer cfg B pass s ≠ .error .outOfFuel := by
  refine bind_ne_error getOptimalClusters_ne_outOfFuel fun k _ => ?_
  refine bind_ne_error labels_ne_outOfFuel fun lbls _ => ?_
  dsimp only
  split
  · exact nofun
  · refine bind_ne_error (gather_ne_outOfFuel _) fun t _ => ?_
    split
    · exact nofun
    · exact nofun

theorem pairLayer_ne_outOfFuel : pairLayer cfg B pass s ≠ .error .outOfFuel :=
  bind_ne_error (gather_ne_outOfFuel _) fun _ _ => nofun

theorem pairLayer_eq_ok (h : pairLayer cfg B pass s = .ok t) :
    ∃ e, t = State.close
      { s with chunks := s.chunks ++ summaries B pass [[s.start, s.start + 1]], errors := e }
      [[s.start, s.start + 1]] := by
  obtain ⟨u, hu, h⟩ := bind_eq_ok.mp h
  obtain ⟨e, rfl⟩ := gather_eq_ok hu
  exact ⟨e, (pure_eq_ok.mp h).symm⟩

theorem exists_pairLayer (h : pairLayer cfg B pass s ≠ .error .aborted) :
    ∃ t, pairLayer cfg B pass s = .ok t := by
  have hgather : gather cfg B pass [[s.start, s.start + 1]] s ≠ .error .aborted := by
    intro hab
    rw [pairLayer, hab] at h
    exact h rfl
  obtain ⟨u, hu⟩ := gather_of_ne_aborted hgather
  exact ⟨_, bind_eq_ok.mpr ⟨u, hu, rfl⟩⟩

/-! ## The layers -/

/-- The chunks of an interval. -/
def slice (chunks : List Node) (i : ℕ × ℕ) : List Node :=
  (chunks.take i.2).drop i.1

/-- Every chunk of the layer `a` is in exactly one of the clusters, and the layer `b` has the
summaries of those clusters that were not skipped. -/
structure Summarised (B : Behaviour) (pass : ℕ) (chunks : List Node) (a b : ℕ × ℕ)
    (made : List (List ℕ)) : Prop where
  nonempty : [] ∉ made
  exactly_once : made.flatten.Perm (span a)
  next : (slice chunks b).Perm ((List.range made.length).filterMap (B.summary pass))

/-- The layers are intervals one after the other that make up the list of chunks, the first of
them the input; each is smaller than the one before and holds its summaries. -/
structure WellLayered (B : Behaviour) (cks : List Node) (s : State) : Prop where
  first : s.layers.head? = some (0, cks.length)
  input : cks <+: s.chunks
  partition : s.layers.flatMap span = List.range s.chunks.length
  bounded : ∀ i ∈ s.layers, i.1 ≤ i.2 ∧ i.2 ≤ s.chunks.length
  chain : s.layers.IsChain fun a b => b.1 = a.2 ∧ b.2 - b.1 < a.2 - a.1
  last : s.layers.getLast? = some (s.start, s.stop)
  stop_eq : s.stop = s.chunks.length
  length_eq : s.layers.length = s.clusters.length + 1
  summarised : ∀ i a b made, s.layers[i]? = some a → s.layers[i + 1]? = some b →
    s.clusters[i]? = some made → Summarised B i s.chunks a b made

theorem slice_append {chunks new : List Node} {i : ℕ × ℕ} (h : i.2 ≤ chunks.length) :
    slice (chunks ++ new) i = slice chunks i := by
  rw [slice, List.take_append_of_le_length h, slice]

theorem Summarised.append {chunks new : List Node} {a b : ℕ × ℕ} {made : List (List ℕ)}
    (h : Summarised B pass chunks a b made) (hb : b.2 ≤ chunks.length) :
    Summarised B pass (chunks ++ new) a b made :=
  ⟨h.nonempty, h.exactly_once, slice_append hb ▸ h.next⟩

theorem slice_new {chunks new : List Node} :
    slice (chunks ++ new) (chunks.length, (chunks ++ new).length) = new := by
  rw [slice, List.take_length, List.drop_left]

theorem wellLayered_start (errors : ℕ) :
    WellLayered B cks
      { chunks := cks, layers := [(0, cks.length)], start := 0, stop := cks.length, errors } where
  first := rfl
  input := List.prefix_rfl
  partition := by simp [span, List.range_eq_range']
  bounded := by simp
  chain := List.isChain_singleton _
  last := rfl
  stop_eq := rfl
  length_eq := rfl
  summarised := by simp

/-- The layer that is closed has its clusters, and the layers before it keep theirs. -/
theorem WellLayered.summarised_close (h : WellLayered B cks s) {made : List (List ℕ)}
    (hnil : [] ∉ made) (hperm : made.flatten.Perm (span (s.start, s.stop))) {i : ℕ}
    {a b : ℕ × ℕ} {made' : List (List ℕ)} {new : List Node}
    (hnew : new.Perm ((List.range made.length).filterMap (B.summary s.clusters.length)))
    (ha : (s.layers ++ [(s.stop, (s.chunks ++ new).length)])[i]? = some a)
    (hb : (s.layers ++ [(s.stop, (s.chunks ++ new).length)])[i + 1]? = some b)
    (hmade : (s.clusters ++ [made])[i]? = some made') :
    Summarised B i (s.chunks ++ new) a b made' := by
  have hlen := h.length_eq
  rcases lt_or_ge i s.clusters.length with hi | hi
  · rw [List.getElem?_append_left (by omega)] at ha hb
    rw [List.getElem?_append_left hi] at hmade
    have hbound := (h.bounded b (List.mem_of_getElem? hb)).2
    exact (h.summarised i a b made' ha hb hmade).append hbound
  · obtain ⟨hlt, -⟩ := List.getElem?_eq_some_iff.mp hmade
    obtain rfl : i = s.clusters.length := by
      rw [List.length_append, List.length_singleton] at hlt
      omega
    have hlast := h.last
    rw [List.getLast?_eq_getElem?, hlen, Nat.add_sub_cancel] at hlast
    rw [List.getElem?_append_left (by omega)] at ha
    obtain rfl : (s.start, s.stop) = a := Option.some.inj (hlast.symm.trans ha)
    rw [← hlen, List.getElem?_concat_length] at hb
    obtain rfl := Option.some.inj hb
    rw [List.getElem?_concat_length] at hmade
    obtain rfl : made = made' := Option.some.inj hmade
    refine ⟨hnil, hperm, ?_⟩
    rw [h.stop_eq, slice_new]
    exact hnew

/-- A layer that is divided into clusters and followed by fewer summaries is a step forward. -/
theorem WellLayered.close (h : WellLayered B cks s) {made : List (List ℕ)} {e : ℕ}
    (hnil : [] ∉ made) (hperm : made.flatten.Perm (span (s.start, s.stop)))
    (hless : (summaries B s.clusters.length made).length < s.stop - s.start) :
    WellLayered B cks
      (State.close { s with
        chunks := s.chunks ++ summaries B s.clusters.length made, errors := e } made) := by
  let new := summaries B s.clusters.length made
  let added : ℕ × ℕ := (s.stop, (s.chunks ++ new).length)
  have hle : s.stop ≤ (s.chunks ++ new).length := by
    rw [List.length_append, h.stop_eq]
    exact Nat.le_add_right _ _
  have hne : s.layers ≠ [] := by
    intro hnone
    simpa [hnone] using h.last
  constructor
  · change (s.layers ++ [added]).head? = _
    rw [List.head?_append_of_ne_nil _ hne, h.first]
  · exact h.input.trans (List.prefix_append _ _)
  · change (s.layers ++ [added]).flatMap span = List.range (s.chunks ++ new).length
    rw [List.flatMap_append, h.partition, ← h.stop_eq, List.flatMap_singleton]
    exact range_append_span hle
  · intro i hi
    rcases List.mem_append.mp hi with hi | hi
    · obtain ⟨hi, hlen⟩ := h.bounded i hi
      exact ⟨hi, hlen.trans (h.stop_eq ▸ hle)⟩
    · obtain rfl := List.mem_singleton.mp hi
      exact ⟨hle, le_rfl⟩
  · refine h.chain.append (List.isChain_singleton _) fun a ha b hb => ?_
    obtain rfl : (s.start, s.stop) = a := Option.some.inj (h.last.symm.trans ha)
    obtain rfl : added = b := Option.some.inj hb
    exact ⟨rfl, (length_appended h.stop_eq new).trans_lt hless⟩
  · exact List.getLast?_concat
  · rfl
  · change (s.layers ++ [added]).length = (s.clusters ++ [made]).length + 1
    rw [List.length_append, List.length_append, h.length_eq]
    rfl
  · intro i a b made' ha hb hmade
    exact h.summarised_close hnil hperm (summaries_perm made) ha hb hmade

theorem clusterLayer_wellLayered (h : WellLayered B cks s)
    (hok : clusterLayer cfg B s.clusters.length s = .ok t) :
    PassFits cfg B s.clusters.length (s.stop - s.start) (t.stop - t.start) ∧
      WellLayered B cks t ∧ t.clusters.length = s.clusters.length + 1 := by
  obtain ⟨made, e, hfits, hnil, hperm, rfl⟩ := clusterLayer_eq_ok h.stop_eq hok
  have hall := length_summaries_eq.mpr hfits.summarised
  have hless := (getOptimalClusters_lt hfits.chosen).2
  refine ⟨?_, h.close hnil hperm (hall.trans_lt hless), by simp [State.close]⟩
  change PassFits cfg B _ _ ((s.chunks ++ _).length - s.stop)
  rw [length_appended h.stop_eq, hall]
  exact hfits

theorem pairLayer_wellLayered (h : WellLayered B cks s) (hpair : s.stop - s.start = 2)
    (hok : pairLayer cfg B s.clusters.length s = .ok t) :
    t.stop - t.start ≤ 1 ∧ WellLayered B cks t ∧ t.clusters.length = s.clusters.length + 1 := by
  obtain ⟨e, rfl⟩ := pairLayer_eq_ok hok
  have hone : (summaries B s.clusters.length [[s.start, s.start + 1]]).length ≤ 1 :=
    length_summaries_le _
  refine ⟨?_, h.close (by simp) ?_ (by omega), by simp [State.close]⟩
  · change (s.chunks ++ _).length - s.stop ≤ 1
    rw [length_appended h.stop_eq]
    exact hone
  · rw [span, hpair]
    exact .rfl

/-! ## The whole tree -/

/-- Every layer of more than two that is reached goes through. -/
inductive Tame (cfg : Config) (B : Behaviour) : ℕ → ℕ → Prop
  | small {pass n : ℕ} : n ≤ 2 → Tame cfg B pass n
  | layer {pass n k : ℕ} :
      2 < n → PassFits cfg B pass n k → Tame cfg B (pass + 1) k → Tame cfg B pass n

theorem raptorLoop_done {fuel : ℕ} (h : s.stop - s.start ≤ 1) :
    raptorLoop cfg B fuel pass s = .ok s := by
  unfold raptorLoop
  rw [if_pos h]

theorem raptorLoop_pair {fuel : ℕ} (h : s.stop - s.start = 2) :
    raptorLoop cfg B (fuel + 1) pass s =
      pairLayer cfg B pass s >>= raptorLoop cfg B fuel (pass + 1) := by
  rw [raptorLoop, if_neg (by omega)]
  simp only [h, if_true]

theorem raptorLoop_layer {fuel : ℕ} (h : 2 < s.stop - s.start) :
    raptorLoop cfg B (fuel + 1) pass s =
      clusterLayer cfg B pass s >>= raptorLoop cfg B fuel (pass + 1) := by
  rw [raptorLoop, if_neg (by omega)]
  simp only [if_neg (show s.stop - s.start ≠ 2 by omega)]

theorem raptorLoop_zero (h : 1 < s.stop - s.start) :
    raptorLoop cfg B 0 pass s = .error .outOfFuel := by
  rw [raptorLoop, if_neg (by omega)]

/-- What the loop returns has all its layers in order, and no layer on the way was in trouble. -/
theorem raptorLoop_wellLayered {fuel : ℕ} (h : WellLayered B cks s)
    (hpass : s.clusters.length = pass) (hok : raptorLoop cfg B fuel pass s = .ok t) :
    WellLayered B cks t ∧ Tame cfg B pass (s.stop - s.start) := by
  induction fuel generalizing pass s with
  | zero =>
      by_cases hdone : s.stop - s.start ≤ 1
      · rw [raptorLoop_done hdone] at hok
        exact ⟨Except.ok.inj hok ▸ h, .small (by omega)⟩
      · rw [raptorLoop_zero (by omega)] at hok
        exact absurd hok nofun
  | succ fuel ih =>
      subst hpass
      rcases Nat.lt_trichotomy (s.stop - s.start) 2 with hdone | hpair | hlayer
      · rw [raptorLoop_done (by omega)] at hok
        exact ⟨Except.ok.inj hok ▸ h, .small (by omega)⟩
      · rw [raptorLoop_pair hpair] at hok
        obtain ⟨u, hu, hok⟩ := bind_eq_ok.mp hok
        obtain ⟨-, hwell, hlen⟩ := pairLayer_wellLayered h hpair hu
        exact ⟨(ih hwell hlen hok).1, .small hpair.le⟩
      · rw [raptorLoop_layer hlayer] at hok
        obtain ⟨u, hu, hok⟩ := bind_eq_ok.mp hok
        obtain ⟨hfits, hwell, hlen⟩ := clusterLayer_wellLayered h hu
        obtain ⟨ht, htame⟩ := ih hwell hlen hok
        exact ⟨ht, .layer hlayer hfits htame⟩

/-- Where every layer fits, the loop comes to its end with as much fuel as there are chunks. -/
theorem exists_raptorLoop (htame : Tame cfg B pass n) {fuel : ℕ} (h : WellLayered B cks s)
    (hpass : s.clusters.length = pass) (hn : s.stop - s.start = n) (hfuel : n ≤ fuel + 1)
    (hab : raptorLoop cfg B fuel pass s ≠ .error .aborted) :
    ∃ t, raptorLoop cfg B fuel pass s = .ok t := by
  induction htame generalizing s fuel with
  | small hsmall =>
      subst hn hpass
      by_cases hdone : s.stop - s.start ≤ 1
      · exact ⟨s, raptorLoop_done hdone⟩
      · obtain ⟨fuel, rfl⟩ := Nat.exists_eq_succ_of_ne_zero (show fuel ≠ 0 by omega)
        have hpair : s.stop - s.start = 2 := by omega
        rw [raptorLoop_pair hpair] at hab ⊢
        obtain ⟨u, hu⟩ := exists_pairLayer fun hu => hab (by rw [hu]; rfl)
        obtain ⟨hend, -, -⟩ := pairLayer_wellLayered h hpair hu
        exact ⟨u, bind_eq_ok.mpr ⟨u, hu, raptorLoop_done hend⟩⟩
  | layer hlayer hfits _ ih =>
      subst hn hpass
      obtain ⟨fuel, rfl⟩ := Nat.exists_eq_succ_of_ne_zero (show fuel ≠ 0 by omega)
      rw [raptorLoop_layer hlayer] at hab ⊢
      obtain ⟨u, hu⟩ := exists_clusterLayer h.stop_eq hfits
      obtain ⟨hfits', hwell, hlen⟩ := clusterLayer_wellLayered h hu
      have hk := Except.ok.inj (hfits'.chosen.symm.trans hfits.chosen)
      have hless := (getOptimalClusters_lt hfits.chosen).2
      rw [hu] at hab
      obtain ⟨t, ht⟩ := ih hwell hlen hk (by omega) hab
      exact ⟨t, bind_eq_ok.mpr ⟨u, hu, ht⟩⟩

/-- Whatever fails, the loop comes to an end: there are fewer clusters than chunks. -/
theorem raptorLoop_ne_outOfFuel {fuel : ℕ} (h : WellLayered B cks s)
    (hpass : s.clusters.length = pass) (hfuel : s.stop - s.start ≤ fuel + 1) :
    raptorLoop cfg B fuel pass s ≠ .error .outOfFuel := by
  induction fuel generalizing pass s with
  | zero => exact raptorLoop_done hfuel ▸ nofun
  | succ fuel ih =>
      subst hpass
      rcases Nat.lt_trichotomy (s.stop - s.start) 2 with hdone | hpair | hlayer
      · exact raptorLoop_done (Nat.le_of_lt_succ hdone) ▸ nofun
      · rw [raptorLoop_pair hpair]
        refine bind_ne_error pairLayer_ne_outOfFuel fun u hu => ?_
        obtain ⟨hend, hwell, hlen⟩ := pairLayer_wellLayered h hpair hu
        exact ih hwell hlen (hend.trans (Nat.le_add_left 1 fuel))
      · rw [raptorLoop_layer hlayer]
        refine bind_ne_error clusterLayer_ne_outOfFuel fun u hu => ?_
        obtain ⟨hfits, hwell, hlen⟩ := clusterLayer_wellLayered h hu
        have hless := (getOptimalClusters_lt hfits.chosen).2
        exact ih hwell hlen (by omega)

theorem raptor_ne_outOfFuel (input : List (String × Option (List ℚ))) :
    raptor cfg B input ≠ .error .outOfFuel := by
  rw [raptor]
  split
  · exact nofun
  · exact raptorLoop_ne_outOfFuel (wellLayered_start _) rfl (by simp)

/-- Unless there are too many errors, the tree is built, with its layers in order, exactly if
every layer of more than two chunks has a number of clusters to choose, a cluster for each row,
a row for each cluster, and no summary that is skipped. -/
theorem raptor_wellLayered_iff {input : List (String × Option (List ℚ))}
    (hinput : 2 ≤ input.length) (hab : raptor cfg B input ≠ .error .aborted) :
    (∃ t, raptor cfg B input = .ok t ∧ WellLayered B (usable input) t) ↔
      Tame cfg B 0 (usable input).length := by
  have hstart : WellLayered B (usable input) _ := wellLayered_start cfg.errorCount
  rw [raptor, if_neg (by omega)] at hab ⊢
  constructor
  · rintro ⟨t, ht, -⟩
    exact (raptorLoop_wellLayered hstart rfl ht).2
  · intro htame
    obtain ⟨t, ht⟩ := exists_raptorLoop htame hstart rfl rfl (Nat.le_succ _) hab
    exact ⟨t, ht, (raptorLoop_wellLayered hstart rfl ht).1⟩

/-- Clusterings that put every other chunk into the second of two clusters. -/
def alternating (summary : ℕ → ℕ → Option Node) : Behaviour where
  bic _ k := if k = 2 then 0 else 1
  membership _ _ cols hcols := {
    prob := fun i c => if c = ⟨i.val % cols, Nat.mod_lt _ (by omega)⟩ then 1 else 0
    nonneg := fun i c => by
      split
      · exact zero_le_one
      · exact le_rfl
    sum_eq_one := fun i => by simp }
  summary := summary
  order _ l := l
  order_perm _ _ := .rfl

/-- With all summaries there, three chunks become two and then one. -/
theorem raptor_wellLayered_alternating :
    ∃ t, raptor { threshold := 1 / 10 } (alternating fun _ _ => some ("sum", [1]))
        [("a", some [1]), ("b", some [2]), ("c", some [3])] = .ok t ∧
      WellLayered (alternating fun _ _ => some ("sum", [1]))
        [("a", [1]), ("b", [2]), ("c", [3])] t := by
  have hfits : PassFits { threshold := 1 / 10 } (alternating fun _ _ => some ("sum", [1])) 0 3 2 :=
    { chosen := by decide +kernel
      labelled := by decide +kernel
      inhabited := by decide +kernel
      summarised := by decide }
  exact (raptor_wellLayered_iff (by decide) (by decide +kernel)).mpr
    (.layer (by decide) hfits (.small le_rfl))

/-- One summary of two is skipped, and the errors are fewer than allowed. -/
theorem skipped_summary_raises :
    raptor { threshold := 1 / 10 }
        (alternating fun _ c => if c = 0 then none else some ("sum", [1]))
        [("a", some [1]), ("b", some [2]), ("c", some [3])] =
      .error .assertionError := by
  decide +kernel

end RagFlow.Ingestion.Raptor
