/-
# Texts between tables and images

The texts of a run between two tables or images are split and joined for themselves. Up to white
space and delimiters the chunks of a run hold the texts of its items in order, and so do the pieces
into which a chunk is split at children delimiters. Without custom delimiters every chunk but the
last has more tokens than the chunk size, though not without its last item.
-/

import Mathlib
import RagFlow.Math.Join
import RagFlow.Flow.TokenChunker

namespace RagFlow.Flow

open RagFlow.Math
open RagFlow.Chunking
open RagFlow.Query (strip)
open RagFlow.Ingestion (isSpace)

/-! ## What comes of a run -/

/-- The items that are joined into a chunk, and its tokens. -/
structure JoinedFrom (numTokens : Text → ℕ) (size : ℕ) (sources : List UpstreamItem)
    (chunk : WorkChunk) : Prop where
  nonempty : sources ≠ []
  text : chunk.text = ['\n'].intercalate (sources.map UpstreamItem.content)
  tkNums : chunk.tkNums = (sources.map fun item => numTokens item.content).sum
  small : (sources.dropLast.map fun item => numTokens item.content).sum ≤ size

/-- The items of a run that are not blank, joined until there are too many tokens. -/
def SizedRun (numTokens : Text → ℕ) (size : ℕ) (sources : List UpstreamItem)
    (chunks : List WorkChunk) : Prop :=
  ∃ groups : List (List UpstreamItem),
    groups.flatten = sources.filter (fun item => strip item.content ≠ []) ∧
      List.Forall₂ (JoinedFrom numTokens size) groups chunks ∧
      ∀ chunk ∈ chunks.dropLast, size < chunk.tkNums

/-- The documents of a chunk. -/
def docsOf (param : TokenChunkerParam) (chunk : WorkChunk) : List ChunkDoc :=
  (childrenOf param.activeChildren chunk).filterMap finalizeChunk

/-- The chunks of a run of texts, and the documents that they are split into. -/
structure RunChunks (numTokens : Text → ℕ) (param : TokenChunkerParam)
    (sources : List UpstreamItem) (chunks : List WorkChunk) : Prop where
  texts : ∀ chunk ∈ chunks, chunk.ckType = .text
  conserved : chunks.flatMap (fun chunk => bare param.activeDelimiters chunk.text) =
    sources.flatMap fun item => bare param.activeDelimiters item.content
  children : ∀ chunk ∈ chunks, (docsOf param chunk).flatMap
    (fun doc => bare param.activeChildren doc.text) = bare param.activeChildren chunk.text
  whole : param.activeChildren = [] → ∀ chunk ∈ chunks,
    (docsOf param chunk).map ChunkDoc.text = [chunk.text]
  sized : param.activeDelimiters = [] →
    SizedRun numTokens param.chunkTokenSize sources chunks

/-- A table or image is a document unless it has no text. -/
def mediaDocs (item : UpstreamItem) : List ChunkDoc :=
  if strip item.content = [] then []
  else
    [{ text := item.content, docTypeKwd := some item.ckType, positions := item.positions,
       imgId := item.imgId }]

/-- What comes of a table or image, and of a run of texts. -/
def PieceDocs (numTokens : Text → ℕ) (param : TokenChunkerParam) :
    Stretch UpstreamItem → List ChunkDoc → Prop
  | .mark item, docs => docs = mediaDocs item
  | .run sources, docs => ∃ chunks, docs = chunks.flatMap (docsOf param) ∧
      RunChunks numTokens param sources chunks

/-! ## Blank texts -/

section Texts

variable {t : Text} {delims : List Text} {chunk : WorkChunk} {item : UpstreamItem}

theorem exists_of_strip_ne_nil (h : strip t ≠ []) : ∃ c ∈ t, isSpace c = false := by
  by_contra hnone
  push Not at hnone
  refine h ?_
  have hdrop : t.dropWhile isSpace = [] := List.dropWhile_eq_nil_iff.mpr fun c hc =>
    Bool.of_not_eq_false (hnone c hc)
  rw [strip, hdrop]
  rfl

theorem strip_ne_nil_of_mem {c : Char} (hc : c ∈ t) (hspace : isSpace c = false) :
    strip t ≠ [] :=
  List.ne_nil_of_mem ((mem_strip_iff hspace).mpr hc)

/-- The pieces that are not blank keep the text. -/
theorem flatMap_bare_splitTextByPattern (delims : List Text) (t : Text) :
    ((splitTextByPattern t delims).filter (strip · ≠ [])).flatMap (bare delims) =
      bare delims t := by
  have hfilter : ∀ ts : List Text,
      (ts.filter (strip · ≠ [])).flatMap (bare delims) = ts.flatMap (bare delims) := by
    intro ts
    induction ts with
    | nil => rfl
    | cons t ts ih =>
        by_cases hblank : strip t = []
        · rw [List.filter_cons_of_neg (by simpa using hblank), ih, List.flatMap_cons,
            bare_eq_nil_of_strip hblank, List.nil_append]
        · rw [List.filter_cons_of_pos (by simpa using hblank), List.flatMap_cons,
            List.flatMap_cons, ih]
  rw [hfilter, splitTextByPattern]
  split
  · rw [List.flatMap_singleton]
  · exact flatMap_bare_split delims t

/-- A text that is not blank, with nothing attached to it. -/
structure IsPlain (chunk : WorkChunk) : Prop where
  ckType : chunk.ckType = .text
  above : chunk.contextAbove = []
  below : chunk.contextBelow = []
  notBlank : strip chunk.text ≠ []

theorem finalizeChunk_of_plain (h : IsPlain chunk) :
    finalizeChunk chunk = some
      { text := chunk.text, docTypeKwd := some chunk.ckType, positions := chunk.positions,
        mom := chunk.mom, imgId := chunk.imgId } := by
  rw [finalizeChunk, h.above, h.below, List.nil_append, List.append_nil, if_neg h.notBlank]

/-- The documents of a chunk keep its text. -/
theorem docsOf_plain (param : TokenChunkerParam) (h : IsPlain chunk) :
    (docsOf param chunk).flatMap (fun doc => bare param.activeChildren doc.text) =
        bare param.activeChildren chunk.text ∧
      (param.activeChildren = [] → (docsOf param chunk).map ChunkDoc.text = [chunk.text]) := by
  rw [docsOf, childrenOf]
  by_cases hnone : param.activeChildren = []
  · rw [if_pos (.inl hnone), List.filterMap_cons, finalizeChunk_of_plain h]
    simp
  · rw [if_neg (by simp [hnone, h.ckType])]
    refine ⟨?_, fun hnil => absurd hnil hnone⟩
    rw [← flatMap_bare_splitTextByPattern, List.filterMap_map]
    generalize hpieces : (splitTextByPattern chunk.text param.activeChildren).filter
      (strip · ≠ []) = pieces
    have hblank : ∀ t ∈ pieces, strip t ≠ [] := by
      intro t ht
      rw [← hpieces, List.mem_filter] at ht
      exact of_decide_eq_true ht.2
    clear hpieces
    induction pieces with
    | nil => rfl
    | cons t pieces ih =>
        have hplain : IsPlain { chunk with mom := chunk.text, text := t } :=
          ⟨h.ckType, h.above, h.below, hblank t List.mem_cons_self⟩
        rw [List.filterMap_cons, Function.comp_apply, finalizeChunk_of_plain hplain,
          List.flatMap_cons, List.flatMap_cons,
          ih fun t ht => hblank t (List.mem_cons_of_mem _ ht)]

end Texts

/-! ## Joining -/

section Joining

variable {numTokens : Text → ℕ} {param : TokenChunkerParam} {item : UpstreamItem}
  {done sources group : List UpstreamItem} {st : TokenMerge} {prev chunk : WorkChunk}

/-- The chunk of a text that is not split. -/
def ofItem (numTokens : Text → ℕ) (item : UpstreamItem) : WorkChunk :=
  { text := item.content, ckType := .text, positions := item.positions,
    tkNums := numTokens item.content }

theorem isPlain_ofItem (h : strip item.content ≠ []) : IsPlain (ofItem numTokens item) :=
  ⟨rfl, rfl, rfl, h⟩

theorem joinedFrom_ofItem (size : ℕ) (item : UpstreamItem) :
    JoinedFrom numTokens size [item] (ofItem numTokens item) := by
  refine ⟨List.cons_ne_nil _ _, ?_, ?_, Nat.zero_le size⟩
  · simp [ofItem]
  · simp [ofItem]

/-- The items so far in groups, with a chunk for each of them. Further texts go to the last one or
open another. -/
structure Joining (numTokens : Text → ℕ) (size : ℕ) (done : List UpstreamItem) (st : TokenMerge)
    (groups : List (List UpstreamItem)) : Prop where
  whole : groups.flatten = done
  joined : List.Forall₂ (JoinedFrom numTokens size) groups st.merged
  plain : ∀ chunk ∈ st.merged, IsPlain chunk
  full : ∀ chunk ∈ st.merged.dropLast, size < chunk.tkNums
  isOpen : st.merged ≠ [] → st.open_ = true

/-- What a chunk is when one more text is joined to it. -/
def joinText (prev chunk : WorkChunk) : WorkChunk :=
  { prev with
    text :=
      if prev.text ≠ [] ∧ chunk.text ≠ [] then prev.text ++ '\n' :: chunk.text
      else prev.text ++ chunk.text
    positions := prev.positions ++ chunk.positions
    tkNums := prev.tkNums + chunk.tkNums }

theorem mergeText_first (h : st.merged = []) (hchunk : chunk.ckType = .text) :
    mergeText numTokens param st chunk = { merged := [chunk], open_ := true } := by
  rw [mergeText, if_neg (by simp [hchunk]), h]
  simp

theorem mergeText_next {init : List WorkChunk} (hoverlap : param.overlappedPercent = 0)
    (hopen : st.open_ = true) (hmerged : st.merged = init ++ [prev])
    (hchunk : chunk.ckType = .text) :
    mergeText numTokens param st chunk =
      { merged := if param.chunkTokenSize < prev.tkNums then init ++ [prev] ++ [chunk]
          else init ++ [joinText prev chunk],
        open_ := true } := by
  rw [mergeText, if_neg (by simp [hchunk]), hopen, hmerged, if_pos rfl, List.getLast?_concat,
    hoverlap]
  have hsize : param.chunkTokenSize * (100 - 0) < prev.tkNums * 100 ↔
      param.chunkTokenSize < prev.tkNums := by omega
  simp only [hsize]
  split
  · simp
  · simp [joinText]

theorem JoinedFrom.join {size : ℕ} (h : JoinedFrom numTokens size group prev)
    (hprev : prev.text ≠ []) (hsize : prev.tkNums ≤ size) (hitem : item.content ≠ []) :
    JoinedFrom numTokens size (group ++ [item]) (joinText prev (ofItem numTokens item)) := by
  obtain ⟨hne, htext, htk, -⟩ := h
  refine ⟨by simp, ?_, ?_, ?_⟩
  · have hboth : prev.text ≠ [] ∧ (ofItem numTokens item).text ≠ [] := ⟨hprev, hitem⟩
    change (if prev.text ≠ [] ∧ (ofItem numTokens item).text ≠ [] then _ else _) = _
    rw [if_pos hboth, htext, List.map_append,
      intercalate_append (List.map_eq_nil_iff.not.mpr hne) (by simp)]
    simp [ofItem]
  · simp [joinText, ofItem, htk]
  · rw [List.dropLast_concat, ← htk]
    exact hsize

theorem text_ne_nil_of_plain (h : IsPlain chunk) : chunk.text ≠ [] := by
  rintro hnil
  exact h.notBlank (by rw [hnil]; rfl)

theorem isPlain_joinText (hprev : IsPlain prev) : IsPlain (joinText prev chunk) := by
  refine ⟨hprev.ckType, hprev.above, hprev.below, ?_⟩
  obtain ⟨c, hc, hspace⟩ := exists_of_strip_ne_nil hprev.notBlank
  refine strip_ne_nil_of_mem (c := c) ?_ hspace
  change c ∈ if prev.text ≠ [] ∧ chunk.text ≠ [] then _ else _
  split <;> exact List.mem_append_left _ hc

theorem exists_concat_of_forall₂ {α β : Type*} {R : α → β → Prop} {l : List α} {init : List β}
    {b : β} (h : List.Forall₂ R l (init ++ [b])) :
    ∃ linit a, l = linit ++ [a] ∧ List.Forall₂ R linit init ∧ R a b := by
  have hreverse := List.rel_reverse h
  rw [List.reverse_concat, List.forall₂_cons_right_iff] at hreverse
  obtain ⟨a, rest, hab, hrest, heq⟩ := hreverse
  refine ⟨rest.reverse, a, ?_, ?_, hab⟩
  · rw [← List.reverse_reverse l, heq, List.reverse_cons]
  · have hback := List.rel_reverse hrest
    rwa [List.reverse_reverse] at hback

/-- One more text. -/
theorem Joining.step {groups : List (List UpstreamItem)} (hoverlap : param.overlappedPercent = 0)
    (h : Joining numTokens param.chunkTokenSize done st groups)
    (hitem : strip item.content ≠ []) :
    ∃ groups', Joining numTokens param.chunkTokenSize (done ++ [item])
      (mergeText numTokens param st (ofItem numTokens item)) groups' := by
  obtain ⟨hwhole, hjoined, hplain, hfull, hopen⟩ := h
  have hnew : IsPlain (ofItem numTokens item) := isPlain_ofItem hitem
  have hsingle : JoinedFrom numTokens param.chunkTokenSize [item] (ofItem numTokens item) :=
    joinedFrom_ofItem _ item
  rcases List.eq_nil_or_concat st.merged with hnil | ⟨init, prev, hmerged⟩
  · rw [mergeText_first hnil rfl]
    rw [hnil, List.forall₂_nil_right_iff] at hjoined
    subst hjoined
    refine ⟨[[item]], ?_, .cons hsingle .nil, by simpa using hnew, by simp, by simp⟩
    rw [← hwhole]
    rfl
  · rw [List.concat_eq_append] at hmerged
    rw [mergeText_next hoverlap (hopen (by simp [hmerged])) hmerged rfl]
    rw [hmerged] at hjoined hplain hfull
    obtain ⟨ginit, group, rfl, hginit, hgroup⟩ := exists_concat_of_forall₂ hjoined
    have hprev := hplain prev (List.mem_append_right _ List.mem_cons_self)
    rw [List.dropLast_concat] at hfull
    split
    · next hlarge =>
        refine ⟨ginit ++ [group] ++ [[item]], ?_, ?_, ?_, ?_, fun _ => rfl⟩
        · rw [List.flatten_append, hwhole, List.flatten_singleton]
        · exact List.rel_append hjoined (.cons hsingle .nil)
        · intro c hc
          rcases List.mem_append.mp hc with hc | hc
          · exact hplain c hc
          · exact List.mem_singleton.mp hc ▸ hnew
        · intro c hc
          rw [List.dropLast_concat] at hc
          rcases List.mem_append.mp hc with hc | hc
          · exact hfull c hc
          · exact List.mem_singleton.mp hc ▸ hlarge
    · next hsmall =>
        have hitemne : item.content ≠ [] := text_ne_nil_of_plain hnew
        have hjoin := hgroup.join (text_ne_nil_of_plain hprev) (not_lt.mp hsmall) hitemne
        refine ⟨ginit ++ [group ++ [item]], ?_, ?_, ?_, ?_, fun _ => rfl⟩
        · rw [← hwhole]
          simp
        · exact List.rel_append hginit (.cons hjoin .nil)
        · intro c hc
          rcases List.mem_append.mp hc with hc | hc
          · exact hplain c (List.mem_append_left _ hc)
          · exact List.mem_singleton.mp hc ▸ isPlain_joinText hprev
        · intro c hc
          rw [List.dropLast_concat] at hc
          exact hfull c hc

/-- All texts of a run. -/
theorem joining_foldl (hoverlap : param.overlappedPercent = 0)
    (hdone : ∀ item ∈ done, strip item.content ≠ []) :
    ∃ groups, Joining numTokens param.chunkTokenSize done
      ((done.map (ofItem numTokens)).foldl (mergeText numTokens param) ⟨[], false⟩) groups := by
  induction done using List.reverseRecOn with
  | nil => exact ⟨[], rfl, .nil, by simp, by simp, by simp⟩
  | append_singleton done item ih =>
      obtain ⟨groups, hgroups⟩ := ih fun i hi => hdone i (List.mem_append_left _ hi)
      rw [List.map_append, List.foldl_append]
      exact hgroups.step hoverlap (hdone item (List.mem_append_right _ List.mem_cons_self))

end Joining

/-! ## Runs -/

section Runs

variable {numTokens : Text → ℕ} {param : TokenChunkerParam} {sources : List UpstreamItem}
  {items : List UpstreamItem} {chunks : List WorkChunk} {item : UpstreamItem}

theorem isMedia_eq_false_iff : item.isMedia = false ↔ item.ckType = .text := by
  rw [UpstreamItem.isMedia, decide_eq_false_iff_not, not_not]

/-- The chunks of a text before any are joined. -/
theorem buildChunks_of_text (delims : List Text) (h : item.isMedia = false) :
    (∀ chunk ∈ buildChunks numTokens delims item, IsPlain chunk) ∧
      (buildChunks numTokens delims item).flatMap (fun chunk => bare delims chunk.text) =
        bare delims item.content := by
  rw [buildChunks, if_pos (isMedia_eq_false_iff.mp h)]
  constructor
  · intro chunk hchunk
    obtain ⟨segment, hsegment, rfl⟩ := List.mem_map.mp hchunk
    exact ⟨rfl, rfl, rfl, of_decide_eq_true (List.mem_filter.mp hsegment).2⟩
  · rw [List.flatMap_map]
    exact flatMap_bare_splitTextByPattern delims item.content

theorem buildChunks_of_media (delims : List Text) (h : item.isMedia = true) :
    buildChunks numTokens delims item =
      [{ text := item.content, ckType := item.ckType, positions := item.positions,
         tkNums := numTokens item.content, imgId := item.imgId }] := by
  rw [UpstreamItem.isMedia, decide_eq_true_iff] at h
  rw [buildChunks, if_neg h]

/-- Without delimiters a text is a chunk unless it is blank. -/
theorem flatMap_buildChunks_nil (h : ∀ item ∈ sources, item.isMedia = false) :
    sources.flatMap (buildChunks numTokens []) =
      (sources.filter fun item => strip item.content ≠ []).map (ofItem numTokens) := by
  induction sources with
  | nil => rfl
  | cons item sources ih =>
      have htext := isMedia_eq_false_iff.mp (h item List.mem_cons_self)
      rw [List.flatMap_cons, ih fun i hi => h i (List.mem_cons_of_mem _ hi), buildChunks,
        if_pos htext, splitTextByPattern, if_pos rfl]
      by_cases hblank : strip item.content = []
      · simp [hblank]
      · simp [hblank, ofItem]

theorem flatMap_bare_filter (delims : List Text) (sources : List UpstreamItem) :
    (sources.filter fun item => strip item.content ≠ []).flatMap
        (fun item => bare delims item.content) =
      sources.flatMap fun item => bare delims item.content := by
  induction sources with
  | nil => rfl
  | cons item sources ih =>
      by_cases hblank : strip item.content = []
      · rw [List.filter_cons_of_neg (by simpa using hblank), ih, List.flatMap_cons,
          bare_eq_nil_of_strip hblank, List.nil_append]
      · rw [List.filter_cons_of_pos (by simpa using hblank), List.flatMap_cons,
          List.flatMap_cons, ih]

/-- A chunk keeps the texts that are joined in it. -/
theorem JoinedFrom.bare_text {size : ℕ} {group : List UpstreamItem} {chunk : WorkChunk}
    (h : JoinedFrom numTokens size group chunk) :
    bare [] chunk.text = group.flatMap fun item => bare [] item.content := by
  have hnewline : ∀ a ∈ ['\n'], (!isSpace a) = false := by decide
  rw [bare_nil, h.text, filter_intercalate hnewline, List.filter_flatten, List.map_map,
    List.flatMap_def]
  congr 1
  exact List.map_congr_left fun item _ => (bare_nil item.content).symm

theorem flatMap_bare_joined {size : ℕ} {groups : List (List UpstreamItem)}
    (h : List.Forall₂ (JoinedFrom numTokens size) groups chunks) :
    chunks.flatMap (fun chunk => bare [] chunk.text) =
      groups.flatten.flatMap fun item => bare [] item.content := by
  induction h with
  | nil => rfl
  | cons hjoined _ ih =>
      rw [List.flatMap_cons, ih, hjoined.bare_text, List.flatten_cons, List.flatMap_append]

/-- The chunks of a run of texts. -/
def runChunks (numTokens : Text → ℕ) (param : TokenChunkerParam) (sources : List UpstreamItem) :
    List WorkChunk :=
  let built := sources.flatMap (buildChunks numTokens param.activeDelimiters)
  if param.activeDelimiters = [] then
    (built.foldl (mergeText numTokens param) ⟨[], false⟩).merged
  else built

theorem runChunks_spec (hoverlap : param.overlappedPercent = 0)
    (h : ∀ item ∈ sources, item.isMedia = false) :
    RunChunks numTokens param sources (runChunks numTokens param sources) := by
  have hof : ∀ chunks : List WorkChunk, (∀ chunk ∈ chunks, IsPlain chunk) →
      chunks.flatMap (fun chunk => bare param.activeDelimiters chunk.text) =
        sources.flatMap (fun item => bare param.activeDelimiters item.content) →
      (param.activeDelimiters = [] → SizedRun numTokens param.chunkTokenSize sources chunks) →
      RunChunks numTokens param sources chunks := fun chunks hplain hconserved hsized =>
    ⟨fun chunk hc => (hplain chunk hc).ckType, hconserved,
      fun chunk hc => (docsOf_plain param (hplain chunk hc)).1,
      fun hnil chunk hc => (docsOf_plain param (hplain chunk hc)).2 hnil, hsized⟩
  rw [runChunks]
  by_cases hnone : param.activeDelimiters = []
  · rw [if_pos hnone, hnone, flatMap_buildChunks_nil h]
    have hnotBlank : ∀ item ∈ sources.filter (fun item => strip item.content ≠ []),
        strip item.content ≠ [] := fun item hitem =>
      of_decide_eq_true (List.mem_filter.mp hitem).2
    obtain ⟨groups, hgroups⟩ := joining_foldl hoverlap hnotBlank
    refine hof _ hgroups.plain ?_ fun _ => ⟨groups, hgroups.whole, hgroups.joined, hgroups.full⟩
    rw [hnone, flatMap_bare_joined hgroups.joined, hgroups.whole, flatMap_bare_filter]
  · rw [if_neg hnone]
    refine hof _ ?_ ?_ fun hnil => absurd hnil hnone
    · intro chunk hchunk
      obtain ⟨item, hitem, hchunk⟩ := List.mem_flatMap.mp hchunk
      exact (buildChunks_of_text _ (h item hitem)).1 chunk hchunk
    · rw [List.flatMap_assoc]
      exact List.flatMap_congr fun item hitem => (buildChunks_of_text _ (h item hitem)).2

/-! ## The whole input -/

/-- No context is attached where none is asked for. -/
theorem attachContext_eq_self (htable : param.tableContextSize = 0)
    (himage : param.imageContextSize = 0) (before : List WorkChunk) :
    attachContext numTokens param before chunks = chunks := by
  induction chunks generalizing before with
  | nil => rfl
  | cons chunk chunks ih => simp [attachContext, htable, himage, ih]

/-- The chunks of a piece of the input. -/
def pieceChunks (numTokens : Text → ℕ) (param : TokenChunkerParam) :
    Stretch UpstreamItem → List WorkChunk
  | .mark item => buildChunks numTokens param.activeDelimiters item
  | .run sources => runChunks numTokens param sources

/-- A table or image closes the chunk before it. -/
theorem mergeText_media {st : TokenMerge} {chunk : WorkChunk} (h : chunk.ckType ≠ .text) :
    mergeText numTokens param st chunk = { merged := st.merged ++ [chunk], open_ := false } := by
  rw [mergeText, if_pos h]

/-- A step leaves alone what is before the last chunk, and everything once that is closed. -/
theorem mergeText_append (numTokens : Text → ℕ) (param : TokenChunkerParam)
    (before : List WorkChunk) {merged : List WorkChunk} {open_ : Bool}
    (hopen : open_ = true → merged ≠ []) (chunk : WorkChunk) :
    (mergeText numTokens param ⟨before ++ merged, open_⟩ chunk).merged =
        before ++ (mergeText numTokens param ⟨merged, open_⟩ chunk).merged ∧
      (mergeText numTokens param ⟨before ++ merged, open_⟩ chunk).open_ =
        (mergeText numTokens param ⟨merged, open_⟩ chunk).open_ ∧
      (mergeText numTokens param ⟨merged, open_⟩ chunk).merged ≠ [] := by
  by_cases htext : chunk.ckType = .text
  · cases open_ with
    | false => simp [mergeText, htext]
    | true =>
        obtain ⟨init, prev, rfl⟩ : ∃ init prev, merged = init ++ [prev] := by
          rcases List.eq_nil_or_concat merged with hnil | ⟨init, prev, h⟩
          · exact absurd hnil (hopen rfl)
          · exact ⟨init, prev, h.trans List.concat_eq_append⟩
        rw [← List.append_assoc, mergeText, mergeText, if_neg (by simp [htext]), if_pos rfl,
          if_pos rfl, List.getLast?_concat, List.getLast?_concat]
        dsimp only
        split <;> simp [htext]
  · simp [mergeText_media htext]

theorem mergeText_foldl_append (before : List WorkChunk) {merged : List WorkChunk} {open_ : Bool}
    (hopen : open_ = true → merged ≠ []) (chunks : List WorkChunk) :
    (chunks.foldl (mergeText numTokens param) ⟨before ++ merged, open_⟩).merged =
      before ++ (chunks.foldl (mergeText numTokens param) ⟨merged, open_⟩).merged := by
  induction chunks generalizing merged open_ with
  | nil => rfl
  | cons chunk chunks ih =>
      obtain ⟨hmerged, hopen', hne⟩ := mergeText_append numTokens param before hopen chunk
      rw [List.foldl_cons, List.foldl_cons, ← ih fun _ => hne, ← hmerged, ← hopen']

/-- The pieces are merged one after the other, since no two runs are next to each other. -/
theorem mergeText_pieces {pieces : List (Stretch UpstreamItem)}
    (hnone : param.activeDelimiters = [])
    (hkinds : ∀ piece ∈ pieces, ∀ item ∈ piece.toList, item.isMedia = piece.isMark)
    (hmaximal : pieces.IsChain fun piece piece' => piece.isMark = true ∨ piece'.isMark = true)
    {st : TokenMerge} (hst : st.open_ = true → ∀ piece ∈ pieces.head?, piece.isMark = true) :
    (((pieces.flatMap Stretch.toList).flatMap
      (buildChunks numTokens param.activeDelimiters)).foldl (mergeText numTokens param) st).merged =
        st.merged ++ pieces.flatMap (pieceChunks numTokens param) := by
  induction pieces generalizing st with
  | nil => simp
  | cons piece pieces ih =>
      have hkinds' := fun p hp => hkinds p (List.mem_cons_of_mem _ hp)
      obtain ⟨hnext, htail⟩ := List.isChain_cons.mp hmaximal
      rw [List.flatMap_cons, List.flatMap_append, List.foldl_append, List.flatMap_cons]
      cases piece with
      | mark item =>
          have hmedia : item.isMedia = true := hkinds _ List.mem_cons_self item (by
            exact List.mem_cons_self)
          have htype : item.ckType ≠ .text := of_decide_eq_true hmedia
          rw [Stretch.toList, List.flatMap_singleton, pieceChunks, buildChunks_of_media _ hmedia,
            List.foldl_cons, List.foldl_nil, mergeText_media htype, ih hkinds' htail (by simp),
            List.append_assoc]
      | run sources =>
          have hclosed : st.open_ = false := by
            by_contra hopen
            exact absurd (hst (by simpa using hopen) _ rfl) (by simp [Stretch.isMark])
          have hstart : st = ⟨st.merged ++ [], false⟩ := by
            rw [List.append_nil, ← hclosed]
          have hrun : ((sources.flatMap (buildChunks numTokens param.activeDelimiters)).foldl
              (mergeText numTokens param) st).merged =
                st.merged ++ runChunks numTokens param sources := by
            rw [runChunks, if_pos hnone, hstart, mergeText_foldl_append st.merged (by simp),
              List.append_nil]
          have hmark : ∀ p ∈ pieces.head?, p.isMark = true := fun p hp =>
            (hnext p hp).resolve_left (by simp [Stretch.isMark])
          rw [Stretch.toList, ih hkinds' htail fun _ => hmark, hrun, pieceChunks,
            List.append_assoc]

/-- The chunks of all items, piece by piece. -/
theorem chunks_pieces (numTokens : Text → ℕ) (param : TokenChunkerParam)
    {pieces : List (Stretch UpstreamItem)}
    (hcut : CutAt UpstreamItem.isMedia items pieces) :
    (let built := items.flatMap (buildChunks numTokens param.activeDelimiters)
      if param.activeDelimiters = [] then
        (built.foldl (mergeText numTokens param) ⟨[], false⟩).merged
      else built) = pieces.flatMap (pieceChunks numTokens param) := by
  dsimp only
  rw [← hcut.whole]
  by_cases hnone : param.activeDelimiters = []
  · rw [if_pos hnone, mergeText_pieces hnone (fun p hp => (hcut.kinds p hp).2) hcut.maximal
      (by simp), List.nil_append]
  · rw [if_neg hnone, List.flatMap_assoc]
    refine List.flatMap_congr fun piece _ => ?_
    cases piece with
    | mark item => exact List.flatMap_singleton _ _
    | run sources => rw [pieceChunks, runChunks, if_neg hnone, Stretch.toList]

theorem docsOf_media (h : item.isMedia = true) :
    (buildChunks numTokens param.activeDelimiters item).flatMap (docsOf param) =
      mediaDocs item := by
  have htype : item.ckType ≠ .text := of_decide_eq_true h
  rw [buildChunks_of_media _ h, List.flatMap_singleton, docsOf, childrenOf, if_pos (.inr htype),
    mediaDocs]
  simp only [List.filterMap_cons, List.filterMap_nil, finalizeChunk, List.nil_append,
    List.append_nil]
  split <;> simp_all

/-- The documents of the input are those of its tables and images and of the runs of texts between
them, in order. -/
theorem tokenChunks_pieces (numTokens : Text → ℕ) (param : TokenChunkerParam)
    (items : List UpstreamItem) (hmode : param.delimiterMode ≠ .one)
    (hoverlap : param.overlappedPercent = 0) (htable : param.tableContextSize = 0)
    (himage : param.imageContextSize = 0) :
    ∃ pieces, CutAt UpstreamItem.isMedia items pieces ∧ ∃ docs : List (List ChunkDoc),
      tokenChunks numTokens param items = docs.flatten ∧
        List.Forall₂ (PieceDocs numTokens param) pieces docs := by
  obtain ⟨pieces, hcut⟩ := exists_cutAt UpstreamItem.isMedia items
  refine ⟨pieces, hcut, pieces.map fun piece =>
    (pieceChunks numTokens param piece).flatMap (docsOf param), ?_, ?_⟩
  · have hchunks := chunks_pieces numTokens param hcut
    rw [tokenChunks, if_neg hmode]
    simp only [attachContext_eq_self htable himage]
    dsimp only at hchunks
    rw [hchunks, ← List.flatMap_def, List.filterMap_flatMap, List.flatMap_assoc]
    rfl
  · rw [List.forall₂_map_right_iff]
    refine List.forall₂_same.mpr fun piece hpiece => ?_
    obtain ⟨-, hkind⟩ := hcut.kinds piece hpiece
    cases piece with
    | mark item => exact docsOf_media (hkind item List.mem_cons_self)
    | run sources => exact ⟨_, rfl, runChunks_spec hoverlap hkind⟩

end Runs

/-! ## Where delimiters are more than separators -/

def textItem (text : String) : UpstreamItem := { docTypeKwd := "text".toList, text := text.toList }

def tableItem (text : String) : UpstreamItem :=
  { docTypeKwd := "table".toList, text := text.toList }

/-- The text of documents without white space and without the delimiters in it. -/
def bareDocs (delims : List Text) (docs : List ChunkDoc) : Text :=
  bare delims (docs.flatMap ChunkDoc.text)

/-- A delimiter at the front of an item is dropped, and what is left on both sides of it can be a
delimiter again. Pieces for children delimiters can be small, and in one chunk a table is no
border. -/
theorem not_conserved :
    bareDocs ["ab".toList]
        (tokenChunks List.length { delimiters := ["`ab`".toList] }
          [textItem "a", textItem "abb"]) ≠
      bare ["ab".toList] ([textItem "a", textItem "abb"].flatMap UpstreamItem.content) ∧
    (tokenChunks List.length { chunkTokenSize := 1, childrenDelimiters := [['\n']] }
        [textItem "xx", textItem "ab\nc", textItem "d"]).map ChunkDoc.text =
      ["xx".toList, "ab\n".toList, "c".toList, "d".toList] ∧
    (tokenChunks List.length { delimiterMode := .one }
        [textItem "x", tableItem "t", textItem "y"]).map ChunkDoc.text = ["x\nt\ny".toList] := by
  refine ⟨?_, ?_, ?_⟩ <;> decide +kernel

theorem tokenChunks_pieces_table :
    ∃ pieces, CutAt UpstreamItem.isMedia [textItem "x", tableItem "t", textItem "y"] pieces ∧
      ∃ docs : List (List ChunkDoc),
        tokenChunks List.length {} [textItem "x", tableItem "t", textItem "y"] = docs.flatten ∧
          List.Forall₂ (PieceDocs List.length {}) pieces docs :=
  tokenChunks_pieces List.length {} _ (by decide) rfl rfl rfl

end RagFlow.Flow
