/-
# Where the context of tables and images comes from

Sentences are taken as a whole, so what is added on each side is a part of the sentences of the
source, in order. While chunks are rewritten in place, an image that is one only for lack of text
turns into a text chunk. Unless a later chunk takes its context from there, rewriting in place is
the same as rewriting every chunk from the chunks that came in.
-/

import Mathlib.Data.List.Sublists
import RagFlow.Chunking.MediaContext

namespace RagFlow.Chunking.MediaContext

open RagFlow.Math
open RagFlow.Query (strip)

/-! ## Whole sentences -/

/-- Cuts behind each stop. -/
def sentencesFrom : Text → Text → List Text
  | buf, [] => if buf = [] then [] else [buf]
  | buf, c :: cs =>
    if c ∈ stops then (buf ++ [c]) :: sentencesFrom [] cs else sentencesFrom (buf ++ [c]) cs

theorem joinStops_stretch {cur buf : Text} {parts : List Text} (hcur : ∀ c ∈ cur, c ∉ stops) :
    joinStops (cur :: parts) buf = joinStops parts (buf ++ cur) := by
  have hstop : ¬ ∃ c ∈ stops, cur = [c] := by
    rintro ⟨c, hc, rfl⟩
    exact hcur c (List.mem_singleton_self c) hc
  rw [joinStops]
  split_ifs with hnil
  · rw [hnil, List.append_nil]
  · rfl

theorem joinStops_splitFrom (text : Text) :
    ∀ cur buf : Text, (∀ c ∈ cur, c ∉ stops) →
      joinStops (splitFrom stopLength 0 cur text) buf = sentencesFrom (buf ++ cur) text := by
  induction text with
  | nil =>
      intro cur buf hcur
      rw [splitFrom, joinStops_stretch hcur, joinStops, sentencesFrom]
  | cons c cs ih =>
      intro cur buf hcur
      by_cases hc : c ∈ stops
      · have hmatch : stopLength (c :: cs) = 0 + 1 := by rw [stopLength, if_pos hc]
        rw [splitFrom_of_match hmatch, joinStops_stretch hcur, sentencesFrom, if_pos hc]
        change joinStops ([c] :: _) _ = _
        rw [joinStops, if_neg (List.cons_ne_nil c []), if_pos ⟨c, hc, rfl⟩]
        exact congrArg _ (ih [] [] fun _ hc => absurd hc List.not_mem_nil)
      · have hnone : stopLength (c :: cs) = 0 := by rw [stopLength, if_neg hc]
        rw [splitFrom_of_no_match hnone, sentencesFrom, if_neg hc, List.append_assoc]
        apply ih
        intro d hd
        rcases List.mem_append.1 hd with hd | hd
        · exact hcur d hd
        · rwa [List.mem_singleton.1 hd]

theorem splitSentences_eq (text : Text) : splitSentences text = sentencesFrom [] text :=
  joinStops_splitFrom text [] [] fun _ hc => absurd hc List.not_mem_nil

theorem sentencesFrom_append {w : Text} (hw : ∀ c ∈ w, c ∉ stops) (buf rest : Text) :
    sentencesFrom buf (w ++ rest) = sentencesFrom (buf ++ w) rest := by
  induction w generalizing buf with
  | nil => rw [List.nil_append, List.append_nil]
  | cons c w ih =>
      obtain ⟨hc, hw⟩ := List.forall_mem_cons.1 hw
      rw [List.cons_append, sentencesFrom, if_neg hc, ih hw, List.append_assoc,
        List.singleton_append]

/-- A sentence is not cut again. -/
theorem sentencesFrom_of_mem {s text : Text} :
    ∀ buf : Text, (∀ c ∈ buf, c ∉ stops) → s ∈ sentencesFrom buf text →
      s ≠ [] ∧ sentencesFrom [] s = [s] := by
  induction text with
  | nil =>
      intro buf hbuf hs
      rw [sentencesFrom] at hs
      split_ifs at hs with hnil
      · exact absurd hs List.not_mem_nil
      · rw [List.mem_singleton.1 hs]
        have hwhole := sentencesFrom_append hbuf [] []
        rw [List.append_nil, List.nil_append, sentencesFrom, if_neg hnil] at hwhole
        exact ⟨hnil, hwhole⟩
  | cons c cs ih =>
      intro buf hbuf hs
      rw [sentencesFrom] at hs
      split_ifs at hs with hc
      · rcases List.mem_cons.1 hs with rfl | hs
        · refine ⟨by simp, ?_⟩
          rw [sentencesFrom_append hbuf, List.nil_append, sentencesFrom, if_pos hc, sentencesFrom,
            if_pos rfl]
        · exact ih [] (fun c hc => absurd hc List.not_mem_nil) hs
      · refine ih (buf ++ [c]) (fun d hd => ?_) hs
        rcases List.mem_append.1 hd with hd | hd
        · exact hbuf d hd
        · rwa [List.mem_singleton.1 hd]

section Collect

variable {num : Text → ℕ} {text s : Text}

/-- Trimming does not get inside of a sentence. -/
theorem trimToTokens_of_mem {remaining : ℤ} (hs : s ∈ splitSentences text) (hpos : 0 < remaining)
    (hlong : remaining < num s) (fromTail : Bool) : trimToTokens num s remaining fromTail = s := by
  rw [splitSentences_eq] at hs
  obtain ⟨hne, hwhole⟩ := sentencesFrom_of_mem [] (fun c hc => absurd hc List.not_mem_nil) hs
  have hnum : num s ≠ 0 := by omega
  have htrim : trimFrom num remaining [s] = [s] := by
    rw [trimFrom, if_neg hnum, if_pos hlong]
  rw [trimToTokens, if_neg (not_or.2 ⟨not_le.2 hpos, hne⟩), splitSentences_eq, hwhole]
  cases fromTail with
  | true => simp [htrim]
  | false => simp [htrim]

/-- Of the sentences that are left some are taken in order, and without the last of them they are
within the budget. -/
theorem collectFrom_spec (num : Text → ℕ) (text : Text) (fromTail : Bool) (seq : List Text) :
    ∀ remaining : ℤ, (∀ s ∈ seq, s ∈ splitSentences text) →
      (collectFrom num fromTail remaining seq).Sublist seq ∧
        (collectFrom num fromTail remaining seq ≠ [] →
          (((collectFrom num fromTail remaining seq).dropLast.map num).sum : ℤ) ≤ remaining) := by
  induction seq with
  | nil => exact fun remaining _ => ⟨List.Sublist.slnil, fun h => absurd rfl h⟩
  | cons s seq ih =>
      intro remaining hseq
      obtain ⟨hs, hseq⟩ := List.forall_mem_cons.1 hseq
      rw [collectFrom]
      by_cases hdone : remaining ≤ 0
      · rw [if_pos hdone]
        exact ⟨List.nil_sublist _, fun h => absurd rfl h⟩
      rw [if_neg hdone]
      by_cases hnum : num s = 0
      · rw [if_pos hnum]
        obtain ⟨hsub, hsum⟩ := ih remaining hseq
        exact ⟨hsub.cons s, hsum⟩
      have hself :
          (if remaining < num s then trimToTokens num s remaining fromTail else s) = s := by
        split_ifs with hlong
        · exact trimToTokens_of_mem hs (not_le.1 hdone) hlong fromTail
        · rfl
      rw [if_neg hnum]
      simp only [hself]
      obtain ⟨hsub, hsum⟩ := ih (remaining - num s) hseq
      refine ⟨hsub.cons_cons s, fun _ => ?_⟩
      cases hrest : collectFrom num fromTail (remaining - num s) seq with
      | nil => simpa using (not_le.1 hdone).le
      | cons t rest =>
          rw [hrest] at hsum
          have hle := hsum (List.cons_ne_nil t rest)
          rw [List.dropLast_cons_of_ne_nil (List.cons_ne_nil t rest), List.map_cons, List.sum_cons,
            Nat.cast_add]
          omega

/-- The context on both sides. -/
theorem collectContext_spec (num : Text → ℕ) (text : Text) (boundaryIdx : ℕ) (budget : ℤ) :
    let (prev, next) :=
      collectContextFromSentences num (splitSentences text) boundaryIdx budget
    (prev ++ next).Sublist (splitSentences text) ∧
      (prev ≠ [] → ((prev.tail.map num).sum : ℤ) ≤ budget) ∧
        (next ≠ [] → ((next.dropLast.map num).sum : ℤ) ≤ budget) := by
  obtain ⟨hprev, hprevSum⟩ := collectFrom_spec num text true
    ((splitSentences text).take (boundaryIdx + 1)).reverse budget fun s hs =>
      List.mem_of_mem_take (List.mem_reverse.1 hs)
  obtain ⟨hnext, hnextSum⟩ := collectFrom_spec num text false
    ((splitSentences text).drop (boundaryIdx + 1)) budget fun s hs => List.mem_of_mem_drop hs
  refine ⟨?_, fun hne => ?_, hnextSum⟩
  · have hboth := (List.sublist_reverse_iff.1 hprev).append hnext
    rwa [List.take_append_drop] at hboth
  · have hsum := hprevSum fun hnil => hne (by rw [hnil, List.reverse_nil])
    rwa [List.tail_reverse, List.map_reverse, List.sum_reverse]

end Collect

/-! ## What rewriting a chunk changes -/

section Rewriting

variable {ρ : Type*} {o : Settings} {ck ck' : Chunk ρ} {combined : Text}

/-- The chunks differ in the texts and their tokens at most. -/
def SameFields (ck ck' : Chunk ρ) : Prop :=
  ck' = { ck with
    contentWithWeight := ck'.contentWithWeight
    text := ck'.text
    contentLtks := ck'.contentLtks
    contentSmLtks := ck'.contentSmLtks }

theorem SameFields.refl (ck : Chunk ρ) : SameFields ck ck := rfl

theorem SameFields.extractPosition (h : SameFields ck ck') :
    extractPosition ck' = extractPosition ck := by
  rw [h]
  rfl

theorem SameFields.docTypeKwd (h : SameFields ck ck') : ck'.docTypeKwd = ck.docTypeKwd := by
  rw [h]

theorem updateTokens_fields (o : Settings) (combined : Text) (original : Field) (ck : Chunk ρ) :
    SameFields ck (updateTokens o combined original ck) ∧
      getText (updateTokens o combined original ck) = getText ck := by
  rw [updateTokens]
  split_ifs
  · exact ⟨rfl, rfl⟩
  · exact ⟨rfl, rfl⟩

/-- Without a field for it, the text is lost. -/
theorem store_spec (o : Settings) (combined : Text) (ck : Chunk ρ) :
    SameFields ck (store o combined ck) ∧
      (getText (store o combined ck) = getText ck ∨ getText (store o combined ck) = combined) := by
  rw [store]
  split_ifs with hcontent htext
  · obtain ⟨hfields, htext⟩ := updateTokens_fields o combined ck.contentWithWeight
      { ck with contentWithWeight := .str combined }
    refine ⟨?_, .inr (htext.trans rfl)⟩
    rw [SameFields, hfields]
  · obtain ⟨hfields, htext'⟩ := updateTokens_fields o combined ck.text
      { ck with text := .str combined }
    refine ⟨?_, .inr (htext'.trans ?_)⟩
    · rw [SameFields, hfields]
    · rw [getText, not_not.1 hcontent]
  · obtain ⟨hfields, htext'⟩ := updateTokens_fields o combined .missing ck
    exact ⟨hfields, .inl htext'⟩

variable {order : List ℕ} {bounds : List (ℕ × Dict ℤ (ℚ × ℚ))} {chunks : List (Chunk ρ)} {idx : ℕ}

theorem attach_fields : SameFields ck (attach o order bounds chunks idx ck) := by
  rw [attach]
  split_ifs with hbudget
  · exact rfl
  · change SameFields ck (if _ then _ else _)
    split_ifs
    · exact rfl
    · exact (store_spec o _ ck).1

theorem tokenBudget_of_isTextChunk (h : isTextChunk ck = true) : tokenBudget o ck = 0 := by
  rw [isTextChunk, Bool.and_eq_true, Bool.not_eq_true', Bool.not_eq_true'] at h
  rw [tokenBudget, h.1, h.2]
  rfl

theorem attach_of_isTextChunk (h : isTextChunk ck = true) :
    attach o order bounds chunks idx ck = ck := by
  rw [attach, if_pos (tokenBudget_of_isTextChunk h).le]

end Rewriting

/-! ## The source is a text chunk -/

section Source

variable {ρ : Type*} {o : Settings} {chunks : List (Chunk ρ)} {order : List ℕ} {idx i : ℕ}
variable {ck : Chunk ρ}

theorem mem_textBounds {bounds : Dict ℤ (ℚ × ℚ)} (h : (i, bounds) ∈ textBounds chunks) :
    isTextAt chunks i = true := by
  obtain ⟨⟨ck, j⟩, hmem, hbounds⟩ := List.mem_filterMap.1 h
  obtain ⟨hzip, htext⟩ := List.mem_filter.1 hmem
  have hj : j = i := by
    simp only at hbounds
    split_ifs at hbounds
    exact (Prod.mk.inj (Option.some.inj hbounds)).1
  have hget := List.mem_zipIdx_iff_getElem?.1 hzip
  rw [← hj, isTextAt, hget]
  exact htext

/-- What is kept in the search for the nearest is one of the candidates. -/
theorem mem_of_foldl {l : List (ℚ × ℕ)} {best : ℚ × ℕ} :
    ∀ init : Option (ℚ × ℕ),
      l.foldl (fun best c => match best with
        | none => some c
        | some b => if c.1 < b.1 then some c else some b) init = some best →
      init = some best ∨ best ∈ l := by
  induction l with
  | nil => exact fun init h => .inl h
  | cons c l ih =>
      intro init h
      rw [List.foldl_cons] at h
      rcases ih _ h with hnext | hmem
      · cases init with
        | none => exact .inr (List.mem_cons.2 (.inl (Option.some.inj hnext).symm))
        | some b =>
            simp only at hnext
            split_ifs at hnext
            · exact .inr (List.mem_cons.2 (.inl (Option.some.inj hnext).symm))
            · exact .inl hnext
      · exact .inr (List.mem_cons_of_mem c hmem)

theorem nearest_isText {mediaBounds : Dict ℤ (ℚ × ℚ)}
    (h : nearest mediaBounds (textBounds chunks) = some i) : isTextAt chunks i = true := by
  rw [nearest, Option.map_eq_some_iff] at h
  obtain ⟨⟨dist, j⟩, hfold, rfl⟩ := h
  rcases mem_of_foldl none hfold with hnone | hmem
  · cases hnone
  · obtain ⟨⟨k, bounds⟩, hbounds, hmem⟩ := List.mem_flatMap.1 hmem
    obtain ⟨⟨pn, t⟩, _, hcandidate⟩ := List.mem_filterMap.1 hmem
    simp only [Option.bind_eq_some_iff, Option.map_eq_some_iff, Prod.mk.injEq] at hcandidate
    obtain ⟨_, _, _, _, _, rfl⟩ := hcandidate
    exact mem_textBounds hbounds

theorem neighbor_isText {pages : List ℕ} (h : neighbor chunks pages idx = some i) :
    isTextAt chunks i = true := by
  rw [neighbor] at h
  split_ifs at h
  change (if _ then _ else if _ then _ else none) = _ at h
  split_ifs at h
  · exact List.find?_some h
  · exact List.find?_some h

theorem sourceOf_isText (h : sourceOf order (textBounds chunks) chunks idx ck = some i) :
    isTextAt chunks i = true := by
  rw [sourceOf] at h
  cases hnear : nearest (getBoundsByPage ck) (textBounds chunks) with
  | some j =>
      simp only [hnear] at h
      obtain rfl := Option.some.inj h
      exact nearest_isText hnear
  | none =>
      simp only [hnear] at h
      cases hpage : (getBoundsByPage ck).keys.min? with
      | none =>
          simp only [hpage] at h
          cases h
      | some page =>
          simp only [hpage] at h
          exact neighbor_isText h

/-- Sentences of one text chunk, within the budget but for the outermost on each side. -/
structure Context (num : Text → ℕ) (budget : ℤ) (chunks : List (Chunk ρ)) (prev next : List Text) :
    Prop where
  source : ∃ source ∈ chunks, isTextChunk source = true ∧
    (prev ++ next).Sublist (splitSentences (getText source))
  before : prev ≠ [] → ((prev.tail.map num).sum : ℤ) ≤ budget
  behind : next ≠ [] → ((next.dropLast.map num).sum : ℤ) ≤ budget

/-- Of a table or an image only the text and its tokens change, and the text at most by a context
around it. -/
structure KeepsOwn (o : Settings) (chunks : List (Chunk ρ)) (ck ck' : Chunk ρ) : Prop where
  fields : SameFields ck ck'
  text : getText ck' = getText ck ∨
    ∃ prev next, Context o.numTokensFromString (tokenBudget o ck) chunks prev next ∧
      getText ck' = combine prev next (getText ck)

theorem contextOf_spec (o : Settings) (order : List ℕ) (chunks : List (Chunk ρ)) (idx : ℕ)
    (ck : Chunk ρ) (hne : contextOf o order (textBounds chunks) chunks idx ck ≠ ([], [])) :
    Context o.numTokensFromString (tokenBudget o ck) chunks
      (contextOf o order (textBounds chunks) chunks idx ck).1
      (contextOf o order (textBounds chunks) chunks idx ck).2 := by
  rw [contextOf] at hne ⊢
  cases hbind : (sourceOf order (textBounds chunks) chunks idx ck).bind fun i => chunks[i]? with
  | none =>
      simp only [hbind] at hne
      exact absurd rfl hne
  | some source =>
      simp only [hbind] at hne ⊢
      obtain ⟨i, hi, hsource⟩ := Option.bind_eq_some_iff.1 hbind
      have htext := sourceOf_isText hi
      rw [isTextAt, hsource] at htext
      split_ifs at hne ⊢ with hnil
      · exact absurd rfl hne
      · obtain ⟨hsub, hbefore, hbehind⟩ := collectContext_spec o.numTokensFromString
          (getText source) (findMidSentenceIndex o.numTokensFromString
            (splitSentences (getText source))) (tokenBudget o ck)
        exact ⟨⟨source, List.mem_of_getElem? hsource, htext, hsub⟩, hbefore, hbehind⟩

/-- With the chunks as they came in, a context is from one of their text chunks. -/
theorem attach_keepsOwn (o : Settings) (order : List ℕ) (chunks : List (Chunk ρ)) (idx : ℕ)
    (ck : Chunk ρ) : KeepsOwn o chunks ck (attach o order (textBounds chunks) chunks idx ck) := by
  refine ⟨attach_fields, ?_⟩
  rw [attach]
  split_ifs with hbudget
  · exact .inl rfl
  · by_cases hnil : contextOf o order (textBounds chunks) chunks idx ck = ([], [])
    · rw [hnil]
      exact .inl rfl
    · have hcontext := contextOf_spec o order chunks idx ck hnil
      generalize contextOf o order (textBounds chunks) chunks idx ck = context at hcontext hnil
      obtain ⟨prev, next⟩ := context
      have hne : ¬ (prev = [] ∧ next = []) := fun ⟨hprev, hnext⟩ => hnil (by rw [hprev, hnext])
      simp only [if_neg hne]
      rcases (store_spec o (combine prev next (getText ck)) ck).2 with hsame | hnew
      · exact .inl hsame
      · exact .inr ⟨prev, next, hcontext, hnew⟩

end Source

/-! ## The order -/

section Order

variable {ρ : Type*} {chunks : List (Chunk ρ)}

theorem placeOf_sortKey {idx : ℕ} {ck : Chunk ρ} {key : ℤ ×ₗ ℤ ×ₗ ℤ ×ₗ ℕ}
    (h : sortKey idx ck = some key) : placeOf key = idx := by
  rw [sortKey] at h
  split at h
  · obtain rfl := Option.some.inj h
    rfl
  · cases h

theorem map_placeOf (l : List (Chunk ρ × ℕ)) :
    (l.filterMap fun (ck, idx) => sortKey idx ck).map placeOf =
      (l.filter fun (ck, idx) => !(sortKey idx ck).isNone).map Prod.snd := by
  induction l with
  | nil => rfl
  | cons e l ih =>
      obtain ⟨ck, idx⟩ := e
      cases hkey : sortKey idx ck with
      | none => simp [hkey, ih]
      | some key => simp [hkey, ih, placeOf_sortKey hkey]

theorem orderedIndices_perm (chunks : List (Chunk ρ)) :
    (orderedIndices chunks).Perm (List.range chunks.length) := by
  rw [orderedIndices]
  split_ifs with hsorted
  · have hplaces := ((List.perm_insertionSort (· ≤ ·)
      (chunks.zipIdx.filterMap fun (ck, idx) => sortKey idx ck)).map placeOf).trans
        (.of_eq (map_placeOf chunks.zipIdx))
    have hall := (List.filter_append_perm (fun (ck, idx) => !(sortKey idx ck).isNone)
      chunks.zipIdx).map Prod.snd
    rw [List.map_append] at hall
    have hrange : chunks.zipIdx.map Prod.snd = List.range chunks.length := by
      rw [List.zipIdx_map_snd, List.range_eq_range']
    rw [hrange] at hall
    refine (hplaces.append_right _).trans (.trans (.of_eq ?_) hall)
    simp
  · exact .refl _

theorem nodup_orderedIndices (chunks : List (Chunk ρ)) : (orderedIndices chunks).Nodup :=
  (orderedIndices_perm chunks).nodup_iff.2 List.nodup_range

end Order

/-! ## Rewriting in place -/

section Run

variable {ρ : Type*} (o : Settings) (chunks : List (Chunk ρ))

/-- A chunk with the context that it has from the chunks as they came in. -/
def attached (idx : ℕ) (ck : Chunk ρ) : Chunk ρ :=
  attach o (orderedIndices chunks) (textBounds chunks) chunks idx ck

/-- The chunk at `u` counts as text once it has its context, and did not before. -/
def BecomesText (u : ℕ) : Prop :=
  ∃ ck, chunks[u]? = some ck ∧ isTextChunk ck = false ∧ isTextChunk (attached o chunks u ck) = true

/-- The chunk at `m` overlaps no text and is the last of its page, where the chunk at `u` becomes
text and no text chunk stands between them. -/
def Misled (m u : ℕ) : Prop :=
  ∃ ck page before between, chunks[m]? = some ck ∧ 0 < tokenBudget o ck ∧
    nearest (getBoundsByPage ck) (textBounds chunks) = none ∧
    (getBoundsByPage ck).keys.min? = some page ∧
    pageOrder chunks (orderedIndices chunks) page = before ++ u :: (between ++ [m]) ∧
    (∀ t ∈ between, isTextAt chunks t = false) ∧ BecomesText o chunks u

/-- Every context is looked for in the text chunks that came in. -/
def SourcesAreText : Prop :=
  ∀ done m rest ck, orderedIndices chunks = done ++ m :: rest → chunks[m]? = some ck →
    0 < tokenBudget o ck → ∀ i ∈ sourceOf (orderedIndices chunks) (textBounds chunks)
      (attachFirst o chunks done) m ck, isTextAt chunks i = true

variable {o chunks} {done rest : List ℕ} {m i : ℕ} {ck : Chunk ρ}

/-- Only an image for lack of text becomes text. -/
theorem BecomesText.untagged {u : ℕ} (h : BecomesText o chunks u) :
    ∃ ck, chunks[u]? = some ck ∧ ck.image = true ∧ ck.docTypeKwd ≠ some "image" ∧
      ck.docTypeKwd ≠ some "table" ∧ strip (getText ck) = [] := by
  obtain ⟨ck, hck, hold, hnew⟩ := h
  have htag : (attached o chunks u ck).docTypeKwd = ck.docTypeKwd := attach_fields.docTypeKwd
  simp only [isTextChunk, isImageChunk, isTableChunk, htag, Bool.and_eq_true, Bool.not_eq_true',
    decide_eq_false_iff_not, not_or] at hnew
  obtain ⟨⟨himage, _⟩, htable⟩ := hnew
  simp only [isTextChunk, isImageChunk, isTableChunk, himage, htable, false_or, decide_false,
    Bool.not_false, Bool.and_true, Bool.not_eq_false', decide_eq_true_eq] at hold
  refine ⟨ck, hck, hold.1, himage, htable, ?_⟩
  have hblank := hold.2
  rw [Bool.not_eq_true'] at hblank
  rw [getText]
  cases hcontent : ck.contentWithWeight with
  | str t => simpa [hcontent, hasText] using hblank
  | missing =>
      cases htext : ck.text with
      | str t => simpa [hcontent, htext, hasText] using hblank
      | missing => rfl
      | other => rfl
  | other =>
      cases htext : ck.text with
      | str t => simpa [hcontent, htext, hasText] using hblank
      | missing => rfl
      | other => rfl

theorem isTextAt_eq (i : ℕ) (h : chunks[i]? = some ck) : isTextAt chunks i = isTextChunk ck := by
  rw [isTextAt, h]
  rfl

/-- A text chunk is never rewritten. -/
theorem getElem?_of_isTextAt (done : List ℕ) (h : isTextAt chunks i = true) :
    (rewritten chunks (attached o chunks) done)[i]? = chunks[i]? := by
  rw [getElem?_rewritten]
  cases hck : chunks[i]? with
  | none => rfl
  | some ck =>
      rw [isTextAt_eq i hck] at h
      simp [attached, attach_of_isTextChunk h]

theorem isTextAt_of_isTextAt (done : List ℕ) (h : isTextAt chunks i = true) :
    isTextAt (rewritten chunks (attached o chunks) done) i = true := by
  rw [isTextAt, getElem?_of_isTextAt done h]
  exact h

theorem isTextAt_of_notMem (h : i ∉ done) :
    isTextAt (rewritten chunks (attached o chunks) done) i = isTextAt chunks i := by
  rw [isTextAt, getElem?_rewritten_of_notMem h, isTextAt]

/-- What counts as text only now has become text. -/
theorem becomesText_of_isTextAt
    (hnow : isTextAt (rewritten chunks (attached o chunks) done) i = true)
    (hold : isTextAt chunks i = false) : i ∈ done ∧ BecomesText o chunks i := by
  by_cases hi : i ∈ done
  · refine ⟨hi, ?_⟩
    rw [isTextAt, getElem?_rewritten] at hnow
    cases hck : chunks[i]? with
    | none =>
        rw [hck] at hnow
        cases hnow
    | some ck =>
        rw [hck] at hnow
        rw [isTextAt_eq i hck] at hold
        refine ⟨ck, hck, hold, ?_⟩
        simpa [hi] using hnow
  · rw [isTextAt_of_notMem hi, hold] at hnow
    cases hnow

theorem isTextAt_of_becomesText (hi : i ∈ done) (h : BecomesText o chunks i) :
    isTextAt (rewritten chunks (attached o chunks) done) i = true := by
  obtain ⟨ck, hck, _, htext⟩ := h
  rw [isTextAt, getElem?_rewritten, hck]
  simpa [hi] using htext

/-- Rewriting moves no chunk to another page. -/
theorem pageOrder_rewritten (done order : List ℕ) (page : ℤ) :
    pageOrder (rewritten chunks (attached o chunks) done) order page =
      pageOrder chunks order page := by
  rw [pageOrder, pageOrder]
  congr 1
  funext k
  rw [isOnPage, isOnPage, getElem?_rewritten]
  cases chunks[k]? with
  | none => rfl
  | some ck =>
      simp only [Option.map_some, Option.any_some]
      split_ifs
      · have hfields : SameFields ck (attached o chunks k ck) := attach_fields
        rw [hfields.extractPosition]
      · rfl

/-- The search on the page, where `m` stands between `front` and `tail`. -/
theorem neighbor_eq (chunks : List (Chunk ρ)) {front tail : List ℕ} (hm : m ∉ front) :
    neighbor chunks (front ++ m :: tail) m =
      if front = [] then tail.find? (isTextAt chunks)
      else if tail = [] then front.reverse.find? (isTextAt chunks)
      else none := by
  have hplace : (front ++ m :: tail).idxOf m = front.length := by
    rw [List.idxOf_append_of_notMem hm, List.idxOf_cons_self, Nat.add_zero]
  have hmem : m ∈ front ++ m :: tail := List.mem_append_right _ List.mem_cons_self
  rw [neighbor, if_neg (not_not.2 hmem), hplace]
  cases front with
  | nil => rfl
  | cons a front =>
      have hpos : (a :: front).length ≠ 0 := Nat.succ_ne_zero _
      simp only [if_neg hpos, if_neg (List.cons_ne_nil a front), List.take_left]
      congr 1
      cases tail with
      | nil => simp
      | cons b tail => simp

/-- On its page `m` has only chunks before it that were looked at before. -/
theorem exists_pageOrder_eq (hord : orderedIndices chunks = done ++ m :: rest) {page : ℤ}
    (hm : m ∈ pageOrder chunks (orderedIndices chunks) page) :
    ∃ front tail, pageOrder chunks (orderedIndices chunks) page = front ++ m :: tail ∧
      (∀ i ∈ front, i ∈ done) ∧ (∀ i ∈ tail, i ∉ done) ∧ m ∉ front := by
  have hnodup := nodup_orderedIndices chunks
  rw [hord] at hnodup
  obtain ⟨-, hrest, hdisjoint⟩ := List.nodup_append'.1 hnodup
  have hp := (List.mem_filter.1 hm).2
  refine ⟨done.filter (isOnPage chunks page), rest.filter (isOnPage chunks page), ?_,
    fun i hi => (List.mem_filter.1 hi).1, fun i hi hdone => ?_, fun hfront => ?_⟩
  · rw [pageOrder, hord, List.filter_append, List.filter_cons_of_pos hp]
  · exact hdisjoint hdone (List.mem_cons_of_mem m (List.mem_filter.1 hi).1)
  · exact hdisjoint (List.mem_filter.1 hfront).1 List.mem_cons_self

theorem sourceOf_eq (order : List ℕ) (s : List (Chunk ρ)) (m : ℕ) (ck : Chunk ρ) :
    sourceOf order (textBounds chunks) s m ck =
      (nearest (getBoundsByPage ck) (textBounds chunks)).or
        ((getBoundsByPage ck).keys.min?.bind fun page =>
          neighbor s (pageOrder s order page) m) := by
  rw [sourceOf]
  cases nearest (getBoundsByPage ck) (textBounds chunks) with
  | some i => rfl
  | none =>
      cases (getBoundsByPage ck).keys.min? with
      | some page => rfl
      | none => rfl

/-- The search on the page finds the same if no chunk that has become text hides a text chunk. -/
theorem neighbor_rewritten (hord : orderedIndices chunks = done ++ m :: rest) {page : ℤ}
    (h : ∀ before u between, pageOrder chunks (orderedIndices chunks) page =
      before ++ u :: (between ++ [m]) → BecomesText o chunks u →
        ∃ t ∈ between, isTextAt chunks t = true) :
    neighbor (rewritten chunks (attached o chunks) done)
        (pageOrder chunks (orderedIndices chunks) page) m =
      neighbor chunks (pageOrder chunks (orderedIndices chunks) page) m := by
  by_cases hm : m ∈ pageOrder chunks (orderedIndices chunks) page
  · obtain ⟨front, tail, hpage, hfront, htail, hnotMem⟩ := exists_pageOrder_eq hord hm
    rw [hpage] at h
    rw [hpage, neighbor_eq _ hnotMem, neighbor_eq _ hnotMem]
    split_ifs with hnil hlast
    · apply find?_eq_of_hidden
      · exact fun i _ hi => isTextAt_of_isTextAt done hi
      · intro before i behind hsplit hnow hold
        have hmem : i ∈ tail := hsplit ▸ List.mem_append_right _ List.mem_cons_self
        exact absurd (becomesText_of_isTextAt hnow hold).1 (htail i hmem)
    · apply find?_eq_of_hidden
      · exact fun i _ hi => isTextAt_of_isTextAt done hi
      · intro between i before hsplit hnow hold
        have hfrontEq : front = before.reverse ++ i :: between.reverse := by
          rw [← List.reverse_reverse front, hsplit]
          simp
        obtain ⟨t, ht, htext⟩ := h before.reverse i between.reverse
          (by rw [hfrontEq, hlast, List.append_assoc, List.cons_append])
          (becomesText_of_isTextAt hnow hold).2
        exact ⟨t, List.mem_reverse.1 ht, htext⟩
    · rfl
  · rw [neighbor, neighbor, if_pos hm, if_pos hm]

/-- Without a chunk that misleads, the source is the one among the chunks as they came in. -/
theorem sourceOf_rewritten (hord : orderedIndices chunks = done ++ m :: rest)
    (hck : chunks[m]? = some ck) (hbudget : 0 < tokenBudget o ck)
    (h : ∀ u, ¬ Misled o chunks m u) :
    sourceOf (orderedIndices chunks) (textBounds chunks)
        (rewritten chunks (attached o chunks) done) m ck =
      sourceOf (orderedIndices chunks) (textBounds chunks) chunks m ck := by
  rw [sourceOf_eq, sourceOf_eq]
  cases hnear : nearest (getBoundsByPage ck) (textBounds chunks) with
  | some i => rfl
  | none =>
      cases hmin : (getBoundsByPage ck).keys.min? with
      | none => rfl
      | some page =>
          simp only [Option.none_or, Option.bind_some, pageOrder_rewritten]
          apply neighbor_rewritten hord
          intro before u between hpage hu
          by_contra hnone
          refine h u ⟨ck, page, before, between, hck, hbudget, hnear, hmin, hpage,
            fun t ht => ?_, hu⟩
          rw [← Bool.not_eq_true]
          exact fun htext => hnone ⟨t, ht, htext⟩

/-- If the source was a text chunk from the start, it is the one among the chunks as they came in,
and no chunk misleads. -/
theorem sourceOf_rewritten_of_isTextAt (hord : orderedIndices chunks = done ++ m :: rest)
    (h : ∀ i ∈ sourceOf (orderedIndices chunks) (textBounds chunks)
      (rewritten chunks (attached o chunks) done) m ck, isTextAt chunks i = true) :
    sourceOf (orderedIndices chunks) (textBounds chunks)
        (rewritten chunks (attached o chunks) done) m ck =
      sourceOf (orderedIndices chunks) (textBounds chunks) chunks m ck := by
  rw [sourceOf_eq] at h ⊢
  rw [sourceOf_eq]
  cases hnear : nearest (getBoundsByPage ck) (textBounds chunks) with
  | some i => rfl
  | none =>
      cases hmin : (getBoundsByPage ck).keys.min? with
      | none => rfl
      | some page =>
          simp only [hnear, hmin, Option.none_or, Option.bind_some, pageOrder_rewritten] at h ⊢
          by_cases hm : m ∈ pageOrder chunks (orderedIndices chunks) page
          · obtain ⟨front, tail, hpage, _, _, hnotMem⟩ := exists_pageOrder_eq hord hm
            rw [hpage, neighbor_eq _ hnotMem] at h ⊢
            rw [neighbor_eq _ hnotMem]
            split_ifs at h ⊢
            · exact find?_eq_of_found (fun i _ hi => isTextAt_of_isTextAt done hi) h
            · exact find?_eq_of_found (fun i _ hi => isTextAt_of_isTextAt done hi) h
            · rfl
          · rw [neighbor, neighbor, if_pos hm, if_pos hm]

/-- From the same source comes the same context. -/
theorem attach_rewritten (done : List ℕ)
    (h : sourceOf (orderedIndices chunks) (textBounds chunks)
        (rewritten chunks (attached o chunks) done) m ck =
      sourceOf (orderedIndices chunks) (textBounds chunks) chunks m ck) :
    attach o (orderedIndices chunks) (textBounds chunks)
        (rewritten chunks (attached o chunks) done) m ck =
      attached o chunks m ck := by
  have hsource : ((sourceOf (orderedIndices chunks) (textBounds chunks) chunks m ck).bind fun i =>
      (rewritten chunks (attached o chunks) done)[i]?) =
        (sourceOf (orderedIndices chunks) (textBounds chunks) chunks m ck).bind fun i =>
          chunks[i]? := by
    cases hi : sourceOf (orderedIndices chunks) (textBounds chunks) chunks m ck with
    | none => rfl
    | some i => exact getElem?_of_isTextAt done (sourceOf_isText hi)
  rw [attached, attach, attach, contextOf, contextOf, h, hsource]

/-- The loop rewrites every chunk from the chunks as they came in, if every source is the one among
them. -/
theorem attachFirst_eq
    (h : ∀ done m rest ck, orderedIndices chunks = done ++ m :: rest → chunks[m]? = some ck →
      0 < tokenBudget o ck →
        attachFirst o chunks done = rewritten chunks (attached o chunks) done →
          sourceOf (orderedIndices chunks) (textBounds chunks)
              (rewritten chunks (attached o chunks) done) m ck =
            sourceOf (orderedIndices chunks) (textBounds chunks) chunks m ck)
    (hord : orderedIndices chunks = done ++ rest) :
    attachFirst o chunks done = rewritten chunks (attached o chunks) done := by
  have hnodup := nodup_orderedIndices chunks
  rw [hord] at hnodup
  apply rewriteAll_eq _ done (List.Nodup.of_append_left hnodup)
  intro before i behind ck hsplit hck hbefore
  by_cases hbudget : 0 < tokenBudget o ck
  · apply attach_rewritten
    exact h before i (behind ++ rest) ck (by rw [hord, hsplit, List.append_assoc, List.cons_append])
      hck hbudget hbefore
  · rw [attached, attach, attach, if_pos (not_lt.1 hbudget), if_pos (not_lt.1 hbudget)]

theorem attachFirst_of_not_misled (h : ∀ m u, ¬ Misled o chunks m u) (rest : List ℕ)
    (hord : orderedIndices chunks = done ++ rest) :
    attachFirst o chunks done = rewritten chunks (attached o chunks) done :=
  attachFirst_eq (fun _ m _ _ hord hck hbudget _ => sourceOf_rewritten hord hck hbudget (h m)) hord

/-- A chunk that misleads is found, or another one that came to count as text. -/
theorem not_isTextAt_of_misled (hord : orderedIndices chunks = done ++ m :: rest) {u : ℕ}
    (h : Misled o chunks m u) :
    ∃ ck, chunks[m]? = some ck ∧ 0 < tokenBudget o ck ∧
      ∃ i ∈ sourceOf (orderedIndices chunks) (textBounds chunks)
        (rewritten chunks (attached o chunks) done) m ck, isTextAt chunks i = false := by
  obtain ⟨ck, page, before, between, hck, hbudget, hnear, hmin, hpage, hbetween, hu⟩ := h
  refine ⟨ck, hck, hbudget, ?_⟩
  have hm : m ∈ pageOrder chunks (orderedIndices chunks) page := by
    rw [hpage]
    simp
  obtain ⟨front, tail, hpage', hfront, -, hnotMem⟩ := exists_pageOrder_eq hord hm
  have hnodup : (pageOrder chunks (orderedIndices chunks) page).Nodup :=
    (nodup_orderedIndices chunks).filter _
  have hsplit : before ++ u :: (between ++ [m]) = (before ++ u :: between) ++ m :: [] := by simp
  have hnotMem' : m ∉ before ++ u :: between := by
    rw [hpage, hsplit] at hnodup
    exact fun hmem => (List.nodup_append'.1 hnodup).2.2 hmem (List.mem_singleton_self m)
  have heq : front = before ++ u :: between ∧ tail = [] := by
    rw [hpage, hsplit] at hpage'
    obtain ⟨hfronts, -, htails⟩ :=
      (List.append_cons_inj_of_notMem hnotMem' List.not_mem_nil).1 hpage'
    exact ⟨hfronts.symm, htails.symm⟩
  obtain ⟨rfl, rfl⟩ := heq
  have hudone : u ∈ done := hfront u (by simp)
  have hunow := isTextAt_of_becomesText hudone hu
  obtain ⟨cu, hcu, huold, -⟩ := hu
  rw [sourceOf_eq, hnear, hmin]
  simp only [Option.none_or, Option.bind_some, pageOrder_rewritten]
  rw [hpage, hsplit, neighbor_eq _ hnotMem', if_neg (by simp), if_pos rfl, List.reverse_append,
    List.reverse_cons, List.append_assoc, List.find?_append]
  cases hfound : between.reverse.find? (isTextAt (rewritten chunks (attached o chunks) done)) with
  | some t =>
      exact ⟨t, rfl, hbetween t (List.mem_reverse.1 (List.mem_of_find?_eq_some hfound))⟩
  | none =>
      refine ⟨u, ?_, by rw [isTextAt_eq u hcu, huold]⟩
      simp [hunow]

/-- Exactly if no chunk misleads another, every context comes from the text that came in. -/
theorem sourcesAreText_iff : SourcesAreText o chunks ↔ ∀ m u, ¬ Misled o chunks m u := by
  refine ⟨fun h m u hmisled => ?_, fun h done m rest ck hord hck hbudget i hi => ?_⟩
  · have hstate : ∀ done rest, orderedIndices chunks = done ++ rest →
        attachFirst o chunks done = rewritten chunks (attached o chunks) done := by
      intro done rest hord
      refine attachFirst_eq (fun done m rest ck hord hck hbudget hdone => ?_) hord
      apply sourceOf_rewritten_of_isTextAt hord
      rw [← hdone]
      exact h done m rest ck hord hck hbudget
    have hm : m ∈ orderedIndices chunks := by
      obtain ⟨_, page, before, between, _, _, _, _, hpage, _⟩ := hmisled
      have hmem : m ∈ pageOrder chunks (orderedIndices chunks) page := by
        rw [hpage]
        simp
      exact (List.mem_filter.1 hmem).1
    obtain ⟨done, rest, hord⟩ := List.append_of_mem hm
    obtain ⟨ck, hck, hbudget, i, hi, htext⟩ := not_isTextAt_of_misled hord hmisled
    rw [← hstate done (m :: rest) hord] at hi
    rw [h done m rest ck hord hck hbudget i hi] at htext
    cases htext
  · rw [attachFirst_of_not_misled h _ hord, sourceOf_rewritten hord hck hbudget (h m)] at hi
    exact sourceOf_isText hi

end Run

/-! ## Only context is added -/

section Adds

variable {ρ : Type*} {o : Settings} {chunks : List (Chunk ρ)}

/-- Text chunks stay as they are, and tables and images keep what is their own. -/
structure AddsOnlyContext (o : Settings) (chunks final : List (Chunk ρ)) : Prop where
  length : final.length = chunks.length
  text : ∀ (i : ℕ) (ck : Chunk ρ), chunks[i]? = some ck → isTextChunk ck = true →
    final[i]? = some ck
  media : ∀ (i : ℕ) (ck : Chunk ρ), chunks[i]? = some ck → isTextChunk ck = false →
    ∃ ck', final[i]? = some ck' ∧ KeepsOwn o chunks ck ck'

theorem addsOnlyContext_refl (o : Settings) (chunks : List (Chunk ρ)) :
    AddsOnlyContext o chunks chunks where
  length := rfl
  text _ _ hck _ := hck
  media _ ck hck _ := ⟨ck, hck, .refl ck, .inl rfl⟩

theorem addsOnlyContext_rewritten (o : Settings) (chunks : List (Chunk ρ)) (done : List ℕ) :
    AddsOnlyContext o chunks (rewritten chunks (attached o chunks) done) where
  length := List.length_mapIdx
  text i ck hck htext := by
    rw [getElem?_of_isTextAt done ((isTextAt_eq i hck).trans htext), hck]
  media i ck hck _ := by
    rw [getElem?_rewritten, hck, Option.map_some]
    refine ⟨_, rfl, ?_⟩
    split_ifs
    · exact attach_keepsOwn o _ chunks i ck
    · exact ⟨.refl ck, .inl rfl⟩

/-- The chunks come out in another order at most. -/
theorem attachMediaContext_perm (h : ∀ m u, ¬ Misled o chunks m u) :
    ∃ final, AddsOnlyContext o chunks final ∧ (attachMediaContext o chunks).Perm final := by
  have hstate : attachFirst o chunks (orderedIndices chunks) =
      rewritten chunks (attached o chunks) (orderedIndices chunks) :=
    attachFirst_of_not_misled h [] (List.append_nil _).symm
  have hlength : (rewritten chunks (attached o chunks) (orderedIndices chunks)).length =
      chunks.length := List.length_mapIdx
  have hperm := (orderedIndices_perm chunks).filterMap
    ((rewritten chunks (attached o chunks) (orderedIndices chunks))[·]?)
  rw [← hlength, filterMap_range] at hperm
  have hadds := addsOnlyContext_rewritten o chunks (orderedIndices chunks)
  rw [attachMediaContext]
  split_ifs with hnone hsorted
  · exact ⟨chunks, addsOnlyContext_refl o chunks, .refl chunks⟩
  · refine ⟨_, hadds, ?_⟩
    simp only [hstate]
    exact hperm
  · exact ⟨_, hadds, .of_eq hstate⟩

/-- Context is taken from text that came in, and nothing else is added or changed, exactly if no
chunk misleads another. -/
theorem attachMediaContext_addsOnlyContext_iff (o : Settings) (chunks : List (Chunk ρ)) :
    (SourcesAreText o chunks ∧
        ∃ final, AddsOnlyContext o chunks final ∧ (attachMediaContext o chunks).Perm final) ↔
      ∀ m u, ¬ Misled o chunks m u :=
  ⟨fun h => sourcesAreText_iff.1 h.1, fun h => ⟨sourcesAreText_iff.2 h, attachMediaContext_perm h⟩⟩

end Adds

/-! ## An image between a text and a table -/

def countChars : Settings where
  numTokensFromString := List.length
  tokenize := id
  fineGrainedTokenize := id
  tableContextSize := 20
  imageContextSize := 20

/-- A chunk on the first page. -/
def chunkAt (docTypeKwd : Option String) (image : Bool) (text : Text) (top bottom : ℚ) :
    Chunk Unit where
  docTypeKwd := docTypeKwd
  image := image
  contentWithWeight := .str text
  text := .missing
  contentLtks := none
  contentSmLtks := none
  positionInt := [[some 1, some 0, some 9, some top, some bottom]]
  pageNumInt := [some 1]
  pageNumber := none
  topInt := [some top]
  top := none
  bottom := none
  x0 := none
  rest := ()

def twoSentences : Chunk Unit := chunkAt none false ['A', '.', ' ', 'B', '.'] 0 15

def picture : Chunk Unit := chunkAt none true [] 10 20

def table : Chunk Unit := chunkAt (some "table") false ['t'] 30 40

/-- A table behind a text gets its context from there. -/
theorem attachMediaContext_addsOnlyContext_table :
    SourcesAreText countChars [twoSentences, table] ∧
      ∃ final, AddsOnlyContext countChars [twoSentences, table] final ∧
        (attachMediaContext countChars [twoSentences, table]).Perm final := by
  refine (attachMediaContext_addsOnlyContext_iff countChars [twoSentences, table]).2 fun m u h => ?_
  obtain ⟨_, _, _, _, _, _, _, _, _, _, hu⟩ := h
  obtain ⟨ck, hck, himage, -⟩ := hu.untagged
  have hplain : ∀ ck ∈ [twoSentences, table], ck.image = false := by decide
  rw [hplain ck (List.mem_of_getElem? hck)] at himage
  cases himage

/-- Behind the picture, the table gets its context from the text that the picture has got: the line
break between the sentences is taken for a sentence. -/
theorem not_addsOnlyContext :
    ¬ ∃ final, AddsOnlyContext countChars [twoSentences, picture, table] final ∧
      (attachMediaContext countChars [twoSentences, picture, table]).Perm final := by
  rintro ⟨final, hadds, hperm⟩
  obtain ⟨ck', hck', hkeeps⟩ := hadds.media 2 table rfl (by decide)
  have htexts : ∀ ck ∈ attachMediaContext countChars [twoSentences, picture, table],
      ck.docTypeKwd = some "table" →
        getText ck = ['A', '.', '\n', '\n', '\n', 't', '\n', ' ', 'B', '.'] := by
    decide +kernel
  have htext := htexts ck' (hperm.mem_iff.2 (List.mem_of_getElem? hck')) hkeeps.fields.docTypeKwd
  rcases hkeeps.text with hsame | ⟨prev, next, hcontext, hcombine⟩
  · rw [htext] at hsame
    exact absurd hsame (by decide)
  · obtain ⟨source, hmem, hsource, hsub⟩ := hcontext.source
    have honly : ∀ ck ∈ [twoSentences, picture, table], isTextChunk ck = true →
        splitSentences (getText ck) = [['A', '.'], [' ', 'B', '.']] := by decide
    rw [honly source hmem hsource] at hsub
    have hall : ∀ l ∈ List.sublists [['A', '.'], [' ', 'B', '.']], ∀ k < 3,
        combine (l.take k) (l.drop k) (getText table) ≠
          ['A', '.', '\n', '\n', '\n', 't', '\n', ' ', 'B', '.'] := by decide
    have hlength : prev.length < 3 := by
      have hle := hsub.length_le
      rw [List.length_append] at hle
      exact Nat.lt_succ_of_le ((Nat.le_add_right _ _).trans hle)
    apply hall (prev ++ next) (List.mem_sublists.2 hsub) prev.length hlength
    rw [List.take_left, List.drop_left, ← hcombine, htext]

end RagFlow.Chunking.MediaContext
