/-
# Merging the sections of a document

`naive_merge_docx` makes chunks of the texts, the images and the tables of a document, gives the
tables and the images the text around them, and merges the chunks of text. With custom delimiters
the text is cut at them only, so that what stands behind the last one waits in a buffer for the next
section, also where a table or an image comes in between. The contexts are gathered from the chunks
next to an image or a table, up to a number of tokens in each direction.
-/

import RagFlow.Chunking.Sentences
import RagFlow.Query.Text

namespace RagFlow.Chunking

open RagFlow.Math
open RagFlow.Query (strip)

/-! ## Chunks -/

/-- A section; the text and the table are empty where there is none. -/
structure DocxSection (Img : Type) where
  text : Text
  image : Option Img
  table : Text

/-- The text with a newline before it. -/
def DocxSection.body {Img : Type} (sec : DocxSection Img) : Text :=
  if sec.text = [] then [] else '\n' :: sec.text

inductive CkType
  | text
  | image
  | table
  deriving DecidableEq

/-- A chunk as it is built. -/
structure Ck (Img : Type) where
  text : Text
  image : Option Img
  ckType : CkType
  tkNums : ℕ

/-- A chunk with the contexts that it was given, if any. -/
structure ContextCk (Img : Type) extends Ck Img where
  contextAbove : Option Text := none
  contextBelow : Option Text := none

/-! ## `_build_cks` -/

/-- The local variables of `_build_cks`. -/
structure DocxBuild (Img : Type) where
  cks : List (Ck Img)
  tables : List ℕ
  images : List ℕ
  seg : Text

section Build

variable {Img : Type} (num : Text → ℕ) (delims : List Text)

def DocxBuild.start : DocxBuild Img := { cks := [], tables := [], images := [], seg := [] }

/-- A chunk of text, unless it is blank. -/
def DocxBuild.addText (s : DocxBuild Img) (t : Text) : DocxBuild Img :=
  if strip t = [] then s else { s with cks := s.cks ++ [⟨strip t, none, .text, num (strip t)⟩] }

def DocxBuild.flush (s : DocxBuild Img) : DocxBuild Img := { s.addText num s.seg with seg := [] }

/-- A piece at which the text is cut: it is blank, or a delimiter. -/
def isCut (sub : Text) : Bool := strip sub = [] ∨ strip sub ∈ delims

def DocxBuild.addPiece (s : DocxBuild Img) (sub : Text) : DocxBuild Img :=
  if isCut delims sub then s.flush num else { s with seg := s.seg ++ sub }

/-- The pieces of a text and the delimiters between them. -/
def piecesOf (text : Text) : List Text := splitMatches (delimiterLength delims) text

/-- The body of the loop over the sections. -/
def DocxBuild.addSection (s : DocxBuild Img) (sec : DocxSection Img) : DocxBuild Img :=
  let text := sec.body
  if sec.table ≠ [] then
    let ckText := text ++ sec.table
    { s with
      cks := s.cks ++ [⟨ckText, sec.image, .table, num ckText⟩]
      tables := s.tables ++ [s.cks.length] }
  else if sec.image.isSome then
    { s with
      cks := s.cks ++ [⟨text, sec.image, .image, num text⟩]
      images := s.images ++ [s.cks.length] }
  else if delims ≠ [] then (piecesOf delims text).foldl (DocxBuild.addPiece num delims) s
  else s.addText num text

def buildCks (sections : List (DocxSection Img)) : DocxBuild Img :=
  let s := sections.foldl (DocxBuild.addSection num delims) DocxBuild.start
  if delims ≠ [] then s.flush num else s

end Build

/-! ## `_add_context` -/

section Context

variable {Img : Type} (num : Text → ℕ)

def takeSentencesFromEnd (cnt : Text) (needTokens : ℤ) : Text :=
  takeUp (fun acc => needTokens ≤ num acc) (withStops (splitStops cnt)).reverse []

def takeSentencesFromStart (cnt : Text) (needTokens : ℤ) : Text :=
  takeDown (fun acc => needTokens ≤ num acc) (withStops (splitStops cnt)) []

/-- The loop over the chunks before, from the nearest one up. -/
def gatherAbove : List (Ck Img) → ℤ → Text
  | [], _ => []
  | ck :: prev, remain =>
    if remain ≤ 0 then []
    else if ck.ckType = .text then
      if remain ≤ ck.tkNums then takeSentencesFromEnd num ck.text remain
      else gatherAbove prev (remain - ck.tkNums) ++ ck.text
    else gatherAbove prev remain

/-- The loop over the chunks behind, from the nearest one down. -/
def gatherBelow : List (Ck Img) → ℤ → Text
  | [], _ => []
  | ck :: after, remain =>
    if remain ≤ 0 then []
    else if ck.ckType = .text then
      if remain ≤ ck.tkNums then takeSentencesFromStart num ck.text remain
      else ck.text ++ gatherBelow after (remain - ck.tkNums)
    else gatherBelow after remain

/-- The chunk at `idx` with what is gathered around it. -/
def withContext (size : ℤ) (cks : List (Ck Img)) (idx : ℕ) (ck : ContextCk Img) : ContextCk Img :=
  { ck with
    contextAbove := some (gatherAbove num (cks.take idx).reverse size)
    contextBelow := some (gatherBelow num (cks.drop (idx + 1)) size) }

def addContext (size : ℤ) (cks : List (ContextCk Img)) (idx : ℕ) : List (ContextCk Img) :=
  cks.modify idx fun ck =>
    if ck.ckType = .text then ck else withContext num size (cks.map ContextCk.toCk) idx ck

end Context

/-! ## `_merge_cks` -/

/-- The local variables of `_merge_cks`. -/
structure MergedCks (Img : Type) where
  merged : List (ContextCk Img)
  imageIdxs : List ℕ
  prevTextCk : Option ℕ

section Merge

variable {Img : Type} (chunkTokenNum : ℤ) (hasCustom : Bool)

/-- Whether a chunk of text is put behind the others instead of into the one before it. -/
def MergedCks.opens (s : MergedCks Img) : Bool :=
  match s.prevTextCk with
  | none => true
  | some p => (s.merged[p]?.all fun ck => chunkTokenNum ≤ ck.tkNums) || hasCustom

def MergedCks.add (s : MergedCks Img) (ck : ContextCk Img) : MergedCks Img :=
  if ck.ckType ≠ .text then
    { s with
      merged := s.merged ++ [ck]
      imageIdxs :=
        if ck.ckType = .image then s.imageIdxs ++ [s.merged.length] else s.imageIdxs }
  else if s.opens chunkTokenNum hasCustom then
    { s with merged := s.merged ++ [ck], prevTextCk := some s.merged.length }
  else
    { s with
      merged := s.merged.modify (s.prevTextCk.getD 0) fun prev =>
        { prev with text := prev.text ++ ck.text, tkNums := prev.tkNums + ck.tkNums } }

def mergeCks (cks : List (ContextCk Img)) : MergedCks Img :=
  cks.foldl (MergedCks.add chunkTokenNum hasCustom)
    { merged := [], imageIdxs := [], prevTextCk := none }

end Merge

/-! ## `naive_merge_docx` -/

structure DocxOptions where
  chunkTokenNum : ℤ := 128
  delimiter : Text := ['\n', '。', '；', '！', '？']
  tableContextSize : ℤ := 0
  imageContextSize : ℤ := 0

section NaiveMergeDocx

variable {Img : Type} (num : Text → ℕ) (o : DocxOptions)

/-- The chunks with their contexts, before they are merged. -/
def contextCks (b : DocxBuild Img) : List (ContextCk Img) :=
  let cks : List (ContextCk Img) := b.cks.map fun ck => { ck with }
  let cks :=
    if 0 < o.tableContextSize then b.tables.foldl (addContext num o.tableContextSize) cks else cks
  if 0 < o.imageContextSize then b.images.foldl (addContext num o.imageContextSize) cks else cks

def naiveMergeDocx (sections : List (DocxSection Img)) : List (ContextCk Img) × List ℕ :=
  if sections.isEmpty then ([], [])
  else
    let delims := customDelimiters o.delimiter
    let b := buildCks num delims sections
    let m := mergeCks o.chunkTokenNum (decide (delims ≠ [])) (contextCks num o b)
    (m.merged, m.imageIdxs)

end NaiveMergeDocx

/-! ## What the loops do -/

section Specs

variable {Img : Type} {num : Text → ℕ} {size : ℤ} {cks : List (Ck Img)}

def Ck.isMedia (ck : Ck Img) : Bool := ck.ckType ≠ .text

/-- The text of the chunks of text. -/
def textOf (cks : List (Ck Img)) : Text := (cks.filter fun ck => !ck.isMedia).flatMap Ck.text

theorem textOf_append (cks cks' : List (Ck Img)) :
    textOf (cks ++ cks') = textOf cks ++ textOf cks' := by
  rw [textOf, List.filter_append, List.flatMap_append]
  rfl

theorem textOf_cons (ck : Ck Img) (cks : List (Ck Img)) :
    textOf (ck :: cks) = if ck.ckType = .text then ck.text ++ textOf cks else textOf cks := by
  rw [textOf, List.filter_cons, Ck.isMedia]
  by_cases h : ck.ckType = .text
  · simp [h, textOf]
  · simp [h, textOf]

theorem isSuffix_takeSentencesFromEnd (num : Text → ℕ) (cnt : Text) (needTokens : ℤ) :
    takeSentencesFromEnd num cnt needTokens <:+ cnt := by
  obtain ⟨t, ht, heq⟩ := exists_takeUp (fun acc => needTokens ≤ num acc)
    (withStops (splitStops cnt)).reverse []
  rw [List.reverse_reverse, flatten_withStops, flatten_splitStops] at ht
  rw [takeSentencesFromEnd, heq, List.append_nil]
  exact ht

theorem isPrefix_takeSentencesFromStart (num : Text → ℕ) (cnt : Text) (needTokens : ℤ) :
    takeSentencesFromStart num cnt needTokens <+: cnt := by
  obtain ⟨t, ht, heq⟩ := exists_takeDown (fun acc => needTokens ≤ num acc)
    (withStops (splitStops cnt)) []
  rw [flatten_withStops, flatten_splitStops] at ht
  rw [takeSentencesFromStart, heq, List.nil_append]
  exact ht

/-- What is gathered above is an end of the text of the chunks before. -/
theorem isSuffix_gatherAbove (num : Text → ℕ) (prev : List (Ck Img)) (remain : ℤ) :
    gatherAbove num prev remain <:+ textOf prev.reverse := by
  induction prev generalizing remain with
  | nil => exact List.suffix_rfl
  | cons ck prev ih =>
      rw [List.reverse_cons, textOf_append, textOf_cons, gatherAbove]
      by_cases hremain : remain ≤ 0
      · rw [if_pos hremain]
        exact List.nil_suffix
      · rw [if_neg hremain]
        by_cases htext : ck.ckType = .text
        · rw [if_pos htext, if_pos htext]
          change _ <:+ _ ++ (ck.text ++ [])
          rw [List.append_nil]
          split
          · exact (isSuffix_takeSentencesFromEnd num ck.text remain).trans (List.suffix_append _ _)
          · obtain ⟨u, hu⟩ := ih (remain - ck.tkNums)
            exact ⟨u, by rw [← List.append_assoc, hu]⟩
        · rw [if_neg htext, if_neg htext]
          change _ <:+ _ ++ []
          rw [List.append_nil]
          exact ih remain

/-- What is gathered below is a beginning of the text of the chunks behind. -/
theorem isPrefix_gatherBelow (num : Text → ℕ) (after : List (Ck Img)) (remain : ℤ) :
    gatherBelow num after remain <+: textOf after := by
  induction after generalizing remain with
  | nil => exact List.prefix_rfl
  | cons ck after ih =>
      rw [textOf_cons, gatherBelow]
      by_cases hremain : remain ≤ 0
      · rw [if_pos hremain]
        exact List.nil_prefix
      · rw [if_neg hremain]
        by_cases htext : ck.ckType = .text
        · rw [if_pos htext, if_pos htext]
          split
          · exact (isPrefix_takeSentencesFromStart num ck.text remain).trans
              (List.prefix_append _ _)
          · exact (List.prefix_append_right_inj ck.text).mpr (ih (remain - ck.tkNums))
        · rw [if_neg htext, if_neg htext]
          exact ih remain

/-- A size beyond all tokens gathers all the text. -/
theorem gatherBelow_eq_textOf (num : Text → ℕ) (after : List (Ck Img)) {remain : ℤ}
    (h : ((after.map Ck.tkNums).sum : ℤ) < remain) :
    gatherBelow num after remain = textOf after := by
  induction after generalizing remain with
  | nil => rfl
  | cons ck after ih =>
      rw [List.map_cons, List.sum_cons, Nat.cast_add] at h
      rw [textOf_cons, gatherBelow, if_neg (by omega)]
      by_cases htext : ck.ckType = .text
      · rw [if_pos htext, if_pos htext, if_neg (by omega), ih (by omega)]
      · rw [if_neg htext, if_neg htext, ih (by omega)]

theorem addContext_getElem? (num : Text → ℕ) (size : ℤ) (cks : List (ContextCk Img))
    (idx i : ℕ) :
    (addContext num size cks idx)[i]? = cks[i]?.map fun ck =>
      if i = idx ∧ ck.isMedia then withContext num size (cks.map ContextCk.toCk) i ck else ck := by
  rw [addContext, List.getElem?_modify]
  cases cks[i]? with
  | none => rfl
  | some ck =>
      by_cases hi : idx = i
      · subst hi
        by_cases htext : ck.ckType = .text
        · simp [htext, Ck.isMedia]
        · simp [htext, Ck.isMedia]
      · simp [hi, Ne.symm hi]

/-- A context changes nothing of the chunk itself. -/
theorem map_toCk_addContext (num : Text → ℕ) (size : ℤ) (cks : List (ContextCk Img)) (idx : ℕ) :
    (addContext num size cks idx).map ContextCk.toCk = cks.map ContextCk.toCk := by
  apply List.ext_getElem?
  intro i
  rw [List.getElem?_map, List.getElem?_map, addContext_getElem?, Option.map_map]
  congr 1
  funext ck
  simp only [Function.comp_apply]
  split
  · rfl
  · rfl

theorem map_toCk_foldl_addContext (num : Text → ℕ) (size : ℤ) (cks : List (ContextCk Img))
    (idxs : List ℕ) :
    (idxs.foldl (addContext num size) cks).map ContextCk.toCk = cks.map ContextCk.toCk := by
  induction idxs generalizing cks with
  | nil => rfl
  | cons idx idxs ih => rw [List.foldl_cons, ih, map_toCk_addContext]

/-- The chunks at the indices get their contexts, in whatever order. -/
theorem foldl_addContext_getElem? (num : Text → ℕ) (size : ℤ) (cks : List (ContextCk Img))
    (idxs : List ℕ) (i : ℕ) :
    (idxs.foldl (addContext num size) cks)[i]? = cks[i]?.map fun ck =>
      if i ∈ idxs ∧ ck.isMedia then withContext num size (cks.map ContextCk.toCk) i ck else ck := by
  induction idxs generalizing cks with
  | nil => simp
  | cons idx idxs ih =>
      rw [List.foldl_cons, ih, addContext_getElem?, map_toCk_addContext, Option.map_map]
      congr 1
      funext ck
      rw [Function.comp_apply]
      by_cases hfirst : i = idx ∧ ck.isMedia = true
      · have hmem : i ∈ idx :: idxs ∧ ck.isMedia = true :=
          ⟨List.mem_cons.mpr (.inl hfirst.1), hfirst.2⟩
        rw [if_pos hfirst, if_pos hmem]
        -- a second context at the same index is the first one again
        exact ite_self _
      · rw [if_neg hfirst]
        refine if_congr ?_ rfl rfl
        rw [List.mem_cons]
        tauto

theorem getElem?_append_eq_some_iff {α : Type} {l new : List α} {i : ℕ} {a : α} :
    (l ++ new)[i]? = some a ↔
      l[i]? = some a ∨ l.length ≤ i ∧ new[i - l.length]? = some a := by
  rcases Nat.lt_or_ge i l.length with hlt | hge
  · rw [List.getElem?_append_left hlt]
    exact ⟨.inl, fun h => h.resolve_right fun h => absurd hlt (not_lt.mpr h.1)⟩
  · rw [List.getElem?_append_right hge, List.getElem?_eq_none hge]
    simp [hge]

/-- The size of the contexts for a kind of chunk. -/
def DocxOptions.contextSize (o : DocxOptions) : CkType → ℤ
  | .table => o.tableContextSize
  | _ => o.imageContextSize

theorem ite_foldl_addContext_getElem? (num : Text → ℕ) (size : ℤ) (cks : List (ContextCk Img))
    (idxs : List ℕ) (i : ℕ) :
    (if 0 < size then idxs.foldl (addContext num size) cks else cks)[i]? = cks[i]?.map fun ck =>
      if (0 < size ∧ i ∈ idxs) ∧ ck.isMedia then withContext num size (cks.map ContextCk.toCk) i ck
      else ck := by
  by_cases hsize : 0 < size
  · rw [if_pos hsize, foldl_addContext_getElem?]
    simp only [hsize, true_and]
  · rw [if_neg hsize]
    simp [hsize]

theorem map_toCk_ite_foldl_addContext (num : Text → ℕ) (size : ℤ) (cks : List (ContextCk Img))
    (idxs : List ℕ) :
    (if 0 < size then idxs.foldl (addContext num size) cks else cks).map ContextCk.toCk =
      cks.map ContextCk.toCk := by
  split
  · exact map_toCk_foldl_addContext num size cks idxs
  · rfl

/-- The lists of indices name the chunks of each kind. -/
structure DocxBuild.Indexed (s : DocxBuild Img) : Prop where
  tables : ∀ i, i ∈ s.tables ↔ (s.cks.map Ck.ckType)[i]? = some .table
  images : ∀ i, i ∈ s.images ↔ (s.cks.map Ck.ckType)[i]? = some .image

theorem map_toCk_contextCks (num : Text → ℕ) (o : DocxOptions) (b : DocxBuild Img) :
    (contextCks num o b).map ContextCk.toCk = b.cks := by
  rw [contextCks, map_toCk_ite_foldl_addContext, map_toCk_ite_foldl_addContext, List.map_map]
  exact List.map_id _

/-- Each image and each table gets a context of the size for its kind, if that is positive. -/
theorem contextCks_getElem? {b : DocxBuild Img} (hb : b.Indexed) {i : ℕ} {ck : Ck Img}
    (hck : b.cks[i]? = some ck) (hmedia : ck.isMedia = true) :
    (contextCks num o b)[i]? = some (if 0 < o.contextSize ck.ckType then
      withContext num (o.contextSize ck.ckType) b.cks i { ck with } else { ck with }) := by
  have hcks : (b.cks.map fun ck => ({ ck with } : ContextCk Img)).map ContextCk.toCk = b.cks := by
    rw [List.map_map]
    exact List.map_id _
  have hkind : (b.cks.map Ck.ckType)[i]? = some ck.ckType := by
    rw [List.getElem?_map, hck]
    rfl
  have htables : i ∈ b.tables ↔ ck.ckType = .table := by
    rw [hb.tables, hkind]
    exact ⟨Option.some.inj, congrArg some⟩
  have himages : i ∈ b.images ↔ ck.ckType = .image := by
    rw [hb.images, hkind]
    exact ⟨Option.some.inj, congrArg some⟩
  rw [contextCks, ite_foldl_addContext_getElem?, map_toCk_ite_foldl_addContext,
    ite_foldl_addContext_getElem?, hcks, List.getElem?_map, hck]
  cases htype : ck.ckType with
  | text => exact absurd htype (of_decide_eq_true hmedia)
  | image =>
      simp [htables, himages, htype, hmedia, DocxOptions.contextSize]
      rfl
  | table =>
      simp [htables, himages, htype, hmedia, DocxOptions.contextSize]
      rfl

theorem filter_modify {α : Type} {p : α → Bool} {f : α → α} {l : List α} {i : ℕ}
    (h : ∀ a, l[i]? = some a → p a = false ∧ p (f a) = false) :
    (l.modify i f).filter p = l.filter p := by
  induction l generalizing i with
  | nil => rw [List.modify_nil]
  | cons a l ih =>
      cases i with
      | zero =>
          obtain ⟨ha, hfa⟩ := h a rfl
          rw [List.modify_zero_cons,
            List.filter_cons_of_neg (by rw [hfa]; exact Bool.false_ne_true),
            List.filter_cons_of_neg (by rw [ha]; exact Bool.false_ne_true)]
      | succ i => rw [List.modify_succ_cons, List.filter_cons, List.filter_cons, ih h]

/-- The chunk to which text is added is one of text. -/
def MergedCks.Sound (s : MergedCks Img) : Prop :=
  ∀ p, s.prevTextCk = some p → ∃ ck, s.merged[p]? = some ck ∧ ck.isMedia = false

theorem MergedCks.add_spec (chunkTokenNum : ℤ) (hasCustom : Bool) {s : MergedCks Img}
    (hs : s.Sound) (ck : ContextCk Img) :
    (s.add chunkTokenNum hasCustom ck).Sound ∧
      (s.add chunkTokenNum hasCustom ck).merged.filter (fun ck => ck.isMedia) =
        s.merged.filter (fun ck => ck.isMedia) ++ [ck].filter fun ck => ck.isMedia := by
  by_cases htext : ck.ckType = .text
  · have hck : ck.isMedia = false := decide_eq_false (not_not.mpr htext)
    have hnone : [ck].filter (fun ck => ck.isMedia) = [] :=
      List.filter_cons_of_neg (by rw [hck]; exact Bool.false_ne_true)
    rw [add, if_neg (not_not.mpr htext), hnone, List.append_nil]
    by_cases hopens : s.opens chunkTokenNum hasCustom = true
    · rw [if_pos hopens]
      constructor
      · intro p hp
        rw [← Option.some.inj hp]
        exact ⟨ck, List.getElem?_concat_length, hck⟩
      · rw [List.filter_append, hnone, List.append_nil]
    · rw [if_neg hopens]
      cases hprev : s.prevTextCk with
      | none =>
          rw [opens, hprev] at hopens
          exact absurd rfl hopens
      | some p =>
          obtain ⟨q, hq, hqtext⟩ := hs p hprev
          constructor
          · intro p' hp'
            rw [← Option.some.inj hp']
            refine ⟨{ q with text := q.text ++ ck.text, tkNums := q.tkNums + ck.tkNums },
              ?_, hqtext⟩
            rw [Option.getD_some, List.getElem?_modify, hq]
            simp
          · rw [Option.getD_some]
            refine filter_modify fun a ha => ?_
            rw [hq] at ha
            rw [← Option.some.inj ha]
            exact ⟨hqtext, hqtext⟩
  · rw [add, if_pos htext]
    constructor
    · intro p hp
      obtain ⟨q, hq, hqtext⟩ := hs p hp
      exact ⟨q, getElem?_append_eq_some_iff.mpr (.inl hq), hqtext⟩
    · rw [List.filter_append]

/-- Where text is merged no image or table is touched. -/
theorem mergeCks_filter (chunkTokenNum : ℤ) (hasCustom : Bool) (cks : List (ContextCk Img)) :
    (mergeCks chunkTokenNum hasCustom cks).merged.filter (fun ck => ck.isMedia) =
      cks.filter fun ck => ck.isMedia := by
  have hrun : (mergeCks chunkTokenNum hasCustom cks).Sound ∧
      (mergeCks chunkTokenNum hasCustom cks).merged.filter (fun ck => ck.isMedia) =
        cks.filter fun ck => ck.isMedia := by
    induction cks using List.reverseRecOn with
    | nil => exact ⟨fun _ hp => (nomatch hp), rfl⟩
    | append_singleton cks ck ih =>
        obtain ⟨hsound, hfilter⟩ := MergedCks.add_spec chunkTokenNum hasCustom ih.1 ck
        rw [mergeCks, List.foldl_concat]
        refine ⟨hsound, hfilter.trans ?_⟩
        rw [ih.2, List.filter_append]
  exact hrun.2

end Specs

end RagFlow.Chunking
