/-
# Merging texts into chunks, with and without images

`naive_merge` fills chunks greedily with texts, each new chunk beginning with the end
of the one before it, or cuts every text at custom delimiters. The function
`naive_merge_with_images` is a second copy of it that also keeps one image for every
chunk. The file models both and shows that they stay in step: the chunks are equal,
and the image of a chunk is merged from the images of the texts that were put into it.
-/

import RagFlow.Chunking.Text
import RagFlow.Math.Except
import Mathlib.Data.List.Forall2

namespace RagFlow.Chunking

open RagFlow.Math

/-! ## Arguments -/

/-- The list of texts: strings, or pairs of a text and its position. -/
inductive Texts where
  | plain (ts : List Text)
  | located (ts : List (Text × Option Text))

/-- A text and its position; a text that comes alone has the empty one. -/
abbrev Section := Text × Option Text

def Texts.sections : Texts → List Section
  | .plain ts => ts.map fun t => (t, some [])
  | .located ts => ts

structure MergeOptions where
  chunkTokenNum : ℤ := 128
  delimiter : Text := ['\n', '。', '；', '！', '？']
  overlappedPercent : ℚ := 0
  /-- `num_tokens_from_string`. -/
  numTokens : Text → ℕ

namespace MergeOptions

variable (o : MergeOptions)

/-- The position that is put behind a text: none behind short texts. -/
def shownPos (t : Text) (pos : Option Text) : Text :=
  if o.numTokens t < 8 then [] else pos.getD []

/-- Whether a chunk of `tkNum` tokens takes no further text. -/
def full (tkNum : ℕ) : Bool :=
  (tkNum : ℚ) > o.chunkTokenNum * (100 - o.overlappedPercent) / 100

/-- The end of a chunk that the next one begins with. -/
def overlap (ck : Text) : Text :=
  let overlapped := removeTag ck
  sliceFrom overlapped (truncate (overlapped.length * (100 - o.overlappedPercent) / 100))

/-- The chunk made of one piece between custom delimiters. -/
def customChunk (piece : Text) (pos : Option Text) : Text :=
  let text := '\n' :: piece
  let localPos := o.shownPos text pos
  if localPos ≠ [] ∧ ¬ localPos <:+: text then text ++ localPos else text

end MergeOptions

/-- Put a position behind a text unless it is found in `within`. -/
def withPos (within t pos : Text) : Text :=
  if pos <:+: within then t else t ++ pos

/-! ## `naive_merge` -/

/-- The local variables of `naive_merge`. -/
structure Merging where
  cks : List Text
  tkNums : List ℕ

def Merging.start : Merging := { cks := [[]], tkNums := [0] }

/-- Whether the next text opens a chunk. -/
def Merging.opens (o : MergeOptions) (s : Merging) : Bool :=
  s.cks.getLastD [] = [] || o.full (s.tkNums.getLastD 0)

/-- `add_chunk` of `naive_merge`. -/
def Merging.addChunk (o : MergeOptions) (s : Merging) (t : Text) (pos : Option Text) : Merging :=
  let tnum := o.numTokens t
  let pos := o.shownPos t pos
  let last := s.cks.getLastD []
  if s.opens o then
    let t := o.overlap last ++ t
    { cks := s.cks ++ [withPos t t pos], tkNums := s.tkNums ++ [tnum] }
  else
    { cks := s.cks.dropLast ++ [last ++ withPos last t pos]
      tkNums := s.tkNums.dropLast ++ [s.tkNums.getLastD 0 + tnum] }

def naiveMerge (o : MergeOptions) (texts : Texts) : List Text :=
  let sections := texts.sections
  if sections = [] then []
  else
    let delims := customDelimiters o.delimiter
    if delims ≠ [] then
      sections.flatMap fun sec =>
        (customPieces delims sec.1).map fun piece => o.customChunk piece sec.2
    else
      (sections.foldl (fun s sec => s.addChunk o ('\n' :: sec.1) sec.2) Merging.start).cks

/-! ## `naive_merge_with_images` -/

variable {ι : Type}

/-- The local variables of `naive_merge_with_images`. -/
structure ImageMerging (ι : Type) where
  cks : List Text
  resultImages : List (Option ι)
  tkNums : List ℕ

def ImageMerging.start : ImageMerging ι := { cks := [[]], resultImages := [none], tkNums := [0] }

/-- Merge an image into what a chunk has already. -/
def mergeImage (concatImg : ι → Option ι → Option ι) : Option ι → Option ι → Option ι
  | none, image => image
  | some img, image => concatImg img image

/-- `add_chunk` of `naive_merge_with_images`. -/
def ImageMerging.addChunk (o : MergeOptions) (concatImg : ι → Option ι → Option ι)
    (s : ImageMerging ι) (t : Text) (image : Option ι) (pos : Option Text) : ImageMerging ι :=
  let tnum := o.numTokens t
  let pos := o.shownPos t pos
  let last := s.cks.getLastD []
  if s.cks.getLastD [] = [] || o.full (s.tkNums.getLastD 0) then
    let t := o.overlap last ++ t
    { cks := s.cks ++ [withPos t t pos]
      resultImages := s.resultImages ++ [image]
      tkNums := s.tkNums ++ [tnum] }
  else
    { cks := s.cks.dropLast ++ [last ++ withPos last t pos]
      resultImages := s.resultImages.dropLast ++
        [mergeImage concatImg (s.resultImages.getLastD none) image]
      tkNums := s.tkNums.dropLast ++ [s.tkNums.getLastD 0 + tnum] }

def naiveMergeWithImages (o : MergeOptions) (concatImg : ι → Option ι → Option ι)
    (texts : Texts) (images : List (Option ι)) : List Text × List (Option ι) :=
  let sections := texts.sections
  if sections = [] ∨ sections.length ≠ images.length then ([], [])
  else
    let delims := customDelimiters o.delimiter
    if delims ≠ [] then
      let chunks := (sections.zip images).flatMap fun si =>
        (customPieces delims si.1.1).map fun piece => (o.customChunk piece si.1.2, si.2)
      (chunks.map Prod.fst, chunks.map Prod.snd)
    else
      let s := (sections.zip images).foldl
        (fun s si => s.addChunk o concatImg ('\n' :: si.1.1) si.2 si.1.2) ImageMerging.start
      (s.cks, s.resultImages)

/-! ## Which chunk receives which text

A part is a piece of a text together with the index of that text. Without custom
delimiters every text is one piece. -/

abbrev Part := ℕ × Text

/-- `naive_merge` with a record of the parts that were put into each chunk. -/
structure Tracing where
  merging : Merging
  parts : List (List Part)
  /-- The index of the next text. -/
  next : ℕ

def Tracing.start : Tracing := { merging := Merging.start, parts := [[]], next := 0 }

def Tracing.addChunk (o : MergeOptions) (v : Tracing) (sec : Section) : Tracing :=
  { merging := v.merging.addChunk o ('\n' :: sec.1) sec.2
    parts := if v.merging.opens o then v.parts ++ [[(v.next, sec.1)]]
      else v.parts.dropLast ++ [v.parts.getLastD [] ++ [(v.next, sec.1)]]
    next := v.next + 1 }

/-- The pieces of the texts, in their order. -/
def allParts (o : MergeOptions) (sections : List Section) : List Part :=
  let delims := customDelimiters o.delimiter
  sections.zipIdx.flatMap fun si =>
    (if delims ≠ [] then customPieces delims si.1.1 else [si.1.1]).map fun piece =>
      (si.2, piece)

/-- For every chunk of `naive_merge` the parts it received. -/
def received (o : MergeOptions) (sections : List Section) : List (List Part) :=
  if customDelimiters o.delimiter ≠ [] then (allParts o sections).map fun p => [p]
  else (sections.foldl (Tracing.addChunk o) Tracing.start).parts

/-- What a part contributes to a chunk: a line break, the piece and at most the
position of its text. -/
def Contributes (sections : List Section) (p : Part) (t : Text) : Prop :=
  ∃ sec tag, sections[p.1]? = some sec ∧ (tag = [] ∨ sec.2 = some tag) ∧
    t = '\n' :: p.2 ++ tag

/-- A chunk is the end of the chunk before it, without tags, and then what its parts
contribute. -/
def BuiltFrom (sections : List Section) (before ck : Text) (parts : List Part) : Prop :=
  ∃ carried ts, carried <:+ removeTag before ∧
    List.Forall₂ (Contributes sections) parts ts ∧ ck = carried ++ ts.flatten

/-- Every chunk is built from its parts and the end of the chunk before it. -/
def AllBuilt (sections : List Section) : Text → List Text → List (List Part) → Prop
  | _, [], [] => True
  | before, ck :: cks, ps :: parts =>
    BuiltFrom sections before ck ps ∧ AllBuilt sections ck cks parts
  | _, _, _ => False

/-- The images of the texts that the parts come from, merged one after the other. -/
def mergedImage (concatImg : ι → Option ι → Option ι) (images : List (Option ι))
    (parts : List Part) : Option ι :=
  parts.foldl (fun acc p => mergeImage concatImg acc (images[p.1]?.getD none)) none

section Built

variable {sections : List Section}

theorem allBuilt_append_singleton {before : Text} {cks : List Text} {ck : Text}
    {parts : List (List Part)} {ps : List Part} :
    AllBuilt sections before (cks ++ [ck]) (parts ++ [ps]) ↔
      AllBuilt sections before cks parts ∧
        BuiltFrom sections (cks.getLastD before) ck ps := by
  induction cks generalizing before parts with
  | nil =>
      cases parts with
      | nil => simp [AllBuilt]
      | cons p parts => cases parts <;> simp [AllBuilt]
  | cons c cks ih =>
      cases parts with
      | nil => cases cks <;> simp [AllBuilt]
      | cons p parts =>
          have hlast : (c :: cks).getLastD before = cks.getLastD c := by
            cases cks <;> rfl
          rw [List.cons_append, List.cons_append, AllBuilt, AllBuilt, ih, and_assoc, hlast]

theorem AllBuilt.length_eq {before : Text} {cks : List Text} {parts : List (List Part)}
    (h : AllBuilt sections before cks parts) : parts.length = cks.length := by
  induction cks generalizing before parts with
  | nil => cases parts <;> simp_all [AllBuilt]
  | cons c cks ih =>
      cases parts with
      | nil => simp [AllBuilt] at h
      | cons p parts => simp [ih h.2]

/-- What is put behind a text is its position or nothing. -/
theorem withPos_eq (within t pos : Text) :
    ∃ tag, (tag = [] ∨ tag = pos) ∧ withPos within t pos = t ++ tag := by
  by_cases h : pos <:+: within
  · exact ⟨[], Or.inl rfl, by rw [withPos, if_pos h, List.append_nil]⟩
  · exact ⟨pos, Or.inr rfl, if_neg h⟩

theorem withPos_append (within a t pos : Text) :
    withPos within (a ++ t) pos = a ++ withPos within t pos := by
  simp only [withPos, List.append_assoc, apply_ite (a ++ ·)]

theorem shownPos_eq (o : MergeOptions) (t : Text) (pos : Option Text) :
    o.shownPos t pos = [] ∨ pos = some (o.shownPos t pos) := by
  rw [MergeOptions.shownPos]
  split_ifs
  · exact Or.inl rfl
  · cases pos with
    | none => exact Or.inl rfl
    | some pos => exact Or.inr rfl

/-- A piece that gets the position of its text, or nothing, is a contribution. -/
theorem contributes_of_tag (o : MergeOptions) {n : ℕ} {sec : Section} {piece tag : Text}
    (hsec : sections[n]? = some sec)
    (htag : tag = [] ∨ tag = o.shownPos ('\n' :: piece) sec.2) :
    Contributes sections (n, piece) ('\n' :: piece ++ tag) := by
  refine ⟨sec, tag, hsec, ?_, rfl⟩
  rcases htag with hnil | htag
  · exact Or.inl hnil
  · rw [htag]
    exact shownPos_eq o _ sec.2

theorem contributes_withPos (o : MergeOptions) {n : ℕ} {sec : Section}
    (hsec : sections[n]? = some sec) (within : Text) :
    Contributes sections (n, sec.1)
      (withPos within ('\n' :: sec.1) (o.shownPos ('\n' :: sec.1) sec.2)) := by
  obtain ⟨tag, htag, heq⟩ := withPos_eq within ('\n' :: sec.1) (o.shownPos ('\n' :: sec.1) sec.2)
  rw [heq]
  exact contributes_of_tag o hsec htag

theorem contributes_customChunk (o : MergeOptions) {n : ℕ} {sec : Section}
    (hsec : sections[n]? = some sec) (piece : Text) :
    Contributes sections (n, piece) (o.customChunk piece sec.2) := by
  rw [MergeOptions.customChunk]
  split_ifs
  · exact contributes_of_tag o hsec (Or.inr rfl)
  · simpa using contributes_of_tag o hsec (Or.inl rfl)

/-- A text that opens a chunk. -/
theorem BuiltFrom.single {before carried t : Text} {p : Part}
    (hcarried : carried <:+ removeTag before) (ht : Contributes sections p t) :
    BuiltFrom sections before (carried ++ t) [p] :=
  ⟨carried, [t], hcarried, List.Forall₂.cons ht List.Forall₂.nil, by simp⟩

/-- A text that goes into a chunk that is there already. -/
theorem BuiltFrom.extend {before ck t : Text} {ps : List Part} {p : Part}
    (h : BuiltFrom sections before ck ps) (ht : Contributes sections p t) :
    BuiltFrom sections before (ck ++ t) (ps ++ [p]) := by
  obtain ⟨carried, ts, hcarried, hparts, rfl⟩ := h
  refine ⟨carried, ts ++ [t], hcarried, ?_, by simp⟩
  exact List.rel_append hparts (List.Forall₂.cons ht List.Forall₂.nil)

/-- Chunks of one part each. -/
theorem allBuilt_of_forall₂ {before : Text} {cks : List Text} {parts : List Part}
    (h : List.Forall₂ (Contributes sections) parts cks) :
    AllBuilt sections before cks (parts.map fun p => [p]) := by
  induction h generalizing before with
  | nil => trivial
  | @cons p t _ _ hp _ ih =>
      have hone : BuiltFrom sections before ([] ++ t) [p] := BuiltFrom.single List.nil_suffix hp
      exact ⟨hone, ih⟩

end Built

/-! ## The record is right -/

section Trace

variable {o : MergeOptions} {sections : List Section}

/-- What holds after the first texts have been put into chunks. -/
structure Tracing.Valid (sections done : List Section) (v : Tracing) : Prop where
  built : AllBuilt sections [] v.merging.cks v.parts
  flatten : v.parts.flatten = done.zipIdx.map fun si => (si.2, si.1.1)
  next : v.next = done.length
  ne_nil : v.merging.cks ≠ []

theorem Tracing.Valid.parts_ne_nil {done : List Section} {v : Tracing}
    (h : v.Valid sections done) : v.parts ≠ [] := by
  intro hnil
  have hlen := h.built.length_eq
  rw [hnil] at hlen
  exact h.ne_nil (List.eq_nil_of_length_eq_zero hlen.symm)

theorem Tracing.Valid.addChunk {done : List Section} {v : Tracing} {sec : Section}
    (h : v.Valid sections done) (hinit : done ++ [sec] <+: sections) :
    (v.addChunk o sec).Valid sections (done ++ [sec]) := by
  have hsec : sections[v.next]? = some sec := by
    rw [h.next, List.prefix_iff_getElem?.mp hinit done.length (by simp)]
    simp
  have hflatten : v.parts.flatten ++ [(v.next, sec.1)]
      = (done ++ [sec]).zipIdx.map fun si => (si.2, si.1.1) := by
    simp [List.zipIdx_append, h.flatten, h.next]
  obtain ⟨cs, c, hcks⟩ : ∃ cs c, v.merging.cks = cs ++ [c] :=
    ⟨_, _, (List.dropLast_append_getLast h.ne_nil).symm⟩
  obtain ⟨qs, q, hparts⟩ : ∃ qs q, v.parts = qs ++ [q] :=
    ⟨_, _, (List.dropLast_append_getLast h.parts_ne_nil).symm⟩
  have hbuilt := h.built
  by_cases hopens : v.merging.opens o
  · have hchunk : BuiltFrom sections (v.merging.cks.getLastD [])
        (withPos (o.overlap (v.merging.cks.getLastD []) ++ '\n' :: sec.1)
          (o.overlap (v.merging.cks.getLastD []) ++ '\n' :: sec.1)
          (o.shownPos ('\n' :: sec.1) sec.2)) [(v.next, sec.1)] := by
      rw [withPos_append]
      exact BuiltFrom.single (sliceFrom_suffix _ _) (contributes_withPos o hsec _)
    constructor
    · simp only [Tracing.addChunk, Merging.addChunk, if_pos hopens]
      exact allBuilt_append_singleton.mpr ⟨hbuilt, hchunk⟩
    · simpa [Tracing.addChunk, if_pos hopens] using hflatten
    · simp [Tracing.addChunk, h.next]
    · simp [Tracing.addChunk, Merging.addChunk, hopens]
  · rw [hcks, hparts, allBuilt_append_singleton] at hbuilt
    have hchunk := hbuilt.2.extend (contributes_withPos o hsec c)
    constructor
    · simp only [Tracing.addChunk, Merging.addChunk, if_neg hopens, hcks, hparts,
        List.dropLast_concat, List.getLastD_concat]
      exact allBuilt_append_singleton.mpr ⟨hbuilt.1, hchunk⟩
    · rw [hparts] at hflatten
      simpa [Tracing.addChunk, if_neg hopens, hparts] using hflatten
    · simp [Tracing.addChunk, h.next]
    · simp [Tracing.addChunk, Merging.addChunk, hopens]

theorem Tracing.start_valid (sections : List Section) : Tracing.start.Valid sections [] where
  built := ⟨⟨[], [], List.nil_suffix, List.Forall₂.nil, rfl⟩, trivial⟩
  flatten := rfl
  next := rfl
  ne_nil := List.cons_ne_nil _ _

/-- The record of any first texts. -/
theorem valid_foldl {done : List Section} (hinit : done <+: sections) :
    (done.foldl (Tracing.addChunk o) Tracing.start).Valid sections done := by
  let P (l : List Section) (v : Tracing) : Prop := v.Valid sections l
  show P done (done.foldl (Tracing.addChunk o) Tracing.start)
  apply foldl_induction
  · exact Tracing.start_valid sections
  · intro l sec v hl h
    exact h.addChunk (hl.trans hinit)

theorem merging_foldl (o : MergeOptions) (sections : List Section) :
    (sections.foldl (Tracing.addChunk o) Tracing.start).merging
      = sections.foldl (fun s sec => s.addChunk o ('\n' :: sec.1) sec.2) Merging.start :=
  (@List.foldl_hom _ _ _ Tracing.merging (Tracing.addChunk o) _ _ _ fun _ _ => rfl).symm

end Trace

/-! ## Both copies stay in step -/

section InStep

variable {o : MergeOptions} {concatImg : ι → Option ι → Option ι} {images : List (Option ι)}

/-- The chunks and counts are the same, and every image is merged from the parts of its
chunk. -/
structure InStep (concatImg : ι → Option ι → Option ι) (images : List (Option ι))
    (u : ImageMerging ι) (v : Tracing) : Prop where
  cks : u.cks = v.merging.cks
  tkNums : u.tkNums = v.merging.tkNums
  resultImages : u.resultImages = v.parts.map (mergedImage concatImg images)

theorem mergedImage_append_singleton (ps : List Part) (p : Part) :
    mergedImage concatImg images (ps ++ [p])
      = mergeImage concatImg (mergedImage concatImg images ps) (images[p.1]?.getD none) := by
  simp [mergedImage]

theorem InStep.addChunk {u : ImageMerging ι} {v : Tracing} {sec : Section} {image : Option ι}
    (h : InStep concatImg images u v) (hparts : v.parts ≠ [])
    (himage : images[v.next]? = some image) :
    InStep concatImg images (u.addChunk o concatImg ('\n' :: sec.1) image sec.2)
      (v.addChunk o sec) := by
  have hbranch : (u.cks.getLastD [] = [] || o.full (u.tkNums.getLastD 0)) = v.merging.opens o := by
    rw [Merging.opens, h.cks, h.tkNums]
  obtain ⟨qs, q, hlast⟩ : ∃ qs q, v.parts = qs ++ [q] :=
    ⟨_, _, (List.dropLast_append_getLast hparts).symm⟩
  have himages := h.resultImages
  by_cases hopens : v.merging.opens o
  · have hu : u.addChunk o concatImg ('\n' :: sec.1) image sec.2 =
        { cks := (v.merging.addChunk o ('\n' :: sec.1) sec.2).cks
          resultImages := u.resultImages ++ [image]
          tkNums := (v.merging.addChunk o ('\n' :: sec.1) sec.2).tkNums } := by
      simp only [ImageMerging.addChunk, hbranch, Merging.addChunk, hopens, if_true]
      rw [h.cks, h.tkNums]
    rw [hu]
    refine ⟨rfl, rfl, ?_⟩
    simp [Tracing.addChunk, hopens, himages, mergedImage, mergeImage, himage]
  · have hopens : v.merging.opens o = false := by simpa using hopens
    rw [hlast, List.map_append, List.map_singleton] at himages
    have hu : u.addChunk o concatImg ('\n' :: sec.1) image sec.2 =
        { cks := (v.merging.addChunk o ('\n' :: sec.1) sec.2).cks
          resultImages := u.resultImages.dropLast ++
            [mergeImage concatImg (u.resultImages.getLastD none) image]
          tkNums := (v.merging.addChunk o ('\n' :: sec.1) sec.2).tkNums } := by
      simp only [ImageMerging.addChunk, hbranch, Merging.addChunk, hopens, Bool.false_eq_true,
        if_false]
      rw [h.cks, h.tkNums]
    rw [hu]
    refine ⟨rfl, rfl, ?_⟩
    simp [Tracing.addChunk, hopens, hlast, himages, mergedImage_append_singleton, himage]

/-- The run with images is in step with the recorded run without. -/
theorem inStep_foldl {sections : List Section} (hlen : images.length = sections.length) :
    InStep concatImg images
      ((sections.zip images).foldl
        (fun s si => s.addChunk o concatImg ('\n' :: si.1.1) si.2 si.1.2) ImageMerging.start)
      (sections.foldl (Tracing.addChunk o) Tracing.start) := by
  let P (done : List (Section × Option ι)) (u : ImageMerging ι) : Prop :=
    InStep concatImg images u ((done.map Prod.fst).foldl (Tracing.addChunk o) Tracing.start)
  have hsections : (sections.zip images).map Prod.fst = sections :=
    List.map_fst_zip hlen.ge
  have hrun : P (sections.zip images) ((sections.zip images).foldl
      (fun s si => s.addChunk o concatImg ('\n' :: si.1.1) si.2 si.1.2) ImageMerging.start) := by
    apply foldl_induction
    · exact ⟨rfl, rfl, rfl⟩
    · intro done si u hinit h
      have hdone : done.map Prod.fst <+: sections := by
        rw [← hsections]
        exact ((List.prefix_append done [si]).trans hinit).map _
      have hvalid := @valid_foldl o sections _ hdone
      have hzip : (sections.zip images)[done.length]? = some si := by
        rw [List.prefix_iff_getElem?.mp hinit done.length (by simp)]
        simp
      show InStep concatImg images _ (((done ++ [si]).map Prod.fst).foldl _ _)
      rw [List.map_append, List.foldl_append]
      apply h.addChunk hvalid.parts_ne_nil
      rw [hvalid.next, List.length_map]
      exact (List.getElem?_zip_eq_some.mp hzip).2
  have hrun : InStep concatImg images _ (((sections.zip images).map Prod.fst).foldl
    (Tracing.addChunk o) Tracing.start) := hrun
  rwa [hsections] at hrun

end InStep

/-! ## Custom delimiters -/

section Custom

variable {o : MergeOptions} {sections : List Section}

/-- Every piece with the text it comes from. -/
def cuts (delims : List Text) (sections : List Section) : List ((Section × ℕ) × Text) :=
  sections.zipIdx.flatMap fun si => (customPieces delims si.1.1).map fun piece => (si, piece)

theorem allParts_eq_cuts (hdelims : customDelimiters o.delimiter ≠ []) :
    allParts o sections
      = (cuts (customDelimiters o.delimiter) sections).map fun q => (q.1.2, q.2) := by
  simp only [allParts, cuts, if_pos hdelims, List.map_flatMap, List.map_map, Function.comp_def]

theorem allParts_eq_zipIdx (hdelims : customDelimiters o.delimiter = []) :
    allParts o sections = sections.zipIdx.map fun si => (si.2, si.1.1) := by
  simp [allParts, hdelims, List.map_eq_flatMap]

theorem chunks_eq_cuts (o : MergeOptions) (delims : List Text) (sections : List Section) :
    (sections.flatMap fun sec => (customPieces delims sec.1).map fun piece =>
        o.customChunk piece sec.2)
      = (cuts delims sections).map fun q => o.customChunk q.2 q.1.1.2 := by
  conv_lhs => rw [← List.zipIdx_map_fst 0 sections]
  simp only [cuts, List.flatMap_map, List.map_flatMap, List.map_map, Function.comp_def]

/-- Texts of one list, paired with the images of another, by their index. -/
theorem zip_eq_map_zipIdx {images : List (Option ι)} (hlen : images.length = sections.length) :
    sections.zip images
      = sections.zipIdx.map fun si => (si.1, images[si.2]?.getD none) := by
  apply List.ext_getElem
  · simp [hlen]
  · intro i hi hj
    have himage : i < images.length := by
      rw [List.length_zip] at hi
      omega
    simp [himage]

theorem imageChunks_eq_cuts (o : MergeOptions) (delims : List Text) {images : List (Option ι)}
    (hlen : images.length = sections.length) :
    ((sections.zip images).flatMap fun si => (customPieces delims si.1.1).map fun piece =>
        (o.customChunk piece si.1.2, si.2))
      = (cuts delims sections).map fun q =>
          (o.customChunk q.2 q.1.1.2, images[q.1.2]?.getD none) := by
  rw [zip_eq_map_zipIdx hlen]
  simp only [cuts, List.flatMap_map, List.map_flatMap, List.map_map, Function.comp_def]

theorem forall₂_contributes_cuts (o : MergeOptions) (delims : List Text)
    (sections : List Section) :
    List.Forall₂ (Contributes sections) ((cuts delims sections).map fun q => (q.1.2, q.2))
      ((cuts delims sections).map fun q => o.customChunk q.2 q.1.1.2) := by
  rw [List.forall₂_map_left_iff, List.forall₂_map_right_iff, List.forall₂_same]
  intro q hq
  obtain ⟨si, hsi, hpiece⟩ := List.mem_flatMap.mp hq
  obtain ⟨piece, _, rfl⟩ := List.mem_map.mp hpiece
  exact contributes_customChunk o (List.mem_zipIdx_iff_getElem?.mp hsi) piece

end Custom

/-! ## The agreement -/

section Agreement

variable (o : MergeOptions) (concatImg : ι → Option ι → Option ι)

/-- The record holds every part once, in order, and accounts for the chunks. -/
theorem received_spec {texts : Texts} (hne : texts.sections ≠ []) :
    (received o texts.sections).flatten = allParts o texts.sections ∧
      AllBuilt texts.sections [] (naiveMerge o texts) (received o texts.sections) := by
  by_cases hdelims : customDelimiters o.delimiter = []
  · have hvalid := valid_foldl (o := o) (List.prefix_refl texts.sections)
    simp only [received, naiveMerge, hdelims, hne, ne_eq, not_true_eq_false, if_false]
    rw [allParts_eq_zipIdx hdelims, ← merging_foldl]
    exact ⟨hvalid.flatten, hvalid.built⟩
  · simp only [received, naiveMerge, hdelims, hne, ne_eq, not_false_eq_true, if_false, if_true]
    constructor
    · simp [← List.flatMap_def]
    · rw [allParts_eq_cuts hdelims, chunks_eq_cuts]
      exact allBuilt_of_forall₂ (forall₂_contributes_cuts o _ _)

/-- Both functions return the same chunks. There is one image for every chunk, and it is
merged from the images of the texts that the chunk received, and of no others. -/
theorem naiveMergeWithImages_agrees (texts : Texts) (images : List (Option ι))
    (hne : texts.sections ≠ []) (hlen : images.length = texts.sections.length) :
    let (cks, resultImages) := naiveMergeWithImages o concatImg texts images
    cks = naiveMerge o texts ∧ resultImages.length = cks.length ∧
      (received o texts.sections).flatten = allParts o texts.sections ∧
      AllBuilt texts.sections [] cks (received o texts.sections) ∧
      resultImages = (received o texts.sections).map (mergedImage concatImg images) := by
  obtain ⟨hflatten, hbuilt⟩ := received_spec o hne
  have hguard : ¬ (texts.sections = [] ∨ texts.sections.length ≠ images.length) := by
    simp [hne, hlen]
  have hresult : naiveMergeWithImages o concatImg texts images = (naiveMerge o texts,
      (received o texts.sections).map (mergedImage concatImg images)) := by
    rw [naiveMergeWithImages, if_neg hguard, naiveMerge, if_neg hne, received]
    by_cases hdelims : customDelimiters o.delimiter = []
    · have hstep := @inStep_foldl ι o concatImg images texts.sections hlen
      simp only [hdelims, ne_eq, not_true_eq_false, if_false]
      rw [hstep.cks, hstep.resultImages, merging_foldl]
    · simp only [hdelims, ne_eq, not_false_eq_true, if_true]
      rw [imageChunks_eq_cuts o _ hlen, chunks_eq_cuts, allParts_eq_cuts hdelims]
      simp [mergedImage, mergeImage]
  rw [hresult]
  refine ⟨rfl, ?_, hflatten, hbuilt, rfl⟩
  rw [List.length_map, hbuilt.length_eq]

end Agreement

/-- Default options where every character is a token. -/
def byLength : MergeOptions := { numTokens := List.length }

/-- Images as lists of parts that are put side by side. -/
def sideBySide (img : List ℕ) : Option (List ℕ) → Option (List ℕ)
  | none => some img
  | some more => some (img ++ more)

def twoTexts : Texts := .plain [['a', 'b'], ['c']]

example : naiveMergeWithImages byLength sideBySide twoTexts [some [1], some [2]]
    = ([[], ['\n', 'a', 'b', '\n', 'c']], [none, some [1, 2]]) := by
  decide +kernel

theorem agrees_twoTexts :
    let images := [some [1], some [2]]
    let (cks, resultImages) := naiveMergeWithImages byLength sideBySide twoTexts images
    cks = naiveMerge byLength twoTexts ∧ resultImages.length = cks.length ∧
      (received byLength twoTexts.sections).flatten = allParts byLength twoTexts.sections ∧
      AllBuilt twoTexts.sections [] cks (received byLength twoTexts.sections) ∧
      resultImages = (received byLength twoTexts.sections).map (mergedImage sideBySide images) :=
  naiveMergeWithImages_agrees byLength sideBySide twoTexts [some [1], some [2]] (by decide) rfl

end RagFlow.Chunking
