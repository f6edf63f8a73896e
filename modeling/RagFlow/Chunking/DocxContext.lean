/-
# Whether contexts come from the right side

The context of an image or a table is gathered from the chunks next to it. They stand in the order
of the document unless text is carried in the buffer past the image or the table: then the chunk
behind it begins with text from before. The file compares the contexts with the text of the sections
before and behind, as it is cut and stripped, and shows that for all sizes of contexts together this
is the only thing that can go wrong.
-/

import RagFlow.Chunking.DocxMerge

namespace RagFlow.Chunking

open RagFlow.Math
open RagFlow.Query (strip)
open RagFlow.Ingestion (isSpace)

variable {Img : Type}

/-! ## The text of sections -/

/-- The chunk of an image or a table. -/
def DocxSection.media (num : Text → ℕ) (sec : DocxSection Img) : Option (Ck Img) :=
  if sec.table ≠ [] then
    some ⟨sec.body ++ sec.table, sec.image, .table, num (sec.body ++ sec.table)⟩
  else if sec.image.isSome then some ⟨sec.body, sec.image, .image, num sec.body⟩
  else none

def DocxSection.isText (sec : DocxSection Img) : Bool := sec.table = [] ∧ sec.image.isNone

/-- The texts of the text sections. -/
def bodies (sections : List (DocxSection Img)) : List Text :=
  (sections.filter DocxSection.isText).map DocxSection.body

/-- Pieces put together between the cuts, without outer blanks. -/
def cutText (delims : List Text) (pieces : List Text) : Text :=
  ((pieces.splitOnP (isCut delims)).map fun run => strip run.flatten).flatten

/-- The text of the text sections, without delimiters and outer blanks. -/
def plainText (delims : List Text) (sections : List (DocxSection Img)) : Text :=
  if delims ≠ [] then cutText delims ((bodies sections).flatMap (piecesOf delims))
  else (bodies sections).flatMap strip

/-- What is cut from pieces when the buffer holds something already. -/
def cutFrom (delims : List Text) : Text → List Text → Text
  | seg, [] => strip seg
  | seg, p :: ps =>
    if isCut delims p then strip seg ++ cutFrom delims [] ps else cutFrom delims (seg ++ p) ps

theorem cutFrom_eq (delims : List Text) (seg : Text) (pieces : List Text) :
    ∃ run runs, pieces.splitOnP (isCut delims) = run :: runs ∧
      cutFrom delims seg pieces =
        strip (seg ++ run.flatten) ++ (runs.map fun run => strip run.flatten).flatten := by
  induction pieces generalizing seg with
  | nil => exact ⟨[], [], rfl, by simp [cutFrom]⟩
  | cons p ps ih =>
      rw [List.splitOnP_cons_eq_if_modifyHead, cutFrom]
      split
      · obtain ⟨run, runs, hsplit, heq⟩ := ih []
        refine ⟨[], run :: runs, by rw [hsplit], ?_⟩
        rw [heq]
        simp
      · obtain ⟨run, runs, hsplit, heq⟩ := ih (seg ++ p)
        refine ⟨p :: run, runs, by rw [hsplit]; rfl, ?_⟩
        rw [heq]
        simp

theorem cutFrom_nil_eq (delims pieces : List Text) :
    cutFrom delims [] pieces = cutText delims pieces := by
  obtain ⟨run, runs, hsplit, heq⟩ := cutFrom_eq delims [] pieces
  rw [heq, cutText, hsplit]
  rfl

/-- The text that a run over sections makes with what is in the buffer. -/
def textFrom (delims : List Text) (seg : Text) (sections : List (DocxSection Img)) : Text :=
  if delims ≠ [] then cutFrom delims seg ((bodies sections).flatMap (piecesOf delims))
  else (bodies sections).flatMap strip

theorem textFrom_nil_eq (delims : List Text) (sections : List (DocxSection Img)) :
    textFrom delims [] sections = plainText delims sections := by
  rw [textFrom, plainText, cutFrom_nil_eq]

/-! ## The run over the sections -/

/-- Chunks of text were put behind the others. -/
structure DocxBuild.Appends (s s' : DocxBuild Img) (new : List (Ck Img)) : Prop where
  cks : s'.cks = s.cks ++ new
  text : ∀ ck ∈ new, ck.ckType = .text
  tables : s'.tables = s.tables
  images : s'.images = s.images

section DocxBuild

variable {num : Text → ℕ} {delims : List Text} {s s' s'' : DocxBuild Img} {sec : DocxSection Img}
  {new new' : List (Ck Img)}

theorem DocxBuild.Appends.trans (h : s.Appends s' new) (h' : s'.Appends s'' new') :
    s.Appends s'' (new ++ new') where
  cks := by rw [h'.cks, h.cks, List.append_assoc]
  text ck hck := (List.mem_append.mp hck).elim (h.text ck) (h'.text ck)
  tables := h'.tables.trans h.tables
  images := h'.images.trans h.images

theorem DocxBuild.Appends.same_cks (hcks : s'.cks = s.cks) (htables : s'.tables = s.tables)
    (himages : s'.images = s.images) : s.Appends s' [] where
  cks := by rw [hcks, List.append_nil]
  text _ hck := absurd hck List.not_mem_nil
  tables := htables
  images := himages

/-- Chunks of text change nothing about where the others are. -/
theorem DocxBuild.Indexed.appends (h : s.Indexed) (happ : s.Appends s' new) : s'.Indexed := by
  have hsame : ∀ (i : ℕ) kind, kind ≠ CkType.text →
      ((s'.cks.map Ck.ckType)[i]? = some kind ↔ (s.cks.map Ck.ckType)[i]? = some kind) := by
    intro i kind hkind
    rw [happ.cks, List.map_append, getElem?_append_eq_some_iff]
    refine ⟨fun hi => hi.resolve_right ?_, .inl⟩
    rintro ⟨-, hnew⟩
    obtain ⟨ck, hck, rfl⟩ := List.mem_map.mp (List.mem_of_getElem? hnew)
    exact hkind (happ.text ck hck)
  constructor
  · intro i
    rw [happ.tables, h.tables, hsame i .table (by decide)]
  · intro i
    rw [happ.images, h.images, hsame i .image (by decide)]

/-- A text that is added stands there without its outer blanks. -/
theorem DocxBuild.exists_addText (num : Text → ℕ) (s : DocxBuild Img) (t : Text) :
    ∃ new, s.Appends (s.addText num t) new ∧ textOf new = strip t ∧
      (s.addText num t).seg = s.seg := by
  by_cases ht : strip t = []
  · rw [addText, if_pos ht]
    exact ⟨[], .same_cks rfl rfl rfl, ht.symm, rfl⟩
  · rw [addText, if_neg ht]
    refine ⟨[⟨strip t, none, .text, num (strip t)⟩], ⟨rfl, ?_, rfl, rfl⟩, List.append_nil _, rfl⟩
    intro ck hck
    rw [List.mem_singleton.mp hck]

theorem DocxBuild.exists_flush (num : Text → ℕ) (s : DocxBuild Img) :
    ∃ new, s.Appends (s.flush num) new ∧ textOf new = strip s.seg ∧ (s.flush num).seg = [] := by
  obtain ⟨new, happ, htext, -⟩ := s.exists_addText num s.seg
  exact ⟨new, ⟨happ.cks, happ.text, happ.tables, happ.images⟩, htext, rfl⟩

/-- What the pieces of a text add to the chunks and to the buffer. -/
theorem DocxBuild.exists_foldl_addPiece (num : Text → ℕ) (delims : List Text) (s : DocxBuild Img)
    (ps : List Text) :
    ∃ new, s.Appends (ps.foldl (addPiece num delims) s) new ∧
      ∀ qs, textOf new ++ cutFrom delims (ps.foldl (addPiece num delims) s).seg qs =
        cutFrom delims s.seg (ps ++ qs) := by
  induction ps generalizing s with
  | nil => exact ⟨[], .same_cks rfl rfl rfl, fun qs => rfl⟩
  | cons p ps ih =>
      rw [List.foldl_cons]
      obtain ⟨new, happ, hcut⟩ := ih (s.addPiece num delims p)
      by_cases hp : isCut delims p = true
      · have hpiece : s.addPiece num delims p = s.flush num := if_pos hp
        rw [hpiece] at happ hcut ⊢
        obtain ⟨first, hfirst, htext, hseg⟩ := s.exists_flush num
        refine ⟨first ++ new, hfirst.trans happ, fun qs => ?_⟩
        rw [textOf_append, List.append_assoc, hcut qs, htext, hseg, List.cons_append, cutFrom,
          if_pos hp]
      · have hpiece : s.addPiece num delims p = { s with seg := s.seg ++ p } := if_neg hp
        rw [hpiece] at happ hcut ⊢
        have hsame : s.Appends { s with seg := s.seg ++ p } [] := .same_cks rfl rfl rfl
        refine ⟨new, hsame.trans happ, fun qs => ?_⟩
        rw [hcut qs, List.cons_append, cutFrom, if_neg hp]

/-- What a run over sections adds: the images and tables in their order, and the text that the
buffer and the sections make. -/
structure DocxBuild.Emits (num : Text → ℕ) (delims : List Text) (s s' : DocxBuild Img)
    (sections : List (DocxSection Img)) (new : List (Ck Img)) : Prop where
  cks : s'.cks = s.cks ++ new
  media : new.filter Ck.isMedia = sections.filterMap (DocxSection.media num)
  text : ∀ more, textOf new ++ textFrom delims s'.seg more =
    textFrom delims s.seg (sections ++ more)
  indexed : s.Indexed → s'.Indexed

theorem DocxBuild.Emits.nil : s.Emits num delims s [] [] where
  cks := (List.append_nil _).symm
  media := rfl
  text _ := rfl
  indexed := id

theorem DocxBuild.Emits.cons {sections : List (DocxSection Img)}
    (h : s.Emits num delims s' [sec] new) (h' : s'.Emits num delims s'' sections new') :
    s.Emits num delims s'' (sec :: sections) (new ++ new') where
  cks := by rw [h'.cks, h.cks, List.append_assoc]
  media := by
    rw [List.filter_append, h.media, h'.media, ← List.filterMap_append, List.singleton_append]
  text more := by
    rw [textOf_append, List.append_assoc, h'.text, h.text, List.singleton_append,
      List.cons_append]
  indexed hs := h'.indexed (h.indexed hs)

theorem getElem?_concat_eq_some_iff {α : Type} {l : List α} {a b : α} {i : ℕ} :
    (l ++ [a])[i]? = some b ↔ l[i]? = some b ∨ i = l.length ∧ a = b := by
  rw [getElem?_append_eq_some_iff, List.getElem?_singleton]
  refine or_congr_right ?_
  constructor
  · rintro ⟨hge, h⟩
    split at h
    · exact ⟨by omega, Option.some.inj h⟩
    · cases h
  · rintro ⟨rfl, rfl⟩
    exact ⟨le_rfl, by rw [Nat.sub_self]; rfl⟩

theorem media_eq_none_iff : sec.media num = none ↔ sec.isText = true := by
  rw [DocxSection.media, DocxSection.isText]
  by_cases htable : sec.table = []
  · cases himage : sec.image with
    | none => simp [htable]
    | some img => simp [htable]
  · simp [htable]

theorem isText_of_media {m : Ck Img} (hm : sec.media num = some m) : sec.isText = false := by
  by_contra hsec
  rw [media_eq_none_iff.mpr (Bool.not_eq_false _ ▸ hsec)] at hm
  cases hm

theorem isMedia_of_media {m : Ck Img} (hm : sec.media num = some m) : m.isMedia = true := by
  rw [DocxSection.media] at hm
  split at hm
  · rw [← Option.some.inj hm]
    rfl
  · split at hm
    · rw [← Option.some.inj hm]
      rfl
    · cases hm

theorem bodies_cons (sec : DocxSection Img) (more : List (DocxSection Img)) :
    bodies (sec :: more) = if sec.isText then sec.body :: bodies more else bodies more := by
  rw [bodies, List.filter_cons]
  split
  · rfl
  · rfl

/-- Of a text section the chunks are all of text. -/
theorem DocxBuild.Appends.emits (h : s.Appends s' new) (hsec : sec.isText = true)
    (htext : ∀ more, textOf new ++ textFrom delims s'.seg more =
      textFrom delims s.seg (sec :: more)) : s.Emits num delims s' [sec] new where
  cks := h.cks
  media := by
    rw [List.filterMap_cons_none (media_eq_none_iff.mpr hsec), List.filterMap_nil,
      List.filter_eq_nil_iff]
    intro ck hck
    rw [Ck.isMedia, h.text ck hck]
    exact Bool.false_ne_true
  text := htext
  indexed hs := hs.appends h

/-- Of an image or a table there is one chunk, and the buffer stays as it is. -/
theorem DocxBuild.emits_media {m : Ck Img} (hm : sec.media num = some m)
    (hcks : s'.cks = s.cks ++ [m]) (hseg : s'.seg = s.seg)
    (hidx : m.ckType = .table ∧ s'.tables = s.tables ++ [s.cks.length] ∧ s'.images = s.images ∨
      m.ckType = .image ∧ s'.tables = s.tables ∧ s'.images = s.images ++ [s.cks.length]) :
    s.Emits num delims s' [sec] [m] where
  cks := hcks
  media := by
    rw [List.filterMap_cons_some hm, List.filterMap_nil,
      List.filter_cons_of_pos (isMedia_of_media hm), List.filter_nil]
  text more := by
    have hsec : ¬sec.isText = true := by
      rw [isText_of_media hm]
      exact Bool.false_ne_true
    have htext : textOf [m] = [] := by
      rw [textOf, List.filter_cons_of_neg (by rw [isMedia_of_media hm]; exact Bool.false_ne_true)]
      rfl
    have hbodies : bodies (sec :: more) = bodies more := by rw [bodies_cons, if_neg hsec]
    rw [htext, hseg, List.singleton_append, textFrom, textFrom, hbodies]
    rfl
  indexed hs := by
    have hlen : (s.cks.map Ck.ckType).length = s.cks.length := List.length_map _
    rcases hidx with ⟨hkind, htables, himages⟩ | ⟨hkind, htables, himages⟩
    · constructor
      · intro i
        rw [htables, hcks, List.map_append, List.map_singleton, getElem?_concat_eq_some_iff,
          ← hs.tables, List.mem_append, List.mem_singleton, hlen]
        simp [hkind]
      · intro i
        rw [himages, hcks, List.map_append, List.map_singleton, getElem?_concat_eq_some_iff,
          ← hs.images]
        simp [hkind]
    · constructor
      · intro i
        rw [htables, hcks, List.map_append, List.map_singleton, getElem?_concat_eq_some_iff,
          ← hs.tables]
        simp [hkind]
      · intro i
        rw [himages, hcks, List.map_append, List.map_singleton, getElem?_concat_eq_some_iff,
          ← hs.images, List.mem_append, List.mem_singleton, hlen]
        simp [hkind]

theorem DocxBuild.addSection_of_media {m : Ck Img} (hm : sec.media num = some m) :
    s.Emits num delims (s.addSection num delims sec) [sec] [m] ∧
      (s.addSection num delims sec).seg = s.seg := by
  have hm' := hm
  rw [DocxSection.media] at hm'
  by_cases htable : sec.table ≠ []
  · rw [if_pos htable] at hm'
    rw [addSection, if_pos htable]
    refine ⟨emits_media hm ?_ rfl (.inl ⟨?_, rfl, rfl⟩), rfl⟩
    · rw [← Option.some.inj hm']
    · rw [← Option.some.inj hm']
  · rw [if_neg htable] at hm'
    by_cases himage : sec.image.isSome = true
    · rw [if_pos himage] at hm'
      rw [addSection, if_neg htable, if_pos himage]
      refine ⟨emits_media hm ?_ rfl (.inr ⟨?_, rfl, rfl⟩), rfl⟩
      · rw [← Option.some.inj hm']
      · rw [← Option.some.inj hm']
    · rw [if_neg himage] at hm'
      cases hm'

theorem DocxBuild.addSection_of_text (hsec : sec.isText = true) :
    s.addSection num delims sec =
      if delims ≠ [] then (piecesOf delims sec.body).foldl (addPiece num delims) s
      else s.addText num sec.body := by
  obtain ⟨htable, hnone⟩ := of_decide_eq_true hsec
  have himage : ¬sec.image.isSome = true := by
    rw [Option.isNone_iff_eq_none.mp hnone]
    exact Bool.false_ne_true
  rw [addSection, if_neg (not_not.mpr htable), if_neg himage]

theorem DocxBuild.exists_addSection (num : Text → ℕ) (delims : List Text) (s : DocxBuild Img)
    (sec : DocxSection Img) :
    ∃ new, s.Emits num delims (s.addSection num delims sec) [sec] new := by
  cases hm : sec.media num with
  | some m => exact ⟨[m], (addSection_of_media hm).1⟩
  | none =>
      have hsec := media_eq_none_iff.mp hm
      have hbodies : ∀ more, bodies (sec :: more) = sec.body :: bodies more := fun more => by
        rw [bodies_cons, if_pos hsec]
      rw [addSection_of_text hsec]
      by_cases hdelims : delims = []
      · obtain ⟨new, happ, htext, -⟩ := s.exists_addText num sec.body
        rw [if_neg (not_not.mpr hdelims)]
        refine ⟨new, happ.emits hsec fun more => ?_⟩
        rw [htext, textFrom, if_neg (not_not.mpr hdelims), textFrom,
          if_neg (not_not.mpr hdelims), hbodies, List.flatMap_cons]
      · obtain ⟨new, happ, hcut⟩ := s.exists_foldl_addPiece num delims (piecesOf delims sec.body)
        rw [if_pos hdelims]
        refine ⟨new, happ.emits hsec fun more => ?_⟩
        rw [textFrom, if_pos hdelims, textFrom, if_pos hdelims, hbodies, List.flatMap_cons, hcut]

theorem DocxBuild.exists_foldl_addSection (num : Text → ℕ) (delims : List Text) (s : DocxBuild Img)
    (sections : List (DocxSection Img)) :
    ∃ new, s.Emits num delims (sections.foldl (addSection num delims) s) sections new := by
  induction sections generalizing s with
  | nil => exact ⟨[], .nil⟩
  | cons sec sections ih =>
      obtain ⟨new, hnew⟩ := s.exists_addSection num delims sec
      obtain ⟨new', hnew'⟩ := ih (s.addSection num delims sec)
      exact ⟨new ++ new', hnew.cons hnew'⟩

/-- The flush at the end makes a chunk of what is left in the buffer. -/
theorem DocxBuild.exists_last_flush (num : Text → ℕ) (delims : List Text) (s : DocxBuild Img) :
    ∃ new, s.Appends (if delims ≠ [] then s.flush num else s) new ∧
      textOf new = textFrom delims s.seg ([] : List (DocxSection Img)) := by
  by_cases hdelims : delims ≠ []
  · obtain ⟨new, happ, htext, -⟩ := s.exists_flush num
    rw [if_pos hdelims]
    refine ⟨new, happ, ?_⟩
    rw [htext, textFrom, if_pos hdelims]
    rfl
  · rw [if_neg hdelims]
    refine ⟨[], .same_cks rfl rfl rfl, ?_⟩
    rw [textFrom, if_neg hdelims]
    rfl

/-- What is in the buffer behind some sections. -/
def carried (num : Text → ℕ) (delims : List Text) (pre : List (DocxSection Img)) : Text :=
  (pre.foldl (DocxBuild.addSection num delims) DocxBuild.start).seg

theorem indexed_start : (DocxBuild.start : DocxBuild Img).Indexed where
  tables i := by simp [DocxBuild.start]
  images i := by simp [DocxBuild.start]

/-- The chunks before and behind the one of an image or a table. -/
theorem exists_buildCks {m : Ck Img} (hm : sec.media num = some m)
    (pre post : List (DocxSection Img)) :
    ∃ before behind, (buildCks num delims (pre ++ sec :: post)).cks = before ++ m :: behind ∧
      (buildCks num delims (pre ++ sec :: post)).Indexed ∧
      before.filter Ck.isMedia = pre.filterMap (DocxSection.media num) ∧
      textOf before ++ textFrom delims (carried num delims pre) ([] : List (DocxSection Img)) =
        plainText delims pre ∧
      textOf behind = textFrom delims (carried num delims pre) post := by
  obtain ⟨before, hbefore⟩ := DocxBuild.start.exists_foldl_addSection num delims pre
  obtain ⟨hmedia, hseg⟩ := @DocxBuild.addSection_of_media _ num delims
    (pre.foldl (DocxBuild.addSection num delims) DocxBuild.start) sec m hm
  obtain ⟨new, hnew⟩ := DocxBuild.exists_foldl_addSection num delims
    ((pre.foldl (DocxBuild.addSection num delims) DocxBuild.start).addSection num delims sec) post
  obtain ⟨last, hlast, htext⟩ := DocxBuild.exists_last_flush num delims
    (post.foldl (DocxBuild.addSection num delims)
      ((pre.foldl (DocxBuild.addSection num delims) DocxBuild.start).addSection num delims sec))
  refine ⟨before, new ++ last, ?_, ?_, hbefore.media, ?_, ?_⟩
  · rw [buildCks, List.foldl_append, List.foldl_cons, hlast.cks, hnew.cks, hmedia.cks, hbefore.cks]
    simp [DocxBuild.start]
  · rw [buildCks, List.foldl_append, List.foldl_cons]
    exact (hnew.indexed (hmedia.indexed (hbefore.indexed indexed_start))).appends hlast
  · have h := hbefore.text []
    rwa [List.append_nil, DocxBuild.start, textFrom_nil_eq] at h
  · have h := hnew.text []
    rw [List.append_nil, hseg] at h
    rw [textOf_append, htext, h]
    rfl

end DocxBuild

/-! ## What is carried -/

/-- The number of characters that are not blank. -/
def ink (t : Text) : ℕ := t.countP fun c => !isSpace c

section Ink

variable {t : Text}

theorem ink_append (t t' : Text) : ink (t ++ t') = ink t + ink t' := List.countP_append

theorem ink_le_of_isPrefix {t' : Text} (h : t <+: t') : ink t ≤ ink t' :=
  h.sublist.countP_le

theorem ink_dropWhile (t : Text) : ink (t.dropWhile isSpace) = ink t := by
  induction t with
  | nil => rfl
  | cons c t ih =>
      by_cases hc : isSpace c = true
      · rw [List.dropWhile_cons_of_pos hc, ih, ink, ink, List.countP_cons_of_neg (by simp [hc])]
      · rw [List.dropWhile_cons_of_neg hc]

theorem ink_strip (t : Text) : ink (strip t) = ink t := by
  have hreverse : ∀ u : Text, ink u.reverse = ink u := fun u => List.countP_reverse
  rw [strip, List.rdropWhile, hreverse, ink_dropWhile, hreverse, ink_dropWhile]

theorem ink_pos_of_strip (h : strip t ≠ []) : 0 < ink t := by
  refine Nat.pos_of_ne_zero fun hzero => h ?_
  have hblank : ∀ c ∈ t, isSpace c = true := fun c hc => by
    simpa using List.countP_eq_zero.mp hzero c hc
  rw [strip, List.dropWhile_eq_nil_iff.mpr hblank]
  rfl

theorem ink_cutFrom (delims : List Text) (seg : Text) (pieces : List Text) :
    ink (cutFrom delims seg pieces) = ink seg + ink (cutFrom delims [] pieces) := by
  induction pieces generalizing seg with
  | nil =>
      rw [cutFrom, cutFrom, ink_strip]
      rfl
  | cons p ps ih =>
      rw [cutFrom, cutFrom]
      split
      · rw [ink_append, ink_strip]
        rfl
      · rw [ih, ih ([] ++ p), ink_append, ink_append, Nat.add_assoc]
        rw [show ink [] = 0 from rfl, Nat.zero_add]

end Ink

/-- The text of the sections ends where it is cut. -/
def EndsCut (delims : List Text) (pre : List (DocxSection Img)) : Prop :=
  ∀ t ∈ (bodies pre).getLast?, ∀ p ∈ (piecesOf delims t).getLast?, isCut delims p = true

section Carried

variable {num : Text → ℕ} {delims : List Text} {pre : List (DocxSection Img)}

theorem bodies_concat (pre : List (DocxSection Img)) (sec : DocxSection Img) :
    bodies (pre ++ [sec]) = if sec.isText then bodies pre ++ [sec.body] else bodies pre := by
  cases hsec : sec.isText with
  | true => simp [bodies, hsec]
  | false => simp [bodies, hsec]

theorem DocxBuild.seg_addPiece_of_cut {s : DocxBuild Img} {p : Text} (hp : isCut delims p = true) :
    (s.addPiece num delims p).seg = [] := by
  rw [addPiece, if_pos hp]
  rfl

theorem DocxBuild.ink_addPiece_pos {s : DocxBuild Img} {p : Text} (hp : ¬isCut delims p = true) :
    0 < ink (s.addPiece num delims p).seg := by
  have hstrip : strip p ≠ [] := fun h => hp (decide_eq_true (.inl h))
  rw [addPiece, if_neg hp, ink_append]
  exact Nat.lt_of_lt_of_le (ink_pos_of_strip hstrip) (Nat.le_add_left _ _)

/-- Text waits in the buffer if and only if it does not end where it is cut. -/
theorem carried_spec (num : Text → ℕ) (hdelims : delims ≠ []) (pre : List (DocxSection Img)) :
    (EndsCut delims pre → carried num delims pre = []) ∧
      (¬EndsCut delims pre → 0 < ink (carried num delims pre)) := by
  induction pre using List.reverseRecOn with
  | nil => exact ⟨fun _ => rfl, fun h => absurd (fun t ht => nomatch ht) h⟩
  | append_singleton pre sec ih =>
      have hcarried : carried num delims (pre ++ [sec]) =
          ((pre.foldl (DocxBuild.addSection num delims) DocxBuild.start).addSection num delims
            sec).seg := by
        rw [carried, List.foldl_concat]
      cases hm : sec.media num with
      | some m =>
          have hsec : ¬sec.isText = true := by
            rw [isText_of_media hm]
            exact Bool.false_ne_true
          have hsame : EndsCut delims (pre ++ [sec]) ↔ EndsCut delims pre := by
            rw [EndsCut, EndsCut, bodies_concat, if_neg hsec]
          rw [hcarried, (DocxBuild.addSection_of_media hm).2, hsame]
          exact ih
      | none =>
          have hsec := media_eq_none_iff.mp hm
          have hne : piecesOf delims sec.body ≠ [] :=
            splitFrom_ne_nil (delimiterLength delims) 0 [] sec.body
          have hpieces := (List.dropLast_concat_getLast hne).symm
          have hends : EndsCut delims (pre ++ [sec]) ↔
              isCut delims ((piecesOf delims sec.body).getLast hne) = true := by
            rw [EndsCut, bodies_concat, if_pos hsec, List.getLast?_concat]
            simp only [Option.mem_some_iff, forall_eq', List.getLast?_eq_some_getLast hne]
          rw [hcarried, DocxBuild.addSection_of_text hsec, if_pos hdelims, hpieces,
            List.foldl_concat, hends]
          exact ⟨DocxBuild.seg_addPiece_of_cut, DocxBuild.ink_addPiece_pos⟩

theorem carried_of_no_custom (num : Text → ℕ) (pre : List (DocxSection Img)) :
    carried num [] pre = [] := by
  induction pre using List.reverseRecOn with
  | nil => rfl
  | append_singleton pre sec ih =>
      rw [carried, List.foldl_concat]
      cases hm : sec.media num with
      | some m => exact (DocxBuild.addSection_of_media hm).2.trans ih
      | none =>
          rw [DocxBuild.addSection_of_text (media_eq_none_iff.mp hm), if_neg (not_not.mpr rfl)]
          obtain ⟨-, -, -, hseg⟩ := DocxBuild.exists_addText num
            (pre.foldl (DocxBuild.addSection num []) DocxBuild.start) sec.body
          exact hseg.trans ih

/-- Nothing waits in the buffer when the loop comes to an image or a table: there are no custom
delimiters, or the text of the sections before it ends where it is cut. -/
def NothingCarried (delims : List Text) (sections : List (DocxSection Img)) : Prop :=
  delims ≠ [] → ∀ pre sec post, sections = pre ++ sec :: post → sec.isText = false →
    EndsCut delims pre

theorem textFrom_carried_eq_nil (h : carried num delims pre = []) :
    textFrom delims (carried num delims pre) ([] : List (DocxSection Img)) = [] := by
  rw [h, textFrom]
  split
  · rfl
  · rfl

/-- What waits in the buffer comes in front of the text of the sections behind. -/
theorem ink_textFrom (hdelims : delims ≠ []) (seg : Text) (post : List (DocxSection Img)) :
    ink (textFrom delims seg post) = ink seg + ink (plainText delims post) := by
  rw [textFrom, if_pos hdelims, ink_cutFrom, plainText, if_pos hdelims, cutFrom_nil_eq]

end Carried

/-! ## The contexts -/

section RightSide

variable {num : Text → ℕ}

/-- The chunk of each image and each table is in the result in its place among the others, and its
contexts are an end of the text before and a beginning of the text behind. -/
def RightSide (num : Text → ℕ) (o : DocxOptions) (sections : List (DocxSection Img)) : Prop :=
  ∀ pre sec post m, sections = pre ++ sec :: post → sec.media num = some m →
    ∃ ck, ((naiveMergeDocx num o sections).1.filter fun ck => ck.isMedia)[
        (pre.filterMap (DocxSection.media num)).length]? = some ck ∧ ck.toCk = m ∧
      (∀ t, ck.contextAbove = some t → t <:+ plainText (customDelimiters o.delimiter) pre) ∧
      (∀ t, ck.contextBelow = some t → t <+: plainText (customDelimiters o.delimiter) post)

theorem filter_getElem?_length {α : Type} {p : α → Bool} {l : List α} {i : ℕ} {a : α}
    (h : l[i]? = some a) (ha : p a = true) :
    (l.filter p)[((l.take i).filter p).length]? = some a := by
  obtain ⟨hi, rfl⟩ := List.getElem?_eq_some_iff.mp h
  have hsplit : l.filter p = (l.take i).filter p ++ l[i] :: (l.drop (i + 1)).filter p := by
    rw [← List.filter_cons_of_pos ha, ← List.filter_append, List.getElem_cons_drop,
      List.take_append_drop]
  rw [hsplit, List.getElem?_append_right le_rfl, Nat.sub_self]
  rfl

/-- The chunk of an image or a table with the contexts from the chunks around it. -/
def between (num : Text → ℕ) (o : DocxOptions) (before : List (Ck Img)) (m : Ck Img)
    (behind : List (Ck Img)) : ContextCk Img :=
  if 0 < o.contextSize m.ckType then
    { m with
      contextAbove := some (gatherAbove num before.reverse (o.contextSize m.ckType))
      contextBelow := some (gatherBelow num behind (o.contextSize m.ckType)) }
  else { m with }

theorem toCk_between (num : Text → ℕ) (o : DocxOptions) (before : List (Ck Img)) (m : Ck Img)
    (behind : List (Ck Img)) : (between num o before m behind).toCk = m := by
  rw [between]
  split
  · rfl
  · rfl

theorem contextCks_between {o : DocxOptions} {b : DocxBuild Img} {before behind : List (Ck Img)}
    {m : Ck Img} (hb : b.Indexed) (hcks : b.cks = before ++ m :: behind) (hm : m.isMedia = true) :
    (contextCks num o b)[before.length]? = some (between num o before m behind) := by
  have hget : b.cks[before.length]? = some m := by
    rw [hcks, List.getElem?_append_right le_rfl, Nat.sub_self]
    rfl
  have htake : b.cks.take before.length = before := by rw [hcks, List.take_left]
  have hdrop : b.cks.drop (before.length + 1) = behind := by
    rw [hcks, ← List.drop_drop, List.drop_left]
    rfl
  rw [contextCks_getElem? hb hget hm, withContext, htake, hdrop, between]

/-- The chunk of an image or a table in the result, and the text around it. -/
theorem exists_result (num : Text → ℕ) (o : DocxOptions) {sec : DocxSection Img} {m : Ck Img}
    (hm : sec.media num = some m) (pre post : List (DocxSection Img)) :
    ∃ before behind, (buildCks num (customDelimiters o.delimiter) (pre ++ sec :: post)).cks =
        before ++ m :: behind ∧
      ((naiveMergeDocx num o (pre ++ sec :: post)).1.filter fun ck => ck.isMedia)[
        (pre.filterMap (DocxSection.media num)).length]? = some (between num o before m behind) ∧
      textOf before ++ textFrom (customDelimiters o.delimiter)
        (carried num (customDelimiters o.delimiter) pre) ([] : List (DocxSection Img)) =
          plainText (customDelimiters o.delimiter) pre ∧
      textOf behind = textFrom (customDelimiters o.delimiter)
        (carried num (customDelimiters o.delimiter) pre) post := by
  obtain ⟨before, behind, hcks, hindexed, hmedia, habove, hbelow⟩ :=
    @exists_buildCks _ num (customDelimiters o.delimiter) sec m hm pre post
  refine ⟨before, behind, hcks, ?_, habove, hbelow⟩
  have hget := @contextCks_between _ num o _ before behind m hindexed hcks (isMedia_of_media hm)
  have hne : ¬(pre ++ sec :: post).isEmpty = true := by simp
  have hbefore : ((contextCks num o (buildCks num (customDelimiters o.delimiter)
      (pre ++ sec :: post))).take before.length).map ContextCk.toCk = before := by
    rw [List.map_take, map_toCk_contextCks, hcks, List.take_left]
  have hcount : (((contextCks num o (buildCks num (customDelimiters o.delimiter)
      (pre ++ sec :: post))).take before.length).filter fun ck => ck.isMedia).length =
        (pre.filterMap (DocxSection.media num)).length := by
    have hlen := congrArg (fun cks => (cks.filter Ck.isMedia).length) hbefore
    rw [List.filter_map, List.length_map, hmedia] at hlen
    exact hlen
  rw [naiveMergeDocx, if_neg hne, mergeCks_filter, ← hcount]
  refine filter_getElem?_length hget ?_
  rw [toCk_between]
  exact isMedia_of_media hm

/-- Where nothing is carried, the contexts come from the right side, whatever their sizes. -/
theorem rightSide_of_nothingCarried (num : Text → ℕ) (o : DocxOptions)
    {sections : List (DocxSection Img)}
    (h : NothingCarried (customDelimiters o.delimiter) sections) : RightSide num o sections := by
  rintro pre sec post m rfl hm
  obtain ⟨before, behind, -, hget, habove, hbelow⟩ := exists_result num o hm pre post
  have hcarried : carried num (customDelimiters o.delimiter) pre = [] := by
    by_cases hdelims : customDelimiters o.delimiter = []
    · rw [hdelims]
      exact carried_of_no_custom num pre
    · exact (carried_spec num hdelims pre).1 (h hdelims pre sec post rfl (isText_of_media hm))
  rw [textFrom_carried_eq_nil hcarried, List.append_nil] at habove
  rw [hcarried, textFrom_nil_eq] at hbelow
  refine ⟨_, hget, toCk_between num o before m behind, ?_, ?_⟩
  · intro t ht
    rw [between] at ht
    split at ht
    · rw [← Option.some.inj ht, ← habove]
      have hsuffix := isSuffix_gatherAbove num before.reverse (o.contextSize m.ckType)
      rwa [List.reverse_reverse] at hsuffix
    · cases ht
  · intro t ht
    rw [between] at ht
    split at ht
    · rw [← Option.some.inj ht, ← hbelow]
      exact isPrefix_gatherBelow num behind (o.contextSize m.ckType)
    · cases ht

/-- Where something is carried past an image or a table, a context that is large enough begins with
text from before. -/
theorem nothingCarried_of_rightSide {delimiter : Text} {sections : List (DocxSection Img)}
    (h : ∀ chunkTokenNum tableContextSize imageContextSize,
      RightSide num ⟨chunkTokenNum, delimiter, tableContextSize, imageContextSize⟩ sections) :
    NothingCarried (customDelimiters delimiter) sections := by
  rintro hdelims pre sec post rfl hsec
  by_contra hends
  have hcarried := (carried_spec num hdelims pre).2 hends
  obtain ⟨m, hm⟩ : ∃ m, sec.media num = some m := by
    rw [← Option.ne_none_iff_exists', Ne, media_eq_none_iff, hsec]
    exact Bool.false_ne_true
  -- a size beyond all the tokens of the document
  let size : ℤ := ((buildCks num (customDelimiters delimiter) (pre ++ sec :: post)).cks.map
    Ck.tkNums).sum + 1
  let o : DocxOptions := ⟨0, delimiter, size, size⟩
  obtain ⟨before, behind, hcks, hget, -, hbelow⟩ := exists_result num o hm pre post
  obtain ⟨ck, hck, -, -, hbegin⟩ := h 0 size size pre sec post m rfl hm
  have hsize : o.contextSize m.ckType = size := by cases m.ckType <;> rfl
  have hsum : ((behind.map Ck.tkNums).sum : ℤ) < size := by
    have hle : (behind.map Ck.tkNums).sum ≤ ((buildCks num (customDelimiters delimiter)
        (pre ++ sec :: post)).cks.map Ck.tkNums).sum := by
      rw [hcks, List.map_append, List.sum_append, List.map_cons, List.sum_cons]
      omega
    omega
  have hall : ck.contextBelow = some (textFrom (customDelimiters delimiter)
      (carried num (customDelimiters delimiter) pre) post) := by
    rw [← Option.some.inj (hget.symm.trans hck), between, hsize, if_pos (by omega),
      gatherBelow_eq_textOf num behind hsum, hbelow]
  have hink : ink (textFrom (customDelimiters delimiter)
      (carried num (customDelimiters delimiter) pre) post) ≤
        ink (plainText (customDelimiters delimiter) post) := ink_le_of_isPrefix (hbegin _ hall)
  rw [ink_textFrom hdelims] at hink
  omega

/-- For all sizes together the contexts come from the right side if and only if nothing is carried
past an image or a table. -/
theorem rightSide_iff (num : Text → ℕ) (delimiter : Text) (sections : List (DocxSection Img)) :
    (∀ chunkTokenNum tableContextSize imageContextSize,
      RightSide num ⟨chunkTokenNum, delimiter, tableContextSize, imageContextSize⟩ sections) ↔
      NothingCarried (customDelimiters delimiter) sections := by
  constructor
  · exact nothingCarried_of_rightSide
  · exact fun h _ _ _ => rightSide_of_nothingCarried num _ h

end RightSide

/-- A text that does not end with the delimiter, an image, and another text: the first text is in
the chunk behind the image. -/
theorem not_rightSide :
    ¬∀ (num : Text → ℕ) (o : DocxOptions) (sections : List (DocxSection Unit)),
      RightSide num o sections := by
  intro h
  have hnothing := @nothingCarried_of_rightSide Unit List.length "`##`".toList
    [⟨['A'], none, []⟩, ⟨[], some (), []⟩, ⟨['B'], none, []⟩] fun _ _ _ => h _ _ _
  have hcut := hnothing (by decide) [⟨['A'], none, []⟩] ⟨[], some (), []⟩ _ rfl rfl ['\n', 'A'] rfl
    ['\n', 'A'] (by decide +kernel)
  exact absurd hcut (by decide +kernel)

end RagFlow.Chunking
