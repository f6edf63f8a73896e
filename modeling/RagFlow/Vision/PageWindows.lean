/-
# Pages in windows

A range of pages is read in one window, or in several when it is longer than a batch. A window
counts its pages from one on. Of several windows each is brought back to the pages of the
document before its boxes are taken over; a single window is not.

The pages are recognised independently of each other: what a page gives does not depend on the
window. What does is how far a tag can follow a box that goes on below its page.
-/

import RagFlow.Vision.PositionTags

namespace RagFlow.Vision

open RagFlow.Math
open RagFlow.Chunking (Text Pages truncate readInt)

/-! ## The document -/

/-- A box of a page; `top` and `bottom` are counted from the top of the page. -/
structure PageBox where
  x0 : ℚ
  x1 : ℚ
  top : ℚ
  bottom : ℚ
  text : Text
  layoutType : Text

/-- A page: the height of its image, and what is recognised on it. -/
structure PdfPage where
  height : ℕ
  texts : List PageBox
  tablesFigures : List PageBox

structure Pdf where
  pages : List PdfPage
  zoom : ℕ
  zoom_pos : 0 < zoom

/-- `__images__(fnm, zoomin, page_from, page_to)`. -/
def Pdf.window (pdf : Pdf) (pageFrom pageTo : ℕ) : List PdfPage :=
  (pdf.pages.drop pageFrom).take (pageTo - pageFrom)

/-! ## Boxes -/

/-- A box of the result. The image is left out, and `top` and `bottom`, which stay relative to
the window. -/
structure BBox where
  pageNumber : ℕ
  x0 : ℚ
  x1 : ℚ
  text : Text
  layoutType : Text
  positionTag : Option Text
  positions : List (ℤ × Chunking.Box ℚ)

/-- `[[pos[0][-1] + 1, *pos[1:]] for pos in extract_positions(tag)]` -/
def positionsOfTag (tag : Text) : Except String (List (ℤ × Chunking.Box ℚ)) :=
  (positionsOf tag).map fun poss => poss.map fun p => ((pagesOf p.1).getLastD 0 + 1, p.2)

/-- A text box of the `k`-th page of a window. -/
def textBBox (images : PageImages) (k : ℕ) (b : PageBox) : Except String BBox := do
  let offset := images.cumHeight k
  let tag := lineTag images ⟨k + 1, b.x0, b.x1, b.top + offset, b.bottom + offset⟩
  let positions ← positionsOfTag tag
  return ⟨k + 1, b.x0, b.x1, b.text, b.layoutType, some tag, positions⟩

/-- `insert_table_figures`, of which the place in the list is left out. -/
def tableBBox (k : ℕ) (b : PageBox) : BBox :=
  ⟨k + 1, b.x0, b.x1, b.text, b.layoutType, none,
    [((k : ℤ) + 1, ⟨truncate b.x0, truncate b.x1, truncate b.top, truncate b.bottom⟩)]⟩

def Pdf.images (pdf : Pdf) (window : List PdfPage) : PageImages :=
  ⟨window.map PdfPage.height, pdf.zoom, pdf.zoom_pos⟩

def pageBBoxes (images : PageImages) (k : ℕ) (page : PdfPage) : Except String (List BBox) := do
  let texts ← page.texts.mapM (textBBox images k)
  return texts ++ page.tablesFigures.map (tableBBox k)

/-- `_parse_loaded_window_into_bboxes`. -/
def parseLoadedWindow (pdf : Pdf) (window : List PdfPage) : Except String (List BBox) := do
  let boxes ← window.zipIdx.mapM fun p => pageBBoxes (pdf.images window) p.2 p.1
  return boxes.flatten

/-! ## Back to the document -/

/-- The length of `@@([0-9-]+)\t` at the head of a text. -/
def pagesTag : Text → ℕ
  | '@' :: '@' :: cs =>
      let pn := cs.takeWhile fun c => c.isDigit || c == '-'
      if pn ≠ [] ∧ ['\t'] <+: cs.drop pn.length then pn.length + 3 else 0
  | _ => 0

/-- `_replace` on a match. -/
def replacePages (pageOffset : ℕ) (found : Text) : Except String Text := do
  let pages ← (splitAtSep ['-'] (found.drop 2).dropLast).mapM readInt
  return "@@".toList ++
    ['-'].intercalate (pages.map fun p => Nat.toDigits 10 (p.toNat + pageOffset)) ++ ['\t']

/-- Every second piece of a split is a match. -/
def replaceMatches (f : Text → Except String Text) : List Text → Except String Text
  | stretch :: found :: rest => do
      let new ← f found
      let rest ← replaceMatches f rest
      return stretch ++ new ++ rest
  | [stretch] => .ok stretch
  | [] => .ok []

/-- `_offset_position_tag`. -/
def offsetPositionTag (text : Text) (pageOffset : ℕ) : Except String Text :=
  if text = [] ∨ pageOffset = 0 then .ok text
  else replaceMatches (replacePages pageOffset) (splitMatches pagesTag text)

def toGlobalBox (pageFrom : ℕ) (box : BBox) : Except String BBox := do
  let tag ← match box.positionTag with
    | some tag => (offsetPositionTag tag pageFrom).map some
    | none => .ok none
  return { box with
    pageNumber := box.pageNumber + pageFrom
    positionTag := tag
    positions := box.positions.map fun p => (p.1 + pageFrom, p.2) }

/-- `_to_global_boxes`. -/
def toGlobalBoxes (pageFrom : ℕ) (boxes : List BBox) : Except String (List BBox) :=
  if pageFrom = 0 then .ok boxes else boxes.mapM (toGlobalBox pageFrom)

/-! ## `parse_into_bboxes` -/

/-- The loop over the windows from a page on. -/
def parseWindows (pdf : Pdf) (batchSize : ℕ) (hbatch : 0 < batchSize) (pageFrom pageTo : ℕ) :
    Except String (List BBox) :=
  if pageFrom < pageTo then do
    let window := pdf.window pageFrom (min (pageFrom + batchSize) pageTo)
    let chunkBoxes ← parseLoadedWindow pdf window
    let boxes ← toGlobalBoxes pageFrom chunkBoxes
    let rest ← parseWindows pdf batchSize hbatch (pageFrom + batchSize) pageTo
    return boxes ++ rest
  else .ok []
termination_by pageTo - pageFrom

/-- `parse_into_bboxes`, with the number of pages counted. -/
def parseIntoBBoxes (pdf : Pdf) (batchSize : ℕ) (hbatch : 0 < batchSize) (fromPage toPage : ℕ) :
    Except String (List BBox) :=
  let effectiveToPage := min toPage pdf.pages.length
  if effectiveToPage - fromPage ≤ batchSize then
    parseLoadedWindow pdf (pdf.window fromPage effectiveToPage)
  else parseWindows pdf batchSize hbatch fromPage effectiveToPage

/-! ## How far a tag follows a box -/

section Reach

variable {pages pages' : PageImages} {bott : ℚ} {hs : List ℕ} {page n : ℕ}

/-- The number of pages that a box goes over, with the heights of its page and those behind it,
and its bottom on the last of them. -/
def reach (zoom : ℕ) : ℚ → List ℕ → Option (ℕ × ℚ)
  | _, [] => none
  | bott, height :: heights =>
      if (height : ℚ) < bott * zoom then
        (reach zoom (bott - height / zoom) heights).map fun r => (r.1 + 1, r.2)
      else some (1, bott)

theorem spread_eq_reach (pages : PageImages) (page : ℕ) (bott : ℚ) (hs : List ℕ) :
    pages.spread page bott hs =
      (reach pages.zoom bott hs).map fun r => (List.range' page r.1, r.2) := by
  induction hs generalizing page bott with
  | nil => rfl
  | cons h hs ih =>
    rw [PageImages.spread, reach]
    split
    · rw [ih, Option.map_map, Option.map_map]
      rfl
    · rfl

/-- On fewer pages a box is followed as far or not at all. -/
theorem reach_take (zoom : ℕ) (bott : ℚ) (hs : List ℕ) (m : ℕ) :
    reach zoom bott (hs.take m) = (reach zoom bott hs).filter fun r => r.1 ≤ m := by
  induction hs generalizing bott m with
  | nil => simp [reach]
  | cons h hs ih =>
    cases m with
    | zero =>
      rw [List.take_zero, reach, reach]
      split
      · cases reach zoom (bott - h / zoom) hs <;> simp [Option.filter]
      · simp [Option.filter]
    | succ m =>
      rw [List.take_succ_cons, reach, reach, ih]
      split
      · cases reach zoom (bott - h / zoom) hs with
        | none => rfl
        | some r => by_cases hr : r.1 ≤ m <;> simp [Option.filter, hr]
      · simp [Option.filter]

theorem reach_pos {zoom : ℕ} {r : ℕ × ℚ} (h : reach zoom bott hs = some r) : 0 < r.1 := by
  cases hs with
  | nil => cases h
  | cons height hs =>
    rw [reach] at h
    split at h
    · obtain ⟨r', -, rfl⟩ := Option.map_eq_some_iff.mp h
      exact Nat.succ_pos _
    · obtain rfl := Option.some.inj h
      exact Nat.one_pos

end Reach

/-! ## The boxes of a range -/

/-- A text box on page `first`, from which a tag follows it over the pages of `r`. -/
def boxAt (first : ℕ) (r : Option (ℕ × ℚ)) (b : PageBox) : BBox where
  pageNumber := first
  x0 := b.x0
  x1 := b.x1
  text := b.text
  layoutType := b.layoutType
  positionTag := some (match r with
    | none => []
    | some (n, bott) => framed (List.range' first n) (bodyText b.x0 b.x1 b.top bott))
  positions := match r with
    | none => []
    | some (n, bott) =>
        if '-' ∈ bodyText b.x0 b.x1 b.top bott then []
        else [((first : ℤ) + n - 1,
          ⟨rounded b.x0, rounded b.x1, rounded b.top, rounded bott⟩)]

variable {pdf : Pdf}

/-- The pages a box goes over, if it ends in front of page `stop`. -/
def reachWithin (pdf : Pdf) (stop p : ℕ) (b : PageBox) : Option (ℕ × ℚ) :=
  (reach pdf.zoom b.bottom ((pdf.pages.drop p).map PdfPage.height)).filter fun r => p + r.1 ≤ stop

theorem tagText_eq (pns : List ℕ) (x0 x1 top bott : ℚ) :
    tagText pns x0 x1 top bott = framed pns (bodyText x0 x1 top bott) := by
  simp [framed, tagText, pnText, bodyText, fields]

theorem positionsOfTag_framed {first n : ℕ} (hn : 0 < n) (x0 x1 top bott : ℚ) :
    positionsOfTag (framed (List.range' first n) (bodyText x0 x1 top bott)) =
      .ok (if '-' ∈ bodyText x0 x1 top bott then []
        else [((first : ℤ) + n - 1, ⟨rounded x0, rounded x1, rounded top, rounded bott⟩)]) := by
  obtain ⟨m, rfl⟩ := Nat.exists_eq_succ_of_ne_zero hn.ne'
  have hne : List.range' first (m + 1) ≠ [] := List.cons_ne_nil _ _
  by_cases hsign : '-' ∈ bodyText x0 x1 top bott
  · rw [positionsOfTag, positionsOf_framed_of_sign _ hsign, if_pos hsign]
    rfl
  · have hlast : ((List.range' first (m + 1)).map fun p : ℕ => (p : ℤ) - 1).getLastD 0 =
        (first : ℤ) + m - 1 := by
      rw [List.range'_concat, List.map_append, List.map_singleton, List.getLastD_concat]
      push_cast
      ring
    rw [positionsOfTag, positionsOf_framed hne hsign, if_neg hsign]
    simp only [Except.map, List.map_cons, List.map_nil, pagesOf, hlast]
    push_cast
    congr 3
    ring

/-- The heights that a window knows from a page on. -/
theorem reach_window (f t k : ℕ) (b : PageBox) :
    reach pdf.zoom b.bottom ((pdf.images (pdf.window f t)).heights.drop k) =
      reachWithin pdf t (f + k) b := by
  have hheights : (pdf.images (pdf.window f t)).heights.drop k =
      ((pdf.pages.drop (f + k)).map PdfPage.height).take (t - f - k) := by
    rw [Pdf.images, Pdf.window, List.map_take, List.map_drop, List.drop_take, List.drop_drop,
      List.map_drop]
  rw [hheights, reach_take, reachWithin]
  cases hr : reach pdf.zoom b.bottom ((pdf.pages.drop (f + k)).map PdfPage.height) with
  | none => rfl
  | some r =>
    have hpos := reach_pos hr
    have hiff : r.1 ≤ t - f - k ↔ f + k + r.1 ≤ t := by omega
    simp only [Option.filter, hiff]

/-- What a window does to a text box. -/
theorem textBBox_eq (f t k : ℕ) (b : PageBox) :
    textBBox (pdf.images (pdf.window f t)) k b =
      .ok (boxAt (k + 1) (reachWithin pdf t (f + k) b) b) := by
  have htag : lineTag (pdf.images (pdf.window f t)) ⟨k + 1, b.x0, b.x1,
      b.top + (pdf.images (pdf.window f t)).cumHeight k,
      b.bottom + (pdf.images (pdf.window f t)).cumHeight k⟩ =
      match reachWithin pdf t (f + k) b with
      | none => []
      | some (n, bott) => framed (List.range' (k + 1) n) (bodyText b.x0 b.x1 b.top bott) := by
    rw [lineTag]
    simp only [Nat.add_sub_cancel, add_sub_cancel_right, spread_eq_reach]
    rw [show (pdf.images (pdf.window f t)).zoom = pdf.zoom from rfl, reach_window]
    cases reachWithin pdf t (f + k) b with
    | none => rfl
    | some r => exact tagText_eq _ _ _ _ _
  rw [textBBox]
  simp only [htag]
  cases hr : reachWithin pdf t (f + k) b with
  | none => rfl
  | some r =>
    have hpos : 0 < r.1 := by
      rw [reachWithin, Option.filter_eq_some_iff] at hr
      exact reach_pos hr.1
    simp only [positionsOfTag_framed hpos]
    rfl

/-! ## Back to the document, box by box -/

section Offset

variable {pns : List ℕ} {body : Text}

theorem pagesTag_framed (hpns : pns ≠ []) (body : Text) :
    pagesTag (framed pns body) = (pnText pns).length + 3 := by
  have htake : (pnText pns ++ '\t' :: (body ++ ['#', '#'])).takeWhile
      (fun c => c.isDigit || c == '-') = pnText pns := by
    rw [List.takeWhile_append_of_pos, List.takeWhile_cons_of_neg (by decide), List.append_nil]
    intro c hc
    rcases mem_pnText hc with h | rfl
    · simp [h]
    · rfl
  rw [framed]
  simp only [pagesTag, htake, List.drop_left]
  exact if_pos ⟨pnText_ne_nil hpns, ⟨body ++ ['#', '#'], rfl⟩⟩

theorem pagesTag_of_head {l : Text} (h : ¬ ['@', '@'] <+: l) : pagesTag l = 0 := by
  unfold pagesTag
  split
  · exact absurd ⟨_, rfl⟩ h
  · rfl

theorem splitMatches_framed (hpns : pns ≠ []) (hbody : '@' ∉ body) :
    splitMatches pagesTag (framed pns body) =
      [[], '@' :: '@' :: (pnText pns ++ ['\t']), body ++ ['#', '#']] := by
  have hmatch := pagesTag_framed hpns body
  rw [framed] at hmatch ⊢
  rw [splitMatches, splitFrom_of_match hmatch, splitFrom_drop]
  have htake : ('@' :: '@' :: (pnText pns ++ '\t' :: (body ++ ['#', '#']))).take
      ((pnText pns).length + 3) = '@' :: '@' :: (pnText pns ++ ['\t']) := by
    rw [List.take_succ_cons, List.take_succ_cons, List.take_append]
    simp
  have hdrop : ('@' :: (pnText pns ++ '\t' :: (body ++ ['#', '#']))).drop
      ((pnText pns).length + 2) = body ++ ['#', '#'] := by
    rw [List.drop_succ_cons, List.drop_append]
    simp
  rw [htake, hdrop, splitFrom_eq_singleton, List.nil_append]
  intro a t ht
  refine pagesTag_of_head ?_
  rintro ⟨u, hu⟩
  have hat : '@' ∈ body ++ ['#', '#'] := by
    refine ht.subset ?_
    rw [← hu]
    exact List.mem_cons_self
  simp [hbody] at hat

theorem mapM_readInt_toDigits (pns : List ℕ) :
    (pns.map (Nat.toDigits 10)).mapM readInt = .ok (pns.map fun p : ℕ => (p : ℤ)) := by
  induction pns with
  | nil => rfl
  | cons n pns ih =>
    rw [List.map_cons, List.mapM_cons, ih, readInt_toDigits]
    rfl

/-- The pages of a tag are shifted, and nothing else. -/
theorem offsetPositionTag_framed {f : ℕ} (hf : f ≠ 0) (hpns : pns ≠ []) (hbody : '@' ∉ body) :
    offsetPositionTag (framed pns body) f = .ok (framed (pns.map (· + f)) body) := by
  have hreplace : replacePages f ('@' :: '@' :: (pnText pns ++ ['\t'])) =
      .ok ('@' :: '@' :: (pnText (pns.map (· + f)) ++ ['\t'])) := by
    rw [replacePages]
    simp only [List.drop_succ_cons, List.drop_zero, List.dropLast_concat,
      splitAtSep_pnText hpns, mapM_readInt_toDigits]
    simp [bind, Except.bind, pure, Except.pure, pnText, List.map_map, Function.comp_def]
  rw [offsetPositionTag, if_neg (by simp [framed, hf]), splitMatches_framed hpns hbody]
  simp only [replaceMatches, hreplace]
  simp [bind, Except.bind, pure, Except.pure, framed]

theorem at_notMem_bodyText {x0 x1 top bott : ℚ} : '@' ∉ bodyText x0 x1 top bott :=
  fun h => absurd (isTagChar_of_mem_bodyText _ h) (by decide)

theorem toGlobalBox_boxAt {f first : ℕ} (hf : f ≠ 0) {r : Option (ℕ × ℚ)}
    (hr : ∀ x ∈ r, 0 < x.1) (b : PageBox) :
    toGlobalBox f (boxAt first r b) = .ok (boxAt (first + f) r b) := by
  cases r with
  | none => rfl
  | some r =>
    obtain ⟨m, hm⟩ := Nat.exists_eq_succ_of_ne_zero (hr r rfl).ne'
    have hne : List.range' first r.1 ≠ [] := by
      rw [hm]
      exact List.cons_ne_nil _ _
    have hshift : (List.range' first r.1).map (· + f) = List.range' (first + f) r.1 := by
      rw [Nat.add_comm first f, ← List.map_add_range']
      exact List.map_congr_left fun p _ => Nat.add_comm p f
    rw [toGlobalBox, boxAt]
    simp only [offsetPositionTag_framed hf hne at_notMem_bodyText, hshift]
    simp only [Except.map, bind, Except.bind, pure, Except.pure, boxAt]
    split
    · rfl
    · simp only [List.map_cons, List.map_nil]
      push_cast
      congr 5
      ring

theorem toGlobalBox_tableBBox (f k : ℕ) (b : PageBox) :
    toGlobalBox f (tableBBox k b) = .ok (tableBBox (k + f) b) := by
  have hpage : k + 1 + f = k + f + 1 := by omega
  have hposition : (k : ℤ) + 1 + f = ((k + f : ℕ) : ℤ) + 1 := by
    push_cast
    ring
  rw [toGlobalBox, tableBBox, tableBBox]
  simp only [bind, Except.bind, pure, Except.pure, List.map_cons, List.map_nil, hpage, hposition]

end Offset

/-! ## The boxes of a range -/

/-- What stands on a page: the texts on the left, tables and figures on the right. -/
def pageItems (page : PdfPage) (p : ℕ) : List (ℕ × (PageBox ⊕ PageBox)) :=
  page.texts.map (fun b => (p, .inl b)) ++ page.tablesFigures.map fun b => (p, .inr b)

/-- What stands on the pages from `f` on, in front of `t`. -/
def items (pdf : Pdf) (f t : ℕ) : List (ℕ × (PageBox ⊕ PageBox)) :=
  ((pdf.window f t).zipIdx f).flatMap fun p => pageItems p.1 p.2

/-- The box of an item on a page, where pages before `stop` are read with it and `shift` is
taken from the number of its page. -/
def entry (pdf : Pdf) (stop : ℕ → ℕ) (shift : ℕ) : ℕ × (PageBox ⊕ PageBox) → BBox
  | (p, .inl b) => boxAt (p - shift + 1) (reachWithin pdf (stop p) p b) b
  | (p, .inr b) => tableBBox (p - shift) b

theorem mapM_map_eq_ok {α β γ ε : Type} {f : β → Except ε γ} {e : α → β} {g : α → γ} {l : List α}
    (h : ∀ a ∈ l, f (e a) = .ok (g a)) : (l.map e).mapM f = .ok (l.map g) := by
  induction l with
  | nil => rfl
  | cons a l ih =>
    rw [List.map_cons, List.mapM_cons, h a List.mem_cons_self,
      ih fun a ha => h a (List.mem_cons_of_mem _ ha)]
    rfl

theorem mapM_eq_ok_map {α β ε : Type} {f : α → Except ε β} {g : α → β} {l : List α}
    (h : ∀ a ∈ l, f a = .ok (g a)) : l.mapM f = .ok (l.map g) := by
  have hid := @mapM_map_eq_ok α α β ε f id g l h
  rwa [List.map_id] at hid

theorem pageBBoxes_eq (pdf : Pdf) (f t k : ℕ) (page : PdfPage) :
    pageBBoxes (pdf.images (pdf.window f t)) k page =
      .ok ((pageItems page (f + k)).map (entry pdf (fun _ => t) f)) := by
  have htexts : page.texts.mapM (textBBox (pdf.images (pdf.window f t)) k) =
      .ok (page.texts.map fun b => boxAt (k + 1) (reachWithin pdf t (f + k) b) b) :=
    mapM_eq_ok_map fun b _ => textBBox_eq f t k b
  rw [pageBBoxes, htexts, pageItems, List.map_append, List.map_map, List.map_map]
  simp only [bind, Except.bind, pure, Except.pure]
  congr 2
  · refine List.map_congr_left fun b _ => ?_
    simp only [Function.comp_apply, entry, Nat.add_sub_cancel_left]
  · refine List.map_congr_left fun b _ => ?_
    simp only [Function.comp_apply, entry, Nat.add_sub_cancel_left]

/-- A window counts its pages from its first on. -/
theorem parseLoadedWindow_eq (pdf : Pdf) (f t : ℕ) :
    parseLoadedWindow pdf (pdf.window f t) =
      .ok ((items pdf f t).map (entry pdf (fun _ => t) f)) := by
  have hpages : (pdf.window f t).zipIdx.mapM
      (fun p => pageBBoxes (pdf.images (pdf.window f t)) p.2 p.1) =
        .ok ((pdf.window f t).zipIdx.map fun p =>
          (pageItems p.1 (f + p.2)).map (entry pdf (fun _ => t) f)) :=
    mapM_eq_ok_map fun p _ => pageBBoxes_eq pdf f t p.2 p.1
  have hzip : (pdf.window f t).zipIdx f = (pdf.window f t).zipIdx.map fun p => (p.1, f + p.2) :=
    List.zipIdx_eq_map_add
  have hitems : (items pdf f t).map (entry pdf (fun _ => t) f) =
      ((pdf.window f t).zipIdx.map fun p =>
        (pageItems p.1 (f + p.2)).map (entry pdf (fun _ => t) f)).flatten := by
    rw [items, hzip, List.map_flatMap, List.flatMap_map, List.flatMap_def]
  rw [parseLoadedWindow, hitems]
  simp only [hpages]
  rfl

theorem le_of_mem_items {f t : ℕ} {x : ℕ × (PageBox ⊕ PageBox)} (h : x ∈ items pdf f t) :
    f ≤ x.1 := by
  obtain ⟨p, hp, hx⟩ := List.mem_flatMap.mp h
  have hle := List.le_snd_of_mem_zipIdx hp
  rcases List.mem_append.mp hx with hx | hx
  · obtain ⟨b, -, rfl⟩ := List.mem_map.mp hx
    exact hle
  · obtain ⟨b, -, rfl⟩ := List.mem_map.mp hx
    exact hle

theorem toGlobalBoxes_eq (pdf : Pdf) (f t : ℕ) :
    toGlobalBoxes f ((items pdf f t).map (entry pdf (fun _ => t) f)) =
      .ok ((items pdf f t).map (entry pdf (fun _ => t) 0)) := by
  by_cases hf : f = 0
  · subst hf
    rfl
  · rw [toGlobalBoxes, if_neg hf]
    refine mapM_map_eq_ok fun x hx => ?_
    have hle := le_of_mem_items hx
    obtain ⟨p, b | b⟩ := x
    · have hpage : p - f + 1 + f = p - 0 + 1 := by omega
      rw [entry, entry, toGlobalBox_boxAt hf, hpage]
      intro r hr
      rw [reachWithin] at hr
      exact reach_pos (Option.filter_eq_some_iff.mp hr).1
    · rw [entry, entry, toGlobalBox_tableBBox, show p - f + f = p - 0 by omega]

/-! ## The windows of a range -/

theorem items_append {f m t : ℕ} (hfm : f ≤ m) (hmt : m ≤ t) (ht : t ≤ pdf.pages.length) :
    items pdf f t = items pdf f m ++ items pdf m t := by
  have hwindow : pdf.window f t = pdf.window f m ++ pdf.window m t := by
    rw [Pdf.window, Pdf.window, Pdf.window, show t - f = (m - f) + (t - m) by omega,
      List.take_add, List.drop_drop, show f + (m - f) = m by omega]
  have hlength : (pdf.window f m).length = m - f := by
    rw [Pdf.window, List.length_take, List.length_drop]
    omega
  rw [items, hwindow, List.zipIdx_append, hlength, show f + (m - f) = m by omega,
    List.flatMap_append]
  rfl

/-- The end of the window of a page, where windows of `batchSize` pages start at `f`. -/
def windowEnd (batchSize f t p : ℕ) : ℕ := min (f + ((p - f) / batchSize + 1) * batchSize) t

theorem windowEnd_of_lt {batchSize f t p : ℕ} (hf : f ≤ p) (hp : p < f + batchSize) :
    windowEnd batchSize f t p = min (f + batchSize) t := by
  rw [windowEnd, Nat.div_eq_of_lt (by omega), Nat.zero_add, Nat.one_mul]

theorem windowEnd_next {batchSize f t p : ℕ} (hbatch : 0 < batchSize) (hp : f + batchSize ≤ p) :
    windowEnd batchSize (f + batchSize) t p = windowEnd batchSize f t p := by
  have hdiv : (p - f) / batchSize = (p - (f + batchSize)) / batchSize + 1 := by
    rw [show p - f = (p - (f + batchSize)) + batchSize by omega, Nat.add_div_right _ hbatch]
  rw [windowEnd, windowEnd, hdiv]
  congr 1
  ring

theorem lt_of_mem_items {f t : ℕ} {x : ℕ × (PageBox ⊕ PageBox)} (h : x ∈ items pdf f t) :
    x.1 < t := by
  obtain ⟨p, hp, hx⟩ := List.mem_flatMap.mp h
  have hlt := List.snd_lt_add_of_mem_zipIdx hp
  have hle := List.le_snd_of_mem_zipIdx hp
  rw [Pdf.window, List.length_take] at hlt
  have hpage : x.1 = p.2 := by
    rcases List.mem_append.mp hx with hx | hx
    · obtain ⟨b, -, rfl⟩ := List.mem_map.mp hx
      rfl
    · obtain ⟨b, -, rfl⟩ := List.mem_map.mp hx
      rfl
  omega

theorem entry_congr {stop stop' : ℕ → ℕ} {shift : ℕ} {x : ℕ × (PageBox ⊕ PageBox)}
    (h : stop x.1 = stop' x.1) : entry pdf stop shift x = entry pdf stop' shift x := by
  obtain ⟨p, b | b⟩ := x
  · rw [entry, entry, h]
  · rfl

/-- Read in several windows, every box is that of its page in the document, with a tag that
knows the pages of its window. -/
theorem parseWindows_eq (pdf : Pdf) {batchSize : ℕ} (hbatch : 0 < batchSize) (f t : ℕ)
    (ht : t ≤ pdf.pages.length) :
    parseWindows pdf batchSize hbatch f t =
      .ok ((items pdf f t).map (entry pdf (windowEnd batchSize f t) 0)) := by
  rw [parseWindows]
  split
  · rename_i hlt
    have hm : f ≤ min (f + batchSize) t := by omega
    have hfirst : (items pdf f (min (f + batchSize) t)).map
        (entry pdf (fun _ => min (f + batchSize) t) 0) =
          (items pdf f (min (f + batchSize) t)).map (entry pdf (windowEnd batchSize f t) 0) := by
      refine List.map_congr_left fun x hx => entry_congr ?_
      have hle := le_of_mem_items hx
      have hlt := lt_of_mem_items hx
      exact (windowEnd_of_lt hle (by omega)).symm
    have hrest : (items pdf (f + batchSize) t).map
        (entry pdf (windowEnd batchSize (f + batchSize) t) 0) =
          (items pdf (min (f + batchSize) t) t).map (entry pdf (windowEnd batchSize f t) 0) := by
      rcases Nat.le_total (f + batchSize) t with hle | hle
      · rw [min_eq_left hle]
        exact List.map_congr_left fun x hx =>
          entry_congr (windowEnd_next hbatch (le_of_mem_items hx))
      · have hnil : ∀ g, t ≤ g → items pdf g t = [] := fun g hg =>
          List.eq_nil_iff_forall_not_mem.mpr fun x hx => by
            have := le_of_mem_items hx
            have := lt_of_mem_items hx
            omega
        rw [hnil _ hle, hnil _ (by omega)]
        rfl
    simp only [bind, Except.bind, parseLoadedWindow_eq, toGlobalBoxes_eq]
    rw [parseWindows_eq pdf hbatch (f + batchSize) t ht]
    simp only [pure, Except.pure]
    rw [hfirst, hrest, ← List.map_append, ← items_append hm (by omega) ht]
  · rename_i hle
    have hnil : items pdf f t = [] := List.eq_nil_iff_forall_not_mem.mpr fun x hx => by
      have := le_of_mem_items hx
      have := lt_of_mem_items hx
      omega
    rw [hnil]
    rfl
termination_by t - f

/-! ## The same boxes -/

/-- The boxes of a range of pages in the document: each with the number of its page, and a tag
that follows it through the range. -/
def documentBoxes (pdf : Pdf) (fromPage toPage : ℕ) : List BBox :=
  (items pdf fromPage toPage).map (entry pdf (fun _ => toPage) 0)

/-- A range is read without an error, and gives the boxes of the document. -/
def SameBoxes (pdf : Pdf) (batchSize : ℕ) (hbatch : 0 < batchSize) (fromPage toPage : ℕ) : Prop :=
  ∃ boxes, parseIntoBBoxes pdf batchSize hbatch fromPage toPage = .ok boxes ∧
    boxes.Perm (documentBoxes pdf fromPage (min toPage pdf.pages.length))

/-- A range that is read in one window starts at the first page or has no boxes; in one that is
read in several windows, a text box that ends in the range ends in the window of its page. -/
def EndsInWindow (pdf : Pdf) (batchSize fromPage toPage : ℕ) : Prop :=
  if min toPage pdf.pages.length - fromPage ≤ batchSize then
    fromPage = 0 ∨ items pdf fromPage (min toPage pdf.pages.length) = []
  else
    ∀ p b r, (p, Sum.inl b) ∈ items pdf fromPage (min toPage pdf.pages.length) →
      reach pdf.zoom b.bottom ((pdf.pages.drop p).map PdfPage.height) = some r →
      p + r.1 ≤ min toPage pdf.pages.length →
      p + r.1 ≤ windowEnd batchSize fromPage (min toPage pdf.pages.length) p

theorem entry_pageNumber (stop : ℕ → ℕ) (shift : ℕ) (x : ℕ × (PageBox ⊕ PageBox)) :
    (entry pdf stop shift x).pageNumber = x.1 - shift + 1 := by
  obtain ⟨p, b | b⟩ := x <;> rfl

/-- A box whose tag follows it to no page. -/
def hasNoTag (box : BBox) : Bool := box.positionTag = some []

theorem hasNoTag_entry (stop : ℕ → ℕ) (shift p : ℕ) (b : PageBox) :
    hasNoTag (entry pdf stop shift (p, .inl b)) = true ↔ reachWithin pdf (stop p) p b = none := by
  rw [hasNoTag, entry]
  cases reachWithin pdf (stop p) p b with
  | none => simp [boxAt]
  | some r => simp [boxAt, framed]

theorem reachWithin_eq_none_iff {stop p : ℕ} {b : PageBox} :
    reachWithin pdf stop p b = none ↔
      ∀ r, reach pdf.zoom b.bottom ((pdf.pages.drop p).map PdfPage.height) = some r →
        ¬ p + r.1 ≤ stop := by
  rw [reachWithin]
  cases reach pdf.zoom b.bottom ((pdf.pages.drop p).map PdfPage.height) with
  | none => simp
  | some r => simp [Option.filter]

theorem of_countP_map_eq {α β : Type} {f g : α → β} {q : β → Bool} {l : List α}
    (himp : ∀ a ∈ l, q (g a) = true → q (f a) = true)
    (heq : (l.map f).countP q = (l.map g).countP q) :
    ∀ a ∈ l, q (f a) = true → q (g a) = true := by
  rw [List.countP_map, List.countP_map] at heq
  induction l with
  | nil => simp
  | cons a l ih =>
    have hle : l.countP (q ∘ g) ≤ l.countP (q ∘ f) :=
      List.countP_mono_left fun b hb => himp b (List.mem_cons_of_mem _ hb)
    have hhead := himp a List.mem_cons_self
    rw [List.countP_cons, List.countP_cons] at heq
    simp only [Function.comp_apply] at heq
    have hboth : (q (f a) = true → q (g a) = true) ∧ l.countP (q ∘ f) = l.countP (q ∘ g) := by
      split_ifs at heq with hf hg hg
      · exact ⟨fun _ => hg, by omega⟩
      · omega
      · exact absurd (hhead hg) hf
      · exact ⟨fun h => absurd h hf, by omega⟩
    exact List.forall_mem_cons.mpr
      ⟨hboth.1, ih (fun b hb => himp b (List.mem_cons_of_mem _ hb)) hboth.2⟩

/-- From a later page on, one window gives other page numbers. -/
theorem not_perm_of_shift {f t : ℕ} (hf : f ≠ 0) (hne : items pdf f t ≠ []) :
    ¬ ((items pdf f t).map (entry pdf (fun _ => t) f)).Perm (documentBoxes pdf f t) := by
  intro hperm
  have hsum := (hperm.map BBox.pageNumber).sum_eq
  rw [documentBoxes, List.map_map, List.map_map] at hsum
  refine absurd hsum (Nat.ne_of_lt (List.sum_lt_sum_of_ne_nil hne _ _ fun x hx => ?_))
  have hle := le_of_mem_items hx
  rw [Function.comp_apply, Function.comp_apply, entry_pageNumber, entry_pageNumber]
  omega

theorem windowEnd_le (batchSize f t p : ℕ) : windowEnd batchSize f t p ≤ t := min_le_right _ _

/-- The boxes of several windows are those of the document if no box is cut off. -/
theorem perm_windows_iff {batchSize f t : ℕ} :
    ((items pdf f t).map (entry pdf (windowEnd batchSize f t) 0)).Perm (documentBoxes pdf f t) ↔
      ∀ p b r, (p, Sum.inl b) ∈ items pdf f t →
        reach pdf.zoom b.bottom ((pdf.pages.drop p).map PdfPage.height) = some r →
        p + r.1 ≤ t → p + r.1 ≤ windowEnd batchSize f t p := by
  constructor
  · intro hperm p b r hmem hr ht
    by_contra hcut
    have htags := of_countP_map_eq (fun x hx => ?_) (hperm.countP_eq hasNoTag) _ hmem
    · have hnone := (hasNoTag_entry _ _ _ _).mp (htags ((hasNoTag_entry _ _ _ _).mpr
        (reachWithin_eq_none_iff.mpr fun r' hr' => ?_)))
      · exact reachWithin_eq_none_iff.mp hnone r hr ht
      · rw [hr] at hr'
        obtain rfl := Option.some.inj hr'
        exact hcut
    · obtain ⟨p, b | b⟩ := x
      · rw [hasNoTag_entry, hasNoTag_entry, reachWithin_eq_none_iff, reachWithin_eq_none_iff]
        exact fun h r hr hle => h r hr (hle.trans (windowEnd_le _ _ _ _))
      · exact fun h => h
  · intro h
    have heq : (items pdf f t).map (entry pdf (windowEnd batchSize f t) 0) =
        documentBoxes pdf f t := by
      refine List.map_congr_left fun x hx => ?_
      obtain ⟨p, b | b⟩ := x
      · have hreach : reachWithin pdf (windowEnd batchSize f t p) p b = reachWithin pdf t p b := by
          rw [reachWithin, reachWithin]
          cases hr : reach pdf.zoom b.bottom ((pdf.pages.drop p).map PdfPage.height) with
          | none => rfl
          | some r =>
            have hiff : p + r.1 ≤ windowEnd batchSize f t p ↔ p + r.1 ≤ t :=
              ⟨fun hle => hle.trans (windowEnd_le _ _ _ _), h p b r hx hr⟩
            simp only [Option.filter, hiff]
        rw [entry, entry, hreach]
      · rfl
    rw [heq]

theorem sameBoxes_iff (pdf : Pdf) (batchSize : ℕ) (hbatch : 0 < batchSize)
    (fromPage toPage : ℕ) :
    SameBoxes pdf batchSize hbatch fromPage toPage ↔
      EndsInWindow pdf batchSize fromPage toPage := by
  rw [SameBoxes, EndsInWindow, parseIntoBBoxes]
  split
  · rw [parseLoadedWindow_eq]
    simp only [Except.ok.injEq, exists_eq_left']
    constructor
    · intro hperm
      by_contra hneg
      push Not at hneg
      exact not_perm_of_shift hneg.1 hneg.2 hperm
    · rintro (rfl | hnil)
      · exact .refl _
      · rw [documentBoxes, hnil]
        exact .refl _
  · rw [parseWindows_eq pdf hbatch _ _ (min_le_right _ _)]
    simp only [Except.ok.injEq, exists_eq_left']
    exact perm_windows_iff

/-! ### A range behind the first page -/

/-- Two pages with one line each. -/
def twoPages : Pdf where
  pages := [⟨300, [⟨10, 50, 10, 20, "a".toList, []⟩], []⟩,
    ⟨300, [⟨10, 50, 10, 20, "b".toList, []⟩], []⟩]
  zoom := onePage.zoom
  zoom_pos := onePage.zoom_pos

theorem sameBoxes_twoPages_iff :
    SameBoxes twoPages 50 (by decide) 1 2 ↔ EndsInWindow twoPages 50 1 2 :=
  sameBoxes_iff twoPages 50 (by decide) 1 2

/-- The second page, read in one window, has the number one. -/
theorem not_sameBoxes_second_page : ¬ SameBoxes twoPages 50 (by decide) 1 2 := by
  rintro ⟨boxes, hboxes, hperm⟩
  have hlocal := parseLoadedWindow_eq twoPages 1 2
  have hne : items twoPages 1 2 ≠ [] := by simp [items, Pdf.window, twoPages, pageItems]
  have hparse : parseIntoBBoxes twoPages 50 (by decide) 1 2 =
      parseLoadedWindow twoPages (twoPages.window 1 2) := rfl
  rw [hparse, hlocal] at hboxes
  obtain rfl := Except.ok.inj hboxes
  exact not_perm_of_shift Nat.one_ne_zero hne hperm

end RagFlow.Vision
