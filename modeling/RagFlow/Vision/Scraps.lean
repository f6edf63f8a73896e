/-
# Leaving out scraps

The boxes of a document are put into blocks. From the first box that is left a search goes on
to the next box that belongs to it, and from there to the next, and takes each out of the list
when it returns. A block is left out of the text when its lines are short.
-/

import RagFlow.Vision.PositionTags

namespace RagFlow.Vision

open RagFlow.Chunking (Text)

/-! ## Headings -/

def isNumeral (c : Char) : Bool := c ∈ "零一二三四五六七八九十百".toList

/-- A digit, a blank or a sign of a formula. -/
def isFormula (c : Char) : Bool := c.isDigit || c ∈ " ().,%+/-".toList

/-- A text without the line break at its end, in front of which `$` matches as well. -/
def beforeEnd (t : Text) : Text := if t.getLast? = some '\n' then t.dropLast else t

/-- What follows on a run of at least one character of a class. -/
def behindRun (p : Char → Bool) (t : Text) : Option Text :=
  if t.takeWhile p = [] then none else some (t.dropWhile p)

/-- A character of a class stands at the head of a text. -/
def startsWith (cs : Text) (t : Option Text) : Bool := t.any fun t => t.head?.any (· ∈ cs)

/-- `[0-9]+` with points between them, `n + 1` times, and a character that is no digit. -/
def isNumbered : ℕ → Text → Bool
  | 0, t => (behindRun Char.isDigit t).any fun rest => rest.head?.any fun c => !c.isDigit
  | n + 1, t => (behindRun Char.isDigit t).any fun
      | '.' :: rest => isNumbered n rest
      | _ => false

/-- `[0-9]+(、|\.[　 ]|\.[^0-9])` -/
def isItem (t : Text) : Bool := (behindRun Char.isDigit t).any fun
  | '、' :: _ => true
  | '.' :: c :: _ => !c.isDigit
  | _ => false

/-- `.{,48}[：:?？]$` -/
def isQuestion (t : Text) : Bool :=
  let body := (beforeEnd t).dropLast
  (beforeEnd t).getLast?.any (· ∈ "：:?？".toList) && body.length ≤ 48 && '\n' ∉ body

/-- Between brackets, at the head of a text. -/
def inBrackets (p : Char → Bool) : Text → Bool
  | c :: rest => c ∈ "(（".toList && startsWith "）)".toList (behindRun p rest)
  | [] => false

/-- `第`, numerals, and one of `cs`. -/
def isOrdinal (cs : Text) : Text → Bool
  | '第' :: rest => startsWith cs (behindRun isNumeral rest)
  | _ => false

/-- `proj_match`, where `None` and `False` are both `none`. -/
def projMatch (line : Text) : Option ℕ :=
  if line.length ≤ 2 then none
  else if (beforeEnd line).all isFormula then none
  else if isOrdinal ['章'] line then some 1
  else if isOrdinal ['条', '节'] line then some 2
  else if startsWith "、 　".toList (behindRun isNumeral line) then some 3
  else if inBrackets isNumeral line then some 4
  else if isItem line then some 5
  else if isNumbered 1 line then some 6
  else if isNumbered 2 line then some 7
  else if isNumbered 3 line then some 8
  else if isQuestion line then some 9
  else if startsWith ['）'] (behindRun Char.isDigit line) then some 10
  else if inBrackets Char.isDigit line then some 11
  else if startsWith ['是'] (behindRun isNumeral line) then some 12
  else if startsWith "⚫•➢✓".toList (some line) then some 12
  else none

/-! ## Boxes -/

/-- The loaded pages with the widths of their images and their mean line heights. -/
structure LoadedPages extends PageImages where
  widths : List ℕ
  meanHeights : List ℚ
  length_widths : widths.length = heights.length
  length_meanHeights : meanHeights.length = heights.length
  widths_pos : ∀ w ∈ widths, 0 < w

/-- A box on a loaded page; its layout type is empty if it has none. -/
structure ScrapBox (pages : LoadedPages) extends TextBox where
  text : Text
  layoutType : Text
  page_pos : 0 < pageNumber
  page_le : pageNumber ≤ pages.heights.length

namespace ScrapBox

variable {pages : LoadedPages} (b : ScrapBox pages)

theorem page_lt : b.pageNumber - 1 < pages.heights.length := by
  have := b.page_pos
  have := b.page_le
  omega

def width : ℚ := b.x1 - b.x0

def height : ℚ := b.bottom - b.top

/-- `self.page_images[b["page_number"] - 1].size[0] / ZM` -/
def pageWidth : ℚ :=
  pages.widths.get ⟨b.pageNumber - 1, pages.length_widths ▸ b.page_lt⟩ / (pages.zoom : ℚ)

/-- `self.mean_height[b["page_number"] - 1]` -/
def meanHeight : ℚ :=
  pages.meanHeights.get ⟨b.pageNumber - 1, pages.length_meanHeights ▸ b.page_lt⟩

def usefull : Bool :=
  if b.layoutType ≠ [] then true
  else if b.pageWidth / 3 < b.width then true
  else if b.meanHeight < b.height then true
  else false

/-- A numbered heading or a title. -/
def isHeading : Bool := (projMatch b.text).isSome || b.layoutType = "title".toList

end ScrapBox

variable {pages : LoadedPages}

def xDis (a b : ScrapBox pages) : ℚ :=
  min (min |a.x1 - b.x0| |a.x0 - b.x1|) (|a.x0 + a.x1 - b.x0 - b.x1| / 2)

def yDis (a b : ScrapBox pages) : ℚ := (b.top + b.bottom - a.top - a.bottom) / 2

/-! ## The search -/

section Search

-- the mean line height and the width of the page of the first box of the block
variable (mh pw : ℚ)

/-- The loop of `dfs` up to the box that it goes on with. -/
def nextIndex (line : ScrapBox pages) (boxes : List (ScrapBox pages)) (stop i : ℕ) :
    Except String (Option ℕ) :=
  if i < stop then
    match boxes[i]? with
    | none => .error "IndexError"
    | some b =>
        if line.pageNumber < b.pageNumber then .ok none
        else if !line.isHeading && 3 * mh ≤ yDis line b && line.height < 3 / 2 * mh then .ok none
        else if !b.usefull then nextIndex line boxes stop (i + 1)
        else if line.isHeading || xDis b line < pw / 10 then .ok (some i)
        else nextIndex line boxes stop (i + 1)
  else .ok none
termination_by stop - i

/-- The lists after the search; `raised` if an exception ended it. -/
structure Search (pages : LoadedPages) where
  raised : Bool
  lines : List (ScrapBox pages)
  boxes : List (ScrapBox pages)

variable {mh pw} in
theorem lt_of_nextIndex {line : ScrapBox pages} {boxes : List (ScrapBox pages)} {stop i j : ℕ}
    (h : nextIndex mh pw line boxes stop i = .ok (some j)) : i ≤ j ∧ j < boxes.length := by
  fun_induction nextIndex mh pw line boxes stop i with
  | case5 i hi b hb _ _ _ _ =>
    obtain rfl : i = j := by simpa using h
    exact ⟨le_rfl, (List.getElem?_eq_some_iff.mp hb).1⟩
  | case4 i hi b hb _ _ _ ih => exact ⟨by have := (ih h).1; omega, (ih h).2⟩
  | case6 i hi b hb _ _ _ _ ih => exact ⟨by have := (ih h).1; omega, (ih h).2⟩
  | _ => simp at h

/-- `dfs`. The box it goes on with is taken out of the list when the search from there is
over. -/
def dfs (line : ScrapBox pages) (st : ℕ) (boxes lines : List (ScrapBox pages)) : Search pages :=
  match h : nextIndex mh pw line boxes (min (st + 20) boxes.length) (st + 1) with
  | .error _ => ⟨true, lines ++ [line], boxes⟩
  | .ok none => ⟨false, lines ++ [line], boxes⟩
  | .ok (some i) =>
      have hi := lt_of_nextIndex h
      let r := dfs (boxes.get ⟨i, hi.2⟩) i boxes (lines ++ [line])
      if r.raised then r
      else if i < r.boxes.length then { r with boxes := r.boxes.eraseIdx i }
      else { r with raised := true }
termination_by boxes.length - st

end Search

/-- A turn of the main loop: the first box that was left, and the lines of its block. There
are none if the box is waste. -/
structure Block (pages : LoadedPages) where
  first : ScrapBox pages
  raised : Bool
  lines : List (ScrapBox pages)

def searchFrom (b : ScrapBox pages) (boxes : List (ScrapBox pages)) : Search pages :=
  if b.usefull then dfs b.meanHeight b.pageWidth b 0 boxes [] else ⟨false, [], boxes⟩

variable {mh pw : ℚ}

theorem length_boxes_dfs_le (line : ScrapBox pages) (st : ℕ)
    (boxes lines : List (ScrapBox pages)) :
    (dfs mh pw line st boxes lines).boxes.length ≤ boxes.length := by
  fun_induction dfs mh pw line st boxes lines with
  | case1 => exact le_rfl
  | case2 => exact le_rfl
  | case3 _ _ _ _ _ _ _ _ ih => exact ih
  | case4 _ _ _ _ _ _ _ _ _ ih => exact (List.length_eraseIdx_le _ _).trans ih
  | case5 _ _ _ _ _ _ _ _ _ ih => exact ih

theorem length_boxes_searchFrom_le (b : ScrapBox pages) (boxes : List (ScrapBox pages)) :
    (searchFrom b boxes).boxes.length ≤ boxes.length := by
  unfold searchFrom
  split
  · exact length_boxes_dfs_le b 0 boxes []
  · exact le_rfl

/-- The main loop. -/
def blocks : List (ScrapBox pages) → Except String (List (Block pages))
  | [] => .ok []
  | b :: rest =>
      match _h : (searchFrom b (b :: rest)).boxes with
      | [] => .error "IndexError"
      | _ :: boxes =>
          (blocks boxes).map fun bs =>
            ⟨b, (searchFrom b (b :: rest)).raised, (searchFrom b (b :: rest)).lines⟩ :: bs
termination_by boxes => boxes.length
decreasing_by
  have hle := length_boxes_searchFrom_le b (b :: rest)
  rw [_h] at hle
  exact hle

namespace Block

/-- `np.mean(widths)`; of no widths there is none. -/
def meanWidth (B : Block pages) : Option ℚ :=
  if B.lines = [] then none else some ((B.lines.map ScrapBox.width).sum / B.lines.length)

def kept (B : Block pages) : Bool :=
  B.first.isHeading || B.meanWidth.any fun mw => 35 / 100 ≤ mw / B.first.pageWidth || 200 < mw

def content (B : Block pages) : Text :=
  ['\n'].intercalate (B.lines.map fun c => c.text ++ lineTag pages.toPageImages c.toTextBox)

end Block

/-- `__filterout_scraps`. -/
def filteroutScraps (boxes : List (ScrapBox pages)) : Except String Text :=
  (blocks boxes).map fun bs => ['\n', '\n'].intercalate ((bs.filter Block.kept).map Block.content)

/-! ## Every box once -/

/-- What the search from a box leaves behind: the lines it has added, the box first, and the
list without the others. -/
structure Searched (line : ScrapBox pages) (st : ℕ) (boxes lines : List (ScrapBox pages))
    (r : Search pages) (picked : List (ScrapBox pages)) : Prop where
  raised : r.raised = false
  lines_eq : r.lines = lines ++ line :: picked
  perm : (picked ++ r.boxes).Perm boxes
  boxes_sublist : r.boxes.Sublist boxes
  take_eq : r.boxes.take (st + 1) = boxes.take (st + 1)
  picked_sublist : picked.Sublist (boxes.drop (st + 1))
  usefull : ∀ b ∈ picked, b.usefull = true
  pages_le : (line :: picked).Pairwise fun a b => b.pageNumber ≤ a.pageNumber

theorem nextIndex_spec {line : ScrapBox pages} {boxes : List (ScrapBox pages)} {stop i : ℕ}
    (hstop : stop ≤ boxes.length) :
    nextIndex mh pw line boxes stop i = .ok none ∨
      ∃ j b, nextIndex mh pw line boxes stop i = .ok (some j) ∧ i ≤ j ∧ boxes[j]? = some b ∧
        b.usefull = true ∧ b.pageNumber ≤ line.pageNumber := by
  fun_induction nextIndex mh pw line boxes stop i with
  | case1 i hi hnone => simp at hnone; omega
  | case2 => exact .inl rfl
  | case3 => exact .inl rfl
  | case4 i hi b hb _ _ _ ih => exact ih.imp_right fun ⟨j, c, h, hij, hc⟩ => ⟨j, c, h, by omega, hc⟩
  | case5 i hi b hb hpage _ huse _ =>
    exact .inr ⟨i, b, rfl, le_rfl, hb, by simpa using huse, not_lt.mp hpage⟩
  | case6 i hi b hb _ _ _ _ ih =>
    exact ih.imp_right fun ⟨j, c, h, hij, hc⟩ => ⟨j, c, h, by omega, hc⟩
  | case7 => exact .inl rfl

theorem dfs_of_none {line : ScrapBox pages} {st : ℕ} {boxes lines : List (ScrapBox pages)}
    (h : nextIndex mh pw line boxes (min (st + 20) boxes.length) (st + 1) = .ok none) :
    dfs mh pw line st boxes lines = ⟨false, lines ++ [line], boxes⟩ := by
  unfold dfs
  split
  · rename_i herr
    rw [h] at herr
    cases herr
  · rfl
  · rename_i hsome
    rw [h] at hsome
    cases hsome

theorem dfs_of_some {line b : ScrapBox pages} {st i : ℕ} {boxes lines : List (ScrapBox pages)}
    (h : nextIndex mh pw line boxes (min (st + 20) boxes.length) (st + 1) = .ok (some i))
    (hb : boxes[i]? = some b)
    (hr : (dfs mh pw b i boxes (lines ++ [line])).raised = false)
    (hi : i < (dfs mh pw b i boxes (lines ++ [line])).boxes.length) :
    dfs mh pw line st boxes lines =
      { dfs mh pw b i boxes (lines ++ [line]) with
        boxes := (dfs mh pw b i boxes (lines ++ [line])).boxes.eraseIdx i } := by
  obtain ⟨hlt, rfl⟩ := List.getElem?_eq_some_iff.mp hb
  rw [dfs]
  split
  · rename_i herr
    rw [h] at herr
    cases herr
  · rename_i hnone
    rw [h] at hnone
    cases hnone
  · rename_i j hj
    rw [h] at hj
    cases hj
    have hr' : ¬ (dfs mh pw (boxes.get ⟨i, hlt⟩) i boxes (lines ++ [line])).raised = true := by
      simpa using hr
    simp only [if_neg hr']
    exact if_pos hi

/-- The search swallows no error, and takes out of the list what it adds to the lines. -/
theorem exists_searched {mh pw : ℚ} {line : ScrapBox pages} {st : ℕ}
    {boxes lines : List (ScrapBox pages)} :
    ∃ picked, Searched line st boxes lines (dfs mh pw line st boxes lines) picked := by
  rcases @nextIndex_spec pages mh pw line boxes _ (st + 1)
    (min_le_right (st + 20) boxes.length) with hnext | ⟨i, b, hnext, hi, hb, huse, hpage⟩
  · refine ⟨[], ?_⟩
    rw [dfs_of_none hnext]
    exact {
      raised := rfl
      lines_eq := rfl
      perm := .refl _
      boxes_sublist := .refl _
      take_eq := rfl
      picked_sublist := List.nil_sublist _
      usefull := by simp
      pages_le := List.pairwise_singleton _ _ }
  · have hlt : i < boxes.length := (List.getElem?_eq_some_iff.mp hb).1
    obtain ⟨picked, hr⟩ := @exists_searched mh pw b i boxes (lines ++ [line])
    -- the box is still at its place when the search from there is over
    have hplace : (dfs mh pw b i boxes (lines ++ [line])).boxes[i]? = some b := by
      have htake := congrArg (·[i]?) hr.take_eq
      simpa [List.getElem?_take, hb] using htake
    obtain ⟨hi', hget⟩ := List.getElem?_eq_some_iff.mp hplace
    refine ⟨b :: picked, ?_⟩
    rw [dfs_of_some hnext hb hr.raised hi']
    exact {
      raised := hr.raised
      lines_eq := by
        rw [hr.lines_eq, List.append_assoc, List.singleton_append]
      perm := by
        have hback := List.getElem_cons_eraseIdx_perm hi'
        rw [hget] at hback
        exact (List.perm_middle.symm.trans (hback.append_left picked)).trans hr.perm
      boxes_sublist := (List.eraseIdx_sublist _ _).trans hr.boxes_sublist
      take_eq := by
        have htake := congrArg (List.take (st + 1)) hr.take_eq
        rw [List.take_take, List.take_take, min_eq_left (by omega)] at htake
        rw [List.take_eraseIdx_eq_take_of_le _ _ _ hi, htake]
      picked_sublist := by
        have hdrop : boxes.drop i = b :: boxes.drop (i + 1) := by
          obtain ⟨h, rfl⟩ := List.getElem?_eq_some_iff.mp hb
          exact List.drop_eq_getElem_cons h
        refine List.Sublist.trans ?_ (List.drop_sublist_drop_left boxes hi)
        rw [hdrop]
        exact hr.picked_sublist.cons_cons b
      usefull := by
        intro c hc
        rcases List.mem_cons.mp hc with rfl | hc
        · exact huse
        · exact hr.usefull c hc
      pages_le := by
        refine List.pairwise_cons.mpr ⟨?_, hr.pages_le⟩
        intro c hc
        rcases List.mem_cons.mp hc with rfl | hc
        · exact hpage
        · exact ((List.pairwise_cons.mp hr.pages_le).1 c hc).trans hpage }
termination_by boxes.length - st

theorem exists_searchFrom (b : ScrapBox pages) (rest : List (ScrapBox pages)) :
    ∃ rest' wasted, (searchFrom b (b :: rest)).boxes = b :: rest' ∧
      (searchFrom b (b :: rest)).raised = false ∧ rest'.Sublist rest ∧
      ((searchFrom b (b :: rest)).lines ++ wasted ++ rest').Perm (b :: rest) ∧
      (∀ c ∈ wasted, c.usefull = false) ∧
      (searchFrom b (b :: rest)).lines.Sublist (b :: rest) ∧
      ((searchFrom b (b :: rest)).lines.Pairwise fun a c => c.pageNumber ≤ a.pageNumber) ∧
      ∀ c ∈ (searchFrom b (b :: rest)).lines.head?, c = b := by
  unfold searchFrom
  split
  · obtain ⟨picked, hr⟩ := @exists_searched pages b.meanHeight b.pageWidth b 0 (b :: rest) []
    have hhead := hr.take_eq
    cases hboxes : (dfs b.meanHeight b.pageWidth b 0 (b :: rest) []).boxes with
    | nil =>
      rw [hboxes] at hhead
      cases hhead
    | cons a rest' =>
      rw [hboxes] at hhead
      obtain rfl : a = b := (List.cons.inj hhead).1
      have hsub := hr.boxes_sublist
      have hperm := hr.perm
      rw [hboxes] at hsub hperm
      rw [hr.lines_eq, List.nil_append]
      refine ⟨rest', [], rfl, hr.raised, hsub.tail, ?_, by simp,
        hr.picked_sublist.cons_cons a, hr.pages_le, by simp⟩
      rw [List.append_nil]
      exact List.perm_middle.symm.trans hperm
  · rename_i hwaste
    exact ⟨rest, [b], rfl, rfl, .refl _, .refl _, by simpa using hwaste, List.nil_sublist _, .nil,
      by simp⟩

/-- Every useful box is in one block and once in it, the others are in none; no error is
swallowed; and a block lists its boxes in order, on one page or an earlier one. -/
structure InBlocks (boxes : List (ScrapBox pages)) (bs : List (Block pages))
    (wasted : List (ScrapBox pages)) : Prop where
  raised : ∀ B ∈ bs, B.raised = false
  perm : (bs.flatMap Block.lines ++ wasted).Perm boxes
  wasted : ∀ b ∈ wasted, b.usefull = false
  sublist : ∀ B ∈ bs, B.lines.Sublist boxes
  pages_le : ∀ B ∈ bs, B.lines.Pairwise fun a b => b.pageNumber ≤ a.pageNumber
  first : ∀ B ∈ bs, ∀ b ∈ B.lines.head?, b = B.first

theorem blocks_cons {b : ScrapBox pages} {rest rest' : List (ScrapBox pages)}
    (h : (searchFrom b (b :: rest)).boxes = b :: rest') :
    blocks (b :: rest) = (blocks rest').map fun bs =>
      ⟨b, (searchFrom b (b :: rest)).raised, (searchFrom b (b :: rest)).lines⟩ :: bs := by
  rw [blocks]
  split
  · rename_i hnil
    rw [h] at hnil
    cases hnil
  · rename_i hcons
    rw [h] at hcons
    cases hcons
    rfl

theorem exists_blocks (boxes : List (ScrapBox pages)) :
    ∃ bs wasted, blocks boxes = .ok bs ∧ InBlocks boxes bs wasted := by
  cases boxes with
  | nil =>
    refine ⟨[], [], by rw [blocks], ?_⟩
    exact {
      raised := by simp
      perm := .refl _
      wasted := by simp
      sublist := by simp
      pages_le := by simp
      first := by simp }
  | cons b rest =>
    obtain ⟨rest', wasted, hboxes, hraised, hsub, hperm, hwasted, hlines, hpages, hfirst⟩ :=
      exists_searchFrom b rest
    have hlength := hsub.length_le
    obtain ⟨bs, wasted', hbs, h⟩ := exists_blocks rest'
    refine ⟨_, wasted ++ wasted', by rw [blocks_cons hboxes, hbs]; rfl, ?_⟩
    exact {
      raised := List.forall_mem_cons.mpr ⟨hraised, h.raised⟩
      perm := by
        refine List.Perm.trans ?_ hperm
        rw [List.flatMap_cons, List.append_assoc, List.append_assoc]
        refine List.Perm.append_left _ ?_
        rw [← List.append_assoc]
        exact (List.perm_append_comm.append_right wasted').trans
          (by rw [List.append_assoc]; exact h.perm.append_left wasted)
      wasted := fun c hc => (List.mem_append.mp hc).elim (hwasted c) (h.wasted c)
      sublist := List.forall_mem_cons.mpr
        ⟨hlines, fun B hB => ((h.sublist B hB).trans hsub).cons b⟩
      pages_le := List.forall_mem_cons.mpr ⟨hpages, h.pages_le⟩
      first := List.forall_mem_cons.mpr ⟨hfirst, h.first⟩ }
termination_by boxes.length

theorem ScrapBox.pageWidth_pos (b : ScrapBox pages) : 0 < b.pageWidth := by
  have hwidth : 0 < pages.widths.get ⟨b.pageNumber - 1, pages.length_widths ▸ b.page_lt⟩ :=
    pages.widths_pos _ (List.get_mem _ _)
  have hzoom := pages.zoom_pos
  exact div_pos (by exact_mod_cast hwidth) (by exact_mod_cast hzoom)

/-- A block with lines is left out when its first box is no heading and its lines are short. -/
theorem kept_eq_false_iff {B : Block pages} {b : ScrapBox pages}
    (hfirst : ∀ c ∈ B.lines.head?, c = B.first) (hb : b ∈ B.lines.head?) :
    B.kept = false ↔ b.isHeading = false ∧
      (B.lines.map ScrapBox.width).sum / B.lines.length < 35 / 100 * b.pageWidth ∧
      (B.lines.map ScrapBox.width).sum / B.lines.length ≤ 200 := by
  obtain rfl := hfirst b hb
  have hne : B.lines ≠ [] := by
    intro hnil
    rw [hnil] at hb
    cases hb
  rw [Block.kept, Block.meanWidth, if_neg hne, Bool.or_eq_false_iff]
  refine and_congr_right fun _ => ?_
  simp only [Option.any_some, Bool.or_eq_false_iff, decide_eq_false_iff_not, not_le, not_lt,
    div_lt_iff₀ B.first.pageWidth_pos]

theorem filteroutScraps_inBlocks (pages : LoadedPages) (boxes : List (ScrapBox pages)) :
    ∃ bs wasted, blocks boxes = .ok bs ∧ InBlocks boxes bs wasted ∧
      filteroutScraps boxes =
        .ok (['\n', '\n'].intercalate ((bs.filter Block.kept).map Block.content)) ∧
      ∀ B ∈ bs, ∀ b ∈ B.lines.head?, B.kept = false ↔ b.isHeading = false ∧
        (B.lines.map ScrapBox.width).sum / B.lines.length < 35 / 100 * b.pageWidth ∧
        (B.lines.map ScrapBox.width).sum / B.lines.length ≤ 200 := by
  obtain ⟨bs, wasted, hbs, h⟩ := exists_blocks boxes
  refine ⟨bs, wasted, hbs, h, ?_, fun B hB b hb => kept_eq_false_iff (h.first B hB) hb⟩
  rw [filteroutScraps, hbs]
  rfl

end RagFlow.Vision
