/-
# Extracting tables and figures

The boxes of tables and figures are taken out of the list of boxes and grouped by page and
layout. Tables are joined with the one in front of them when they go on over a page, and each
caption is popped and put in front of the nearest group.

Boxes are only moved: what is not left in the list is in a group, or was dropped.
-/

import Mathlib.Data.List.Infix
import RagFlow.Math.Absorb
import RagFlow.Query.Text
import RagFlow.Vision.PositionTags

namespace RagFlow.Vision

open RagFlow.Math
open RagFlow.Chunking (Text)

/-! ## Boxes -/

/-- A recognised box; `layoutNo` is missing where no layout was found. -/
structure LayoutBox where
  page : ℕ
  x0 : ℚ
  x1 : ℚ
  top : ℚ
  bottom : ℚ
  text : Text
  layoutType : Text
  layoutNo : Option Text

/-- The loaded pages and the boxes that were recognised on them. -/
structure LoadedBoxes where
  pages : ℕ
  pageFrom : ℕ
  meanHeight : List ℚ
  boxes : List LayoutBox
  page_pos : ∀ b ∈ boxes, 0 < b.page
  page_le : ∀ b ∈ boxes, b.page ≤ pages

/-- `re.match(r"(数据|资料|图表)*来源[:： ]", text)` -/
def isSource : Text → Bool
  | '数' :: '据' :: cs => isSource cs
  | '资' :: '料' :: cs => isSource cs
  | '图' :: '表' :: cs => isSource cs
  | '来' :: '源' :: c :: _ => c ∈ [':', '：', ' ']
  | _ => false

/-- `re.match(r"[图表]+[ 0-9:：]{2,}", text)` -/
def isNumberedMark (text : Text) : Bool :=
  let rest := text.dropWhile (· ∈ ['图', '表'])
  rest.length < text.length &&
    2 ≤ (rest.takeWhile fun c => c.isDigit || c ∈ [' ', ':', '：']).length

namespace LayoutBox

variable (b : LayoutBox)

def hasCaptionType : Bool := decide ("caption".toList <:+: b.layoutType)

/-- `TableStructureRecognizer.is_caption`. -/
def isCaption : Bool := isNumberedMark (Query.strip b.text) || b.hasCaptionType

/-- `lout_no`, which only boxes with a layout have. -/
def loutNo : Text := Nat.toDigits 10 b.page ++ '-' :: b.layoutNo.getD []

def isA (layoutType : String) : Bool := b.layoutNo.isSome && b.layoutType = layoutType.toList

/-- A box that goes to a table. -/
def isTable : Bool := b.isA "table" && !isSource b.text

/-- A box that goes to a figure. -/
def isFigure (needImage : Bool) : Bool := needImage && b.isA "figure" && !isSource b.text

/-- A box that the first loop leaves in the list. -/
def stays (needImage : Bool) : Bool := !b.isA "table" && !(needImage && b.isA "figure")

end LayoutBox

/-- `_y_dis` -/
def LayoutBox.yDis (a b : LayoutBox) : ℚ := (b.top + b.bottom - a.top - a.bottom) / 2

/-- `_x_dis` -/
def LayoutBox.xDis (a b : LayoutBox) : ℚ :=
  min (min |a.x1 - b.x0| |a.x0 - b.x1|) (|a.x0 + a.x1 - b.x0 - b.x1| / 2)

def xOverlapped (a b : LayoutBox) : Bool := !(decide (a.x1 < b.x0) || decide (b.x1 < a.x0))

abbrev BoxGroups := Dict Text (List LayoutBox)

/-! ## The first loop -/

structure Scan where
  boxes : List LayoutBox
  tables : BoxGroups
  figures : BoxGroups
  lastLoutNo : Text
  nomerge : List Text

/-- A caption bars the last table or figure from being joined with the next. -/
def Scan.bar (s : Scan) (b : LayoutBox) : Scan :=
  if b.isCaption ∨ b.layoutType ∈
      ["table caption", "title", "figure caption", "reference"].map String.toList then
    { s with nomerge := s.lastLoutNo :: s.nomerge }
  else s

def scanStep (needImage : Bool) (s : Scan) (b : LayoutBox) : Scan :=
  if b.layoutNo.isNone then { s with boxes := s.boxes ++ [b] }
  else
    let s := s.bar b
    if b.layoutType = "table".toList then
      if isSource b.text then s
      else { s with tables := s.tables.gather (b.loutNo, b), lastLoutNo := b.loutNo }
    else if needImage ∧ b.layoutType = "figure".toList then
      if isSource b.text then s
      else { s with figures := s.figures.gather (b.loutNo, b), lastLoutNo := b.loutNo }
    else { s with boxes := s.boxes ++ [b] }

def scan (needImage : Bool) (boxes : List LayoutBox) : Scan :=
  boxes.foldl (scanStep needImage) ⟨[], Dict.empty, Dict.empty, [], []⟩

/-! ## Tables on several pages -/

abbrev BoxGroup := Text × List LayoutBox

/-- The top and the left edge of the first box of a group. -/
def firstCorner (e : BoxGroup) : ℚ × ℚ := (e.2.head?.map fun b => (b.top, b.x0)).getD (0, 0)

def firstPage (e : BoxGroup) : ℕ := (e.2.head?.map LayoutBox.page).getD 0

/-- `tbls` -/
def sortedTables (tables : BoxGroups) : List BoxGroup :=
  tables.entries.mergeSort fun e e' =>
    (firstCorner e).1 < (firstCorner e').1 ||
      (firstCorner e).1 = (firstCorner e').1 && (firstCorner e).2 ≤ (firstCorner e').2

/-- A table is joined with the one in front of it. -/
def joins (meanHeight : List ℚ) (nomerge : List Text) (e₀ e : BoxGroup) : Bool :=
  match e₀.2.getLast?, e.2.head? with
  | some last, some first =>
      e₀.1 ∉ nomerge && firstPage e ≠ firstPage e₀ &&
        !decide ((firstPage e : ℤ) - firstPage e₀ > 1) &&
        !decide (last.yDis first > meanHeight.getD (firstPage e - 1) 0 * 23)
  | _, _ => false

def joinTables (meanHeight : List ℚ) (s : Scan) : BoxGroups :=
  absorbBack (joins meanHeight s.nomerge) (sortedTables s.tables) s.tables

/-! ## Captions -/

/-- The square of the distance of a caption from a box. -/
def captionDis (c b : LayoutBox) : ℚ :=
  let x := if xOverlapped c b then 0 else c.xDis b
  c.yDis b * c.yDis b + x * x

def farAway : ℚ := 1000000000

def nearerBox (c : LayoutBox) (best : Option Text × ℚ) (kb : Text × LayoutBox) : Option Text × ℚ :=
  if kb.2.hasCaptionType then best
  else if captionDis c kb.2 < best.2 then (some kb.1, captionDis c kb.2) else best

/-- `nearest(tbls)`: the key of the nearest group and its distance, with `none` for the empty
key. -/
def nearest (c : LayoutBox) (groups : BoxGroups) : Option Text × ℚ :=
  (groups.entries.flatMap fun e => e.2.map fun b => (e.1, b)).foldl (nearerBox c) (none, farAway)

structure Captioned where
  boxes : List LayoutBox
  tables : BoxGroups
  figures : BoxGroups

def captionStep (s : Captioned) (c : LayoutBox) : Captioned :=
  if !c.isCaption then { s with boxes := s.boxes ++ [c] }
  else
    match nearest c s.tables, nearest c s.figures with
    | (some tk, tv), (fk, fv) =>
        if tv < fv then { s with tables := s.tables.prepend tk c }
        else match fk with
          | some fk => { s with figures := s.figures.prepend fk c }
          | none => s
    | (none, _), (some fk, _) => { s with figures := s.figures.prepend fk c }
    | (none, _), (none, _) => s

/-! ## The result -/

/-- `local_page_index(page_number)` -/
def localPageIndex (pages pageFrom page : ℕ) : ℤ :=
  let idx : ℤ := if page > 0 then (page : ℤ) - 1 else 0
  if idx > (pages : ℤ) - 1 ∧ pageFrom ≠ 0 then (page : ℤ) - 1 - pageFrom else idx

/-- `cropout` finds a page of the group; the picture is left out. -/
def cropsOut (pages pageFrom : ℕ) (bxs : List LayoutBox) : Bool :=
  bxs.any fun b => 0 ≤ localPageIndex pages pageFrom b.page &&
    localPageIndex pages pageFrom b.page ≤ (pages : ℤ) - 1

/-- What is left in the list, and the boxes of each figure and table that is returned. -/
structure Extracted where
  boxes : List LayoutBox
  figures : List (List LayoutBox)
  tables : List (List LayoutBox)

/-- The groups after all loops. -/
def captioned (w : LoadedBoxes) (needImage : Bool) : Captioned :=
  let s := scan needImage w.boxes
  s.boxes.foldl captionStep ⟨[], joinTables w.meanHeight s, s.figures⟩

/-- `_extract_table_figure`. -/
def extractTableFigure (w : LoadedBoxes) (needImage : Bool) : Extracted where
  boxes := (captioned w needImage).boxes
  figures := ((captioned w needImage).figures.entries.map Prod.snd).filter fun bxs =>
    ['\n'].intercalate (bxs.map LayoutBox.text) ≠ [] && cropsOut w.pages w.pageFrom bxs
  tables := ((captioned w needImage).tables.entries.map Prod.snd).filter fun bxs =>
    !bxs.isEmpty && cropsOut w.pages w.pageFrom bxs

/-! ## What the first loop leaves -/

section First

variable {needImage : Bool} {b : LayoutBox} {boxes : List LayoutBox}

theorem not_figure_of_table (h : b.isA "table" = true) : b.isA "figure" = false := by
  simp only [LayoutBox.isA, Bool.and_eq_true, decide_eq_true_eq] at h
  simp [LayoutBox.isA, h.2]

@[simp]
theorem bar_boxes (s : Scan) (b : LayoutBox) : (s.bar b).boxes = s.boxes := by
  unfold Scan.bar
  split <;> rfl

@[simp]
theorem bar_tables (s : Scan) (b : LayoutBox) : (s.bar b).tables = s.tables := by
  unfold Scan.bar
  split <;> rfl

@[simp]
theorem bar_figures (s : Scan) (b : LayoutBox) : (s.bar b).figures = s.figures := by
  unfold Scan.bar
  split <;> rfl

/-- A step moves a box to the list, to the tables or to the figures, or drops it. -/
theorem scanStep_spec (needImage : Bool) (s : Scan) (b : LayoutBox) :
    (scanStep needImage s b).boxes = (if b.stays needImage then s.boxes ++ [b] else s.boxes) ∧
      (scanStep needImage s b).tables =
        (if b.isTable then s.tables.gather (b.loutNo, b) else s.tables) ∧
      (scanStep needImage s b).figures =
        (if b.isFigure needImage then s.figures.gather (b.loutNo, b) else s.figures) := by
  cases hno : b.layoutNo with
  | none => simp [scanStep, LayoutBox.stays, LayoutBox.isTable, LayoutBox.isFigure,
      LayoutBox.isA, hno]
  | some no =>
    by_cases htable : b.layoutType = "table".toList
    · cases hsource : isSource b.text <;>
        simp [scanStep, LayoutBox.stays, LayoutBox.isTable, LayoutBox.isFigure, LayoutBox.isA,
          hno, htable, hsource]
    · by_cases hfigure : b.layoutType = "figure".toList
      · cases hsource : isSource b.text <;> cases needImage <;>
          simp [scanStep, LayoutBox.stays, LayoutBox.isTable, LayoutBox.isFigure, LayoutBox.isA,
            hno, hfigure, hsource]
      · have htable' : ¬ b.layoutType = ['t', 'a', 'b', 'l', 'e'] := htable
        have hfigure' : ¬ b.layoutType = ['f', 'i', 'g', 'u', 'r', 'e'] := hfigure
        simp [scanStep, LayoutBox.stays, LayoutBox.isTable, LayoutBox.isFigure, LayoutBox.isA,
          hno, htable', hfigure']

/-- The groups of the boxes that a class has. -/
def groupsOf (p : LayoutBox → Bool) (boxes : List LayoutBox) : BoxGroups :=
  groupByKey ((boxes.filter p).map fun b => (b.loutNo, b))

theorem groupsOf_append_singleton (p : LayoutBox → Bool) (boxes : List LayoutBox)
    (b : LayoutBox) :
    groupsOf p (boxes ++ [b]) =
      if p b then (groupsOf p boxes).gather (b.loutNo, b) else groupsOf p boxes := by
  rw [groupsOf, List.filter_append]
  split
  · rename_i h
    rw [List.filter_cons_of_pos h, List.filter_nil, List.map_append, List.map_singleton,
      groupByKey_append_singleton, groupsOf]
  · rename_i h
    rw [List.filter_cons_of_neg h, List.filter_nil, List.append_nil, groupsOf]

theorem scan_spec (needImage : Bool) (boxes : List LayoutBox) :
    (scan needImage boxes).boxes = boxes.filter (·.stays needImage) ∧
      (scan needImage boxes).tables = groupsOf LayoutBox.isTable boxes ∧
      (scan needImage boxes).figures = groupsOf (·.isFigure needImage) boxes := by
  induction boxes using List.reverseRecOn with
  | nil => exact ⟨rfl, rfl, rfl⟩
  | append_singleton boxes b ih =>
    obtain ⟨hboxes, htables, hfigures⟩ := ih
    obtain ⟨hboxes', htables', hfigures'⟩ := scanStep_spec needImage (scan needImage boxes) b
    have hstep : scan needImage (boxes ++ [b]) = scanStep needImage (scan needImage boxes) b := by
      rw [scan, List.foldl_append]
      rfl
    rw [hstep, hboxes', htables', hfigures', groupsOf_append_singleton,
      groupsOf_append_singleton, hboxes, htables, hfigures, List.filter_append]
    refine ⟨?_, rfl, rfl⟩
    split
    · rename_i h
      simp [h]
    · rename_i h
      simp [h]

/-- A box that the first loop drops. -/
def LayoutBox.isNote (needImage : Bool) (b : LayoutBox) : Bool :=
  !b.stays needImage && isSource b.text

theorem filter_perm (needImage : Bool) (boxes : List LayoutBox) :
    (boxes.filter (·.stays needImage) ++ (boxes.filter LayoutBox.isTable ++
      (boxes.filter (·.isFigure needImage) ++ boxes.filter (·.isNote needImage)))).Perm boxes := by
  -- The rest of one class is cut by the next.
  have hcut : ∀ p q : LayoutBox → Bool, (∀ b, q b = true → p b = true) →
      (boxes.filter p).Perm (boxes.filter q ++ boxes.filter fun b => p b && !q b) := by
    intro p q hpq
    have h := List.filter_append_perm q (boxes.filter p)
    rw [List.filter_filter, List.filter_filter] at h
    have hq : (fun b => q b && p b) = q := by
      funext b
      cases hb : q b with
      | false => rfl
      | true => simp [hpq b hb]
    have hnot : (fun b => !q b && p b) = fun b => p b && !q b := by
      funext b
      exact Bool.and_comm _ _
    rw [hq, hnot] at h
    exact h.symm
  have hclasses : ∀ b : LayoutBox, (b.isTable = true → b.stays needImage = false) ∧
      (b.isFigure needImage = true → b.stays needImage = false ∧ b.isTable = false) ∧
      b.isNote needImage = ((!b.stays needImage && !b.isTable) && !b.isFigure needImage) := by
    intro b
    have hexcl := @not_figure_of_table b
    simp only [LayoutBox.isTable, LayoutBox.isFigure, LayoutBox.stays, LayoutBox.isNote]
    revert hexcl
    cases b.isA "table" <;> cases b.isA "figure" <;> cases needImage <;>
      cases isSource b.text <;> simp
  have hfirst := (List.filter_append_perm (fun b => b.stays needImage) boxes).symm
  have htables := hcut (fun b => !b.stays needImage) LayoutBox.isTable fun b hb => by
    simp [(hclasses b).1 hb]
  have hfigures := hcut (fun b => !b.stays needImage && !b.isTable) (·.isFigure needImage)
    fun b hb => by simp [(hclasses b).2.1 hb]
  have hnotes : (fun b : LayoutBox => b.isNote needImage) =
      fun b => (!b.stays needImage && !b.isTable) && !b.isFigure needImage := by
    funext b
    exact (hclasses b).2.2
  rw [hnotes]
  exact (hfirst.trans ((htables.trans (hfigures.append_left _)).append_left _)).symm

end First

/-! ## Where captions go -/

/-- A box that a caption can be put to. -/
def near (c b : LayoutBox) : Bool := !b.hasCaptionType && decide (captionDis c b < farAway)

/-- The captions that find no box to be put to, among those of the groups and the captions that
were put to one before. -/
def lostCaptions (targets : List LayoutBox) : List LayoutBox → List LayoutBox
  | [] => []
  | c :: cs =>
      if !c.isCaption then lostCaptions targets cs
      else if targets.any (near c) then lostCaptions (c :: targets) cs
      else c :: lostCaptions targets cs

section Captions

variable {c : LayoutBox} {groups : BoxGroups} {best : Option Text × ℚ}

/-- What has been found: nothing, or a group nearer than the bound. -/
inductive Found (groups : BoxGroups) : Option Text × ℚ → Prop where
  | nothing : Found groups (none, farAway)
  | group {k : Text} {dis : ℚ} (mem : k ∈ groups) (lt : dis < farAway) : Found groups (some k, dis)

theorem found_nearerBox (h : Found groups best) {kb : Text × LayoutBox} (hkb : kb.1 ∈ groups) :
    Found groups (nearerBox c best kb) ∧
      (nearerBox c best kb).1.isSome = (best.1.isSome || near c kb.2) := by
  rw [nearerBox]
  split
  · rename_i hcaption
    exact ⟨h, by simp [near, hcaption]⟩
  · rename_i hcaption
    cases h with
    | nothing =>
      split
      · rename_i hdis
        exact ⟨.group hkb hdis, by simp [near, hcaption, hdis]⟩
      · rename_i hdis
        exact ⟨.nothing, by simp [near, hdis]⟩
    | group hk hfar =>
      split
      · rename_i hdis
        exact ⟨.group hkb (hdis.trans hfar), by simp⟩
      · exact ⟨.group hk hfar, by simp⟩

theorem found_nearest (c : LayoutBox) (groups : BoxGroups) :
    Found groups (nearest c groups) ∧
      (nearest c groups).1.isSome = groups.members.any (near c) := by
  have hfold : ∀ (l : List (Text × LayoutBox)) (best : Option Text × ℚ), Found groups best →
      (∀ kb ∈ l, kb.1 ∈ groups) → Found groups (l.foldl (nearerBox c) best) ∧
        (l.foldl (nearerBox c) best).1.isSome =
          (best.1.isSome || l.any fun kb => near c kb.2) := by
    intro l
    induction l with
    | nil => exact fun best h _ => ⟨h, by simp⟩
    | cons kb l ih =>
      intro best h hl
      obtain ⟨hfound, hsome⟩ := found_nearerBox (c := c) h (hl kb List.mem_cons_self)
      obtain ⟨hfound', hsome'⟩ := ih _ hfound fun kb hkb => hl kb (List.mem_cons_of_mem _ hkb)
      refine ⟨hfound', ?_⟩
      rw [List.foldl_cons, hsome', hsome, List.any_cons, Bool.or_assoc]
  obtain ⟨hfound, hsome⟩ := hfold (groups.entries.flatMap fun e => e.2.map fun b => (e.1, b))
    (none, farAway) .nothing fun kb hkb => by
      obtain ⟨e, he, hkb⟩ := List.mem_flatMap.mp hkb
      obtain ⟨b, -, rfl⟩ := List.mem_map.mp hkb
      exact Dict.mem_keys_iff_exists.mpr ⟨e.2, he⟩
  refine ⟨hfound, hsome.trans ?_⟩
  simp [Dict.members, List.any_flatMap, List.any_map, Function.comp_def]

/-- A caption goes to a table or a figure, if one of their boxes is near, or is lost. -/
theorem captionStep_cases (s : Captioned) (hc : c.isCaption = true) :
    ((s.tables.members ++ s.figures.members).any (near c) = true ∧
      ((∃ k ∈ s.tables, captionStep s c = { s with tables := s.tables.prepend k c }) ∨
        ∃ k ∈ s.figures, captionStep s c = { s with figures := s.figures.prepend k c })) ∨
    ((s.tables.members ++ s.figures.members).any (near c) = false ∧ captionStep s c = s) := by
  obtain ⟨htable, hsomet⟩ := found_nearest c s.tables
  obtain ⟨hfigure, hsomef⟩ := found_nearest c s.figures
  rw [List.any_append, ← hsomet, ← hsomef]
  rw [captionStep, if_neg (by simp [hc])]
  generalize nearest c s.tables = t at htable
  generalize nearest c s.figures = f at hfigure
  cases htable with
  | nothing =>
    cases hfigure with
    | nothing => exact .inr ⟨rfl, rfl⟩
    | group hk hlt => exact .inl ⟨rfl, .inr ⟨_, hk, rfl⟩⟩
  | group htk htlt =>
    refine .inl ⟨rfl, ?_⟩
    cases hfigure with
    | nothing => exact .inl ⟨_, htk, if_pos htlt⟩
    | group hk hlt =>
      simp only
      split
      · exact .inl ⟨_, htk, rfl⟩
      · exact .inr ⟨_, hk, rfl⟩

/-- The boxes that the loop over the captions holds. -/
def Captioned.members (s : Captioned) : List LayoutBox := s.tables.members ++ s.figures.members

theorem any_near_perm {targets targets' : List LayoutBox} (h : targets.Perm targets') :
    targets.any (near c) = targets'.any (near c) := by
  rw [Bool.eq_iff_iff, List.any_eq_true, List.any_eq_true]
  exact exists_congr fun b => and_congr_left fun _ => h.mem_iff

/-- No box gets lost in the loop but the captions that find no group. -/
theorem captionLoop_perm (cs : List LayoutBox) {targets : List LayoutBox} {s : Captioned}
    (h : s.members.Perm targets) :
    ((cs.foldl captionStep s).boxes ++ ((cs.foldl captionStep s).members ++
      lostCaptions targets cs)).Perm (s.boxes ++ (s.members ++ cs)) := by
  induction cs generalizing s targets with
  | nil => simp [lostCaptions]
  | cons c cs ih =>
    rw [List.foldl_cons, lostCaptions]
    cases hc : c.isCaption with
    | false =>
      have hstep : captionStep s c = { s with boxes := s.boxes ++ [c] } := by
        rw [captionStep, if_pos (by simp [hc])]
      rw [hstep]
      refine (ih (s := { s with boxes := s.boxes ++ [c] }) h).trans ?_
      have hmove : (c :: (s.members ++ cs)).Perm (s.members ++ c :: cs) := List.perm_middle.symm
      rw [List.append_assoc]
      exact hmove.append_left _
    | true =>
      rcases captionStep_cases s hc with ⟨hnear, hput⟩ | ⟨hfar, hstep⟩
      · have hmembers : (captionStep s c).boxes = s.boxes ∧
            (captionStep s c).members.Perm (c :: s.members) := by
          rcases hput with ⟨k, hk, hstep⟩ | ⟨k, hk, hstep⟩
          · rw [hstep]
            exact ⟨rfl, (members_prepend hk c).append_right _⟩
          · rw [hstep]
            exact ⟨rfl, ((members_prepend hk c).append_left _).trans List.perm_middle⟩
        rw [← Captioned.members, any_near_perm h] at hnear
        have hrest := ih (hmembers.2.trans (h.cons c))
        rw [hmembers.1] at hrest
        simp only [Bool.not_true, Bool.false_eq_true, if_false, hnear, if_true]
        refine hrest.trans (.append_left _ ?_)
        exact (hmembers.2.append_right cs).trans List.perm_middle.symm
      · rw [← Captioned.members, any_near_perm h] at hfar
        simp only [Bool.not_true, Bool.false_eq_true, if_false, hfar]
        rw [hstep]
        have hrest := (ih h).cons c
        refine List.Perm.trans ?_ (hrest.trans ?_)
        · rw [← List.append_assoc, ← List.append_assoc]
          exact List.perm_middle
        · rw [← List.append_assoc, ← List.append_assoc]
          exact List.perm_middle.symm

/-- A table keeps its boxes and gets captions in front of them. -/
theorem captionLoop_tables (cs : List LayoutBox) (s : Captioned) :
    List.Forall₂ (fun e e' => ∃ caps, e'.2 = caps ++ e.2 ∧ ∀ c ∈ caps, c ∈ cs)
      s.tables.entries (cs.foldl captionStep s).tables.entries := by
  induction cs generalizing s with
  | nil => exact List.forall₂_same.mpr fun e _ => ⟨[], rfl, by simp⟩
  | cons c cs ih =>
    have hstep : List.Forall₂ (fun e e' : BoxGroup => e' = e ∨ e'.2 = c :: e.2)
        s.tables.entries (captionStep s c).tables.entries := by
      have hsame : List.Forall₂ (fun e e' : BoxGroup => e' = e ∨ e'.2 = c :: e.2)
          s.tables.entries s.tables.entries :=
        List.forall₂_same.mpr fun e _ => .inl rfl
      cases hc : c.isCaption with
      | false =>
        rw [captionStep, if_pos (by simp [hc])]
        exact hsame
      | true =>
        rcases captionStep_cases s hc with ⟨-, ⟨k, hk, heq⟩ | ⟨k, -, heq⟩⟩ | ⟨-, heq⟩
        · rw [heq]
          simp only [entries_prepend hk]
          refine List.forall₂_map_right_iff.mpr (List.forall₂_same.mpr fun e _ => ?_)
          split
          · exact .inr rfl
          · exact .inl rfl
        · rw [heq]
          exact hsame
        · rw [heq]
          exact hsame
    rw [List.foldl_cons]
    refine forall₂_trans hstep (ih _) ?_
    rintro e e' e'' hstep ⟨caps, he'', hcaps⟩
    rcases hstep with rfl | he'
    · exact ⟨caps, he'', fun c hc => List.mem_cons_of_mem _ (hcaps c hc)⟩
    · refine ⟨caps ++ [c], by rw [he'', he', List.append_assoc]; rfl, ?_⟩
      intro c' hc'
      rcases List.mem_append.mp hc' with hc' | hc'
      · exact List.mem_cons_of_mem _ (hcaps c' hc')
      · exact List.mem_cons.mpr (.inl (List.mem_singleton.mp hc'))

end Captions

/-! ## No text is lost -/

/-- The tables of the first loop, in the order in which they are joined. -/
def scannedTables (w : LoadedBoxes) : List BoxGroup := sortedTables (scan true w.boxes).tables

/-- A table begins on the page behind that on which another begins. -/
def NextPage (e e' : BoxGroup) : Prop := firstPage e' = firstPage e + 1

/-- Each box with a text that is no note of a source is left in the list or is in one of what is
returned, and a table that is returned is made of tables that follow each other page by page. -/
structure LosesNoText (w : LoadedBoxes) : Prop where
  placed : ∃ dropped : List LayoutBox,
    ((extractTableFigure w true).boxes ++ ((extractTableFigure w true).tables.flatten ++
      ((extractTableFigure w true).figures.flatten ++ dropped))).Perm w.boxes ∧
    ∀ b ∈ dropped, b.text = [] ∨ isSource b.text = true
  joined : ∀ bxs ∈ (extractTableFigure w true).tables, ∃ run, run <:+: scannedTables w ∧
    run.IsChain NextPage ∧ bxs.filter LayoutBox.isTable = run.flatMap Prod.snd

/-- Each caption with a text finds a box to be put to, and no table goes on upon a page in front
of its own. -/
structure Followed (w : LoadedBoxes) : Prop where
  captions : ∀ c ∈ lostCaptions
      (w.boxes.filter LayoutBox.isTable ++ w.boxes.filter (·.isFigure true))
      (w.boxes.filter (·.stays true)), c.text = [] ∨ isSource c.text = true
  pages : (scannedTables w).IsChain fun e e' =>
    joins w.meanHeight (scan true w.boxes).nomerge e e' = true → firstPage e ≤ firstPage e'

section Whole

variable {w : LoadedBoxes} {bxs : List LayoutBox}

theorem nextPage_of_joins {meanHeight : List ℚ} {nomerge : List Text} {e e' : BoxGroup}
    (h : joins meanHeight nomerge e e' = true) : firstPage e ≤ firstPage e' ↔ NextPage e e' := by
  have hpages : firstPage e' ≠ firstPage e ∧ ¬ ((firstPage e' : ℤ) - firstPage e > 1) := by
    unfold joins at h
    split at h
    · simp only [Bool.and_eq_true, decide_eq_true_eq, Bool.not_eq_true', decide_eq_false_iff_not]
        at h
      exact ⟨h.1.1.2, h.1.2⟩
    · cases h
  rw [NextPage]
  omega

/-- The pictures of a group are cut from its pages, which are loaded. -/
theorem cropsOut_of_mem (h : ∀ b ∈ bxs, b ∈ w.boxes) (hne : bxs ≠ []) :
    cropsOut w.pages w.pageFrom bxs = true := by
  obtain ⟨b, bs, rfl⟩ := List.exists_cons_of_ne_nil hne
  have hb := h b List.mem_cons_self
  have hpos := w.page_pos b hb
  have hle := w.page_le b hb
  have hidx : localPageIndex w.pages w.pageFrom b.page = (b.page : ℤ) - 1 := by
    rw [localPageIndex]
    simp only [gt_iff_lt, hpos, if_true]
    exact if_neg fun hout => absurd hout.1 (by omega)
  rw [cropsOut, List.any_cons, hidx]
  have hin : (0 ≤ (b.page : ℤ) - 1 && (b.page : ℤ) - 1 ≤ (w.pages : ℤ) - 1) = true := by
    simp only [Bool.and_eq_true, decide_eq_true_eq]
    omega
  rw [hin, Bool.true_or]

/-- The members of the groups that are returned, and of those that are not. -/
theorem members_perm_filter (d : BoxGroups) (p : List LayoutBox → Bool) :
    d.members.Perm (((d.entries.map Prod.snd).filter p).flatten ++
      ((d.entries.map Prod.snd).filter fun bxs => !p bxs).flatten) := by
  rw [Dict.members, List.flatMap_def, ← List.flatten_append]
  exact (List.filter_append_perm p _).symm.flatten

theorem sortedTables_perm (tables : BoxGroups) : (sortedTables tables).Perm tables.entries :=
  List.mergeSort_perm _ _

theorem joinTables_members (w : LoadedBoxes) :
    (joinTables w.meanHeight (scan true w.boxes)).members.Perm
      (w.boxes.filter LayoutBox.isTable) := by
  refine (members_absorbBack _ (sortedTables_perm _).symm).trans ?_
  rw [(scan_spec true w.boxes).2.1]
  exact members_groupBy LayoutBox.loutNo _

theorem captioned_eq (w : LoadedBoxes) :
    captioned w true = (w.boxes.filter (·.stays true)).foldl captionStep
      ⟨[], joinTables w.meanHeight (scan true w.boxes), (scan true w.boxes).figures⟩ := by
  rw [captioned, (scan_spec true w.boxes).1]

/-- All boxes, by where they are after the loops. -/
theorem captioned_perm (w : LoadedBoxes) :
    ((captioned w true).boxes ++ ((captioned w true).members ++ (lostCaptions
      (w.boxes.filter LayoutBox.isTable ++ w.boxes.filter (·.isFigure true))
      (w.boxes.filter (·.stays true)) ++ w.boxes.filter (·.isNote true)))).Perm w.boxes := by
  have hfigure : (scan true w.boxes).figures.members.Perm (w.boxes.filter (·.isFigure true)) := by
    rw [(scan_spec true w.boxes).2.2]
    exact members_groupBy LayoutBox.loutNo _
  have htargets := (joinTables_members w).append hfigure
  have hloop := captionLoop_perm (w.boxes.filter (·.stays true)) (s := ⟨[],
    joinTables w.meanHeight (scan true w.boxes), (scan true w.boxes).figures⟩) htargets
  rw [← captioned_eq] at hloop
  have hall := hloop.trans ((htargets.append_right _).trans List.perm_append_comm)
  have hnotes := (hall.append_right (w.boxes.filter (·.isNote true))).trans
    (by simpa only [List.append_assoc] using filter_perm true w.boxes)
  simpa only [List.append_assoc] using hnotes

/-- What is not returned has no text. -/
theorem text_of_hidden {d : BoxGroups} {p : List LayoutBox → Bool}
    (hp : ∀ bxs ∈ d.entries.map Prod.snd, p bxs = false → ∀ b ∈ bxs, b.text = []) {b : LayoutBox}
    (hb : b ∈ ((d.entries.map Prod.snd).filter fun bxs => !p bxs).flatten) : b.text = [] := by
  obtain ⟨bxs, hbxs, hb⟩ := List.mem_flatten.mp hb
  obtain ⟨hmem, hnot⟩ := List.mem_filter.mp hbxs
  exact hp bxs hmem (by simpa using hnot) b hb

theorem mem_boxes_of_group {e : BoxGroup} {b : LayoutBox}
    (he : e ∈ (captioned w true).tables.entries ∨ e ∈ (captioned w true).figures.entries)
    (hb : b ∈ e.2) : b ∈ w.boxes := by
  refine (captioned_perm w).mem_iff.mp (List.mem_append_right _ (List.mem_append_left _ ?_))
  rcases he with he | he
  · exact List.mem_append_left _ (List.mem_flatMap.mpr ⟨e, he, hb⟩)
  · exact List.mem_append_right _ (List.mem_flatMap.mpr ⟨e, he, hb⟩)

theorem text_eq_nil_of_intercalate (h : ['\n'].intercalate (bxs.map LayoutBox.text) = [])
    {b : LayoutBox} (hb : b ∈ bxs) : b.text = [] := by
  by_contra hne
  obtain ⟨c, cs, hc⟩ := List.exists_cons_of_ne_nil hne
  have hmem : c ∈ ['\n'].intercalate (bxs.map LayoutBox.text) :=
    mem_intercalate_of_mem _ (List.mem_map_of_mem hb) (hc ▸ List.mem_cons_self)
  rw [h] at hmem
  cases hmem

/-- What the boxes are after the extraction, and what is dropped. -/
theorem extracted_perm (w : LoadedBoxes) :
    ∃ hidden : List LayoutBox, (∀ b ∈ hidden, b.text = []) ∧
      ((extractTableFigure w true).boxes ++ ((extractTableFigure w true).tables.flatten ++
        ((extractTableFigure w true).figures.flatten ++ (hidden ++ (lostCaptions
          (w.boxes.filter LayoutBox.isTable ++ w.boxes.filter (·.isFigure true))
          (w.boxes.filter (·.stays true)) ++ w.boxes.filter (·.isNote true)))))).Perm w.boxes := by
  let pt : List LayoutBox → Bool := fun bxs => !bxs.isEmpty && cropsOut w.pages w.pageFrom bxs
  let pf : List LayoutBox → Bool := fun bxs =>
    ['\n'].intercalate (bxs.map LayoutBox.text) ≠ [] && cropsOut w.pages w.pageFrom bxs
  have htables := members_perm_filter (captioned w true).tables pt
  have hfigures := members_perm_filter (captioned w true).figures pf
  refine ⟨(((captioned w true).tables.entries.map Prod.snd).filter fun bxs => !pt bxs).flatten ++
    (((captioned w true).figures.entries.map Prod.snd).filter fun bxs => !pf bxs).flatten, ?_, ?_⟩
  · intro b hb
    rcases List.mem_append.mp hb with hb | hb
    · refine text_of_hidden (p := pt) ?_ hb
      intro bxs hbxs hfalse b hb
      obtain ⟨e, he, rfl⟩ := List.mem_map.mp hbxs
      have hne : e.2 ≠ [] := List.ne_nil_of_mem hb
      have hcrops := cropsOut_of_mem (w := w) (fun b hb => mem_boxes_of_group (.inl he) hb) hne
      simp [pt, hcrops, hne] at hfalse
    · refine text_of_hidden (p := pf) ?_ hb
      intro bxs hbxs hfalse b hb
      obtain ⟨e, he, rfl⟩ := List.mem_map.mp hbxs
      have hne : e.2 ≠ [] := List.ne_nil_of_mem hb
      have hcrops := cropsOut_of_mem (w := w) (fun b hb => mem_boxes_of_group (.inr he) hb) hne
      refine text_eq_nil_of_intercalate ?_ hb
      simpa [pf, hcrops] using hfalse
  · have hwhole := captioned_perm w
    refine List.Perm.trans (.append_left _ ?_) hwhole
    have hmembers := htables.append hfigures
    rw [Captioned.members]
    refine List.Perm.trans ?_ (hmembers.symm.append_right _)
    simp only [List.append_assoc]
    exact (List.perm_append_comm_assoc _ _ _).append_left _

theorem placed_iff (w : LoadedBoxes) :
    (∃ dropped : List LayoutBox,
      ((extractTableFigure w true).boxes ++ ((extractTableFigure w true).tables.flatten ++
        ((extractTableFigure w true).figures.flatten ++ dropped))).Perm w.boxes ∧
      ∀ b ∈ dropped, b.text = [] ∨ isSource b.text = true) ↔
    ∀ c ∈ lostCaptions (w.boxes.filter LayoutBox.isTable ++ w.boxes.filter (·.isFigure true))
      (w.boxes.filter (·.stays true)), c.text = [] ∨ isSource c.text = true := by
  obtain ⟨hidden, hhidden, hperm⟩ := extracted_perm w
  constructor
  · rintro ⟨dropped, hdropped, htext⟩ c hc
    -- What is dropped is known by what is not.
    have heq := hdropped.trans hperm.symm
    rw [List.perm_append_left_iff, List.perm_append_left_iff, List.perm_append_left_iff] at heq
    exact htext c (heq.mem_iff.mpr
      (List.mem_append_right _ (List.mem_append_left _ hc)))
  · intro hlost
    refine ⟨_, hperm, fun b hb => ?_⟩
    rcases List.mem_append.mp hb with hb | hb
    · exact .inl (hhidden b hb)
    · rcases List.mem_append.mp hb with hb | hb
      · exact hlost b hb
      · have hnote := (List.mem_filter.mp hb).2
        rw [LayoutBox.isNote, Bool.and_eq_true] at hnote
        exact .inr hnote.2

theorem mem_scannedTables {e : BoxGroup} (he : e ∈ scannedTables w) :
    e ∈ (groupsOf LayoutBox.isTable w.boxes).entries := by
  rw [scannedTables, sortedTables, (scan_spec true w.boxes).2.1] at he
  exact (List.mergeSort_perm _ _).mem_iff.mp he

/-- The runs of tables that are joined. -/
def tableRuns (w : LoadedBoxes) : List (List BoxGroup) :=
  (scannedTables w).splitBy (joins w.meanHeight (scan true w.boxes).nomerge)

theorem mem_of_mem_run {run : List BoxGroup} (hrun : run ∈ tableRuns w) {e : BoxGroup}
    (he : e ∈ run) : e ∈ (groupsOf LayoutBox.isTable w.boxes).entries := by
  refine mem_scannedTables ?_
  rw [← List.flatten_splitBy (joins w.meanHeight (scan true w.boxes).nomerge) (scannedTables w)]
  exact List.mem_flatten_of_mem hrun he

theorem filter_isTable_of_run {run : List BoxGroup} {caps : List LayoutBox}
    (hrun : ∀ e ∈ run, e ∈ (groupsOf LayoutBox.isTable w.boxes).entries)
    (hcaps : ∀ c ∈ caps, c ∈ w.boxes.filter (·.stays true)) :
    (caps ++ run.flatMap Prod.snd).filter LayoutBox.isTable = run.flatMap Prod.snd := by
  have hnone : caps.filter LayoutBox.isTable = [] := by
    refine List.filter_eq_nil_iff.mpr fun c hc => ?_
    have hstays := (List.mem_filter.mp (hcaps c hc)).2
    simp only [LayoutBox.stays, Bool.and_eq_true, Bool.not_eq_true'] at hstays
    simp [LayoutBox.isTable, hstays.1]
  rw [List.filter_append, hnone, List.nil_append]
  refine List.filter_eq_self.mpr fun b hb => ?_
  obtain ⟨e, he, hb⟩ := List.mem_flatMap.mp hb
  have hgroup := (mem_groupBy (f := LayoutBox.loutNo) (hrun e he)).1
  rw [hgroup] at hb
  exact (List.mem_filter.mp (List.mem_filter.mp hb).1).2

/-- What is returned as a table is a run of joined tables with captions in front, and every run
is returned. -/
theorem mem_tables_iff (w : LoadedBoxes) :
    (∀ bxs ∈ (extractTableFigure w true).tables, ∃ run ∈ tableRuns w,
      bxs.filter LayoutBox.isTable = run.flatMap Prod.snd) ∧
    ∀ run ∈ tableRuns w, ∃ bxs ∈ (extractTableFigure w true).tables,
      bxs.filter LayoutBox.isTable = run.flatMap Prod.snd := by
  have hjoined : (joinTables w.meanHeight (scan true w.boxes)).entries.Perm
      ((tableRuns w).filterMap joined) :=
    entries_absorbBack _ [] (sortedTables_perm _).symm
  have hloop := captionLoop_tables (w.boxes.filter (·.stays true))
    ⟨[], joinTables w.meanHeight (scan true w.boxes), (scan true w.boxes).figures⟩
  rw [← captioned_eq] at hloop
  constructor
  · intro bxs hbxs
    obtain ⟨e', he', rfl⟩ := List.mem_map.mp (List.mem_filter.mp hbxs).1
    obtain ⟨e, he, caps, hcaps, hmem⟩ := exists_of_forall₂ hloop he'
    obtain ⟨run, hrun, heq⟩ := List.mem_filterMap.mp (hjoined.mem_iff.mp he)
    refine ⟨run, hrun, ?_⟩
    cases run with
    | nil => cases heq
    | cons first run =>
      obtain rfl := Option.some.inj heq
      rw [hcaps]
      exact filter_isTable_of_run (fun e he => mem_of_mem_run hrun he) hmem
  · intro run hrun
    cases run with
    | nil => exact absurd hrun (List.nil_notMem_splitBy _ _)
    | cons first run =>
      have he := hjoined.mem_iff.mpr (List.mem_filterMap.mpr ⟨_, hrun, rfl⟩)
      obtain ⟨e', he', caps, hcaps, hmem⟩ := exists_of_forall₂ hloop.flip he
      have hfilter := filter_isTable_of_run (fun e he => mem_of_mem_run hrun he) hmem
      rw [← hcaps] at hfilter
      refine ⟨e'.2, List.mem_filter.mpr ⟨List.mem_map_of_mem he', ?_⟩, hfilter⟩
      have hfirst := (mem_groupBy (f := LayoutBox.loutNo)
        (mem_of_mem_run hrun List.mem_cons_self)).2
      have hne : e'.2 ≠ [] := by
        intro hnil
        rw [hnil] at hfilter
        simp [hfirst] at hfilter
      simpa [hne] using cropsOut_of_mem (w := w) (fun b hb => mem_boxes_of_group (.inl he') hb) hne

/-- Exactly when no text is lost. -/
theorem losesNoText_iff (w : LoadedBoxes) : LosesNoText w ↔ Followed w := by
  obtain ⟨hruns, hreturned⟩ := mem_tables_iff w
  have hpages : Followed w ↔ (∀ c ∈ lostCaptions
      (w.boxes.filter LayoutBox.isTable ++ w.boxes.filter (·.isFigure true))
      (w.boxes.filter (·.stays true)), c.text = [] ∨ isSource c.text = true) ∧
      ∀ run ∈ tableRuns w, run.IsChain NextPage := by
    rw [tableRuns, forall_isChain_splitBy]
    have himp : ∀ e e' : BoxGroup,
        (joins w.meanHeight (scan true w.boxes).nomerge e e' = true → firstPage e ≤ firstPage e') ↔
          (joins w.meanHeight (scan true w.boxes).nomerge e e' = true → NextPage e e') :=
      fun e e' => imp_congr_right fun h => nextPage_of_joins h
    simp only [← himp]
    exact ⟨fun h => ⟨h.captions, h.pages⟩, fun h => ⟨h.1, h.2⟩⟩
  rw [hpages, ← placed_iff]
  constructor
  · intro h
    refine ⟨h.placed, fun run hrun => ?_⟩
    obtain ⟨bxs, hbxs, hrunBoxes⟩ := hreturned run hrun
    obtain ⟨run', hpart, hchain, hrunBoxes'⟩ := h.joined bxs hbxs
    have heq : run = run' := eq_of_flatMap_groupBy (f := LayoutBox.loutNo)
      (fun e he => mem_of_mem_run hrun he)
      (fun e he => mem_scannedTables (hpart.subset he)) (hrunBoxes.symm.trans hrunBoxes')
    exact heq ▸ hchain
  · rintro ⟨hplaced, hchains⟩
    refine ⟨hplaced, fun bxs hbxs => ?_⟩
    obtain ⟨run, hrun, hrunBoxes⟩ := hruns bxs hbxs
    refine ⟨run, ?_, hchains run hrun, hrunBoxes⟩
    have hpart := List.infix_of_mem_flatten hrun
    rwa [tableRuns, List.flatten_splitBy] at hpart

end Whole

/-- A page with nothing on it but the caption of a table. -/
def captionAlone : LoadedBoxes where
  pages := 1
  pageFrom := 0
  meanHeight := [10]
  boxes := [⟨1, 10, 50, 10, 20, "表 1：".toList, [], none⟩]
  page_pos := by simp
  page_le := by simp

/-- The caption is popped, and there is no group to put it to. -/
theorem not_losesNoText_captionAlone : ¬ LosesNoText captionAlone := by
  intro h
  have hlost : captionAlone.boxes.head (by decide) ∈ lostCaptions
      (captionAlone.boxes.filter LayoutBox.isTable ++
        captionAlone.boxes.filter (·.isFigure true))
      (captionAlone.boxes.filter (·.stays true)) := List.mem_cons_self
  exact absurd ((placed_iff captionAlone).mp h.placed _ hlost) (by decide)

end RagFlow.Vision
