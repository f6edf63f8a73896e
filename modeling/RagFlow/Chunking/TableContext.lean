/-
# The text around a table

`append_context2table_image4pdf` puts before each table of a PDF the text above it, and behind it
the text below, up to a number of tokens in each direction. The blocks of text are kept by page. A
loop walks over the blocks from the table's first page on in search of the place of the table; where
it does not find one, the pages around are used. Whether it has found one is read off afterwards
from whether the table's text has changed.

The file shows when the contexts that are returned stay in step with the tables: a table whose place
was found gets two of them if there is no text around it. The numbers in the positions are of any
type with a comparison, and how a number is read from a tag is a parameter.
-/

import RagFlow.Chunking.Sentences
import RagFlow.Math.Except
import RagFlow.Math.Separator
import RagFlow.Query.Text
import Mathlib.Data.Int.Order.Basic

namespace RagFlow.Chunking

open RagFlow.Math
open RagFlow.Query (strip)

/-! ## Positions -/

structure Box (P : Type) where
  left : P
  right : P
  top : P
  bottom : P

/-- A page number, or several of them. -/
inductive Pages
  | one (page : ℤ)
  | several (pages : List ℤ)

def Pages.first : Pages → ℤ
  | one page => page
  | several pages => pages.headD 0

/-- The length of `@@[0-9-]+\t[0-9.\t]+##` at the head of a text. -/
def positionTag : Text → ℕ
  | '@' :: '@' :: cs =>
    let pn := cs.takeWhile fun c => c.isDigit || c == '-'
    match cs.drop pn.length with
    | '\t' :: rest =>
      let body := rest.takeWhile fun c => c.isDigit || c == '.' || c == '\t'
      if pn ≠ [] ∧ body ≠ [] ∧ ['#', '#'] <+: rest.drop body.length then
        pn.length + body.length + 5
      else 0
    | _ => 0
  | _ => 0

/-- The matches among the pieces of a split. -/
def matchesOf : List Text → List Text
  | _ :: found :: rest => found :: matchesOf rest
  | _ => []

/-- `int` of a string of digits. -/
def readInt (t : Text) : Except String ℤ :=
  if t = [] then .error "ValueError"
  else .ok (t.foldl (fun n c => 10 * n + (c.toNat - '0'.toNat)) 0 : ℕ)

section Positions

variable {P : Type} (float : Text → Option P)

def readFloat (t : Text) : Except String P :=
  match float t with
  | none => .error "ValueError"
  | some x => .ok x

def readTag (tag : Text) : Except String (Pages × Box P) :=
  let tag := (tag.dropWhile (· = '#')).rdropWhile (· = '#')
  let tag := (tag.dropWhile (· = '@')).rdropWhile (· = '@')
  match splitAtSep ['\t'] tag with
  | [pn, left, right, top, bottom] => do
      let left ← readFloat float left
      let right ← readFloat float right
      let top ← readFloat float top
      let bottom ← readFloat float bottom
      let pages ← (splitAtSep ['-'] pn).mapM fun p => (readInt p).map (· - 1)
      return (.several pages, ⟨left, right, top, bottom⟩)
  | _ => .error "ValueError"

def extractPositions (txt : Text) : Except String (List (Pages × Box P)) :=
  (matchesOf (splitMatches positionTag txt)).mapM (readTag float)

end Positions

/-! ## Sections and their blocks -/

/-- A section: a text, or one with a position tag, with positions, or with something else. -/
inductive PdfSection (P : Type)
  | plain (txt : Text)
  | tagged (txt poss : Text)
  | placed (txt : Text) (poss : List (Pages × Box P))
  | other (txt : Text)

structure Block (P : Type) where
  box : Box P
  txt : Text

def hasMark (t : Text) : Bool := ['@', '@'] <:+: t

/-- The text without its position tags. -/
def untagged (txt : Text) : Text :=
  if hasMark txt then strip (deleteFrom positionTag 0 txt) else txt

section Buckets

variable {P : Type} (float : Text → Option P)

/-- What a section adds to the pages. -/
def PdfSection.blocks (item : PdfSection P) : Except String (List (ℤ × Block P)) := do
  let fromTag (txt poss : Text) :=
    extractPositions float (if !hasMark poss && hasMark txt then txt else poss)
  let (txt, poss) ← match item with
    | plain txt => do pure (txt, ← fromTag txt [])
    | tagged txt poss => do pure (txt, ← fromTag txt poss)
    | placed txt poss => pure (txt, poss)
    | other txt => do pure (txt, ← if hasMark txt then extractPositions float txt else pure [])
  return poss.map fun (pages, box) => (pages.first, ⟨box, untagged txt⟩)

/-- `page_bucket`: the blocks with their pages, in the order in which they are appended. -/
def pageBucket (sections : List (PdfSection P)) : Except String (List (ℤ × Block P)) :=
  return (← sections.mapM (PdfSection.blocks float)).flatten

end Buckets

/-- `page_bucket[page]`, which is empty for a page without an entry only. -/
def blocksOn {P : Type} (bucket : List (ℤ × Block P)) (page : ℤ) : List (Block P) :=
  (bucket.filter fun e => e.1 = page).map Prod.snd

def textsOn {P : Type} (bucket : List (ℤ × Block P)) (page : ℤ) : List Text :=
  (blocksOn bucket page).map Block.txt

def lastPage {P : Type} (bucket : List (ℤ × Block P)) : ℤ :=
  (bucket.map Prod.fst).foldr max 0

theorem le_lastPage {P : Type} {bucket : List (ℤ × Block P)} {page : ℤ}
    (h : textsOn bucket page ≠ []) : page ≤ lastPage bucket := by
  have hmem : page ∈ bucket.map Prod.fst := by
    by_contra hno
    refine h (List.map_eq_nil_iff.mpr (List.map_eq_nil_iff.mpr (List.filter_eq_nil_iff.mpr ?_)))
    intro e he hpage
    exact hno (List.mem_map.mpr ⟨e, he, of_decide_eq_true hpage⟩)
  rw [lastPage]
  generalize bucket.map Prod.fst = pages at hmem
  induction pages with
  | nil => cases hmem
  | cons q pages ih =>
      rcases List.mem_cons.mp hmem with rfl | hmem
      · exact le_max_left _ _
      · exact (ih hmem).trans (le_max_right _ _)

/-! ## The contexts -/

section Contexts

variable {P : Type} (num : Text → ℕ) (size : ℤ) (bucket : List (ℤ × Block P))

/-- The loop of `upper_context`; `above` are the texts on the page that are still to be read, from
the lowest one up. -/
def upperLoop (page : ℤ) (above : List Text) (txt : Text) : Text :=
  if num txt < size then
    match above with
    | cnt :: above =>
        upperLoop page above
          (takeUp (fun txt => size < num txt) (withStopsBefore (splitStops cnt).reverse) txt)
    | [] =>
        if page - 1 < 0 ∨ textsOn bucket (page - 1) = [] then txt
        else upperLoop (page - 1) (textsOn bucket (page - 1)).reverse txt
  else txt
termination_by ((page + 1).toNat, above.length)
decreasing_by all_goals simp_wf; omega

/-- `upper_context`, where the first `n` blocks of the page are above. -/
def upperContext (page : ℤ) (n : ℕ) : Text :=
  upperLoop num size bucket page ((textsOn bucket page).take n).reverse []

/-- The loop of `lower_context`; `below` are the texts on the page that are still to be read. -/
def lowerLoop (page : ℤ) (below : List Text) (txt : Text) : Text :=
  if num txt < size then
    match below with
    | cnt :: below =>
        lowerLoop page below
          (takeDown (fun txt => size < num txt) (withStops (splitStops cnt)) txt)
    | [] =>
        if h : textsOn bucket (page + 1) = [] then txt
        else lowerLoop (page + 1) (textsOn bucket (page + 1)) txt
  else txt
termination_by ((lastPage bucket - page).toNat, below.length)
decreasing_by
  · simp_wf
    omega
  · have hpage := le_lastPage h
    simp_wf
    omega

/-- `lower_context`, where the first `n` blocks of the page are not below. -/
def lowerContext (page : ℤ) (n : ℕ) : Text :=
  if textsOn bucket page = [] then []
  else lowerLoop num size bucket page ((textsOn bucket page).drop n) []

end Contexts

/-! ## The tables -/

/-- The text of a table: one, or several lines. -/
inductive TableText
  | one (t : Text)
  | lines (ts : List Text)

def TableText.text : TableText → Text
  | one t => t
  | lines ts => ['\n'].intercalate ts

/-- A table with its image, its text and its positions, at least one. -/
structure Table (Img P : Type) where
  img : Img
  tb : TableText
  poss : List (ℤ × Box P)
  poss_ne : poss ≠ []

namespace Table

variable {Img P : Type}

def first (table : Table Img P) : ℤ × Box P := table.poss.head table.poss_ne

def last (table : Table Img P) : ℤ × Box P := table.poss.getLast table.poss_ne

end Table

section Tables

variable {Img P : Type} [LT P] [DecidableLT P] (num : Text → ℕ) (size : ℤ)
  (bucket : List (ℤ × Block P))

/-- The loop in search of a place from block `i` of a page on: the page where it ends, and the texts
above and below if it has found one. -/
def placeLoop (last : ℤ) (top bottom : P) (page : ℤ) (i : ℕ) : ℤ × Option (Text × Text) :=
  let blks := blocksOn bucket page
  if h : i < blks.length then
    if h' : blks.length ≤ i + 1 then
      if page < last then placeLoop last top bottom (page + 1) 0
      else
        (page, some (upperContext num size bucket page (i + 1),
          lowerContext num size bucket (page + 1) 0))
    else if top < blks[i].box.bottom then (page, none)
    else if blks[i + 1].box.top < bottom then placeLoop last top bottom page (i + 1)
    else
      (page, some (upperContext num size bucket page (i + 1), lowerContext num size bucket page i))
  else (page, none)
termination_by ((last - page).toNat, (blocksOn bucket page).length - i)
decreasing_by
  · simp_wf
    omega
  · have hlen : blks.length = (blocksOn bucket page).length := rfl
    omega

/-- The contexts and the tables that were returned so far. -/
structure Placing (Img P : Type) where
  contexts : List (Text × Text)
  res : List (Table Img P)

def Placing.addContext (s : Placing Img P) (upper lower : Text) : Placing Img P :=
  { s with contexts := s.contexts ++ [(strip upper, strip lower)] }

/-- The end of the body, where the table is returned with its new text. -/
def Placing.close (s : Placing Img P) (table : Table Img P) (tb : Text) : Placing Img P where
  contexts :=
    if s.contexts.length < s.res.length + 1 then s.contexts ++ [([], [])] else s.contexts
  res := s.res ++ [{ table with tb := .one tb }]

/-- The body of the loop over the tables. -/
def Placing.step (s : Placing Img P) (table : Table Img P) : Placing Img P :=
  let _tb := table.tb.text
  let (page, place) := placeLoop num size bucket table.last.1 table.first.2.top
    table.last.2.bottom table.first.1 0
  let (tb, s) := match place with
    | some (upper, lower) => (upper ++ _tb ++ lower, s.addContext upper lower)
    | none => (_tb, s)
  if _tb = tb then
    let upper := upperContext num size bucket page 0
    let lower := lowerContext num size bucket (page + 1) 0
    (s.addContext upper lower).close table (upper ++ tb ++ lower)
  else s.close table tb

end Tables

/-- `append_context2table_image4pdf`. -/
def appendContext2tableImage4pdf {Img P : Type} [LT P] [DecidableLT P] (num : Text → ℕ)
    (float : Text → Option P) (sections : List (PdfSection P)) (tabls : List (Table Img P))
    (tableContextSize : ℤ) (returnContext : Bool) :
    Except String (List (Text × Text) ⊕ List (Table Img P)) := do
  if tableContextSize ≤ 0 then
    return if returnContext then .inl [] else .inr tabls
  let bucket ← pageBucket float sections
  let s := tabls.foldl (Placing.step num tableContextSize bucket) ⟨[], []⟩
  return if returnContext then .inl s.contexts else .inr s.res

/-! ## Silence -/

section Silence

variable {P : Type} {num : Text → ℕ} {size : ℤ} {bucket : List (ℤ × Block P)} {page : ℤ}

/-- There are empty texts only on the pages above that are reached without a gap. -/
def QuietAbove (bucket : List (ℤ × Block P)) (page : ℤ) : Prop :=
  ∀ q, 0 ≤ q → q < page → (∀ r, q ≤ r → r < page → textsOn bucket r ≠ []) →
    ∀ t ∈ textsOn bucket q, t = []

def QuietBelow (bucket : List (ℤ × Block P)) (page : ℤ) : Prop :=
  ∀ q, page < q → (∀ r, page < r → r ≤ q → textsOn bucket r ≠ []) → ∀ t ∈ textsOn bucket q, t = []

theorem quietAbove_of_stop (h : page - 1 < 0 ∨ textsOn bucket (page - 1) = []) :
    QuietAbove bucket page := by
  intro q hq hlt hlinked
  rcases h with hneg | hempty
  · omega
  · exact absurd hempty (hlinked (page - 1) (by omega) (by omega))

theorem quietAbove_iff (h : ¬(page - 1 < 0 ∨ textsOn bucket (page - 1) = [])) :
    QuietAbove bucket page ↔
      (∀ t ∈ textsOn bucket (page - 1), t = []) ∧ QuietAbove bucket (page - 1) := by
  obtain ⟨hpos, hblocks⟩ := not_or.mp h
  constructor
  · intro hquiet
    refine ⟨hquiet (page - 1) (by omega) (by omega) fun r hge hlt => ?_, ?_⟩
    · rwa [show r = page - 1 by omega]
    · intro q hq hlt hlinked
      refine hquiet q hq (by omega) fun r hge hlt' => ?_
      by_cases hr : r = page - 1
      · rwa [hr]
      · exact hlinked r hge (by omega)
  · rintro ⟨hnext, hquiet⟩ q hq hlt hlinked
    by_cases hlast : q = page - 1
    · rwa [hlast]
    · exact hquiet q hq (by omega) fun r hge hlt' => hlinked r hge (by omega)

theorem quietBelow_of_stop (h : textsOn bucket (page + 1) = []) : QuietBelow bucket page :=
  fun _ hlt hlinked => absurd h (hlinked (page + 1) (by omega) (by omega))

theorem quietBelow_iff (h : textsOn bucket (page + 1) ≠ []) :
    QuietBelow bucket page ↔
      (∀ t ∈ textsOn bucket (page + 1), t = []) ∧ QuietBelow bucket (page + 1) := by
  constructor
  · intro hquiet
    refine ⟨hquiet (page + 1) (by omega) fun r hgt hle => ?_, ?_⟩
    · rwa [show r = page + 1 by omega]
    · intro q hlt hlinked
      refine hquiet q (by omega) fun r hgt hle => ?_
      by_cases hr : r = page + 1
      · rwa [hr]
      · exact hlinked r (by omega) hle
  · rintro ⟨hnext, hquiet⟩ q hlt hlinked
    by_cases hlast : q = page + 1
    · rwa [hlast]
    · exact hquiet q (by omega) fun r hgt hle => hlinked r (by omega) hle

/-- Nothing is gathered above if and only if there is nothing to gather. -/
theorem upperLoop_eq_nil_iff (hnum : num [] = 0) (hsize : 0 < size) (above : List Text)
    (txt : Text) :
    upperLoop num size bucket page above txt = [] ↔
      txt = [] ∧ (∀ t ∈ above, t = []) ∧ QuietAbove bucket page := by
  induction page, above, txt using upperLoop.induct num size bucket with
  | case1 page txt hfew cnt above ih =>
      rw [upperLoop, if_pos hfew, ih, takeUp_eq_nil_iff, List.forall_mem_cons]
      tauto
  | case2 page txt hfew hstop =>
      rw [upperLoop, if_pos hfew, if_pos hstop]
      have hquiet := quietAbove_of_stop hstop
      simp [hquiet]
  | case3 page txt hfew hgo ih =>
      rw [upperLoop, if_pos hfew, if_neg hgo, ih, quietAbove_iff hgo]
      simp
  | case4 page above txt hmany =>
      rw [upperLoop.eq_def, if_neg hmany]
      have hne : txt ≠ [] := by
        rintro rfl
        exact hmany (by rw [hnum]; exact hsize)
      simp [hne]

theorem lowerLoop_eq_nil_iff (hnum : num [] = 0) (hsize : 0 < size) (below : List Text)
    (txt : Text) :
    lowerLoop num size bucket page below txt = [] ↔
      txt = [] ∧ (∀ t ∈ below, t = []) ∧ QuietBelow bucket page := by
  induction page, below, txt using lowerLoop.induct num size bucket with
  | case1 page txt hfew cnt below ih =>
      rw [lowerLoop, if_pos hfew, ih, takeDown_eq_nil_iff, List.forall_mem_cons]
      tauto
  | case2 page txt hfew hstop =>
      rw [lowerLoop, if_pos hfew, dif_pos hstop]
      have hquiet := quietBelow_of_stop hstop
      simp [hquiet]
  | case3 page txt hfew hgo ih =>
      rw [lowerLoop, if_pos hfew, dif_neg hgo, ih, quietBelow_iff hgo]
      simp
  | case4 page below txt hmany =>
      rw [lowerLoop.eq_def, if_neg hmany]
      have hne : txt ≠ [] := by
        rintro rfl
        exact hmany (by rw [hnum]; exact hsize)
      simp [hne]

/-- A text that is not empty stands on the page, or on one that is reached from it without a page in
between that has no blocks; upwards, pages from 0 on only. -/
def Heard (bucket : List (ℤ × Block P)) (page : ℤ) : Prop :=
  ∃ q, (q < page → 0 ≤ q) ∧ (∀ r, q ≤ r → r < page → textsOn bucket r ≠ []) ∧
    (∀ r, page < r → r ≤ q → textsOn bucket r ≠ []) ∧ ∃ t ∈ textsOn bucket q, t ≠ []

theorem not_heard_iff :
    ¬Heard bucket page ↔
      (∀ t ∈ textsOn bucket page, t = []) ∧ QuietAbove bucket page ∧ QuietBelow bucket page := by
  constructor
  · intro h
    refine ⟨?_, ?_, ?_⟩
    · intro t ht
      by_contra hne
      exact h ⟨page, by omega, by omega, by omega, t, ht, hne⟩
    · intro q hq hlt hlinked t ht
      by_contra hne
      exact h ⟨q, fun _ => hq, hlinked, by omega, t, ht, hne⟩
    · intro q hlt hlinked t ht
      by_contra hne
      exact h ⟨q, by omega, by omega, hlinked, t, ht, hne⟩
  · rintro ⟨hpage, habove, hbelow⟩ ⟨q, hq, hup, hdown, t, ht, hne⟩
    rcases lt_trichotomy q page with hlt | rfl | hlt
    · exact hne (habove q (hq hlt) hlt hup t ht)
    · exact hne (hpage t ht)
    · exact hne (hbelow q hlt hdown t ht)

theorem upperContext_eq_nil_iff (hnum : num [] = 0) (hsize : 0 < size) (n : ℕ) :
    upperContext num size bucket page n = [] ↔
      (∀ t ∈ (textsOn bucket page).take n, t = []) ∧ QuietAbove bucket page := by
  rw [upperContext, upperLoop_eq_nil_iff hnum hsize]
  simp

theorem lowerContext_eq_nil_iff (hnum : num [] = 0) (hsize : 0 < size) (n : ℕ)
    (hpage : textsOn bucket page ≠ []) :
    lowerContext num size bucket page n = [] ↔
      (∀ t ∈ (textsOn bucket page).drop n, t = []) ∧ QuietBelow bucket page := by
  rw [lowerContext, if_neg hpage, lowerLoop_eq_nil_iff hnum hsize]
  simp

theorem lowerContext_next_eq_nil_iff (hnum : num [] = 0) (hsize : 0 < size) :
    lowerContext num size bucket (page + 1) 0 = [] ↔ QuietBelow bucket page := by
  by_cases hnext : textsOn bucket (page + 1) = []
  · rw [lowerContext, if_pos hnext]
    exact ⟨fun _ => quietBelow_of_stop hnext, fun _ => rfl⟩
  · rw [lowerContext_eq_nil_iff hnum hsize 0 hnext, quietBelow_iff hnext, List.drop_zero]

/-- The texts around a place behind the first `i + 1` blocks of a page. -/
def textAbove (num : Text → ℕ) (size : ℤ) (bucket : List (ℤ × Block P)) (page : ℤ) (i : ℕ) : Text :=
  upperContext num size bucket page (i + 1)

def textBelow (num : Text → ℕ) (size : ℤ) (bucket : List (ℤ × Block P)) (page : ℤ) (i : ℕ) : Text :=
  if (blocksOn bucket page).length ≤ i + 1 then lowerContext num size bucket (page + 1) 0
  else lowerContext num size bucket page i

/-- Between them the two contexts of a place read all of its page. -/
theorem textAbove_textBelow_eq_nil_iff (hnum : num [] = 0) (hsize : 0 < size) {i : ℕ}
    (hi : i < (blocksOn bucket page).length) :
    textAbove num size bucket page i = [] ∧ textBelow num size bucket page i = [] ↔
      ¬Heard bucket page := by
  have hlen : (textsOn bucket page).length = (blocksOn bucket page).length := List.length_map _
  rw [not_heard_iff, textAbove, textBelow, upperContext_eq_nil_iff hnum hsize]
  split
  · next hlast =>
      rw [lowerContext_next_eq_nil_iff hnum hsize, List.take_of_length_le (by omega), and_assoc]
  · have hpage : textsOn bucket page ≠ [] := List.ne_nil_of_length_pos (by omega)
    have hsplit : (∀ t ∈ textsOn bucket page, t = []) ↔
        (∀ t ∈ (textsOn bucket page).take (i + 1), t = []) ∧
          ∀ t ∈ (textsOn bucket page).drop i, t = [] := by
      constructor
      · exact fun h => ⟨fun t ht => h t (List.mem_of_mem_take ht),
          fun t ht => h t (List.mem_of_mem_drop ht)⟩
      · rintro ⟨htake, hdrop⟩ t ht
        rw [← List.take_append_drop (i + 1) (textsOn bucket page), List.mem_append] at ht
        rcases ht with ht | ht
        · exact htake t ht
        · rw [← List.drop_drop] at ht
          exact hdrop t (List.mem_of_mem_drop ht)
    rw [lowerContext_eq_nil_iff hnum hsize i hpage, hsplit]
    tauto

end Silence

/-! ## Where the place of a table is -/

section Place

variable {P : Type} [LT P] {num : Text → ℕ} {size : ℤ} {bucket : List (ℤ × Block P)}
  {firstPage last page page' : ℤ} {top bottom : P} {i i' : ℕ}

/-- Block `k` does not end below the table's top, and the next one begins above its bottom. -/
def Passed (blks : List (Block P)) (top bottom : P) (k : ℕ) : Prop :=
  ∃ b b', blks[k]? = some b ∧ blks[k + 1]? = some b' ∧ ¬top < b.box.bottom ∧ b'.box.top < bottom

/-- All blocks before block `i` of a page are passed, on that page and on the ones before it from
the table's first page on, and none of the pages before it is the table's last one. -/
structure Comes (bucket : List (ℤ × Block P)) (firstPage last : ℤ) (top bottom : P) (page : ℤ)
    (i : ℕ) : Prop where
  first_le : firstPage ≤ page
  pages : ∀ q, firstPage ≤ q → q < page → q < last ∧ blocksOn bucket q ≠ [] ∧
    ∀ k, k + 1 < (blocksOn bucket q).length → Passed (blocksOn bucket q) top bottom k
  before : ∀ k < i, Passed (blocksOn bucket page) top bottom k

/-- The place behind block `i` of a page: all before it is passed, and either it is the last block
of a page from the table's last one on, or the next block begins below the table. -/
structure PlacedBehind (bucket : List (ℤ × Block P)) (firstPage last : ℤ) (top bottom : P)
    (page : ℤ) (i : ℕ) : Prop extends Comes bucket firstPage last top bottom page i where
  here : (i + 1 = (blocksOn bucket page).length ∧ ¬page < last) ∨
    ∃ b b', (blocksOn bucket page)[i]? = some b ∧ (blocksOn bucket page)[i + 1]? = some b' ∧
      ¬top < b.box.bottom ∧ ¬b'.box.top < bottom

theorem comes_first (bucket : List (ℤ × Block P)) (firstPage last : ℤ) (top bottom : P) :
    Comes bucket firstPage last top bottom firstPage 0 where
  first_le := le_rfl
  pages _ hge hlt := absurd hlt (not_lt.mpr hge)
  before _ hk := absurd hk (Nat.not_lt_zero _)

theorem Comes.next (h : Comes bucket firstPage last top bottom page i)
    (hpass : Passed (blocksOn bucket page) top bottom i) :
    Comes bucket firstPage last top bottom page (i + 1) where
  first_le := h.first_le
  pages := h.pages
  before k hk := by
    rcases Nat.lt_succ_iff_lt_or_eq.mp hk with hlt | rfl
    · exact h.before k hlt
    · exact hpass

theorem Comes.nextPage (h : Comes bucket firstPage last top bottom page i)
    (hi : i < (blocksOn bucket page).length) (hlast : (blocksOn bucket page).length ≤ i + 1)
    (hpage : page < last) : Comes bucket firstPage last top bottom (page + 1) 0 where
  first_le := h.first_le.trans (by omega)
  pages q hge hlt := by
    by_cases hq : q = page
    · subst hq
      refine ⟨hpage, List.ne_nil_of_length_pos (by omega), fun k hk => h.before k (by omega)⟩
    · exact h.pages q hge (by omega)
  before _ hk := absurd hk (Nat.not_lt_zero _)

theorem PlacedBehind.lt_length (h : PlacedBehind bucket firstPage last top bottom page i) :
    i < (blocksOn bucket page).length := by
  rcases h.here with ⟨hlast, -⟩ | ⟨b, -, hb, -⟩
  · omega
  · exact (List.getElem?_eq_some_iff.mp hb).1

theorem PlacedBehind.not_passed (h : PlacedBehind bucket firstPage last top bottom page i) :
    ¬Passed (blocksOn bucket page) top bottom i := by
  rintro ⟨b, b', -, hnext, -, htop⟩
  rcases h.here with ⟨hlast, -⟩ | ⟨_, c', -, hnext', -, hno⟩
  · have hlt := (List.getElem?_eq_some_iff.mp hnext).1
    omega
  · rw [hnext] at hnext'
    rw [Option.some.inj hnext'] at htop
    exact hno htop

/-- The walk does not get beyond the place. -/
theorem Comes.le_place (h : Comes bucket firstPage last top bottom page i)
    (hplace : PlacedBehind bucket firstPage last top bottom page' i') :
    page < page' ∨ page = page' ∧ i ≤ i' := by
  by_contra hbeyond
  have hlt : page' < page ∨ page' = page ∧ i' < i := by omega
  rcases hlt with hlt | ⟨rfl, hlt⟩
  · obtain ⟨hpage, -, hall⟩ := h.pages page' hplace.first_le hlt
    rcases hplace.here with ⟨-, hno⟩ | ⟨_, _, -, hnext, -⟩
    · exact hno hpage
    · exact hplace.not_passed (hall i' (List.getElem?_eq_some_iff.mp hnext).1)
  · exact hplace.not_passed (h.before i' hlt)

/-- There is one place at most. -/
theorem PlacedBehind.unique (h : PlacedBehind bucket firstPage last top bottom page i)
    (h' : PlacedBehind bucket firstPage last top bottom page' i') : page = page' ∧ i = i' := by
  have hle := h.toComes.le_place h'
  have hge := h'.toComes.le_place h
  omega

/-- Where the walk comes to a block that is not passed and is not the place, there is no place. -/
theorem Comes.no_place (h : Comes bucket firstPage last top bottom page i)
    (hstop : ¬Passed (blocksOn bucket page) top bottom i)
    (hmore : i + 1 ≠ (blocksOn bucket page).length)
    (hno : ¬PlacedBehind bucket firstPage last top bottom page i) :
    ¬PlacedBehind bucket firstPage last top bottom page' i' := by
  intro hplace
  rcases h.le_place hplace with hlt | ⟨rfl, hle⟩
  · obtain ⟨-, hne, hall⟩ := hplace.pages page h.first_le hlt
    have hpos := List.length_pos_iff.mpr hne
    rcases Nat.lt_or_gt_of_ne hmore with hlt' | hgt
    · exact hstop (hall i hlt')
    · obtain ⟨_, _, -, hnext, -⟩ := h.before (i - 1) (by omega)
      have hlt' := (List.getElem?_eq_some_iff.mp hnext).1
      omega
  · rcases Nat.lt_or_eq_of_le hle with hlt | rfl
    · exact hstop (hplace.before i hlt)
    · exact hno hplace

variable [DecidableLT P]

/-- The loop finds the place if there is one. -/
theorem placeLoop_cases (num : Text → ℕ) (size : ℤ)
    (h : Comes bucket firstPage last top bottom page i) :
    (∃ page' i', PlacedBehind bucket firstPage last top bottom page' i' ∧
      placeLoop num size bucket last top bottom page i =
        (page', some (textAbove num size bucket page' i', textBelow num size bucket page' i'))) ∨
    (∃ page', placeLoop num size bucket last top bottom page i = (page', none)) ∧
      ∀ page' i', ¬PlacedBehind bucket firstPage last top bottom page' i' := by
  induction page, i using placeLoop.induct bucket last top bottom with
  | case1 page i blks hi hlast hpage ih =>
      rw [placeLoop, dif_pos hi, dif_pos hlast, if_pos hpage]
      exact ih (h.nextPage hi hlast hpage)
  | case2 page i blks hi hlast hpage =>
      refine .inl ⟨page, i, ⟨h, .inl ⟨le_antisymm hi hlast, hpage⟩⟩, ?_⟩
      rw [placeLoop, dif_pos hi, dif_pos hlast, if_neg hpage, textBelow, if_pos hlast, textAbove]
  | case3 page i blks hi hlast hbelow =>
      have hstop : ∀ b, blks[i]? = some b → top < b.box.bottom := by
        intro b hb
        rw [List.getElem?_eq_getElem hi] at hb
        rwa [← Option.some.inj hb]
      have hmore : i + 1 ≠ blks.length := fun heq => hlast heq.ge
      refine .inr ⟨⟨page, ?_⟩, fun page' i' => h.no_place ?_ hmore fun hplace => ?_⟩
      · rw [placeLoop, dif_pos hi, dif_neg hlast, if_pos hbelow]
      · rintro ⟨b, _, hb, -, hno, -⟩
        exact hno (hstop b hb)
      · rcases hplace.here with ⟨heq, -⟩ | ⟨b, _, hb, -, hno, -⟩
        · exact hmore heq
        · exact hno (hstop b hb)
  | case4 page i blks hi hlast hbelow hnext ih =>
      rw [placeLoop, dif_pos hi, dif_neg hlast, if_neg hbelow, if_pos hnext]
      exact ih (h.next ⟨blks[i], blks[i + 1], List.getElem?_eq_getElem hi,
        List.getElem?_eq_getElem (not_le.mp hlast), hbelow, hnext⟩)
  | case5 page i blks hi hlast hbelow hnext =>
      refine .inl ⟨page, i, ⟨h, .inr ⟨blks[i], blks[i + 1], List.getElem?_eq_getElem hi,
        List.getElem?_eq_getElem (not_le.mp hlast), hbelow, hnext⟩⟩, ?_⟩
      rw [placeLoop, dif_pos hi, dif_neg hlast, if_neg hbelow, if_neg hnext, textBelow,
        if_neg hlast, textAbove]
  | case6 page i blks hi =>
      refine .inr ⟨⟨page, ?_⟩, fun page' i' => h.no_place ?_ ?_ fun hplace => hi hplace.lt_length⟩
      · rw [placeLoop, dif_neg hi]
      · rintro ⟨_, _, hb, -⟩
        exact hi (List.getElem?_eq_some_iff.mp hb).1
      · exact fun heq => hi (Nat.lt_of_succ_le heq.le)

end Place

/-! ## Contexts and tables in step -/

theorem append_eq_middle_iff {upper t lower : Text} :
    t = upper ++ t ++ lower ↔ upper = [] ∧ lower = [] := by
  constructor
  · intro h
    have hlen := congrArg List.length h
    rw [List.length_append, List.length_append] at hlen
    exact ⟨List.eq_nil_of_length_eq_zero (by omega), List.eq_nil_of_length_eq_zero (by omega)⟩
  · rintro ⟨rfl, rfl⟩
    rw [List.nil_append, List.append_nil]

section PairsUp

variable {Img P : Type} {num : Text → ℕ} {size : ℤ}
  {bucket : List (ℤ × Block P)} {table : Table Img P} {tabls : List (Table Img P)}
  {s : Placing Img P}

/-- The place of a table behind block `i` of a page. -/
def Table.PlacedAt [LT P] (bucket : List (ℤ × Block P)) (table : Table Img P) (page : ℤ) (i : ℕ) :
    Prop :=
  PlacedBehind bucket table.first.1 table.last.1 table.first.2.top table.last.2.bottom page i

/-- The place of the table is on a page around which there is no text. -/
def Table.Unheard [LT P] (bucket : List (ℤ × Block P)) (table : Table Img P) : Prop :=
  ∃ page i, table.PlacedAt bucket page i ∧ ¬Heard bucket page

/-- A table with text put above and below it. -/
def Table.between (table : Table Img P) (upper lower : Text) : Table Img P :=
  { table with tb := .one (upper ++ table.tb.text ++ lower) }

theorem Placing.close_eq {tb : Text} (h : s.res.length < s.contexts.length) :
    s.close table tb =
      { contexts := s.contexts, res := s.res ++ [{ table with tb := .one tb }] } := by
  rw [close, if_neg (by omega)]

theorem Placing.length_addContext (s : Placing Img P) (upper lower : Text) :
    (s.addContext upper lower).contexts.length = s.contexts.length + 1 :=
  List.length_append

/-- As many contexts as tables, and each with what was put around its table. -/
structure PairsUp (tabls : List (Table Img P)) (contexts : List (Text × Text))
    (res : List (Table Img P)) : Prop where
  contexts_length : contexts.length = tabls.length
  res_length : res.length = tabls.length
  around : ∀ (k : ℕ) (table : Table Img P), tabls[k]? = some table → ∃ upper lower,
    contexts[k]? = some (strip upper, strip lower) ∧ res[k]? = some (table.between upper lower)

theorem PairsUp.snoc {contexts : List (Text × Text)} {res : List (Table Img P)}
    (h : PairsUp tabls contexts res) (table : Table Img P) (upper lower : Text) :
    PairsUp (tabls ++ [table]) (contexts ++ [(strip upper, strip lower)])
      (res ++ [table.between upper lower]) where
  contexts_length := by simp [h.contexts_length]
  res_length := by simp [h.res_length]
  around k table' hk := by
    rcases Nat.lt_or_ge k tabls.length with hlt | hge
    · rw [List.getElem?_append_left hlt] at hk
      obtain ⟨u, l, hcontext, hres⟩ := h.around k table' hk
      refine ⟨u, l, ?_, ?_⟩
      · rw [List.getElem?_append_left (h.contexts_length.symm ▸ hlt), hcontext]
      · rw [List.getElem?_append_left (h.res_length.symm ▸ hlt), hres]
    · have hk' := (List.getElem?_eq_some_iff.mp hk).1
      rw [List.length_append, List.length_singleton] at hk'
      obtain rfl : k = tabls.length := by omega
      rw [List.getElem?_concat_length] at hk
      refine ⟨upper, lower, ?_, ?_⟩
      · rw [← h.contexts_length, List.getElem?_concat_length]
      · rw [← h.res_length, List.getElem?_concat_length, Option.some.inj hk]

variable [LT P] [DecidableLT P]

/-- A table whose place is not in silence gets one context. -/
theorem Placing.step_of_heard (hnum : num [] = 0) (hsize : 0 < size)
    (hle : s.res.length ≤ s.contexts.length) (h : ¬table.Unheard bucket) :
    ∃ upper lower, s.step num size bucket table =
      { contexts := s.contexts ++ [(strip upper, strip lower)]
        res := s.res ++ [table.between upper lower] } := by
  have hlt : ∀ upper lower, (s.addContext upper lower).res.length <
      (s.addContext upper lower).contexts.length := fun upper lower => by
    rw [length_addContext]
    exact Nat.lt_succ_of_le hle
  rcases placeLoop_cases num size
    (comes_first bucket table.first.1 table.last.1 table.first.2.top table.last.2.bottom) with
    ⟨page, i, hplace, heq⟩ | ⟨⟨page, heq⟩, -⟩
  · have hheard : Heard bucket page := by
      by_contra hno
      exact h ⟨page, i, hplace, hno⟩
    have hsome : ¬table.tb.text = textAbove num size bucket page i ++ table.tb.text ++
        textBelow num size bucket page i := by
      rw [append_eq_middle_iff, textAbove_textBelow_eq_nil_iff hnum hsize hplace.lt_length]
      exact not_not.mpr hheard
    refine ⟨textAbove num size bucket page i, textBelow num size bucket page i, ?_⟩
    simp only [step, heq, if_neg hsome, close_eq (hlt _ _)]
    rfl
  · refine ⟨upperContext num size bucket page 0, lowerContext num size bucket (page + 1) 0, ?_⟩
    simp only [step, heq, if_true, close_eq (hlt _ _)]
    rfl

/-- A table whose place is in silence gets two. -/
theorem Placing.step_of_unheard (hnum : num [] = 0) (hsize : 0 < size)
    (hle : s.res.length ≤ s.contexts.length) (h : table.Unheard bucket) :
    ∃ c c' r, s.step num size bucket table =
      { contexts := s.contexts ++ [c, c'], res := s.res ++ [r] } := by
  obtain ⟨page, i, hplace, hsilent⟩ := h
  rcases placeLoop_cases num size
    (comes_first bucket table.first.1 table.last.1 table.first.2.top table.last.2.bottom) with
    ⟨page', i', hplace', heq⟩ | ⟨-, hno⟩
  · obtain ⟨rfl, rfl⟩ := hplace.unique hplace'
    have hnil := (textAbove_textBelow_eq_nil_iff hnum hsize hplace.lt_length).mpr hsilent
    have hlt : ∀ u l u' l', ((s.addContext u l).addContext u' l').res.length <
        ((s.addContext u l).addContext u' l').contexts.length := fun u l u' l' => by
      rw [length_addContext, length_addContext]
      exact Nat.lt_succ_of_le (hle.trans (Nat.le_succ _))
    refine ⟨(strip [], strip []), (strip (upperContext num size bucket page 0),
      strip (lowerContext num size bucket (page + 1) 0)), table.between
        (upperContext num size bucket page 0) (lowerContext num size bucket (page + 1) 0), ?_⟩
    simp only [step, heq, hnil, List.nil_append, List.append_nil, if_true, close_eq (hlt _ _ _ _)]
    simp only [addContext, List.append_assoc, List.singleton_append, Table.between]
  · exact absurd hplace (hno page i)

/-- The contexts and the tables of a run. -/
def placeAll (num : Text → ℕ) (size : ℤ) (bucket : List (ℤ × Block P))
    (tabls : List (Table Img P)) : Placing Img P :=
  tabls.foldl (Placing.step num size bucket) ⟨[], []⟩

theorem placeAll_concat (tabls : List (Table Img P)) (table : Table Img P) :
    placeAll num size bucket (tabls ++ [table]) =
      (placeAll num size bucket tabls).step num size bucket table :=
  List.foldl_concat _ _ _ _

/-- Where no table is unheard, the contexts are in step with the tables. -/
theorem placeAll_pairsUp (hnum : num [] = 0) (hsize : 0 < size)
    (h : ∀ table ∈ tabls, ¬table.Unheard bucket) :
    PairsUp tabls (placeAll num size bucket tabls).contexts
      (placeAll num size bucket tabls).res := by
  induction tabls using List.reverseRecOn with
  | nil => exact ⟨rfl, rfl, fun k table hk => nomatch hk⟩
  | append_singleton tabls table ih =>
      have hstep := ih fun table' hmem => h table' (List.mem_append_left _ hmem)
      have hle := (hstep.res_length.trans hstep.contexts_length.symm).le
      obtain ⟨upper, lower, heq⟩ :=
        Placing.step_of_heard hnum hsize hle (h table (List.mem_append_right _ List.mem_cons_self))
      rw [placeAll_concat, heq]
      exact hstep.snoc table upper lower

/-- No table goes without a context, and an unheard one makes one too many. -/
theorem placeAll_length (hnum : num [] = 0) (hsize : 0 < size) (tabls : List (Table Img P)) :
    (placeAll num size bucket tabls).res.length = tabls.length ∧
      tabls.length ≤ (placeAll num size bucket tabls).contexts.length ∧
      ((placeAll num size bucket tabls).contexts.length = tabls.length →
        ∀ table ∈ tabls, ¬table.Unheard bucket) := by
  induction tabls using List.reverseRecOn with
  | nil => exact ⟨rfl, le_rfl, fun _ table hmem => nomatch hmem⟩
  | append_singleton tabls table ih =>
      obtain ⟨hres, hle, hall⟩ := ih
      rw [placeAll_concat, List.length_append, List.length_singleton]
      by_cases h : table.Unheard bucket
      · obtain ⟨c, c', r, heq⟩ := Placing.step_of_unheard hnum hsize (hres.trans_le hle) h
        rw [heq]
        simp only [List.length_append, List.length_cons, List.length_nil]
        exact ⟨by omega, by omega, fun hcount => by omega⟩
      · obtain ⟨upper, lower, heq⟩ := Placing.step_of_heard hnum hsize (hres.trans_le hle) h
        rw [heq]
        simp only [List.length_append, List.length_singleton]
        refine ⟨by omega, by omega, fun hcount table' hmem => ?_⟩
        rcases List.mem_append.mp hmem with hmem | hmem
        · exact hall (by omega) table' hmem
        · rwa [List.mem_singleton.mp hmem]

/-- Both calls return, and what they return is in step. -/
def ContextsInStep (num : Text → ℕ) (float : Text → Option P) (sections : List (PdfSection P))
    (tabls : List (Table Img P)) (tableContextSize : ℤ) : Prop :=
  ∃ contexts res,
    appendContext2tableImage4pdf num float sections tabls tableContextSize true =
      .ok (.inl contexts) ∧
    appendContext2tableImage4pdf num float sections tabls tableContextSize false =
      .ok (.inr res) ∧
    PairsUp tabls contexts res

theorem appendContext_eq {float : Text → Option P} {sections : List (PdfSection P)}
    (hsize : 0 < size) (hbucket : pageBucket float sections = .ok bucket)
    (tabls : List (Table Img P)) (returnContext : Bool) :
    appendContext2tableImage4pdf num float sections tabls size returnContext =
      .ok (if returnContext then .inl (placeAll num size bucket tabls).contexts
        else .inr (placeAll num size bucket tabls).res) := by
  rw [appendContext2tableImage4pdf, if_neg (not_le.mpr hsize), hbucket]
  rfl

theorem not_unheard_of_contextsInStep {float : Text → Option P} {sections : List (PdfSection P)}
    (hnum : num [] = 0) (hsize : 0 < size) (hbucket : pageBucket float sections = .ok bucket)
    (h : ContextsInStep num float sections tabls size) :
    ∀ table ∈ tabls, ¬table.Unheard bucket := by
  obtain ⟨contexts, res, hcontexts, -, hstep⟩ := h
  rw [appendContext_eq hsize hbucket] at hcontexts
  obtain rfl := Sum.inl.inj (Except.ok.inj hcontexts)
  exact (placeAll_length hnum hsize tabls).2.2 hstep.contexts_length

/-- Whatever the sections, the tables and the sizes, the contexts are in step with the tables for
just the inputs where the place of each table that has one is on a page around which there is
text. -/
theorem contextsInStep_iff {float : Text → Option P} {sections : List (PdfSection P)}
    (hnum : num [] = 0) (hsize : 0 < size) (hbucket : pageBucket float sections = .ok bucket)
    (tabls : List (Table Img P)) :
    ContextsInStep num float sections tabls size ↔
      ∀ table ∈ tabls, ∀ page i, table.PlacedAt bucket page i → Heard bucket page := by
  have hcondition : (∀ table ∈ tabls, ∀ page i, table.PlacedAt bucket page i →
      Heard bucket page) ↔ ∀ table ∈ tabls, ¬table.Unheard bucket := by
    simp only [Table.Unheard, not_exists, not_and, not_not]
  rw [hcondition]
  constructor
  · exact not_unheard_of_contextsInStep hnum hsize hbucket
  · intro h
    exact ⟨_, _, appendContext_eq hsize hbucket tabls true,
      appendContext_eq hsize hbucket tabls false, placeAll_pairsUp hnum hsize h⟩

end PairsUp

/-- A text on the table's page. -/
theorem contextsInStep_one :
    ContextsInStep List.length (fun _ => none)
      [.placed ['a'] [(.one 0, (⟨0, 1, 0, 1⟩ : Box ℕ))]]
      [(⟨(), .one ['t'], [(0, ⟨0, 1, 2, 3⟩)], List.cons_ne_nil _ _⟩ : Table Unit ℕ)] 5 := by
  have hbucket : pageBucket (fun _ => none) [.placed ['a'] [(.one 0, (⟨0, 1, 0, 1⟩ : Box ℕ))]] =
      .ok [(0, ⟨⟨0, 1, 0, 1⟩, ['a']⟩)] := rfl
  refine (contextsInStep_iff rfl (by decide) hbucket _).mpr ?_
  intro table _ page i hplace
  obtain ⟨b, hb⟩ := List.exists_mem_of_length_pos (Nat.zero_lt_of_lt hplace.lt_length)
  refine ⟨page, by omega, by omega, by omega, b.txt, List.mem_map_of_mem hb, ?_⟩
  obtain ⟨e, he, rfl⟩ := List.mem_map.mp hb
  rw [List.mem_singleton.mp (List.mem_of_mem_filter he)]
  exact List.cons_ne_nil _ _

/-- The only block there is has no text, so the table gets two contexts. -/
theorem not_contextsInStep :
    ¬∀ (num : Text → ℕ) (float : Text → Option ℕ) (sections : List (PdfSection ℕ))
        (tabls : List (Table Unit ℕ)) (size : ℤ), num [] = 0 → 0 < size →
      (∃ bucket, pageBucket float sections = .ok bucket) →
      ContextsInStep num float sections tabls size := by
  intro h
  let bucket : List (ℤ × Block ℕ) := [(0, ⟨⟨0, 1, 0, 1⟩, []⟩)]
  let table : Table Unit ℕ := ⟨(), .one ['t'], [(0, ⟨0, 1, 2, 3⟩)], List.cons_ne_nil _ _⟩
  have hbucket : pageBucket (fun _ => none) [.placed [] [(.one 0, (⟨0, 1, 0, 1⟩ : Box ℕ))]] =
      .ok bucket := rfl
  have hstep := h List.length (fun _ => none) _ [table] 5 rfl (by decide) ⟨_, hbucket⟩
  refine not_unheard_of_contextsInStep rfl (by decide) hbucket hstep table List.mem_cons_self
    ⟨0, 0, ⟨comes_first _ _ _ _ _, .inl ⟨rfl, lt_irrefl 0⟩⟩, ?_⟩
  rintro ⟨q, -, -, -, t, ht, hne⟩
  obtain ⟨b, hb, rfl⟩ := List.mem_map.mp ht
  obtain ⟨e, he, rfl⟩ := List.mem_map.mp hb
  rw [List.mem_singleton.mp (List.mem_of_mem_filter he)] at hne
  exact hne rfl

end RagFlow.Chunking
