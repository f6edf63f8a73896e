/-
# Elements of a Markdown text

The lines of a text are read from the first to the last. The kind of a line says which reader
takes an element that starts there, and each reader has rules of its own for the lines that it
goes on with. Blank lines between elements are left out.
-/

import RagFlow.Math.Partition
import RagFlow.Math.Separator
import RagFlow.Query.Text
import RagFlow.Chunking.Text

namespace RagFlow.Chunking.Markdown

open RagFlow.Math
open RagFlow.Ingestion (isSpace)
open RagFlow.Query (strip)

/-- The Unicode classes `\d` and `\w`. -/
structure CharClasses where
  isDecimal : Char → Bool
  isWord : Char → Bool

/-- The `type` of an element. -/
inductive ElementType
  | header
  | codeBlock
  | listBlock
  | blockquote
  | textBlock
  deriving DecidableEq

structure Element where
  type : ElementType
  content : Text
  startLine : ℕ
  endLine : ℕ

/-! ### Kinds of lines -/

section Lines

variable (chars : CharClasses) (line : Text)

/-- `not line.strip()` -/
def isBlank : Bool := strip line = []

/-- `line.strip().startswith(mark)` -/
def startsWith (mark : Text) : Bool := mark.isPrefixOf (strip line)

/-- The marks of a code block. -/
def fence : Text := "```".toList

/-- White space at the start of a text. -/
def hasSpace (text : Text) : Bool := text.head?.any isSpace

/-- `^#{1,6}\s+.*$` -/
def isHeader : Bool :=
  let marks := line.takeWhile (· = '#')
  1 ≤ marks.length && marks.length ≤ 6 && hasSpace (line.drop marks.length)

/-- `[-*+]\s+.*$` behind white space. -/
def isBullet (text : Text) : Bool :=
  match text with
  | c :: rest => (c = '-' || c = '*' || c = '+') && hasSpace rest
  | [] => false

/-- `\d+\.\s+.*$` behind white space. -/
def isNumber (text : Text) : Bool :=
  let digits := text.takeWhile chars.isDecimal
  match text.drop digits.length with
  | '.' :: rest => digits ≠ [] && hasSpace rest
  | _ => false

/-- `^\s*[-*+]\s+.*$` -/
def isBulletItem : Bool := isBullet (line.dropWhile isSpace)

/-- `^\s*\d+\.\s+.*$` -/
def isNumberItem : Bool := isNumber chars (line.dropWhile isSpace)

/-- `^\s{2,}` and what one of the two expressions says of the rest. -/
def isIndented : Bool := 2 ≤ (line.takeWhile isSpace).length

/-- `^\s+\w+.*$` -/
def isContinuation : Bool :=
  1 ≤ (line.takeWhile isSpace).length && (line.dropWhile isSpace).head?.any chars.isWord

/-- A line that ends a text block. -/
def isBlockStart : Bool :=
  isHeader line || startsWith line fence || isBulletItem line || isNumberItem chars line ||
    startsWith line ['>']

end Lines

/-! ### Readers -/

variable (chars : CharClasses) (lines : List Text)

/-- A `while` loop of a reader at line `i`, with the lines from there on: it takes lines as
long as it may go on, which it decides by the line and those behind it. -/
def readLines (goesOn : ℕ → Text → List Text → Bool) :
    ℕ → List Text → ℕ → List Text → List Text × ℕ
  | _, content, endPos, [] => (content, endPos)
  | i, content, endPos, line :: rest =>
      if goesOn i line rest then readLines goesOn (i + 1) (content ++ [line]) i rest
      else (content, endPos)

/-- The `for` loop of `_extract_code_block`: the line that ends it is taken. -/
def readCode : ℕ → List Text → ℕ → List Text → List Text × ℕ
  | _, content, endPos, [] => (content, endPos)
  | i, content, _, line :: rest =>
      if startsWith line fence then (content ++ [line], i)
      else readCode (i + 1) (content ++ [line]) i rest

/-- An element from the lines that a reader has taken. -/
def element (type : ElementType) (startPos : ℕ) (read : List Text × ℕ) : Element where
  type
  content := ['\n'].intercalate read.1
  startLine := startPos
  endLine := read.2

def extractHeader (line : Text) (startPos : ℕ) : Element :=
  { type := .header, content := line, startLine := startPos, endLine := startPos }

def extractCodeBlock (line : Text) (startPos : ℕ) : Element :=
  element .codeBlock startPos
    (readCode (startPos + 1) [line] startPos (lines.drop (startPos + 1)))

def extractListBlock (startPos : ℕ) : Element :=
  let goesOn i line (_ : List Text) :=
    isBulletItem line || isNumberItem chars line || (decide (startPos < i) && isBlank line) ||
      (decide (startPos < i) && (isIndented line && isBulletItem line)) ||
      (decide (startPos < i) && (isIndented line && isNumberItem chars line)) ||
      (decide (startPos < i) && isContinuation chars line)
  element .listBlock startPos (readLines goesOn startPos [] startPos (lines.drop startPos))

def extractBlockquote (startPos : ℕ) : Element :=
  let goesOn i line (_ : List Text) :=
    startsWith line ['>'] || (decide (startPos < i) && isBlank line)
  element .blockquote startPos (readLines goesOn startPos [] startPos (lines.drop startPos))

def extractTextBlock (line : Text) (startPos : ℕ) : Element :=
  let goesOn (_ : ℕ) line (rest : List Text) :=
    if isBlockStart chars line then false
    else if isBlank line then !(rest.head?.any (isBlockStart chars))
    else true
  element .textBlock startPos
    (readLines goesOn (startPos + 1) [line] startPos (lines.drop (startPos + 1)))

/-- The element that starts at a line, if it is not blank. -/
def elementAt (i : ℕ) (line : Text) : Option Element :=
  if isHeader line then some (extractHeader line i)
  else if startsWith line fence then some (extractCodeBlock lines line i)
  else if isBulletItem line || isNumberItem chars line then some (extractListBlock chars lines i)
  else if startsWith line ['>'] then some (extractBlockquote lines i)
  else if !isBlank line then some (extractTextBlock chars lines line i)
  else none

/-! ### What a reader takes -/

variable {chars lines} {line text : Text} {i startPos endPos : ℕ} {content rest : List Text}
  {e : Element}

/-- The lines from the start to the end, and no others. -/
structure Reads (lines : List Text) (startPos : ℕ) (read : List Text × ℕ) : Prop where
  le : startPos ≤ read.2
  lt : read.2 < lines.length
  content : read.1 = (lines.drop startPos).take (read.2 + 1 - startPos)

theorem reads_singleton (h : lines[startPos]? = some line) :
    Reads lines startPos ([line], startPos) := by
  obtain ⟨hlt, rfl⟩ := List.getElem?_eq_some_iff.mp h
  refine ⟨Nat.le_refl _, hlt, ?_⟩
  simp only [Nat.add_sub_cancel_left]
  rw [List.drop_eq_getElem_cons hlt, List.take_succ_cons, List.take_zero]

theorem Reads.snoc (h : Reads lines startPos (content, endPos))
    (hline : lines[endPos + 1]? = some line) :
    Reads lines startPos (content ++ [line], endPos + 1) := by
  obtain ⟨hlt, rfl⟩ := List.getElem?_eq_some_iff.mp hline
  have hle := h.le
  have hcontent := h.content
  simp only at hle hcontent
  refine ⟨Nat.le_succ_of_le hle, hlt, ?_⟩
  have hlength : endPos + 1 - startPos < (lines.drop startPos).length := by
    rw [List.length_drop]
    omega
  have hget : (lines.drop startPos)[endPos + 1 - startPos] = lines[endPos + 1] := by
    rw [List.getElem_drop]
    congr 1
    omega
  have hcount : endPos + 1 + 1 - startPos = endPos + 1 - startPos + 1 := by omega
  simp only
  rw [hcount, List.take_add_one, List.getElem?_eq_getElem hlength, hget, ← hcontent]
  rfl

theorem getElem?_of_drop_eq_cons {l : List Text} {k : ℕ} (h : l.drop k = line :: rest) :
    l[k]? = some line ∧ l.drop (k + 1) = rest := by
  constructor
  · rw [← List.head?_drop, h]
    rfl
  · rw [← List.drop_drop, h]
    rfl

theorem reads_readLines (goesOn : ℕ → Text → List Text → Bool)
    (h : Reads lines startPos (content, endPos)) (hrest : lines.drop (endPos + 1) = rest) :
    Reads lines startPos (readLines goesOn (endPos + 1) content endPos rest) := by
  induction rest generalizing content endPos with
  | nil => exact h
  | cons line rest ih =>
      obtain ⟨hline, hrest⟩ := getElem?_of_drop_eq_cons hrest
      rw [readLines]
      split
      · exact ih (h.snoc hline) hrest
      · exact h

theorem reads_readCode (h : Reads lines startPos (content, endPos))
    (hrest : lines.drop (endPos + 1) = rest) :
    Reads lines startPos (readCode (endPos + 1) content endPos rest) := by
  induction rest generalizing content endPos with
  | nil => exact h
  | cons line rest ih =>
      obtain ⟨hline, hrest⟩ := getElem?_of_drop_eq_cons hrest
      rw [readCode]
      split
      · exact h.snoc hline
      · exact ih (h.snoc hline) hrest

/-- Code that is not closed goes on to the last line. -/
theorem readCode_end (hopen : ∀ line ∈ rest, startsWith line fence = false)
    (hrest : lines.drop (endPos + 1) = rest) (hlt : endPos < lines.length) :
    (readCode (endPos + 1) content endPos rest).2 + 1 = lines.length := by
  induction rest generalizing content endPos with
  | nil =>
      have hle := List.drop_eq_nil_iff.mp hrest
      simp only [readCode]
      omega
  | cons line rest ih =>
      obtain ⟨hline, hrest⟩ := getElem?_of_drop_eq_cons hrest
      obtain ⟨hlt', -⟩ := List.getElem?_eq_some_iff.mp hline
      rw [readCode, if_neg (by simp [hopen line List.mem_cons_self])]
      exact ih (fun l hl => hopen l (List.mem_cons_of_mem line hl)) hrest hlt'

/-- A reader that goes on with its first line. -/
theorem reads_readLines_first (goesOn : ℕ → Text → List Text → Bool)
    (hline : lines[startPos]? = some line) (hgoes : ∀ rest, goesOn startPos line rest) :
    Reads lines startPos (readLines goesOn startPos [] startPos (lines.drop startPos)) := by
  obtain ⟨hlt, hget⟩ := List.getElem?_eq_some_iff.mp hline
  rw [List.drop_eq_getElem_cons hlt, hget, readLines, if_pos (hgoes _), List.nil_append]
  exact reads_readLines goesOn (reads_singleton hline) rfl

/-! ### Blank lines -/

theorem strip_eq_nil_iff : strip text = [] ↔ ∀ c ∈ text, isSpace c = true := by
  unfold strip
  rw [List.rdropWhile_eq_nil_iff]
  constructor
  · intro h c hc
    rw [← List.takeWhile_append_dropWhile (p := isSpace) (l := text)] at hc
    rcases List.mem_append.mp hc with hc | hc
    · exact List.mem_takeWhile_imp hc
    · exact h c hc
  · intro h c hc
    exact h c ((List.dropWhile_suffix isSpace).subset hc)

theorem isBlank_eq_false {c : Char} (hc : c ∈ text) (hspace : isSpace c = false) :
    isBlank text = false := by
  have hne : strip text ≠ [] := by
    rw [ne_eq, strip_eq_nil_iff]
    intro h
    simp [h c hc] at hspace
  simpa [isBlank] using hne

theorem isBlank_of_startsWith {mark : Text} (h : startsWith line mark) (hne : mark ≠ []) :
    isBlank line = false := by
  unfold startsWith at h
  cases hstrip : strip line with
  | nil =>
      rw [hstrip, List.isPrefixOf_iff_prefix, List.prefix_nil] at h
      exact absurd h hne
  | cons c text => simp [isBlank, hstrip]

theorem isBlank_of_isHeader (h : isHeader line) : isBlank line = false := by
  cases line with
  | nil => simp [isHeader] at h
  | cons c cs =>
      by_cases hc : c = '#'
      · subst hc
        exact isBlank_eq_false List.mem_cons_self (by decide)
      · simp [isHeader, hc] at h

theorem isBlank_of_isBulletItem (h : isBulletItem line) : isBlank line = false := by
  unfold isBulletItem isBullet at h
  split at h
  · rename_i c rest hdrop
    have hmem : c ∈ line :=
      (List.dropWhile_suffix isSpace).subset (hdrop ▸ List.mem_cons_self)
    simp only [Bool.and_eq_true, Bool.or_eq_true, decide_eq_true_eq] at h
    rcases h.1 with (rfl | rfl) | rfl <;> exact isBlank_eq_false hmem (by decide)
  · cases h

theorem isBlank_of_isNumberItem (h : isNumberItem chars line) : isBlank line = false := by
  unfold isNumberItem isNumber at h
  simp only at h
  split at h
  · rename_i rest hdrop
    have hmem : '.' ∈ line.dropWhile isSpace :=
      List.mem_of_mem_drop (hdrop ▸ List.mem_cons_self)
    exact isBlank_eq_false ((List.dropWhile_suffix isSpace).subset hmem) (by decide)
  · cases h

/-! ### Elements -/

/-- An element consists of the lines of its range. -/
structure ElementOf (lines : List Text) (e : Element) : Prop where
  le : e.startLine ≤ e.endLine
  lt : e.endLine < lines.length
  content : e.content =
    ['\n'].intercalate ((lines.drop e.startLine).take (e.endLine + 1 - e.startLine))

/-- A code block whose fence is not closed goes on to the last line. -/
def OpenToEnd (lines : List Text) (e : Element) : Prop :=
  e.type = .codeBlock →
    (∀ j, e.startLine < j → ∀ line ∈ lines[j]?, startsWith line fence = false) →
      e.endLine + 1 = lines.length

theorem elementOf_element {type : ElementType} {read : List Text × ℕ}
    (h : Reads lines startPos read) : ElementOf lines (element type startPos read) where
  le := h.le
  lt := h.lt
  content := congrArg ['\n'].intercalate h.content

theorem elementOf_header (h : lines[i]? = some line) : ElementOf lines (extractHeader line i) := by
  have hreads := reads_singleton h
  refine ⟨hreads.le, hreads.lt, ?_⟩
  have hcontent := congrArg ['\n'].intercalate hreads.content
  rwa [List.intercalate_singleton] at hcontent

theorem openToEnd_codeBlock (h : lines[i]? = some line) :
    OpenToEnd lines (extractCodeBlock lines line i) := by
  intro _ hopen
  obtain ⟨hlt, -⟩ := List.getElem?_eq_some_iff.mp h
  refine readCode_end (fun l hl => ?_) rfl hlt
  obtain ⟨k, hk, hget⟩ := List.mem_iff_getElem.mp hl
  refine hopen (i + 1 + k) ?_ l ?_
  · change i < i + 1 + k
    omega
  · rw [Option.mem_def, ← List.getElem?_drop, List.getElem?_eq_getElem hk, hget]

/-- The first line of an element is not blank, and its reader starts there. -/
theorem elementAt_spec (h : lines[i]? = some line) (he : elementAt chars lines i line = some e) :
    e.startLine = i ∧ ElementOf lines e ∧ OpenToEnd lines e ∧ isBlank line = false := by
  unfold elementAt at he
  split at he
  · rename_i hheader
    obtain rfl := Option.some.inj he
    exact ⟨rfl, elementOf_header h, fun htype => absurd htype (by simp [extractHeader]),
      isBlank_of_isHeader hheader⟩
  · split at he
    · rename_i hfence
      obtain rfl := Option.some.inj he
      exact ⟨rfl, elementOf_element (reads_readCode (reads_singleton h) rfl),
        openToEnd_codeBlock h, isBlank_of_startsWith hfence (by decide)⟩
    · split at he
      · rename_i hitem
        obtain rfl := Option.some.inj he
        refine ⟨rfl, elementOf_element (reads_readLines_first _ h fun _ => ?_),
          fun htype => absurd htype (by simp [extractListBlock, element]), ?_⟩
        · simp only [hitem, Bool.true_or]
        · rcases Bool.or_eq_true_iff.mp hitem with hbullet | hnumber
          · exact isBlank_of_isBulletItem hbullet
          · exact isBlank_of_isNumberItem hnumber
      · split at he
        · rename_i hquote
          obtain rfl := Option.some.inj he
          exact ⟨rfl, elementOf_element (reads_readLines_first _ h fun _ => by simp [hquote]),
            fun htype => absurd htype (by simp [extractBlockquote, element]),
            isBlank_of_startsWith hquote (by decide)⟩
        · split at he
          · rename_i hblank
            obtain rfl := Option.some.inj he
            exact ⟨rfl, elementOf_element (reads_readLines _ (reads_singleton h) rfl),
              fun htype => absurd htype (by simp [extractTextBlock, element]),
              by simpa using hblank⟩
          · cases he

theorem isBlank_of_elementAt_eq_none (h : elementAt chars lines i line = none) :
    isBlank line = true := by
  unfold elementAt at h
  repeat' split at h
  all_goals simp_all

/-! ### The main loop -/

variable (chars lines)

/-- The main loop at line `i`; `emit` makes a section of an element. -/
def extractFrom {σ : Type} (emit : Element → σ) (i : ℕ) : List σ :=
  if h : i < lines.length then
    match hat : elementAt chars lines i lines[i] with
    | some e => emit e :: extractFrom emit (e.endLine + 1)
    | none => extractFrom emit (i + 1)
  else []
termination_by lines.length - i
decreasing_by
  · -- an element ends where it starts or later
    obtain ⟨hstart, helement, -⟩ := elementAt_spec (List.getElem?_eq_getElem h) hat
    have hle := helement.le
    omega
  · omega

/-- `extract_elements` with `include_meta`. -/
def extractElements : List Element :=
  (extractFrom chars lines id 0).filter fun section_ => !isBlank section_.content

/-- `extract_elements` without `include_meta`. -/
def extractContents : List Text :=
  (extractFrom chars lines Element.content 0).filter fun section_ => !isBlank section_

variable {chars lines}

theorem extractFrom_of_some {σ : Type} {emit : Element → σ} (h : i < lines.length)
    (he : elementAt chars lines i lines[i] = some e) :
    extractFrom chars lines emit i = emit e :: extractFrom chars lines emit (e.endLine + 1) := by
  rw [extractFrom, dif_pos h]
  split
  · rename_i hat
    rw [hat] at he
    rw [Option.some.inj he]
  · rename_i hat
    rw [hat] at he
    cases he

theorem extractFrom_of_none {σ : Type} {emit : Element → σ} (h : i < lines.length)
    (he : elementAt chars lines i lines[i] = none) :
    extractFrom chars lines emit i = extractFrom chars lines emit (i + 1) := by
  rw [extractFrom, dif_pos h]
  split
  · rename_i hat
    rw [hat] at he
    cases he
  · rfl

theorem extractFrom_of_le {σ : Type} {emit : Element → σ} (h : lines.length ≤ i) :
    extractFrom chars lines emit i = [] := by
  rw [extractFrom, dif_neg (by omega)]

/-- A line that is not blank. -/
def Filled (lines : List Text) (j : ℕ) : Prop := ∃ line ∈ lines[j]?, isBlank line = false

/-- The loop takes every line that is not blank, and its elements are made of their lines. -/
theorem covers_extractFrom (i : ℕ) :
    Covers lines.length (Filled lines) i
        ((extractFrom chars lines id i).map fun e => (e.startLine, e.endLine)) ∧
      (∀ e ∈ extractFrom chars lines id i, ElementOf lines e ∧ OpenToEnd lines e ∧
        Filled lines e.startLine) ∧
      extractFrom chars lines Element.content i =
        (extractFrom chars lines id i).map Element.content := by
  induction hn : lines.length - i using Nat.strong_induction_on generalizing i with
  | _ n ih =>
      by_cases h : i < lines.length
      · have hline : lines[i]? = some lines[i] := List.getElem?_eq_getElem h
        cases hat : elementAt chars lines i lines[i] with
        | some e =>
            obtain ⟨hstart, helement, hopen, hfilled⟩ := elementAt_spec hline hat
            have hle := helement.le
            obtain ⟨hcovers, helements, hcontents⟩ := ih _ (by omega) (e.endLine + 1) rfl
            rw [extractFrom_of_some h hat, extractFrom_of_some h hat, hcontents]
            refine ⟨?_, ?_, rfl⟩
            · rw [List.map_cons, id, hstart]
              exact hcovers.cons (hstart ▸ hle) helement.lt
            · intro e' he'
              rcases List.mem_cons.mp he' with rfl | he'
              · exact ⟨helement, hopen, hstart ▸ ⟨_, hline, hfilled⟩⟩
              · exact helements e' he'
        | none =>
            have hblank := isBlank_of_elementAt_eq_none hat
            obtain ⟨hcovers, helements, hcontents⟩ := ih _ (by omega) (i + 1) rfl
            rw [extractFrom_of_none h hat, extractFrom_of_none h hat]
            refine ⟨hcovers.skip ?_, helements, hcontents⟩
            rintro ⟨line, hmem, hfilled⟩
            rw [hline, Option.mem_some_iff] at hmem
            subst hmem
            simp [hblank] at hfilled
      · rw [extractFrom_of_le (by omega), extractFrom_of_le (by omega)]
        exact ⟨.nil (by omega), by simp, rfl⟩

/-- An element is not blank, since its first line is not. -/
theorem isBlank_content (h : ElementOf lines e) (hfilled : Filled lines e.startLine) :
    isBlank e.content = false := by
  obtain ⟨line, hline, hblank⟩ := hfilled
  obtain ⟨hlt, rfl⟩ := List.getElem?_eq_some_iff.mp hline
  have hne : strip lines[e.startLine] ≠ [] := by simpa [isBlank] using hblank
  rw [ne_eq, strip_eq_nil_iff] at hne
  push Not at hne
  obtain ⟨c, hc, hspace⟩ := hne
  refine isBlank_eq_false (c := c) ?_ (by simpa using hspace)
  have hle := h.le
  have hcount : e.endLine + 1 - e.startLine = e.endLine - e.startLine + 1 := by omega
  rw [h.content, hcount, List.drop_eq_getElem_cons hlt, List.take_succ_cons]
  exact mem_intercalate_of_mem _ List.mem_cons_self hc

/-- So no element is left out at the end. -/
theorem extractElements_eq : extractElements chars lines = extractFrom chars lines id 0 := by
  refine List.filter_eq_self.mpr fun e he => ?_
  obtain ⟨helement, -, hfilled⟩ := (covers_extractFrom 0).2.1 e he
  rw [isBlank_content helement hfilled]
  rfl

theorem extractContents_eq :
    extractContents chars lines = (extractElements chars lines).map Element.content := by
  have hcontents : extractFrom chars lines Element.content 0 = _ := (covers_extractFrom 0).2.2
  rw [extractElements, extractContents, hcontents, List.filter_map]
  rfl

/-- The elements are a partition of the text: their ranges are in order and apart and contain
every line that is not blank, their contents are the lines of their ranges, and code that is
never closed goes on to the end. -/
theorem extractElements_partition (chars : CharClasses) (lines : List Text) :
    Covers lines.length (Filled lines) 0
        ((extractElements chars lines).map fun e => (e.startLine, e.endLine)) ∧
      (∀ e ∈ extractElements chars lines, ElementOf lines e ∧ OpenToEnd lines e) ∧
      extractContents chars lines = (extractElements chars lines).map Element.content := by
  refine ⟨?_, ?_, extractContents_eq⟩
  · rw [extractElements_eq]
    exact (covers_extractFrom 0).1
  · intro e he
    rw [extractElements_eq] at he
    obtain ⟨helement, hopen, -⟩ := (covers_extractFrom 0).2.1 e he
    exact ⟨helement, hopen⟩

end RagFlow.Chunking.Markdown
