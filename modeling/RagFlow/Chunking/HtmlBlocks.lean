/-
# Blocks of an HTML page

A page is read into items, which carry the id of the block element that they are in, if any.
Items of one block are joined to one text, and so are those that no block encloses: they are
added to the text that is being collected. What is collected before the first block starts is
not written out when it does.
-/

import RagFlow.Math.Separator
import RagFlow.Chunking.Text
import Mathlib.Data.List.TakeWhile

namespace RagFlow.Chunking.Html

open RagFlow.Math

universe u

/-- An item of `read_text_recursively`: its content is stripped and not empty, and a table has
no block id. -/
structure Item (ι : Type u) where
  content : Text
  tagName : String
  blockId : Option ι
  content_ne : content ≠ []
  table_loose : tagName = "table" → blockId = none

/-- `TITLE_TAGS` -/
def titleTags : String → Option Text
  | "h1" => some ['#']
  | "h2" => some ['#', '#']
  | "h3" => some ['#', '#', '#']
  | "h4" => some ['#', '#', '#', '#']
  | "h5" => some ['#', '#', '#', '#', '#']
  | "h6" => some ['#', '#', '#', '#', '#', '#']
  | _ => none

variable {ι : Type u}

namespace Item

/-- The content as it goes into a block: a title in a block has its marks in front. -/
def text (item : Item ι) : Text :=
  match item.blockId, titleTags item.tagName with
  | some _, some marks => marks ++ [' '] ++ item.content
  | _, _ => item.content

def isTable (item : Item ι) : Bool := item.tagName = "table"

theorem text_ne_nil (item : Item ι) : item.text ≠ [] := by
  unfold text
  split
  · simp
  · exact item.content_ne

end Item

/-! ### Merging -/

/-- The variables of `merge_block_text`. -/
structure Merge (ι : Type u) where
  blockContent : List Text
  currentContent : Text
  tableInfoList : List (Item ι)
  lastBlockId : Option ι

namespace Merge

variable [DecidableEq ι]

def start : Merge ι where
  blockContent := []
  currentContent := []
  tableInfoList := []
  lastBlockId := none

/-- One turn of the loop. -/
def step (m : Merge ι) (item : Item ι) : Merge ι :=
  match item.blockId with
  | some blockId =>
      if m.lastBlockId ≠ some blockId then
        { m with
          blockContent :=
            if m.lastBlockId.isSome then m.blockContent ++ [m.currentContent] else m.blockContent
          currentContent := item.text
          lastBlockId := some blockId }
      else
        { m with currentContent := glue [' '] m.currentContent item.text }
  | none =>
      if item.isTable then
        { m with tableInfoList := m.tableInfoList ++ [item] }
      else
        { m with currentContent := glue [' '] m.currentContent item.text }

end Merge

/-- `merge_block_text` -/
def mergeBlockText [DecidableEq ι] (parserResult : List (Item ι)) : List Text × List (Item ι) :=
  let m := parserResult.foldl Merge.step Merge.start
  (if m.currentContent ≠ [] then m.blockContent ++ [m.currentContent] else m.blockContent,
    m.tableInfoList)

/-! ### Chunking -/

section Chunk

variable (tokenize : Text → Text) (chunkTokenNum : ℕ)

/-- `tks_str.split(" ")` -/
def tokensOf (block : Text) : List Text := (tokenize block).splitOn ' '

def blockTokenCount (block : Text) : ℕ :=
  if tokenize block = [] then 0 else (tokensOf tokenize block).length

/-- The `while` loop through the tokens of a block, with enough `fuel`. -/
def splitTokens : ℕ → List Text → List Text
  | 0, _ => []
  | fuel + 1, tokens =>
      if tokens = [] then []
      else
        [' '].intercalate (tokens.take chunkTokenNum) ::
          splitTokens fuel (tokens.drop chunkTokenNum)

/-- The variables of `chunk_block`. -/
structure Chunks where
  chunks : List Text
  currentBlock : Text
  currentTokenCount : ℕ

namespace Chunks

/-- One turn of the loop. -/
def step (c : Chunks) (block : Text) : Chunks :=
  let count := blockTokenCount tokenize block
  if chunkTokenNum < count then
    let tokens := tokensOf tokenize block
    { chunks := (if c.currentBlock ≠ [] then c.chunks ++ [c.currentBlock] else c.chunks) ++
        splitTokens chunkTokenNum tokens.length tokens
      currentBlock := []
      currentTokenCount := 0 }
  else if c.currentTokenCount + count ≤ chunkTokenNum then
    { c with
      currentBlock := glue ['\n'] c.currentBlock block
      currentTokenCount := c.currentTokenCount + count }
  else
    { chunks := c.chunks ++ [c.currentBlock]
      currentBlock := block
      currentTokenCount := count }

end Chunks

/-- `chunk_block` -/
def chunkBlock (blockTxtList : List Text) : List Text :=
  let c := blockTxtList.foldl (Chunks.step tokenize chunkTokenNum) ⟨[], [], 0⟩
  if c.currentBlock ≠ [] then c.chunks ++ [c.currentBlock] else c.chunks

end Chunk

/-! ### What merging keeps -/

variable {items : List (Item ι)}

/-- The texts and titles. -/
def textsOf (items : List (Item ι)) : List Text :=
  (items.filter fun item => !item.isTable).map Item.text

@[simp]
theorem textsOf_append (items items' : List (Item ι)) :
    textsOf (items ++ items') = textsOf items ++ textsOf items' := by
  simp [textsOf]

theorem textsOf_singleton {item : Item ι} (h : item.isTable = false) :
    textsOf [item] = [item.text] := by
  simp [textsOf, h]

theorem textsOf_table {item : Item ι} (h : item.isTable = true) : textsOf [item] = [] := by
  simp [textsOf, h]

/-- What stands before the first block. -/
def leading (items : List (Item ι)) : List (Item ι) := items.takeWhile (·.blockId.isNone)

/-- From the first block on. -/
def enclosed (items : List (Item ι)) : List (Item ι) := items.dropWhile (·.blockId.isNone)

variable [DecidableEq ι]

/-- Before the first block, one text is collected; then one text for each block that has
started. -/
structure Collected (items : List (Item ι)) (m : Merge ι) : Prop where
  tables : m.tableInfoList = items.filter Item.isTable
  before : m.lastBlockId = none → enclosed items = [] ∧ m.blockContent = [] ∧
    m.currentContent = [' '].intercalate (textsOf items)
  within : m.lastBlockId ≠ none → enclosed items ≠ [] ∧ ∃ kept group,
    textsOf (enclosed items) = kept ++ group ∧ group ≠ [] ∧
      Joined [' '] kept m.blockContent ∧ m.currentContent = [' '].intercalate group

omit [DecidableEq ι] in
theorem ne_nil_of_mem_textsOf {t : Text} (h : t ∈ textsOf items) : t ≠ [] := by
  obtain ⟨item, -, rfl⟩ := List.mem_map.mp h
  exact item.text_ne_nil

omit [DecidableEq ι] in
theorem isTable_of_blockId {item : Item ι} {b : ι} (h : item.blockId = some b) :
    item.isTable = false := by
  have hne : item.tagName ≠ "table" := fun htag => by simp [item.table_loose htag] at h
  simpa [Item.isTable] using hne

omit [DecidableEq ι] in
theorem enclosed_append_singleton (items : List (Item ι)) (item : Item ι) :
    enclosed (items ++ [item]) =
      if enclosed items = [] then
        if item.blockId = none then [] else [item]
      else enclosed items ++ [item] := by
  unfold enclosed
  rw [List.dropWhile_append]
  by_cases hnil : items.dropWhile (·.blockId.isNone) = []
  · cases hid : item.blockId <;> simp [hnil, hid]
  · simp [hnil]

/-- An item of a block starts a text of its own, or goes on with that of its block. -/
theorem Collected.step_block {m : Merge ι} (h : Collected items m) {item : Item ι} {b : ι}
    (hid : item.blockId = some b) : Collected (items ++ [item]) (m.step item) := by
  have htable := isTable_of_blockId hid
  have htables : m.tableInfoList = (items ++ [item]).filter Item.isTable := by
    rw [List.filter_append, h.tables]
    simp [htable]
  by_cases hlast : m.lastBlockId = none
  · obtain ⟨henclosed, hcontent, -⟩ := h.before hlast
    have hstep : m.step item =
        { m with currentContent := item.text, lastBlockId := some b } := by
      simp [Merge.step, hid, hlast]
    have hnow : enclosed (items ++ [item]) = [item] := by
      simp [enclosed_append_singleton, henclosed, hid]
    rw [hstep]
    refine ⟨htables, by simp, fun _ => ⟨by simp [hnow], [], [item.text], ?_, by simp, ?_, ?_⟩⟩
    · rw [hnow, textsOf_singleton htable]
      rfl
    · simp only [hcontent]
      exact joined_nil
    · simp
  · obtain ⟨henclosed, kept, group, htexts, hgroup, hjoined, hcurrent⟩ := h.within hlast
    have hnow : textsOf (enclosed (items ++ [item])) = kept ++ group ++ [item.text] := by
      rw [enclosed_append_singleton, if_neg henclosed, textsOf_append, htexts,
        textsOf_singleton htable]
    have hne : enclosed (items ++ [item]) ≠ [] := by
      simp [enclosed_append_singleton, henclosed]
    by_cases hsame : m.lastBlockId = some b
    · have hstep : m.step item =
          { m with currentContent := glue [' '] m.currentContent item.text } := by
        simp [Merge.step, hid, hsame]
      rw [hstep]
      refine ⟨htables, fun hnone => absurd hnone hlast, fun _ => ⟨hne, kept, group ++ [item.text],
        by rw [hnow, List.append_assoc], by simp, hjoined, ?_⟩⟩
      have hparts : ∀ t ∈ group, t ≠ [] := fun t ht =>
        ne_nil_of_mem_textsOf (htexts ▸ List.mem_append_right kept ht)
      simp only
      rw [hcurrent, glue_intercalate hparts]
    · have hstep : m.step item = { m with
          blockContent := m.blockContent ++ [m.currentContent]
          currentContent := item.text
          lastBlockId := some b } := by
        simp [Merge.step, hid, hsame, Option.isSome_iff_ne_none.mpr hlast]
      rw [hstep]
      refine ⟨htables, by simp, fun _ => ⟨hne, kept ++ group, [item.text], hnow, by simp, ?_,
        by simp⟩⟩
      simp only [hcurrent]
      exact hjoined.snoc hgroup

/-- An item of no block is a table, or goes on with what is being collected. -/
theorem Collected.step_loose {m : Merge ι} (h : Collected items m) {item : Item ι}
    (hid : item.blockId = none) : Collected (items ++ [item]) (m.step item) := by
  by_cases htable : item.isTable
  · have hstep : m.step item = { m with tableInfoList := m.tableInfoList ++ [item] } := by
      simp [Merge.step, hid, htable]
    have htexts : textsOf (enclosed (items ++ [item])) = textsOf (enclosed items) := by
      rw [enclosed_append_singleton]
      split
      · simp_all
      · rw [textsOf_append, textsOf_table htable, List.append_nil]
    rw [hstep]
    refine ⟨by simp [h.tables, htable], fun hlast => ?_, fun hlast => ?_⟩
    · obtain ⟨henclosed, hcontent, hcurrent⟩ := h.before hlast
      refine ⟨by simp [enclosed_append_singleton, henclosed, hid], hcontent, ?_⟩
      rw [textsOf_append, textsOf_table htable, List.append_nil]
      exact hcurrent
    · obtain ⟨henclosed, hrest⟩ := h.within hlast
      refine ⟨by simp [enclosed_append_singleton, henclosed], ?_⟩
      rw [htexts]
      exact hrest
  · have htable := Bool.eq_false_iff.mpr htable
    have hstep : m.step item =
        { m with currentContent := glue [' '] m.currentContent item.text } := by
      simp [Merge.step, hid, htable]
    rw [hstep]
    refine ⟨by simp [h.tables, htable], fun hlast => ?_, fun hlast => ?_⟩
    · obtain ⟨henclosed, hcontent, hcurrent⟩ := h.before hlast
      refine ⟨by simp [enclosed_append_singleton, henclosed, hid], hcontent, ?_⟩
      simp only
      rw [hcurrent, glue_intercalate fun t ht => ne_nil_of_mem_textsOf ht, textsOf_append,
        textsOf_singleton htable]
    · obtain ⟨henclosed, kept, group, htexts, hgroup, hjoined, hcurrent⟩ := h.within hlast
      refine ⟨by simp [enclosed_append_singleton, henclosed], kept, group ++ [item.text], ?_,
        by simp, hjoined, ?_⟩
      · rw [enclosed_append_singleton, if_neg henclosed, textsOf_append, htexts,
          textsOf_singleton htable, List.append_assoc]
      · have hparts : ∀ t ∈ group, t ≠ [] := fun t ht =>
          ne_nil_of_mem_textsOf (htexts ▸ List.mem_append_right kept ht)
        simp only
        rw [hcurrent, glue_intercalate hparts]

theorem collected_foldl (items : List (Item ι)) :
    Collected items (items.foldl Merge.step Merge.start) := by
  induction items using List.reverseRecOn with
  | nil => exact ⟨rfl, fun _ => ⟨rfl, rfl, rfl⟩, fun h => absurd rfl h⟩
  | append_singleton items item ih =>
      rw [List.foldl_append, List.foldl_cons, List.foldl_nil]
      cases hid : item.blockId with
      | none => exact ih.step_loose hid
      | some b => exact ih.step_block hid

/-- What is written out: all texts where there is no block, else those from the first block
on. -/
theorem joined_mergeBlockText (items : List (Item ι)) :
    Joined [' '] (textsOf (if enclosed items = [] then items else enclosed items))
      (mergeBlockText items).1 := by
  have h := collected_foldl items
  unfold mergeBlockText
  generalize items.foldl Merge.step Merge.start = m at h ⊢
  by_cases hlast : m.lastBlockId = none
  · obtain ⟨henclosed, hcontent, hcurrent⟩ := h.before hlast
    have hparts : ∀ t ∈ textsOf items, t ≠ [] := fun t ht => ne_nil_of_mem_textsOf ht
    simp only [if_pos henclosed, hcontent, hcurrent]
    by_cases hnil : textsOf items = []
    · rw [hnil]
      exact joined_nil
    · rw [if_pos (mt (intercalate_eq_nil_iff hparts).mp hnil)]
      exact joined_nil.snoc hnil
  · obtain ⟨henclosed, kept, group, htexts, hgroup, hjoined, hcurrent⟩ := h.within hlast
    have hparts : ∀ t ∈ group, t ≠ [] := fun t ht =>
      ne_nil_of_mem_textsOf (htexts ▸ List.mem_append_right kept ht)
    simp only [if_neg henclosed, htexts, hcurrent]
    rw [if_pos (mt (intercalate_eq_nil_iff hparts).mp hgroup)]
    exact hjoined.snoc hgroup

theorem mergeBlockText_tables (items : List (Item ι)) :
    (mergeBlockText items).2 = items.filter Item.isTable :=
  (collected_foldl items).tables

/-- No item has a block, or only tables stand before the first one that has. -/
def NothingLoose (items : List (Item ι)) : Prop :=
  (∀ item ∈ items, item.blockId = none) ∨ ∀ item ∈ leading items, item.tagName = "table"

theorem joined_mergeBlockText_iff (items : List (Item ι)) :
    Joined [' '] (textsOf items) (mergeBlockText items).1 ↔ NothingLoose items := by
  have hjoined := joined_mergeBlockText items
  have hsplit : items = leading items ++ enclosed items :=
    List.takeWhile_append_dropWhile.symm
  have hnone : enclosed items = [] ↔ ∀ item ∈ items, item.blockId = none := by
    simp [enclosed, List.dropWhile_eq_nil_iff]
  have hleading : textsOf (leading items) = [] ↔
      ∀ item ∈ leading items, item.tagName = "table" := by
    simp [textsOf, Item.isTable]
  unfold NothingLoose
  rw [← hnone, ← hleading]
  by_cases henclosed : enclosed items = []
  · rw [if_pos henclosed] at hjoined
    simp [henclosed, hjoined]
  · rw [if_neg henclosed] at hjoined
    have htexts : textsOf items = textsOf (leading items) ++ textsOf (enclosed items) := by
      rw [← textsOf_append, ← hsplit]
    simp only [henclosed, false_or]
    constructor
    · intro h
      rw [htexts] at h
      exact hjoined.eq_nil_of_append (by simp) h
    · intro h
      rwa [htexts, h, List.nil_append]

/-! ### What chunking keeps -/

section Chunk

variable (tokenize : Text → Text) (chunkTokenNum : ℕ)

/-- The chunks are made of the blocks in order: some blocks together, of not too many tokens,
or the tokens of one block of too many in pieces. -/
inductive Chunked : List Text → List Text → Prop
  | nil : Chunked [] []
  | whole {group blocks chunks : List Text} (hne : group ≠ [])
      (hcount : (group.map (blockTokenCount tokenize)).sum ≤ chunkTokenNum)
      (h : Chunked blocks chunks) :
      Chunked (group ++ blocks) (['\n'].intercalate group :: chunks)
  | cut {block : Text} {parts : List (List Text)} {blocks chunks : List Text}
      (hcount : chunkTokenNum < blockTokenCount tokenize block)
      (hparts : parts.flatten = tokensOf tokenize block)
      (hlength : ∀ p ∈ parts, p ≠ [] ∧ p.length ≤ chunkTokenNum)
      (h : Chunked blocks chunks) :
      Chunked (block :: blocks) (parts.map [' '].intercalate ++ chunks)

variable {tokenize chunkTokenNum}

theorem Chunked.append {blocks blocks' chunks chunks' : List Text}
    (h : Chunked tokenize chunkTokenNum blocks chunks)
    (h' : Chunked tokenize chunkTokenNum blocks' chunks') :
    Chunked tokenize chunkTokenNum (blocks ++ blocks') (chunks ++ chunks') := by
  induction h with
  | nil => exact h'
  | whole hne hcount _ ih =>
      rw [List.append_assoc]
      exact .whole hne hcount ih
  | cut hcount hparts hlength _ ih =>
      rw [List.append_assoc]
      exact .cut hcount hparts hlength ih

theorem Chunked.snoc {blocks chunks group : List Text}
    (h : Chunked tokenize chunkTokenNum blocks chunks) (hne : group ≠ [])
    (hcount : (group.map (blockTokenCount tokenize)).sum ≤ chunkTokenNum) :
    Chunked tokenize chunkTokenNum (blocks ++ group) (chunks ++ [['\n'].intercalate group]) := by
  refine h.append ?_
  have hlast : Chunked tokenize chunkTokenNum (group ++ []) [['\n'].intercalate group] :=
    .whole hne hcount .nil
  rwa [List.append_nil] at hlast

/-- The pieces of a block: consecutive tokens, at most as many as a chunk may have. -/
theorem exists_splitTokens (hpos : 1 ≤ chunkTokenNum) (fuel : ℕ) (tokens : List Text)
    (hfuel : tokens.length ≤ fuel) :
    ∃ parts : List (List Text), parts.flatten = tokens ∧
      (∀ p ∈ parts, p ≠ [] ∧ p.length ≤ chunkTokenNum) ∧
      splitTokens chunkTokenNum fuel tokens = parts.map [' '].intercalate := by
  induction fuel generalizing tokens with
  | zero => exact ⟨[], (List.length_eq_zero_iff.mp (Nat.le_zero.mp hfuel)).symm, by simp, rfl⟩
  | succ fuel ih =>
      rw [splitTokens]
      by_cases hnil : tokens = []
      · exact ⟨[], hnil.symm, by simp, if_pos hnil⟩
      · have hlength := List.length_pos_iff.mpr hnil
        obtain ⟨parts, hflatten, hparts, hsplit⟩ := ih (tokens.drop chunkTokenNum) (by
          rw [List.length_drop]
          omega)
        refine ⟨tokens.take chunkTokenNum :: parts, ?_, ?_, ?_⟩
        · rw [List.flatten_cons, hflatten, List.take_append_drop]
        · intro p hp
          rcases List.mem_cons.mp hp with rfl | hp
          · refine ⟨?_, List.length_take_le _ _⟩
            rw [ne_eq, List.take_eq_nil_iff]
            rintro (hzero | hnil')
            · omega
            · exact hnil hnil'
          · exact hparts p hp
        · rw [if_neg hnil, hsplit, List.map_cons]

/-- The blocks so far are in chunks, but for the last ones, which are being collected. -/
def Collecting (tokenize : Text → Text) (chunkTokenNum : ℕ) (blocks : List Text) (c : Chunks) :
    Prop :=
  ∃ kept group, blocks = kept ++ group ∧ Chunked tokenize chunkTokenNum kept c.chunks ∧
    c.currentBlock = ['\n'].intercalate group ∧
    c.currentTokenCount = (group.map (blockTokenCount tokenize)).sum ∧
    c.currentTokenCount ≤ chunkTokenNum

/-- What is being collected can be written out. -/
theorem Collecting.close {blocks : List Text} {c : Chunks}
    (h : Collecting tokenize chunkTokenNum blocks c) (hblocks : ∀ b ∈ blocks, b ≠ []) :
    Chunked tokenize chunkTokenNum blocks
      (if c.currentBlock ≠ [] then c.chunks ++ [c.currentBlock] else c.chunks) := by
  obtain ⟨kept, group, rfl, hchunked, hcurrent, hcount, hle⟩ := h
  have hparts : ∀ t ∈ group, t ≠ [] := fun t ht => hblocks t (List.mem_append_right kept ht)
  simp only [hcurrent, ne_eq, intercalate_eq_nil_iff hparts]
  by_cases hnil : group = []
  · subst hnil
    simpa using hchunked
  · rw [if_pos hnil]
    exact hchunked.snoc hnil (hcount ▸ hle)

theorem Collecting.step (hpos : 1 ≤ chunkTokenNum) {blocks : List Text} {c : Chunks}
    (h : Collecting tokenize chunkTokenNum blocks c) (hblocks : ∀ b ∈ blocks, b ≠ [])
    (block : Text) :
    Collecting tokenize chunkTokenNum (blocks ++ [block])
      (c.step tokenize chunkTokenNum block) := by
  unfold Chunks.step
  by_cases hlarge : chunkTokenNum < blockTokenCount tokenize block
  · have hclosed := h.close hblocks
    obtain ⟨parts, hflatten, hparts, hsplit⟩ :=
      exists_splitTokens hpos (tokensOf tokenize block).length (tokensOf tokenize block) le_rfl
    simp only [if_pos hlarge, hsplit]
    refine ⟨blocks ++ [block], [], by simp, hclosed.append ?_, rfl, rfl, Nat.zero_le _⟩
    have hcut := Chunked.cut hlarge hflatten hparts .nil
    rwa [List.append_nil] at hcut
  · simp only [if_neg hlarge]
    obtain ⟨kept, group, hsplit, hchunked, hcurrent, hcount, hle⟩ := h
    have hparts : ∀ t ∈ group, t ≠ [] := fun t ht =>
      hblocks t (hsplit ▸ List.mem_append_right kept ht)
    split
    · rename_i hfits
      refine ⟨kept, group ++ [block], by rw [hsplit, List.append_assoc], hchunked, ?_, ?_, hfits⟩
      · simp only
        rw [hcurrent, glue_intercalate hparts]
      · simp [hcount]
    · rename_i hfull
      have hne : group ≠ [] := by
        rintro rfl
        simp only [List.map_nil, List.sum_nil] at hcount
        omega
      refine ⟨kept ++ group, [block], by rw [hsplit], ?_, by simp, by simp, Nat.le_of_not_lt hlarge⟩
      simp only [hcurrent]
      exact hchunked.snoc hne (hcount ▸ hle)

theorem chunked_chunkBlock (hpos : 1 ≤ chunkTokenNum) (blocks : List Text)
    (hblocks : ∀ b ∈ blocks, b ≠ []) :
    Chunked tokenize chunkTokenNum blocks (chunkBlock tokenize chunkTokenNum blocks) := by
  have hcollecting : Collecting tokenize chunkTokenNum blocks
      (blocks.foldl (Chunks.step tokenize chunkTokenNum) ⟨[], [], 0⟩) := by
    induction blocks using List.reverseRecOn with
    | nil => exact ⟨[], [], rfl, .nil, rfl, rfl, Nat.zero_le _⟩
    | append_singleton blocks block ih =>
        have hinit : ∀ b ∈ blocks, b ≠ [] := fun b hb => hblocks b (List.mem_append_left _ hb)
        rw [List.foldl_append, List.foldl_cons, List.foldl_nil]
        exact (ih hinit).step hpos hinit block
  exact hcollecting.close hblocks

end Chunk

/-! ### The whole -/

/-- Every text and title is in the blocks once and in order, and every table in the list of
tables; and blocks are in the chunks once and in order, with at most the number of tokens that
is allowed. -/
def Conserved (tokenize : Text → Text) (items : List (Item ι)) : Prop :=
  Joined [' '] (textsOf items) (mergeBlockText items).1 ∧
    (mergeBlockText items).2 = items.filter Item.isTable ∧
    ∀ chunkTokenNum, 1 ≤ chunkTokenNum → ∀ blocks : List Text, (∀ b ∈ blocks, b ≠ []) →
      Chunked tokenize chunkTokenNum blocks (chunkBlock tokenize chunkTokenNum blocks)

/-- Texts are conserved exactly if none stands before the first block. -/
theorem conserved_iff (tokenize : Text → Text) (items : List (Item ι)) :
    Conserved tokenize items ↔ NothingLoose items := by
  refine (and_iff_left ⟨mergeBlockText_tables items, ?_⟩).trans (joined_mergeBlockText_iff items)
  intro chunkTokenNum hpos blocks hblocks
  exact chunked_chunkBlock hpos blocks hblocks

/-- `<body>Hello<p>World</p></body>` -/
def looseThenBlock : List (Item ℕ) :=
  [{ content := "Hello".toList, tagName := "body", blockId := none,
     content_ne := by decide, table_loose := fun _ => rfl },
   { content := "World".toList, tagName := "p", blockId := some 0,
     content_ne := by decide, table_loose := by decide }]

theorem not_conserved_looseThenBlock :
    mergeBlockText looseThenBlock = (["World".toList], []) ∧
      ¬ Conserved (fun t => t) looseThenBlock := by
  refine ⟨rfl, fun h => ?_⟩
  have hloose := (joined_mergeBlockText_iff looseThenBlock).mp h.1
  simp [NothingLoose, leading, looseThenBlock] at hloose

end RagFlow.Chunking.Html
