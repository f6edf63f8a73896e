/-
# The knowledge in a prompt

Retrieved chunks go into the prompt as long as their tokens fit, each with its place in the
list as its id. How many there are is counted over the chunks that have content, the one that
goes over the limit included, and as many are taken from the front of the whole list.
-/

import RagFlow.Math.Double
import RagFlow.Math.Except
import RagFlow.Chunking.Text
import Mathlib.Data.List.TakeWhile

namespace RagFlow.Chat

open RagFlow.Math
open RagFlow.Chunking (Text)

/-- What `kb_prompt` reads of a chunk; a value is `none` where it is missing or `None`. -/
structure KbChunk where
  content : Option Text
  documentName : Option Text
  url : Option Text
  docId : Option Text
  id : Option Text

/-- `if not c` is false. -/
def hasContent (ck : KbChunk) : Bool := ck.content.any fun c => c ≠ []

/-- `re.sub(r"\\n+", " ", line)`; `inRun` is true behind a line break. -/
def joinLines (inRun : Bool) : Text → Text
  | [] => []
  | '\n' :: cs => if inRun then joinLines true cs else ' ' :: joinLines true cs
  | c :: cs => c :: joinLines false cs

def drawNode (k : Text) (line : Option Text) : Text :=
  match line with
  | none => []
  | some [] => []
  | some line => "\n├── ".toList ++ k ++ ": ".toList ++ joinLines false line

/-- What the prompt is made from besides the chunks: the metadata of documents, as texts, and
the numbers that stand for ids. -/
structure KbSource where
  metadata : Option Text → List (Text × Option Text)
  hashStr2int : Text → ℕ

variable (src : KbSource)

/-- The block of a chunk; `none` is an exception. -/
def block (hashId : Bool) (i : ℕ) (ck : KbChunk) : Option Text := do
  let label ← if hashId then ck.id.map src.hashStr2int else some i
  let content ← ck.content
  some ("\nID: ".toList ++ Nat.toDigits 10 label ++ drawNode "Title".toList ck.documentName ++
    drawNode "URL".toList ck.url ++
    ((src.metadata ck.docId).flatMap fun kv => drawNode kv.1 kv.2) ++
    "\n└── Content:\n".toList ++ content)

/-- `max_tokens * 0.97` in double precision. -/
def tokenLimit (maxTokens : ℤ) : ℚ :=
  binary64.nearest (binary64.nearest maxTokens * binary64.nearest (97 / 100))

variable (numTokens : Text → ℕ)

/-- The tokens of a chunk, if it has content. -/
def chunkTokens (ck : KbChunk) : ℕ := if hasContent ck then ck.content.elim 0 numTokens else 0

/-- The loop that counts `chunks_num`. -/
def countChunks (limit : ℚ) : ℕ → List KbChunk → ℕ
  | _, [] => 0
  | used, ck :: cks =>
      if hasContent ck then
        let used := used + chunkTokens numTokens ck
        if limit < used then 1 else countChunks limit used cks + 1
      else countChunks limit used cks

/-- `kb_prompt`; `none` is an exception. -/
def kbPrompt (chunks : List KbChunk) (maxTokens : ℤ) (hashId : Bool) : Option (List Text) :=
  let chunksNum := countChunks numTokens (tokenLimit maxTokens) 0 chunks
  (chunks.take chunksNum).zipIdx.mapM fun (ck, i) => block src hashId i ck

/-! ### What is promised -/

/-- The tokens of all contents. -/
def totalTokens (chunks : List KbChunk) : ℕ := (chunks.map (chunkTokens numTokens)).sum

/-- The first `n` chunks fit, and no longer part of the list does. If nothing fits, `n` is 0. -/
structure LongestFitting (chunks : List KbChunk) (limit : ℚ) (n : ℕ) : Prop where
  le : n ≤ chunks.length
  fits : n = 0 ∨ (totalTokens numTokens (chunks.take n) : ℚ) ≤ limit
  longest : ∀ m, n < m → m ≤ chunks.length → limit < totalTokens numTokens (chunks.take m)

/-- The chunks of a prefix that have content, with their places. -/
def numbered (chunks : List KbChunk) : List (KbChunk × ℕ) :=
  chunks.zipIdx.filter fun p => hasContent p.1

/-- The prompt has one block for each chunk with content in the longest prefix that fits, with
its place in the list as its id. -/
def PromptsLongest (chunks : List KbChunk) (maxTokens : ℤ) : Prop :=
  ∃ n, LongestFitting numTokens chunks (tokenLimit maxTokens) n ∧
    ∃ blocks, kbPrompt src numTokens chunks maxTokens false = some blocks ∧
      (numbered (chunks.take n)).mapM (fun (ck, i) => block src false i ck) = some blocks

/-- All contents fit, and the chunks without content are the last ones. -/
def AllFit (chunks : List KbChunk) (maxTokens : ℤ) : Prop :=
  ((∀ ck ∈ chunks, hasContent ck = false) ∨
    (totalTokens numTokens chunks : ℚ) ≤ tokenLimit maxTokens) ∧
  ∃ k, (∀ ck ∈ chunks.take k, hasContent ck) ∧ ∀ ck ∈ chunks.drop k, hasContent ck = false

/-! ### Labels -/

/-- A text that is empty or starts a new line. -/
def StartsLine (t : Text) : Prop := ∀ c ∈ t.head?, c = '\n'

theorem StartsLine.append {t u : Text} (ht : StartsLine t) (hu : StartsLine u) :
    StartsLine (t ++ u) := by
  cases t with
  | nil => exact hu
  | cons c t => exact ht

theorem startsLine_drawNode (k : Text) (line : Option Text) : StartsLine (drawNode k line) := by
  unfold drawNode
  split
  · simp [StartsLine]
  · simp [StartsLine]
  · intro c hc
    have hhead : some '\n' = some c := hc
    exact (Option.some.inj hhead).symm

theorem startsLine_flatMap {β : Type} (l : List β) (f : β → Text) (h : ∀ b, StartsLine (f b)) :
    StartsLine (l.flatMap f) := by
  induction l with
  | nil => simp [StartsLine]
  | cons b l ih => exact (h b).append ih

variable {src : KbSource} {numTokens : Text → ℕ} {chunks : List KbChunk} {maxTokens : ℤ}
  {limit : ℚ} {ck ck' : KbChunk} {i j n : ℕ}

/-- What stands behind the label of a block. -/
theorem exists_block_tail {t : Text} (h : block src false i ck = some t) :
    ∃ tail, StartsLine tail ∧ t = "\nID: ".toList ++ (Nat.toDigits 10 i ++ tail) := by
  cases hcontent : ck.content with
  | none => simp [block, hcontent] at h
  | some content =>
      refine ⟨drawNode "Title".toList ck.documentName ++ (drawNode "URL".toList ck.url ++
        (((src.metadata ck.docId).flatMap fun kv => drawNode kv.1 kv.2) ++
          ("\n└── Content:\n".toList ++ content))), ?_, ?_⟩
      · refine (startsLine_drawNode _ _).append ((startsLine_drawNode _ _).append
          ((startsLine_flatMap _ _ fun kv => startsLine_drawNode _ _).append ?_))
        intro c hc
        have hhead : some '\n' = some c := hc
        exact (Option.some.inj hhead).symm
      · simpa [block, hcontent] using h.symm

theorem takeWhile_digits_append {tail : Text} (h : StartsLine tail) (i : ℕ) :
    (Nat.toDigits 10 i ++ tail).takeWhile Char.isDigit = Nat.toDigits 10 i := by
  have hdigits : ∀ c ∈ Nat.toDigits 10 i, c.isDigit := fun c hc =>
    Nat.isDigit_of_mem_toDigits (by decide) (by decide) hc
  have htail : tail.takeWhile Char.isDigit = [] := by
    cases tail with
    | nil => rfl
    | cons c tail =>
        obtain rfl : c = '\n' := h c rfl
        rfl
  rw [List.takeWhile_append_of_pos hdigits, htail, List.append_nil]

/-- The number that a block is labelled with. -/
def labelOf (t : Text) : ℕ := Nat.ofDigitChars 10 ((t.drop 5).takeWhile Char.isDigit) 0

theorem labelOf_block {t : Text} (h : block src false i ck = some t) : labelOf t = i := by
  obtain ⟨tail, htail, rfl⟩ := exists_block_tail h
  have hdrop : ("\nID: ".toList ++ (Nat.toDigits 10 i ++ tail)).drop 5 =
      Nat.toDigits 10 i ++ tail := rfl
  rw [labelOf, hdrop, takeWhile_digits_append htail, Nat.ofDigitChars_ten_toDigits]

theorem map_snd_of_blocks {ps : List (KbChunk × ℕ)} {blocks : List Text}
    (h : ps.mapM (fun (ck, i) => block src false i ck) = some blocks) :
    ps.map Prod.snd = blocks.map labelOf := by
  have hforall := mapM_eq_some_iff.mp h
  induction hforall with
  | nil => rfl
  | cons hblock hrest ih =>
      rw [List.map_cons, List.map_cons, ih (mapM_eq_some_iff.mpr hrest), labelOf_block hblock]

theorem exists_block (h : hasContent ck) : ∃ t, block src false i ck = some t := by
  cases hcontent : ck.content with
  | none => simp [hasContent, hcontent] at h
  | some content => exact ⟨_, by simp [block, hcontent]; rfl⟩

/-! ### Counting -/

theorem totalTokens_cons (ck : KbChunk) (cks : List KbChunk) :
    totalTokens numTokens (ck :: cks) = chunkTokens numTokens ck + totalTokens numTokens cks := by
  simp [totalTokens]

theorem totalTokens_take_le {m : ℕ} (h : n ≤ m) :
    totalTokens numTokens (chunks.take n) ≤ totalTokens numTokens (chunks.take m) := by
  have hsub : List.Sublist (chunks.take n) (chunks.take m) :=
    (List.take_prefix_take_left h).sublist
  exact (hsub.map _).sum_le_sum fun _ _ => Nat.zero_le _

/-- If nothing crosses the limit, the chunks with content are counted. -/
theorem countChunks_of_fits (used : ℕ)
    (h : (∀ ck ∈ chunks, hasContent ck = false) ∨
      ((used + totalTokens numTokens chunks : ℕ) : ℚ) ≤ limit) :
    countChunks numTokens limit used chunks = (chunks.filter hasContent).length := by
  induction chunks generalizing used with
  | nil => rfl
  | cons ck cks ih =>
      rw [totalTokens_cons] at h
      rw [countChunks, List.filter_cons]
      by_cases hck : hasContent ck
      · rw [if_pos hck, if_pos hck, List.length_cons]
        have hle : ((used + (chunkTokens numTokens ck + totalTokens numTokens cks) : ℕ) : ℚ) ≤
            limit := by
          rcases h with hempty | hle
          · simp [hempty ck List.mem_cons_self] at hck
          · exact hle
        have hused : ((used + chunkTokens numTokens ck : ℕ) : ℚ) ≤ limit :=
          le_trans (by exact_mod_cast by omega) hle
        simp only [if_neg (not_lt.mpr hused)]
        rw [ih _ (.inr (by rwa [Nat.add_assoc]))]
      · rw [if_neg hck, if_neg hck]
        have htokens : chunkTokens numTokens ck = 0 := by simp [chunkTokens, hck]
        refine ih used (h.imp (fun hempty ck' hck' => hempty ck' (List.mem_cons_of_mem ck hck')) ?_)
        rw [htokens, Nat.zero_add]
        exact id

/-- If a chunk crosses the limit, it is counted with those before it. -/
theorem countChunks_of_crosses (used : ℕ) (hsome : ∃ ck ∈ chunks, hasContent ck)
    (h : limit < ((used + totalTokens numTokens chunks : ℕ) : ℚ)) :
    ∃ n < chunks.length, countChunks numTokens limit used chunks =
        ((chunks.take n).filter hasContent).length + 1 ∧
      limit < ((used + totalTokens numTokens (chunks.take (n + 1)) : ℕ) : ℚ) := by
  induction chunks generalizing used with
  | nil => simp at hsome
  | cons ck cks ih =>
      rw [totalTokens_cons] at h
      rw [countChunks]
      by_cases hck : hasContent ck
      · rw [if_pos hck]
        by_cases hcross : limit < ((used + chunkTokens numTokens ck : ℕ) : ℚ)
        · refine ⟨0, by simp, by simp only [if_pos hcross]; simp, ?_⟩
          simpa [totalTokens] using hcross
        · have hrest : ∃ ck ∈ cks, hasContent ck := by
            by_contra hnone
            push Not at hnone
            have hzero : totalTokens numTokens cks = 0 := by
              unfold totalTokens
              refine List.sum_eq_zero fun x hx => ?_
              obtain ⟨ck', hck', rfl⟩ := List.mem_map.mp hx
              simp [chunkTokens, hnone ck' hck']
            rw [hzero] at h
            exact hcross h
          obtain ⟨n, hn, hcount, hlimit⟩ := ih (used + chunkTokens numTokens ck) hrest
            (by rwa [Nat.add_assoc])
          refine ⟨n + 1, by simpa using hn, ?_, ?_⟩
          · simp only [if_neg hcross]
            rw [hcount, List.take_succ_cons, List.filter_cons, if_pos hck, List.length_cons]
          · rw [List.take_succ_cons, totalTokens_cons, ← Nat.add_assoc]
            exact hlimit
      · rw [if_neg hck]
        have htokens : chunkTokens numTokens ck = 0 := by simp [chunkTokens, hck]
        have hrest : ∃ ck ∈ cks, hasContent ck := by
          obtain ⟨ck', hck', hcontent⟩ := hsome
          rcases List.mem_cons.mp hck' with rfl | hmem
          · exact absurd hcontent hck
          · exact ⟨ck', hmem, hcontent⟩
        obtain ⟨n, hn, hcount, hlimit⟩ := ih used hrest (by rwa [htokens, Nat.zero_add] at h)
        refine ⟨n + 1, by simpa using hn, ?_, ?_⟩
        · rw [hcount, List.take_succ_cons, List.filter_cons, if_neg hck]
        · rw [List.take_succ_cons, totalTokens_cons, htokens, Nat.zero_add]
          exact hlimit

/-! ### The prompt -/

theorem length_numbered (chunks : List KbChunk) :
    (numbered chunks).length = (chunks.filter hasContent).length := by
  have hmap : (numbered chunks).map Prod.fst = chunks.filter hasContent := by
    unfold numbered
    conv_rhs => rw [← List.zipIdx_map_fst 0 chunks]
    rw [List.filter_map]
    rfl
  rw [← hmap, List.length_map]

/-- Nothing that goes over the limit is in a prompt as promised, since the chunk that crosses
it counts. -/
theorem fits_of_promptsLongest (h : PromptsLongest src numTokens chunks maxTokens) :
    (∀ ck ∈ chunks, hasContent ck = false) ∨
      (totalTokens numTokens chunks : ℚ) ≤ tokenLimit maxTokens := by
  by_contra hover
  push Not at hover
  obtain ⟨⟨ck, hck, hcontent⟩, hlimit⟩ := hover
  obtain ⟨n, hn, blocks, hprompt, hblocks⟩ := h
  have hlimit' : tokenLimit maxTokens < ((0 + totalTokens numTokens chunks : ℕ) : ℚ) := by
    rwa [Nat.zero_add]
  obtain ⟨x, hx, hcount, hcross⟩ :=
    countChunks_of_crosses 0 ⟨ck, hck, by simpa using hcontent⟩ hlimit'
  rw [Nat.zero_add] at hcross
  have hlength := (mapM_eq_some_iff.mp hblocks).length_eq.trans
    (mapM_eq_some_iff.mp hprompt).length_eq.symm
  rw [length_numbered, List.length_zipIdx, List.length_take, hcount] at hlength
  have hnx : n ≤ x := by
    by_contra hgt
    rcases hn.fits with hzero | hfits
    · omega
    · have hle : totalTokens numTokens (chunks.take (x + 1)) ≤
          totalTokens numTokens (chunks.take n) := totalTokens_take_le (by omega)
      have hle' : (totalTokens numTokens (chunks.take (x + 1)) : ℚ) ≤
          totalTokens numTokens (chunks.take n) := by exact_mod_cast hle
      exact absurd hcross (not_lt.mpr (hle'.trans hfits))
  have hle : ((chunks.take n).filter hasContent).length ≤
      ((chunks.take x).filter hasContent).length :=
    ((List.take_prefix_take_left hnx).sublist.filter hasContent).length_le
  have hlex : ((chunks.take x).filter hasContent).length ≤ x :=
    (List.length_filter_le _ _).trans (List.length_take_le _ _)
  omega

/-- If the ids are right, the chunks with content come first. -/
theorem emptyLast_of_promptsLongest (h : PromptsLongest src numTokens chunks maxTokens) :
    ∃ k, (∀ ck ∈ chunks.take k, hasContent ck) ∧
      ∀ ck ∈ chunks.drop k, hasContent ck = false := by
  have hcount : countChunks numTokens (tokenLimit maxTokens) 0 chunks =
      (chunks.filter hasContent).length :=
    countChunks_of_fits 0 ((fits_of_promptsLongest h).imp_right fun hle => by
      rwa [Nat.zero_add])
  obtain ⟨n, hn, blocks, hprompt, hblocks⟩ := h
  unfold kbPrompt at hprompt
  generalize countChunks numTokens (tokenLimit maxTokens) 0 chunks = k at hcount hprompt
  have hlabels : (numbered (chunks.take n)).map Prod.snd =
      List.range (chunks.take k).length := by
    rw [map_snd_of_blocks hblocks, ← map_snd_of_blocks hprompt,
      List.zipIdx_map_snd, List.range_eq_range']
  have hfirst : ∀ ck ∈ chunks.take k, hasContent ck := by
    intro ck hck
    obtain ⟨i, hi, rfl⟩ := List.mem_iff_getElem.mp hck
    have hmem : i ∈ (numbered (chunks.take n)).map Prod.snd := by
      rw [hlabels]
      exact List.mem_range.mpr hi
    obtain ⟨⟨ck', j⟩, hp, rfl⟩ := List.mem_map.mp hmem
    obtain ⟨hzip, hcontent⟩ := List.mem_filter.mp hp
    have hget := List.mk_mem_zipIdx_iff_getElem?.mp hzip
    obtain ⟨hj, rfl⟩ := List.getElem?_eq_some_iff.mp hget
    simpa using hcontent
  refine ⟨k, hfirst, fun ck hck => ?_⟩
  have hsplit : (chunks.filter hasContent).length =
      ((chunks.take k).filter hasContent).length + ((chunks.drop k).filter hasContent).length := by
    rw [← List.length_append, ← List.filter_append, List.take_append_drop]
  rw [List.filter_eq_self.mpr hfirst, List.length_take] at hsplit
  have hle : k ≤ chunks.length := by
    rw [hcount]
    exact List.length_filter_le _ _
  have hnone : (chunks.drop k).filter hasContent = [] :=
    List.eq_nil_of_length_eq_zero (by omega)
  simpa using List.filter_eq_nil_iff.mp hnone ck hck

theorem numbered_eq_zipIdx (hfirst : ∀ ck ∈ chunks.take n, hasContent ck)
    (hrest : ∀ ck ∈ chunks.drop n, hasContent ck = false) :
    numbered chunks = (chunks.take n).zipIdx := by
  unfold numbered
  conv_lhs => rw [← List.take_append_drop n chunks]
  rw [List.zipIdx_append, List.filter_append]
  have hkept : (chunks.take n).zipIdx.filter (fun p => hasContent p.1) =
      (chunks.take n).zipIdx := by
    refine List.filter_eq_self.mpr fun p hp => hfirst p.1 ?_
    exact List.fst_mem_of_mem_zipIdx hp
  have hdropped : ((chunks.drop n).zipIdx (0 + (chunks.take n).length)).filter
      (fun p => hasContent p.1) = [] := by
    refine List.filter_eq_nil_iff.mpr fun p hp => ?_
    simp [hrest p.1 (List.fst_mem_of_mem_zipIdx hp)]
  rw [hkept, hdropped, List.append_nil]

theorem promptsLongest_of_allFit (h : AllFit numTokens chunks maxTokens) :
    PromptsLongest src numTokens chunks maxTokens := by
  obtain ⟨hfits, k, hfirst, hrest⟩ := h
  have hcount : countChunks numTokens (tokenLimit maxTokens) 0 chunks =
      (chunks.filter hasContent).length :=
    countChunks_of_fits 0 (hfits.imp_right fun hle => by rwa [Nat.zero_add])
  have hfilter : chunks.filter hasContent = chunks.take k := by
    conv_lhs => rw [← List.take_append_drop k chunks]
    rw [List.filter_append, List.filter_eq_self.mpr hfirst,
      List.filter_eq_nil_iff.mpr fun ck hck => by simp [hrest ck hck], List.append_nil]
  have htake : chunks.take (countChunks numTokens (tokenLimit maxTokens) 0 chunks) =
      chunks.take k := by
    rw [hcount, hfilter, List.take_eq_take_iff, List.length_take]
    omega
  have hprompt : kbPrompt src numTokens chunks maxTokens false =
      (chunks.take k).zipIdx.mapM fun (ck, i) => block src false i ck := by
    rw [kbPrompt, htake]
  have hsome : ∀ p ∈ (chunks.take k).zipIdx, (block src false p.2 p.1).isSome := by
    intro p hp
    obtain ⟨t, ht⟩ : ∃ t, block src false p.2 p.1 = some t :=
      exists_block (hfirst p.1 (List.fst_mem_of_mem_zipIdx hp))
    rw [ht, Option.isSome_some]
  obtain ⟨blocks, hblocks⟩ := Option.isSome_iff_exists.mp (isSome_mapM.mpr hsome)
  by_cases htotal : (totalTokens numTokens chunks : ℚ) ≤ tokenLimit maxTokens
  · refine ⟨chunks.length, ⟨le_rfl, .inr (by rwa [List.take_length]), ?_⟩, blocks,
      hprompt.trans hblocks, ?_⟩
    · intro m hm hle
      omega
    · rw [List.take_length, numbered_eq_zipIdx hfirst hrest]
      exact hblocks
  · have hempty := hfits.resolve_right htotal
    have hnil : chunks.take k = [] := by
      rw [← hfilter]
      exact List.filter_eq_nil_iff.mpr fun ck hck => by simp [hempty ck hck]
    have hzero : ∀ m, totalTokens numTokens (chunks.take m) = 0 := by
      intro m
      unfold totalTokens
      refine List.sum_eq_zero fun x hx => ?_
      obtain ⟨ck, hck, rfl⟩ := List.mem_map.mp hx
      simp [chunkTokens, hempty ck (List.mem_of_mem_take hck)]
    rw [hnil] at hblocks hprompt
    refine ⟨0, ⟨Nat.zero_le _, .inl rfl, fun m _ _ => ?_⟩, blocks, hprompt.trans hblocks, ?_⟩
    · rw [hzero m]
      have hall := hzero chunks.length
      rw [List.take_length] at hall
      rw [hall, not_le] at htotal
      exact htotal
    · rw [List.take_zero]
      exact hblocks

/-- The prompt is as promised exactly if all contents fit and no chunk without content stands
before one that has some. -/
theorem promptsLongest_iff (src : KbSource) (numTokens : Text → ℕ) (chunks : List KbChunk)
    (maxTokens : ℤ) :
    PromptsLongest src numTokens chunks maxTokens ↔ AllFit numTokens chunks maxTokens :=
  ⟨fun h => ⟨fits_of_promptsLongest h, emptyLast_of_promptsLongest h⟩, promptsLongest_of_allFit⟩

/-- A chunk that has nothing but a content. -/
def plainChunk (content : Text) : KbChunk where
  content := some content
  documentName := none
  url := none
  docId := none
  id := none

/-- No metadata. -/
def plainSource : KbSource where
  metadata := fun _ => []
  hashStr2int := fun _ => 0

theorem tokenLimit_three : 2 ≤ tokenLimit 3 ∧ tokenLimit 3 ≤ 3 := by
  have hone : binary64.nearest 1 = 1 :=
    Format.nearest_of_on ⟨1, 0, by decide, by norm_num [binary64], by norm_num⟩
  have htwo : binary64.nearest 2 = 2 :=
    Format.nearest_of_on ⟨2, 0, by decide, by norm_num [binary64], by norm_num⟩
  have hthree : binary64.nearest ((3 : ℤ) : ℚ) = 3 :=
    Format.nearest_of_on ⟨3, 0, by decide, by norm_num [binary64], by norm_num⟩
  have hthree' : binary64.nearest 3 = 3 := by exact_mod_cast hthree
  have hbelow : binary64.nearest (7 / 8) = 7 / 8 :=
    Format.nearest_of_on ⟨7, -3, by decide, by norm_num [binary64], by norm_num⟩
  have hlow : (7 / 8 : ℚ) ≤ binary64.nearest (97 / 100) :=
    hbelow ▸ Format.nearest_mono (by norm_num)
  have hhigh : binary64.nearest (97 / 100) ≤ 1 := hone ▸ Format.nearest_mono (by norm_num)
  unfold tokenLimit
  rw [hthree]
  constructor
  · calc
      (2 : ℚ) = binary64.nearest 2 := htwo.symm
      _ ≤ binary64.nearest (3 * binary64.nearest (97 / 100)) :=
        Format.nearest_mono (by linarith)
  · calc
      binary64.nearest (3 * binary64.nearest (97 / 100)) ≤ binary64.nearest 3 :=
        Format.nearest_mono (by linarith)
      _ = 3 := hthree'

/-- Two chunks of two tokens each for a prompt of three: both are in it. -/
theorem kbPrompt_over_limit :
    (kbPrompt plainSource List.length [plainChunk ['a', 'b'], plainChunk ['c', 'd']] 3 false).map
        List.length = some 2 ∧
      ¬ PromptsLongest plainSource List.length
        [plainChunk ['a', 'b'], plainChunk ['c', 'd']] 3 := by
  obtain ⟨hlow, hhigh⟩ := tokenLimit_three
  have hcount : countChunks List.length (tokenLimit 3) 0
      [plainChunk ['a', 'b'], plainChunk ['c', 'd']] = 2 := by
    have hfirst : ¬ tokenLimit 3 < 2 := not_lt.mpr hlow
    have hsecond : tokenLimit 3 < 4 := hhigh.trans_lt (by norm_num)
    have hcontent : ∀ a b, hasContent (plainChunk [a, b]) = true := fun _ _ => rfl
    have htokens : ∀ a b, chunkTokens List.length (plainChunk [a, b]) = 2 := fun _ _ => rfl
    norm_num [countChunks, hcontent, htokens, hfirst, hsecond]
  constructor
  · unfold kbPrompt
    rw [hcount]
    rfl
  · intro h
    rcases fits_of_promptsLongest h with hempty | hfits
    · exact absurd (hempty _ List.mem_cons_self) (by decide)
    · have htotal : totalTokens List.length [plainChunk ['a', 'b'], plainChunk ['c', 'd']] = 4 :=
        rfl
      rw [htotal] at hfits
      exact absurd (hfits.trans hhigh) (by norm_num)

end RagFlow.Chat
