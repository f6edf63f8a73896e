/-
# Inserting citations into an answer

`insert_citations` splits an answer into code blocks and sentence pieces, compares each
piece of some length with the chunks and puts markers of the most similar chunks behind
it. A line break is put behind every code block as well, and it stays in the answer. The
file models the whole function and says when it inserts markers only.
-/

import RagFlow.Chunking.Text
import RagFlow.Math.Dict
import Mathlib.Algebra.Order.Ring.Rat
import Mathlib.Tactic.NormNum
import Mathlib.Tactic.Ring

namespace RagFlow.Retrieval

open RagFlow.Math RagFlow.Chunking

/-! ## The pieces of an answer -/

def fence : Text := ['`', '`', '`']

/-- Punctuation that ends a piece after any character but a bar. -/
def isStop (c : Char) : Bool :=
  c ∈ ['；', '。', '？', '!', '！', '،', '؛', '؟', '۔', '\n']

/-- Punctuation that ends a piece between a letter and a blank. -/
def isPoint (c : Char) : Bool := c ∈ ['.', '?', ';', '!', '،', '؛', '؟']

/-- `[a-z\u0600-\u06FF]`. -/
def isLetter (c : Char) : Bool :=
  ('a' ≤ c && c ≤ 'z') || (0x600 ≤ c.toNat && c.toNat ≤ 0x6FF)

/-- The length of the sentence boundary at the head of a text. -/
def boundaryLength : Text → ℕ
  | a :: b :: cs =>
    if a ≠ '|' ∧ isStop b then 2
    else if isLetter a ∧ isPoint b ∧ (cs.head? = some ' ' ∨ cs.head? = some '\n') then 3
    else 0
  | _ => 0

def splitSentences (t : Text) : List Text := splitMatches boundaryLength t

def splitFences (t : Text) : List Text := splitMatches (literal fence) t

/-- The loop over the pieces between fences. `block` is the code block that is open; a
block is closed by the next fence or by the end, and `newline` is put behind it. -/
def blockPieces (newline : Text) : Option Text → List Text → List Text
  | none, [] => []
  | some block, [] => [block ++ newline]
  | none, p :: ps =>
    if p = fence then blockPieces newline (some fence) ps
    else splitSentences p ++ blockPieces newline none ps
  | some block, p :: ps =>
    if p = fence then (block ++ fence ++ newline) :: blockPieces newline none ps
    else blockPieces newline (some (block ++ p)) ps

/-- A piece that begins with a boundary gives its first character to the piece before
it. -/
def moveHeads : Text → List Text → List Text
  | before, [] => [before]
  | before, p :: ps =>
    if boundaryLength p ≠ 0 then (before ++ p.take 1) :: moveHeads (p.drop 1) ps
    else before :: moveHeads p ps

/-- The pieces of an answer when `newline` is put behind every code block. -/
def piecesWith (newline answer : Text) : List Text :=
  let pieces := splitFences answer
  let pieces := if 3 ≤ pieces.length then blockPieces newline none pieces
    else splitSentences answer
  match pieces with
  | [] => []
  | p :: ps => moveHeads p ps

/-- The pieces of the code: a line break is put behind code blocks. -/
def pieces (answer : Text) : List Text := piecesWith ['\n'] answer

/-! ## The citations -/

/-- The functions that embed texts and compare them. -/
structure Embedder where
  encode : List Text → List (List ℚ)
  /-- The tokens of a text without question words. -/
  tokenize : Text → List Text
  hybridSimilarity : List ℚ → List (List ℚ) → List Text → List (List Text) → ℚ → ℚ → List ℚ
  /-- The order in which a set of identifiers is listed. -/
  setOrder : List ℕ → List ℕ
  setOrder_perm : ∀ l, (setOrder l).Perm l

/-- One turn of the `for` loop over the compared pieces; `entry` is the index of a piece
and its similarities to the chunks. Chunk identifiers are kept as numbers. -/
def citePiece (e : Embedder) (count : ℕ) (thr : ℚ) (cites : Dict ℕ (List ℕ))
    (entry : ℕ × List ℚ) : Dict ℕ (List ℕ) :=
  let mx := (entry.2.max?.getD 0) * (99 / 100)
  if mx < thr then cites
  else
    let similar := (List.range count).filter fun ii => entry.2.getD ii 0 > mx
    cites.set entry.1 ((e.setOrder similar).take 4)

/-- The `while` loop, which lowers the threshold until something is cited; it makes at
most `fuel` turns. -/
def citeLoop (e : Embedder) (count : ℕ) (entries : List (ℕ × List ℚ)) :
    ℕ → ℚ → Dict ℕ (List ℕ) → Dict ℕ (List ℕ)
  | 0, _, cites => cites
  | fuel + 1, thr, cites =>
    if thr > 3 / 10 ∧ cites.entries = [] then
      citeLoop e count entries fuel (thr * (8 / 10))
        (entries.foldl (citePiece e count thr) cites)
    else cites

/-- After four turns the threshold is low enough. -/
def citations (e : Embedder) (count : ℕ) (entries : List (ℕ × List ℚ)) : Dict ℕ (List ℕ) :=
  citeLoop e count entries 4 (63 / 100) Dict.empty

/-! ## The answer with its markers -/

def marker (c : ℕ) : Text := " [ID:".toList ++ (toString c).toList ++ [']']

/-- The inner loop: mark the chunks that are not marked yet. -/
def addMarker (acc : Text × List ℕ) (c : ℕ) : Text × List ℕ :=
  if c ∈ acc.2 then acc else (acc.1 ++ marker c, acc.2 ++ [c])

/-- One piece of the answer and the markers behind it. -/
def addPiece (idx : List ℕ) (cites : Dict ℕ (List ℕ)) (acc : Text × List ℕ)
    (piece : Text × ℕ) : Text × List ℕ :=
  let res := acc.1 ++ piece.1
  if piece.2 ∉ idx then (res, acc.2)
  else
    match cites.get? piece.2 with
    | none => (res, acc.2)
    | some cs => cs.foldl addMarker (res, acc.2)

/-- `insert_citations`: the text and the identifiers of the marked chunks, or `none`
where an assertion fails. The assertions on the dimension and on the identifiers cannot
fail. -/
def insertCitations (e : Embedder) (answer : Text) (chunks : List Text)
    (chunkV : List (List ℚ)) (tkweight vtweight : ℚ) : Option (Text × List ℕ) :=
  if chunks.length ≠ chunkV.length then none
  else if chunks = [] then some (answer, [])
  else
    let ps := pieces answer
    let kept := ps.zipIdx.filter fun p => !decide (p.1.length < 5)
    if kept = [] then some (answer, [])
    else
      let ansV := e.encode (kept.map Prod.fst)
      let dim := (ansV.getD 0 []).length
      let chunkV := chunkV.map fun v => if dim ≠ v.length then List.replicate dim 0 else v
      let chunksTks := chunks.map e.tokenize
      let entries := kept.zipIdx.map fun p =>
        (p.1.2, e.hybridSimilarity (ansV.getD p.2 []) chunkV (e.tokenize p.1.1) chunksTks
          tkweight vtweight)
      let cites := citations e chunkV.length entries
      some (ps.zipIdx.foldl (addPiece (kept.map Prod.snd) cites) ([], []))

/-! ## Nothing is lost in the splitting -/

theorem flatten_moveHeads (before : Text) (ps : List Text) :
    (moveHeads before ps).flatten = before ++ ps.flatten := by
  induction ps generalizing before with
  | nil => rfl
  | cons p ps ih =>
      rw [moveHeads]
      split_ifs
      · rw [List.flatten_cons, ih, ← List.append_assoc, List.append_assoc before,
          List.take_append_drop, List.append_assoc, List.flatten_cons]
      · rw [List.flatten_cons, ih, List.flatten_cons]

theorem flatten_blockPieces_nil (block : Option Text) (ps : List Text) :
    (blockPieces [] block ps).flatten = block.getD [] ++ ps.flatten := by
  induction ps generalizing block with
  | nil => cases block <;> simp [blockPieces]
  | cons p ps ih =>
      cases block with
      | none =>
          rw [blockPieces]
          split_ifs with hp
          · rw [ih, hp]
            rfl
          · simp [ih, splitSentences, flatten_splitMatches]
      | some block =>
          rw [blockPieces]
          split_ifs with hp
          · simp [ih, hp]
          · simp [ih]

/-- Every code block makes the text longer. -/
theorem length_flatten_blockPieces (newline : Text) (block : Option Text) (ps : List Text) :
    (block.getD [] ++ ps.flatten).length
        + (if block.isSome ∨ fence ∈ ps then newline.length else 0)
      ≤ (blockPieces newline block ps).flatten.length := by
  induction ps generalizing block with
  | nil => cases block <;> simp [blockPieces]
  | cons p ps ih =>
      cases block with
      | none =>
          rw [blockPieces]
          by_cases hp : p = fence
          · have hrest := ih (some fence)
            rw [if_pos hp]
            simpa [hp] using hrest
          · have hrest := ih none
            rw [if_neg hp]
            simp only [Option.getD_none, List.nil_append, Option.isSome_none, Bool.false_eq_true,
              false_or, List.mem_cons, Ne.symm hp, List.flatten_cons, List.flatten_append,
              List.length_append, splitSentences, flatten_splitMatches] at hrest ⊢
            omega
      | some block =>
          rw [blockPieces]
          by_cases hp : p = fence
          · have hrest := ih none
            rw [if_pos hp]
            simp only [Option.getD_none, List.nil_append, Option.getD_some, Option.isSome_some,
              true_or, if_true, List.flatten_cons, List.length_append, hp] at hrest ⊢
            omega
          · have hrest := ih (some (block ++ p))
            rw [if_neg hp]
            simpa [Nat.add_assoc] using hrest

theorem flatten_piecesWith (newline answer : Text) :
    (piecesWith newline answer).flatten
      = (if 3 ≤ (splitFences answer).length then
          blockPieces newline none (splitFences answer)
        else splitSentences answer).flatten := by
  rw [piecesWith]
  generalize (if 3 ≤ (splitFences answer).length then
    blockPieces newline none (splitFences answer) else splitSentences answer) = ps
  cases ps with
  | nil => rfl
  | cons p ps => exact flatten_moveHeads p ps

/-- Without the line breaks the pieces are the answer. -/
theorem flatten_piecesWith_nil (answer : Text) : (piecesWith [] answer).flatten = answer := by
  rw [flatten_piecesWith]
  split_ifs
  · rw [flatten_blockPieces_nil]
    exact flatten_splitMatches _ answer
  · exact flatten_splitMatches _ answer

theorem fence_infix_iff (answer : Text) :
    fence <:+: answer ↔ 3 ≤ (splitFences answer).length := by
  have hfence : fence ≠ [] := List.cons_ne_nil _ _
  rw [← Nat.not_lt, splitFences, splitMatches_literal_length_lt_iff hfence, not_not]

/-- With a code block the pieces are longer than the answer. -/
theorem length_lt_flatten_pieces {answer : Text} (h : fence <:+: answer) :
    answer.length < (pieces answer).flatten.length := by
  have hthree := (fence_infix_iff answer).mp h
  have hmem : fence ∈ splitFences answer := mem_splitFrom_literal hthree
  have hlen := length_flatten_blockPieces ['\n'] none (splitFences answer)
  have hflatten : (splitFences answer).flatten = answer := flatten_splitMatches _ answer
  rw [if_pos (Or.inr hmem), Option.getD_none, List.nil_append, hflatten] at hlen
  rw [pieces, flatten_piecesWith, if_pos hthree]
  exact Nat.lt_of_succ_le hlen

/-- Without code blocks both ways of splitting agree. -/
theorem pieces_eq {answer : Text} (h : ¬ fence <:+: answer) :
    pieces answer = piecesWith [] answer := by
  rw [fence_infix_iff] at h
  simp only [pieces, piecesWith, if_neg h]

/-! ## The cited chunks -/

section Cites

variable {e : Embedder} {count : ℕ} {entries : List (ℕ × List ℚ)}

/-- Every citation is one of the chunks. -/
def InRange (count : ℕ) (cites : Dict ℕ (List ℕ)) : Prop :=
  ∀ i cs, cites.get? i = some cs → ∀ c ∈ cs, c < count

theorem InRange.citePiece {thr : ℚ} {cites : Dict ℕ (List ℕ)} {entry : ℕ × List ℚ}
    (h : InRange count cites) : InRange count (citePiece e count thr cites entry) := by
  rw [Retrieval.citePiece]
  split_ifs
  · exact h
  · intro i cs hi c hc
    rw [Dict.get?_set] at hi
    split_ifs at hi
    · rw [← Option.some.inj hi] at hc
      have hsimilar := (e.setOrder_perm _).mem_iff.mp (List.mem_of_mem_take hc)
      exact List.mem_range.mp (List.mem_filter.mp hsimilar).1
    · exact h i cs hi c hc

theorem InRange.citeLoop {fuel : ℕ} {thr : ℚ} {cites : Dict ℕ (List ℕ)}
    (h : InRange count cites) : InRange count (citeLoop e count entries fuel thr cites) := by
  induction fuel generalizing thr cites with
  | zero => exact h
  | succ fuel ih =>
      rw [Retrieval.citeLoop]
      split_ifs
      · apply ih
        apply foldl_induction
        · exact h
        · intro _ entry cites _ hcites
          exact hcites.citePiece
      · exact h

/-- The assertion on the identifiers never fails. -/
theorem citations_inRange (e : Embedder) (count : ℕ) (entries : List (ℕ × List ℚ)) :
    InRange count (citations e count entries) := by
  apply InRange.citeLoop
  intro i cs hi
  exact absurd (Dict.mem_of_get? hi) List.not_mem_nil

/-- A threshold that is low enough ends the loop. -/
theorem citeLoop_of_le {fuel : ℕ} {thr : ℚ} (hthr : thr ≤ 3 / 10) (cites : Dict ℕ (List ℕ)) :
    citeLoop e count entries fuel thr cites = cites := by
  cases fuel with
  | zero => rfl
  | succ fuel =>
      rw [citeLoop, if_neg]
      exact fun h => absurd h.1 (not_lt_of_ge hthr)

/-- More turns than four change nothing. -/
theorem citeLoop_fuel (fuel : ℕ) :
    citeLoop e count entries (fuel + 4) (63 / 100) Dict.empty = citations e count entries := by
  have hlow : (63 / 100 : ℚ) * (8 / 10) * (8 / 10) * (8 / 10) * (8 / 10) ≤ 3 / 10 := by norm_num
  simp only [citations, citeLoop, citeLoop_of_le hlow]

end Cites

/-! ## What insertion means -/

/-- Pieces of a text, each followed by the markers of some chunks. -/
def interleave (parts : List (Text × List ℕ)) : Text :=
  parts.flatMap fun p => p.1 ++ p.2.flatMap marker

/-- The text is the answer with markers behind some of its pieces and nothing else
changed: without the markers it is the answer, the pieces are its code blocks and
sentence pieces, every marker is that of a chunk, none occurs twice, and `ids` are the
chunks marked. -/
def OnlyInserts (answer : Text) (count : ℕ) (res : Text) (ids : List ℕ) : Prop :=
  ∃ parts : List (Text × List ℕ), res = interleave parts ∧
    parts.map Prod.fst = piecesWith [] answer ∧ (parts.map Prod.fst).flatten = answer ∧
    (∀ c ∈ parts.flatMap Prod.snd, c < count) ∧ (parts.flatMap Prod.snd).Nodup ∧
    ∀ c, c ∈ ids ↔ c ∈ parts.flatMap Prod.snd

theorem interleave_append (parts more : List (Text × List ℕ)) :
    interleave (parts ++ more) = interleave parts ++ interleave more :=
  List.flatMap_append

theorem interleave_singleton (p : Text × List ℕ) :
    interleave [p] = p.1 ++ p.2.flatMap marker := by
  simp [interleave]

/-- The length of the markers of some chunks. -/
def markersLength (ids : List ℕ) : ℕ := (ids.map fun c => (marker c).length).sum

theorem length_interleave (parts : List (Text × List ℕ)) :
    (interleave parts).length
      = (parts.map Prod.fst).flatten.length + markersLength (parts.flatMap Prod.snd) := by
  induction parts with
  | nil => rfl
  | cons p parts ih =>
      have hmarkers : (p.2.flatMap marker).length = markersLength p.2 := by
        rw [List.length_flatMap, markersLength]
      have hsum : markersLength (p.2 ++ parts.flatMap Prod.snd)
          = markersLength p.2 + markersLength (parts.flatMap Prod.snd) := by
        simp [markersLength]
      rw [← List.singleton_append, interleave_append, interleave_singleton, List.length_append,
        List.length_append, ih, hmarkers, List.singleton_append, List.map_cons,
        List.flatten_cons, List.length_append, List.flatMap_cons, hsum]
      ring

/-- An answer without markers. -/
theorem onlyInserts_self (answer : Text) (count : ℕ) : OnlyInserts answer count answer [] := by
  have hparts : ((piecesWith [] answer).map fun p => (p, ([] : List ℕ))).map Prod.fst
      = piecesWith [] answer := by
    rw [List.map_map]
    exact List.map_id _
  have hnone : ((piecesWith [] answer).map fun p => (p, ([] : List ℕ))).flatMap Prod.snd
      = [] := by simp
  refine ⟨(piecesWith [] answer).map fun p => (p, []), ?_, hparts, ?_, ?_, ?_, ?_⟩
  · conv_lhs => rw [← flatten_piecesWith_nil answer]
    simp [interleave, List.flatMap_map, List.flatMap_id']
  · rw [hparts, flatten_piecesWith_nil]
  · simp [hnone]
  · simp [hnone]
  · simp [hnone]

/-! ## The markers that are put in -/

/-- What is known of the text and the marked chunks behind some pieces. -/
structure Marked (count : ℕ) (ps : List Text) (acc : Text × List ℕ)
    (parts : List (Text × List ℕ)) : Prop where
  res : acc.1 = interleave parts
  pieces : parts.map Prod.fst = ps
  ids : acc.2 = parts.flatMap Prod.snd
  lt : ∀ c ∈ acc.2, c < count
  nodup : acc.2.Nodup

section Marks

variable {count : ℕ} {idx : List ℕ} {cites : Dict ℕ (List ℕ)}

/-- The inner loop adds the markers of chunks that were not marked before. -/
theorem foldl_addMarker (acc : Text × List ℕ) (cs : List ℕ) :
    ∃ fresh, (∀ c ∈ fresh, c ∈ cs) ∧
      cs.foldl addMarker acc = (acc.1 ++ fresh.flatMap marker, acc.2 ++ fresh) ∧
      (acc.2.Nodup → (acc.2 ++ fresh).Nodup) := by
  induction cs generalizing acc with
  | nil => exact ⟨[], by simp, by simp, by simp⟩
  | cons c cs ih =>
      rw [List.foldl_cons, addMarker]
      by_cases hc : c ∈ acc.2
      · obtain ⟨fresh, hmem, hfold, hnodup⟩ := ih acc
        rw [if_pos hc]
        exact ⟨fresh, fun d hd => List.mem_cons_of_mem c (hmem d hd), hfold, hnodup⟩
      · obtain ⟨fresh, hmem, hfold, hnodup⟩ := ih (acc.1 ++ marker c, acc.2 ++ [c])
        rw [if_neg hc]
        refine ⟨c :: fresh, ?_, ?_, ?_⟩
        · intro d hd
          rcases List.mem_cons.mp hd with rfl | hd
          · exact List.mem_cons_self
          · exact List.mem_cons_of_mem c (hmem d hd)
        · rw [hfold]
          simp
        · intro hold
          have hone : (acc.2 ++ [c]).Nodup := by
            rw [List.nodup_append]
            refine ⟨hold, List.nodup_singleton c, ?_⟩
            intro a ha b hb heq
            rw [heq, List.mem_singleton.mp hb] at ha
            exact hc ha
          simpa using hnodup hone

theorem Marked.addPiece {ps : List Text} {acc : Text × List ℕ} {parts : List (Text × List ℕ)}
    (h : Marked count ps acc parts) (hcites : InRange count cites) (piece : Text × ℕ) :
    ∃ fresh, Marked count (ps ++ [piece.1]) (addPiece idx cites acc piece)
      (parts ++ [(piece.1, fresh)]) := by
  have hstep : ∃ fresh, (∀ c ∈ fresh, c < count) ∧ (acc.2 ++ fresh).Nodup ∧
      Retrieval.addPiece idx cites acc piece
        = (acc.1 ++ piece.1 ++ fresh.flatMap marker, acc.2 ++ fresh) := by
    have hnone : (acc.1 ++ piece.1, acc.2)
        = (acc.1 ++ piece.1 ++ ([] : List ℕ).flatMap marker, acc.2 ++ []) := by simp
    have hnodup : (acc.2 ++ []).Nodup := by simpa using h.nodup
    rw [Retrieval.addPiece]
    by_cases hidx : piece.2 ∉ idx
    · rw [if_pos hidx]
      exact ⟨[], by simp, hnodup, hnone⟩
    · rw [if_neg hidx]
      cases hget : cites.get? piece.2 with
      | none => exact ⟨[], by simp, hnodup, hnone⟩
      | some cs =>
          obtain ⟨fresh, hmem, hfold, hfresh⟩ := foldl_addMarker (acc.1 ++ piece.1, acc.2) cs
          exact ⟨fresh, fun c hc => hcites _ _ hget c (hmem c hc), hfresh h.nodup, hfold⟩
  obtain ⟨fresh, hlt, hnodup, hacc⟩ := hstep
  refine ⟨fresh, ?_⟩
  rw [hacc]
  constructor
  · rw [interleave_append, interleave_singleton, ← h.res, List.append_assoc]
  · rw [List.map_append, h.pieces, List.map_singleton]
  · simp [h.ids]
  · intro c hc
    rcases List.mem_append.mp hc with hold | hnew
    · exact h.lt c hold
    · exact hlt c hnew
  · exact hnodup

/-- The loop over all pieces. -/
theorem exists_marked (hcites : InRange count cites) (ps : List Text) :
    ∃ parts, Marked count ps (ps.zipIdx.foldl (addPiece idx cites) ([], [])) parts := by
  let P (done : List (Text × ℕ)) (acc : Text × List ℕ) : Prop :=
    ∃ parts, Marked count (done.map Prod.fst) acc parts
  have hloop : P ps.zipIdx (ps.zipIdx.foldl (addPiece idx cites) ([], [])) := by
    apply foldl_induction
    · exact ⟨[], rfl, rfl, rfl, by simp, List.nodup_nil⟩
    · rintro done piece acc _ ⟨parts, hparts⟩
      obtain ⟨fresh, hmarked⟩ := @Marked.addPiece _ idx _ _ _ _ hparts hcites piece
      exact ⟨_, by rw [List.map_append, List.map_singleton]; exact hmarked⟩
  obtain ⟨parts, hparts⟩ := hloop
  rw [List.zipIdx_map_fst] at hparts
  exact ⟨parts, hparts⟩

end Marks

/-! ## When only markers are inserted -/

section Insertion

variable {answer : Text} {count : ℕ} {acc : Text × List ℕ} {parts : List (Text × List ℕ)}

/-- Without code blocks the pieces of the code are those of the answer. -/
theorem onlyInserts_of_no_fence (hfence : ¬ fence <:+: answer)
    (h : Marked count (pieces answer) acc parts) : OnlyInserts answer count acc.1 acc.2 := by
  have hpieces := h.pieces.trans (pieces_eq hfence)
  refine ⟨parts, h.res, hpieces, ?_, ?_, ?_, ?_⟩
  · rw [hpieces, flatten_piecesWith_nil]
  · exact h.ids ▸ h.lt
  · exact h.ids ▸ h.nodup
  · intro c
    rw [h.ids]

/-- With a code block the text is longer than the answer and the markers. -/
theorem not_onlyInserts_of_fence (hfence : fence <:+: answer)
    (h : Marked count (pieces answer) acc parts) : ¬ OnlyInserts answer count acc.1 acc.2 := by
  rintro ⟨parts', hres, -, hanswer, -, hnodup, hids⟩
  have hperm : (parts'.flatMap Prod.snd).Perm (parts.flatMap Prod.snd) := by
    rw [List.perm_ext_iff_of_nodup hnodup (h.ids ▸ h.nodup)]
    intro c
    rw [← hids c, h.ids]
  have hmarkers : markersLength (parts'.flatMap Prod.snd)
      = markersLength (parts.flatMap Prod.snd) := (hperm.map _).sum_eq
  have hlonger := length_lt_flatten_pieces hfence
  have hlen := congrArg List.length (h.res.symm.trans hres)
  rw [length_interleave, length_interleave, h.pieces, hanswer, hmarkers] at hlen
  omega

end Insertion

/-! ## The result -/

/-- Where there are chunks and a piece is long enough, the loops have run. -/
theorem insertCitations_marked (e : Embedder) {answer : Text} {chunks : List Text}
    {chunkV : List (List ℚ)} (hlen : chunks.length = chunkV.length) (hchunks : chunks ≠ [])
    (hlong : ¬ ∀ p ∈ pieces answer, p.length < 5) (tkweight vtweight : ℚ) :
    ∃ res ids parts, insertCitations e answer chunks chunkV tkweight vtweight = some (res, ids) ∧
      Marked chunks.length (pieces answer) (res, ids) parts := by
  have hkept : ¬ ((pieces answer).zipIdx.filter fun p => !decide (p.1.length < 5)) = [] := by
    rw [List.filter_eq_nil_iff]
    intro h
    apply hlong
    intro p hp
    obtain ⟨i, hi, rfl⟩ := List.getElem_of_mem hp
    simpa using h ((pieces answer)[i], i) (List.mem_zipIdx_iff_getElem?.mpr (by simp [hi]))
  rw [insertCitations, if_neg (not_not.mpr hlen), if_neg hchunks, if_neg hkept]
  obtain ⟨parts, hparts⟩ := exists_marked (citations_inRange e chunks.length _) (pieces answer)
  simp only [List.length_map, ← hlen]
  exact ⟨_, _, parts, rfl, hparts⟩

theorem insertCitations_of_short (e : Embedder) {answer : Text} {chunks : List Text}
    {chunkV : List (List ℚ)} (hlen : chunks.length = chunkV.length)
    (hshort : ∀ p ∈ pieces answer, p.length < 5) (tkweight vtweight : ℚ) :
    insertCitations e answer chunks chunkV tkweight vtweight = some (answer, []) := by
  have hkept : ((pieces answer).zipIdx.filter fun p => !decide (p.1.length < 5)) = [] := by
    rw [List.filter_eq_nil_iff]
    intro p hp
    simpa using hshort p.1 (List.fst_mem_of_mem_zipIdx hp)
  rw [insertCitations, if_neg (not_not.mpr hlen), if_pos hkept, ite_self]

/-- Equal numbers of chunks and vectors are asserted. Then the call returns, and it only
inserts markers exactly when there is no chunk, the answer has no code fence, or no piece
of it is long enough to be compared. -/
theorem insertCitations_onlyInserts_iff (e : Embedder) (answer : Text) (chunks : List Text)
    (chunkV : List (List ℚ)) (hlen : chunks.length = chunkV.length) (tkweight vtweight : ℚ) :
    ∃ res ids, insertCitations e answer chunks chunkV tkweight vtweight = some (res, ids) ∧
      (OnlyInserts answer chunks.length res ids ↔
        chunks = [] ∨ ¬ fence <:+: answer ∨ ∀ p ∈ pieces answer, p.length < 5) := by
  by_cases hchunks : chunks = []
  · refine ⟨answer, [], ?_, iff_of_true (onlyInserts_self _ _) (Or.inl hchunks)⟩
    rw [insertCitations, if_neg (not_not.mpr hlen), if_pos hchunks]
  by_cases hshort : ∀ p ∈ pieces answer, p.length < 5
  · exact ⟨answer, [], insertCitations_of_short e hlen hshort tkweight vtweight,
      iff_of_true (onlyInserts_self _ _) (Or.inr (Or.inr hshort))⟩
  obtain ⟨res, ids, parts, hresult, hmarked⟩ :=
    insertCitations_marked e hlen hchunks hshort tkweight vtweight
  refine ⟨res, ids, hresult, ?_⟩
  by_cases hfence : fence <:+: answer
  · simp [not_onlyInserts_of_fence hfence hmarked, hchunks, hfence, hshort]
  · exact iff_of_true (onlyInserts_of_no_fence hfence hmarked) (Or.inr (Or.inl hfence))

/-! ## An answer that no chunk is similar to -/

def unlike : Embedder where
  encode := fun ts => ts.map fun _ => [1]
  tokenize := fun t => [t]
  hybridSimilarity := fun _ chunkV _ _ _ _ => chunkV.map fun _ => 0
  setOrder := id
  setOrder_perm := List.Perm.refl

def codeAnswer : Text := fence ++ ['x'] ++ fence

theorem plain_answer_onlyInserts :
    ∃ res ids, insertCitations unlike "See the guide.".toList [['a']] [[1]] (1 / 10) (9 / 10)
        = some (res, ids) ∧
      (OnlyInserts "See the guide.".toList 1 res ids ↔
        [['a']] = [] ∨ ¬ fence <:+: "See the guide.".toList ∨
          ∀ p ∈ pieces "See the guide.".toList, p.length < 5) :=
  insertCitations_onlyInserts_iff unlike "See the guide.".toList [['a']] [[1]] rfl (1 / 10) (9 / 10)

/-- No marker is inserted, and still the answer comes back with a line break more. -/
theorem code_block_gets_newline :
    insertCitations unlike codeAnswer [['a']] [[1]] (1 / 10) (9 / 10)
        = some (codeAnswer ++ ['\n'], []) ∧
      ¬ OnlyInserts codeAnswer 1 (codeAnswer ++ ['\n']) [] := by
  have hresult : insertCitations unlike codeAnswer [['a']] [[1]] (1 / 10) (9 / 10)
      = some (codeAnswer ++ ['\n'], []) := by decide +kernel
  refine ⟨hresult, ?_⟩
  rintro ⟨parts, hres, -, hanswer, -, -, hids⟩
  have hnone : parts.flatMap Prod.snd = [] := by
    apply List.eq_nil_iff_forall_not_mem.mpr
    intro c hc
    exact absurd ((hids c).mpr hc) List.not_mem_nil
  have hlen := congrArg List.length hres
  rw [length_interleave, hanswer, hnone] at hlen
  exact absurd hlen (by decide)

end RagFlow.Retrieval
