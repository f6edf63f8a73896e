/-
# The stream of a reply, with what the model thinks marked off

A chat model sends its reply in pieces. A piece of reasoning ends with a closing tag, also where
more reasoning follows, and the first one in a row begins with an opening tag. The stream takes the
tags out, hands the text on, and reports where thinking starts and ends.
-/

import RagFlow.Chunking.Text
import RagFlow.Math.Marker

namespace RagFlow.Chat

open RagFlow.Math
open RagFlow.Chunking (Text deleteFrom)

def startTag : Text := ['<', 't', 'h', 'i', 'n', 'k', '>']

def endTag : Text := ['<', '/', 't', 'h', 'i', 'n', 'k', '>']

/-! ## What the model sends -/

/-- A piece of the reply. -/
inductive Delta where
  | answer (content : Text)
  | reasoning (text : Text)
deriving DecidableEq

/-- `_async_chat_streamly`, where `reasoningStart` says that the last piece was reasoning. -/
def asyncChatStreamly : Bool → List Delta → List Text
  | _, [] => []
  | reasoningStart, .reasoning text :: deltas =>
    ((if reasoningStart then [] else startTag) ++ (text ++ endTag)) :: asyncChatStreamly true deltas
  | _, .answer content :: deltas => content :: asyncChatStreamly false deltas

/-! ## The stream -/

structure ThinkStreamState where
  fullText : Text
  lastIdx : ℕ
  endswithThink : Bool
  lastFull : Text
  lastModelFull : Text
  inThink : Bool
  buffer : Text
deriving DecidableEq

/-- The state that the stream starts in. -/
def ThinkStreamState.init : ThinkStreamState where
  fullText := []
  lastIdx := 0
  endswithThink := false
  lastFull := []
  lastModelFull := []
  inThink := false
  buffer := []

/-- The length of the tag at the head of a text. -/
def tagLength (t : Text) : ℕ :=
  if startTag <+: t then startTag.length else if endTag <+: t then endTag.length else 0

/-- `re.sub(r"(<think>|</think>)", "", text)`. -/
def removeTags (text : Text) : Text := deleteFrom tagLength 0 text

/-- The end of `_next_think_delta`: all text is handed on, and a closing tag at the end is looked at
once more with the next piece. -/
def passOn (state : ThinkStreamState) (deltaAns : Text) : Text × ThinkStreamState :=
  (removeTags deltaAns, { state with
    lastIdx :=
      if endTag <:+ state.fullText then state.fullText.length - endTag.length
      else state.fullText.length })

/-- `_next_think_delta`. -/
def nextThinkDelta (state : ThinkStreamState) : Text × ThinkStreamState :=
  if state.fullText = state.lastFull then ([], state)
  else
    let state := { state with lastFull := state.fullText }
    let deltaAns := state.fullText.drop state.lastIdx
    match occurrence? startTag deltaAns with
    | some 0 => (startTag, { state with lastIdx := state.lastIdx + startTag.length })
    | some (i + 1) => (deltaAns.take (i + 1), { state with lastIdx := state.lastIdx + (i + 1) })
    | none =>
      if endTag <:+ deltaAns then passOn { state with endswithThink := true } deltaAns
      else if state.endswithThink then (endTag, { state with endswithThink := false })
      else passOn state deltaAns

/-- What the stream yields. -/
inductive ThinkEvent where
  | text (value : Text)
  | marker (value : Text)
deriving DecidableEq

/-- The text of the buffer, if there is any. -/
def flush (buffer : Text) : List ThinkEvent := if buffer = [] then [] else [.text buffer]

/-- A new state and what is yielded on the way to it, for a piece that is one of the tags. -/
def onMarker (state : ThinkStreamState) (delta : Text) : ThinkStreamState × List ThinkEvent :=
  if delta = startTag ∧ state.inThink = true then (state, [])
  else if delta = endTag ∧ state.inThink = false then (state, [])
  else ({ state with buffer := [], inThink := delta = startTag },
    flush state.buffer ++ [.marker delta])

section Stream

variable (numTokens : Text → ℕ) (minTokens : ℕ)

/-- The same for any other piece. -/
def onText (state : ThinkStreamState) (delta : Text) : ThinkStreamState × List ThinkEvent :=
  if numTokens (state.buffer ++ delta) < minTokens then
    ({ state with buffer := state.buffer ++ delta }, [])
  else ({ state with buffer := [] }, [.text (state.buffer ++ delta)])

/-- What is new in a chunk, which may be the whole text so far, and the text with it. -/
def newPart (lastModelFull chunk : Text) : Text × Text :=
  if lastModelFull <+: chunk then (chunk.drop lastModelFull.length, chunk)
  else (chunk, lastModelFull ++ chunk)

/-- The body of the loop, up to where the piece is empty or goes on. -/
def chunkDelta (state : ThinkStreamState) (chunk : Text) : Text × ThinkStreamState :=
  if chunk = [] then ([], state)
  else
    let part := newPart state.lastModelFull chunk
    let state := { state with lastModelFull := part.2 }
    if part.1 = [] then ([], state)
    else nextThinkDelta { state with fullText := state.fullText ++ part.1 }

/-- The body of the loop. -/
def onChunk (state : ThinkStreamState) (chunk : Text) : ThinkStreamState × List ThinkEvent :=
  let next := chunkDelta state chunk
  if next.1 = [] then (next.2, [])
  else if next.1 = startTag ∨ next.1 = endTag then onMarker next.2 next.1
  else onText numTokens minTokens next.2 next.1

/-- What is yielded after the loop. -/
def atEnd (state : ThinkStreamState) : List ThinkEvent :=
  flush state.buffer ++ if state.endswithThink then [.marker endTag] else []

def streamFrom : ThinkStreamState → List Text → List ThinkEvent
  | state, [] => atEnd state
  | state, chunk :: chunks =>
    let next := onChunk numTokens minTokens state chunk
    next.2 ++ streamFrom next.1 chunks

/-- `_stream_with_think_delta`. -/
def streamWithThinkDelta (chunks : List Text) : List ThinkEvent :=
  streamFrom numTokens minTokens .init chunks

end Stream

/-! ## How the events are read -/

/-- The characters of a text, each with whether it is thought. -/
def flagged (think : Bool) (t : Text) : List (Char × Bool) := t.map (·, think)

/-- The characters of the texts, each with whether it lies inside a section of thinking. Markers
that do not alternate between the tags have no reading. -/
def readEvents : Bool → List ThinkEvent → Option (List (Char × Bool))
  | _, [] => some []
  | think, .text value :: events => (readEvents think events).map (flagged think value ++ ·)
  | think, .marker value :: events =>
    if value = (if think then endTag else startTag) then readEvents (!think) events else none

/-- The characters of a piece, each with whether it is reasoning. -/
def Delta.sent : Delta → List (Char × Bool)
  | .answer content => flagged false content
  | .reasoning text => flagged true text

/-! ## Tags -/

theorem marked_startTag : Marked '<' startTag := ⟨startTag.tail, rfl, by decide⟩

theorem marked_endTag : Marked '<' endTag := ⟨endTag.tail, rfl, by decide⟩

/-- No tag occurs in the text. -/
def TagFree (t : Text) : Prop := ¬ startTag <:+: t ∧ ¬ endTag <:+: t

instance (t : Text) : Decidable (TagFree t) := inferInstanceAs (Decidable (_ ∧ _))

section Tags

variable {t u v : Text}

theorem TagFree.of_infix (h : TagFree t) (hu : u <:+: t) : TagFree u :=
  ⟨fun hd => h.1 (hd.trans hu), fun hd => h.2 (hd.trans hu)⟩

theorem TagFree.left (h : TagFree (u ++ v)) : TagFree u :=
  h.of_infix (List.prefix_append u v).isInfix

theorem TagFree.right (h : TagFree (u ++ v)) : TagFree v :=
  h.of_infix (List.suffix_append u v).isInfix

theorem TagFree.ne_startTag (h : TagFree t) : t ≠ startTag := by
  rintro rfl
  exact h.1 (List.infix_refl _)

theorem TagFree.ne_endTag (h : TagFree t) : t ≠ endTag := by
  rintro rfl
  exact h.2 (List.infix_refl _)

theorem not_startTag_prefix_endTag_append : ¬ startTag <+: endTag ++ v := by
  rintro ⟨t, ht⟩
  exact absurd (List.cons.inj (List.cons.inj ht).2).1 (by decide)

theorem not_endTag_prefix_startTag_append : ¬ endTag <+: startTag ++ v := by
  rintro ⟨t, ht⟩
  exact absurd (List.cons.inj (List.cons.inj ht).2).1 (by decide)

/-- An opening tag occurs before or behind a closing tag. -/
theorem startTag_infix_iff :
    startTag <:+: u ++ (endTag ++ v) ↔ startTag <:+: u ∨ startTag <:+: v := by
  have hcut : startTag <:+: u ++ (endTag ++ v) ↔ startTag <:+: u ∨ startTag <:+: endTag ++ v :=
    marked_startTag.infix_append_iff
  rw [hcut]
  refine or_congr_right ⟨fun h => ?_, fun h => h.trans (List.suffix_append endTag v).isInfix⟩
  exact (marked_startTag.infix_of_append_marked marked_endTag h).resolve_left
    not_startTag_prefix_endTag_append

theorem endTag_infix_iff : endTag <:+: u ++ (startTag ++ v) ↔ endTag <:+: u ∨ endTag <:+: v := by
  have hcut : endTag <:+: u ++ (startTag ++ v) ↔ endTag <:+: u ∨ endTag <:+: startTag ++ v :=
    marked_endTag.infix_append_iff
  rw [hcut]
  refine or_congr_right ⟨fun h => ?_, fun h => h.trans (List.suffix_append startTag v).isInfix⟩
  exact (marked_endTag.infix_of_append_marked marked_startTag h).resolve_left
    not_endTag_prefix_startTag_append

/-! ### Taking tags out -/

theorem tagLength_eq_zero_iff : tagLength t = 0 ↔ ¬ startTag <+: t ∧ ¬ endTag <+: t := by
  rw [tagLength]
  split_ifs with hstart hend
  · exact iff_of_false (by decide) fun h => h.1 hstart
  · exact iff_of_false (by decide) fun h => h.2 hend
  · exact iff_of_true rfl ⟨hstart, hend⟩

/-- What is read at the head of a text does not depend on what follows, from a mark on. -/
theorem tagLength_append (hu : u ≠ []) : tagLength (u ++ '<' :: v) = tagLength u := by
  have hiff : ∀ d, Marked '<' d → (d <+: u ++ '<' :: v ↔ d <+: u) := fun d hd =>
    ⟨hd.prefix_of_append hu, fun h => h.trans (List.prefix_append u _)⟩
  rw [tagLength, tagLength]
  simp only [hiff _ marked_startTag, hiff _ marked_endTag]

theorem tagLength_le : tagLength t ≤ t.length := by
  rw [tagLength]
  split_ifs with hstart hend
  · exact hstart.length_le
  · exact hend.length_le
  · exact Nat.zero_le _

theorem removeTags_cons_of_not {c : Char} (h : tagLength (c :: t) = 0) :
    removeTags (c :: t) = c :: removeTags t := by
  rw [removeTags, deleteFrom, h]
  rfl

theorem removeTags_startTag_append : removeTags (startTag ++ t) = removeTags t := rfl

theorem removeTags_endTag_append : removeTags (endTag ++ t) = removeTags t := rfl

/-- Tags are taken out before a mark and from it on. -/
theorem deleteFrom_append {skip : ℕ} (hskip : skip ≤ u.length) :
    deleteFrom tagLength skip (u ++ '<' :: v) =
      deleteFrom tagLength skip u ++ removeTags ('<' :: v) := by
  induction u generalizing skip with
  | nil =>
      obtain rfl := Nat.le_zero.mp hskip
      rfl
  | cons c u ih =>
      cases skip with
      | succ skip =>
          rw [List.cons_append, deleteFrom, deleteFrom]
          exact ih (Nat.le_of_succ_le_succ hskip)
      | zero =>
          have hhead : tagLength (c :: (u ++ '<' :: v)) = tagLength (c :: u) :=
            tagLength_append (List.cons_ne_nil c u)
          have hle := tagLength_le (t := c :: u)
          rw [List.cons_append, deleteFrom, deleteFrom, hhead]
          cases hlength : tagLength (c :: u) with
          | zero => exact congrArg (c :: ·) (ih (Nat.zero_le _))
          | succ n =>
              rw [hlength] at hle
              exact ih (Nat.le_of_succ_le_succ hle)

theorem removeTags_append_startTag :
    removeTags (u ++ (startTag ++ v)) = removeTags u ++ removeTags v :=
  deleteFrom_append (Nat.zero_le _)

theorem removeTags_append_endTag :
    removeTags (u ++ (endTag ++ v)) = removeTags u ++ removeTags v :=
  deleteFrom_append (Nat.zero_le _)

theorem TagFree.removeTags (h : TagFree t) : removeTags t = t := by
  induction t with
  | nil => rfl
  | cons c t ih =>
      have hzero : tagLength (c :: t) = 0 :=
        tagLength_eq_zero_iff.mpr ⟨fun hd => h.1 hd.isInfix, fun hd => h.2 hd.isInfix⟩
      rw [removeTags_cons_of_not hzero, ih (h.of_infix (List.suffix_cons c t).isInfix)]

theorem tagLength_of_le (h : tagLength (u ++ v) ≤ u.length) : tagLength u = tagLength (u ++ v) := by
  have hiff : ∀ d, d <+: u ++ v → d.length ≤ u.length → d <+: u := fun d hd hle =>
    List.prefix_of_prefix_length_le hd (List.prefix_append u v) hle
  by_cases hstart : startTag <+: u ++ v
  · have hu : startTag <+: u := hiff _ hstart (by rwa [tagLength, if_pos hstart] at h)
    rw [tagLength, tagLength, if_pos hstart, if_pos hu]
  · have hu : ¬ startTag <+: u := fun hu => hstart (hu.trans (List.prefix_append u v))
    by_cases hend : endTag <+: u ++ v
    · have hu' : endTag <+: u := hiff _ hend (by rwa [tagLength, if_neg hstart, if_pos hend] at h)
      rw [tagLength, tagLength, if_neg hstart, if_pos hend, if_neg hu, if_pos hu']
    · have hu' : ¬ endTag <+: u := fun hu' => hend (hu'.trans (List.prefix_append u v))
      rw [tagLength, tagLength, if_neg hstart, if_neg hend, if_neg hu, if_neg hu']

theorem length_deleteFrom_le (skip : ℕ) (t : Text) :
    (deleteFrom tagLength skip t).length ≤ t.length - skip := by
  induction t generalizing skip with
  | nil => exact Nat.zero_le _
  | cons c t ih =>
      cases skip with
      | succ skip =>
          rw [deleteFrom, List.length_cons, Nat.add_sub_add_right]
          exact ih skip
      | zero =>
          rw [deleteFrom]
          split
          · exact Nat.succ_le_succ (ih 0)
          · next n _ =>
              have hle := ih n
              rw [List.length_cons]
              omega

/-- What follows brings no more than its own length. -/
theorem length_deleteFrom_append_le (skip : ℕ) (u v : Text) :
    (deleteFrom tagLength skip (u ++ v)).length ≤
      (deleteFrom tagLength skip u).length + v.length := by
  induction u generalizing skip with
  | nil =>
      rw [List.nil_append]
      exact (length_deleteFrom_le skip v).trans
        ((Nat.sub_le _ _).trans (Nat.le_add_left _ _))
  | cons c u ih =>
      cases skip with
      | succ skip => exact ih skip
      | zero =>
          by_cases hle : tagLength (c :: u ++ v) ≤ (c :: u).length
          · have hhead := tagLength_of_le hle
            rw [List.cons_append] at hhead ⊢
            rw [deleteFrom, deleteFrom, hhead]
            cases tagLength (c :: (u ++ v)) with
            | zero =>
                rw [List.length_cons, List.length_cons, Nat.succ_add]
                exact Nat.succ_le_succ (ih 0)
            | succ n => exact ih n
          · -- The tag ends behind `u`, so that only the rest of `v` stays.
            rw [List.cons_append] at hle ⊢
            rw [deleteFrom]
            cases hlength : tagLength (c :: (u ++ v)) with
            | zero => omega
            | succ n =>
                have hrest := length_deleteFrom_le n (u ++ v)
                rw [List.length_append] at hrest
                rw [List.length_cons] at hle
                exact hrest.trans (by omega)

theorem length_removeTags_append_le :
    (Chat.removeTags (u ++ v)).length ≤ (Chat.removeTags u).length + v.length :=
  length_deleteFrom_append_le 0 u v

end Tags

/-! ## The stream without its buffer -/

section Buffer

variable {numTokens : Text → ℕ} {minTokens : ℕ} {think : Bool} {state : ThinkStreamState}
  {chunk t : Text} {chunks : List Text}

/-- What is read of a piece, and of what `rest` yields in a section of thinking or not. -/
def emitted (think : Bool) (delta : Text) (rest : Bool → Option (List (Char × Bool))) :
    Option (List (Char × Bool)) :=
  if delta = [] then rest think
  else if delta = startTag then rest true
  else if delta = endTag then rest false
  else (rest think).map (flagged think delta ++ ·)

theorem flagged_append (think : Bool) (u v : Text) :
    flagged think (u ++ v) = flagged think u ++ flagged think v :=
  List.map_append

theorem readEvents_flush_append (think : Bool) (buffer : Text) (events : List ThinkEvent) :
    readEvents think (flush buffer ++ events) =
      (readEvents think events).map (flagged think buffer ++ ·) := by
  rw [flush]
  split_ifs with hempty
  · rw [hempty]
    exact (Option.map_id' (x := readEvents think events)).symm
  · rfl

/-- What is read from a state on, without a buffer. -/
def shown (state : ThinkStreamState) (chunks : List Text) : Option (List (Char × Bool)) :=
  readEvents state.inThink (streamFrom (fun _ => 0) 0 { state with buffer := [] } chunks)

/-- The pieces do not depend on the buffer and the section, and leave them as they are. -/
theorem nextThinkDelta_frame (state : ThinkStreamState) (think : Bool) (buffer : Text) :
    nextThinkDelta { state with inThink := think, buffer := buffer } =
      ((nextThinkDelta state).1,
        { (nextThinkDelta state).2 with inThink := think, buffer := buffer }) := by
  rw [nextThinkDelta, nextThinkDelta]
  dsimp only
  by_cases hsame : state.fullText = state.lastFull
  · rw [if_pos hsame, if_pos hsame]
  · rw [if_neg hsame, if_neg hsame]
    cases occurrence? startTag (state.fullText.drop state.lastIdx) with
    | none =>
        dsimp only
        split_ifs <;> rfl
    | some i => cases i <;> rfl

theorem chunkDelta_frame (state : ThinkStreamState) (chunk : Text) (think : Bool)
    (buffer : Text) :
    chunkDelta { state with inThink := think, buffer := buffer } chunk =
      ((chunkDelta state chunk).1,
        { (chunkDelta state chunk).2 with inThink := think, buffer := buffer }) := by
  unfold chunkDelta
  dsimp only
  split_ifs
  · rfl
  · rfl
  · exact nextThinkDelta_frame
      { state with
        fullText := state.fullText ++ (newPart state.lastModelFull chunk).1
        lastModelFull := (newPart state.lastModelFull chunk).2 } think buffer

variable (state chunk) in
theorem chunkDelta_inThink : (chunkDelta state chunk).2.inThink = state.inThink :=
  congrArg (fun next => next.2.inThink) (chunkDelta_frame state chunk state.inThink state.buffer)

variable (state chunk) in
theorem chunkDelta_buffer : (chunkDelta state chunk).2.buffer = state.buffer :=
  congrArg (fun next => next.2.buffer) (chunkDelta_frame state chunk state.inThink state.buffer)

variable (state) in
/-- A tag is passed over where nothing changes, and reported after what the buffer holds where the
section does. -/
theorem onMarker_cases {delta : Text} (htag : delta = startTag ∨ delta = endTag) :
    onMarker state delta = (state, []) ∧ state.inThink = decide (delta = startTag) ∨
      onMarker state delta = ({ state with buffer := [], inThink := delta = startTag },
        flush state.buffer ++ [.marker delta]) ∧
      delta = (if state.inThink then endTag else startTag) ∧
      (!state.inThink) = decide (delta = startTag) := by
  rw [onMarker]
  cases hthink : state.inThink with
  | true =>
      rcases htag with rfl | rfl
      · exact Or.inl ⟨if_pos ⟨rfl, rfl⟩, rfl⟩
      · refine Or.inr ⟨?_, rfl, rfl⟩
        rw [if_neg fun h => absurd h.1 (by decide), if_neg fun h => absurd h.2 (by decide)]
  | false =>
      rcases htag with rfl | rfl
      · refine Or.inr ⟨?_, rfl, rfl⟩
        rw [if_neg fun h => absurd h.2 (by decide), if_neg fun h => absurd h.1 (by decide)]
      · refine Or.inl ⟨?_, rfl⟩
        rw [if_neg fun h => absurd h.1 (by decide), if_pos ⟨rfl, rfl⟩]

theorem emitted_tag {delta : Text} (htag : delta = startTag ∨ delta = endTag)
    (rest : Bool → Option (List (Char × Bool))) :
    emitted think delta rest = rest (delta = startTag) := by
  rcases htag with rfl | rfl <;> rfl

theorem emitted_text {delta : Text} (hne : delta ≠ [])
    (htag : ¬ (delta = startTag ∨ delta = endTag))
    (rest : Bool → Option (List (Char × Bool))) :
    emitted think delta rest = (rest think).map (flagged think delta ++ ·) := by
  rw [not_or] at htag
  rw [emitted, if_neg hne, if_neg htag.1, if_neg htag.2]

/-- A chunk brings one piece. -/
theorem shown_cons (state : ThinkStreamState) (chunk : Text) (chunks : List Text) :
    shown state (chunk :: chunks) =
      emitted state.inThink (chunkDelta state chunk).1 fun think =>
        shown { (chunkDelta state chunk).2 with inThink := think } chunks := by
  rw [shown, streamFrom, onChunk, chunkDelta_frame state chunk state.inThink []]
  dsimp only
  by_cases hempty : (chunkDelta state chunk).1 = []
  · rw [if_pos hempty, emitted, if_pos hempty]
    rfl
  rw [if_neg hempty]
  by_cases htag : (chunkDelta state chunk).1 = startTag ∨ (chunkDelta state chunk).1 = endTag
  · rw [if_pos htag, emitted_tag htag]
    rcases onMarker_cases
      { (chunkDelta state chunk).2 with inThink := state.inThink, buffer := [] } htag with
      ⟨hsame, hthink⟩ | ⟨hmarked, htag', hthink⟩
    · rw [hsame, ← hthink]
      rfl
    · rw [hmarked]
      exact (if_pos htag').trans (by rw [hthink]; rfl)
  · rw [if_neg htag, emitted_text hempty htag]
    rfl

/-- The buffer delays texts but does not change what is read. -/
theorem readEvents_streamFrom (state : ThinkStreamState) (chunks : List Text) :
    readEvents state.inThink (streamFrom numTokens minTokens state chunks) =
      (shown state chunks).map (flagged state.inThink state.buffer ++ ·) := by
  induction chunks generalizing state with
  | nil => exact readEvents_flush_append _ _ _
  | cons chunk chunks ih =>
      rw [shown_cons, streamFrom, onChunk, ← chunkDelta_inThink state chunk,
        ← chunkDelta_buffer state chunk]
      obtain ⟨delta, state⟩ := chunkDelta state chunk
      dsimp only
      by_cases hempty : delta = []
      · rw [if_pos hempty, emitted, if_pos hempty]
        exact ih state
      rw [if_neg hempty]
      by_cases htag : delta = startTag ∨ delta = endTag
      · rw [if_pos htag, emitted_tag htag]
        rcases onMarker_cases state htag with
          ⟨hsame, hthink⟩ | ⟨hmarked, htag', hthink⟩
        · rw [hsame, ← hthink]
          exact ih state
        · have hrest := ih { state with buffer := [], inThink := delta = startTag }
          rw [hmarked, List.append_assoc, readEvents_flush_append]
          refine congrArg (Option.map _) ((if_pos htag').trans ?_)
          rw [hthink]
          exact hrest.trans Option.map_id'
      · rw [if_neg htag, emitted_text hempty htag, onText, Option.map_map]
        split_ifs with htokens
        · have hrest := ih { state with buffer := state.buffer ++ delta }
          rw [flagged_append] at hrest
          refine hrest.trans (congrArg (Option.map · (shown state chunks)) ?_)
          funext out
          exact List.append_assoc _ _ out
        · have hrest := ih { state with buffer := [] }
          refine (congrArg (Option.map _) hrest).trans ?_
          rw [flagged_append, Option.map_map]
          refine congrArg (Option.map · (shown state chunks)) ?_
          funext out
          exact List.append_assoc _ _ out

theorem readEvents_streamWithThinkDelta (chunks : List Text) :
    readEvents false (streamWithThinkDelta numTokens minTokens chunks) = shown .init chunks :=
  (readEvents_streamFrom .init chunks).trans Option.map_id'

end Buffer

end RagFlow.Chat
