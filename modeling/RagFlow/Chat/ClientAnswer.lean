/-
# The answer that the client puts together

The server sends a reply in pieces, and reports where thinking starts and ends. The client puts the
pieces together, but takes one that starts with everything so far for the whole answer.
-/

import RagFlow.Chat.Lossless

namespace RagFlow.Chat

open RagFlow.Chunking (Text)

/-- The parts of an answer event that the client's answer is made from. -/
structure AnswerEvent where
  answer : Option Text
  final : Bool
  startToThink : Bool
  endToThink : Bool

/-- The update function that `useSendMessageWithSse` hands to `setAnswer`, from one answer string
to the next. -/
def updateAnswer (prevAnswer : Text) (d : AnswerEvent) : Text :=
  let currentAnswer := if d.final then [] else d.answer.getD []
  let newAnswer :=
    if prevAnswer ≠ [] ∧ prevAnswer <+: currentAnswer then currentAnswer
    else prevAnswer ++ currentAnswer
  let newAnswer := if d.startToThink then newAnswer ++ startTag else newAnswer
  if d.endToThink then newAnswer ++ endTag else newAnswer

/-- What `async_chat_solo` sends for an event of the stream. -/
def ThinkEvent.toAnswer : ThinkEvent → AnswerEvent
  | .text value =>
    { answer := some value, final := false, startToThink := false, endToThink := false }
  | .marker value =>
    if value = startTag then
      { answer := some [], final := false, startToThink := true, endToThink := false }
    else { answer := some [], final := false, startToThink := false, endToThink := true }

/-- The last event repeats the whole answer. -/
def finalAnswer (answer : Text) : AnswerEvent where
  answer := some answer
  final := true
  startToThink := false
  endToThink := false

/-- The answer events of a reply. -/
def answerEvents (events : List ThinkEvent) (final : Option Text) : List AnswerEvent :=
  events.map ThinkEvent.toAnswer ++ final.toList.map finalAnswer

/-- The text of an event, or the tag that stands for it. -/
def ThinkEvent.written : ThinkEvent → Text
  | .text value => value
  | .marker value => if value = startTag then startTag else endTag

section Client

variable {prev value : Text} {event : ThinkEvent} {events : List ThinkEvent}

/-- The event is not taken for the whole answer. -/
def ThinkEvent.Adds (prev : Text) : ThinkEvent → Prop
  | .text value => Extends prev value
  | .marker _ => True

theorem updateAnswer_of_adds (h : event.Adds prev) :
    updateAnswer prev event.toAnswer = prev ++ event.written := by
  have hnot : ∀ current, (current = [] ∨ Extends prev current) →
      ¬ (prev ≠ [] ∧ prev <+: current) := by
    rintro current (rfl | hext) ⟨hne, hpre⟩
    · exact hne (List.prefix_nil.mp hpre)
    · exact hext.elim hne fun hno => hno hpre
  cases event with
  | text value => exact if_neg (hnot value (Or.inr h))
  | marker value =>
      rw [ThinkEvent.toAnswer, ThinkEvent.written]
      split_ifs with hstart
      · rw [updateAnswer]
        simp
      · rw [updateAnswer]
        simp

/-- An event that is taken for the whole answer makes it shorter than what was sent. -/
theorem length_updateAnswer_lt (h : ¬ event.Adds prev) :
    (updateAnswer prev event.toAnswer).length < (prev ++ event.written).length := by
  cases event with
  | marker value => exact absurd trivial h
  | text value =>
      have hwhole : prev ≠ [] ∧ prev <+: value := by
        rw [ThinkEvent.Adds, Extends, not_or, not_not] at h
        exact h
      have hanswer : updateAnswer prev (ThinkEvent.toAnswer (.text value)) = value :=
        if_pos hwhole
      have hpos := List.length_pos_of_ne_nil hwhole.1
      rw [hanswer, List.length_append, ThinkEvent.written]
      omega

theorem length_updateAnswer_le (prev : Text) (event : ThinkEvent) :
    (updateAnswer prev event.toAnswer).length ≤ (prev ++ event.written).length := by
  by_cases h : event.Adds prev
  · rw [updateAnswer_of_adds h]
  · exact (length_updateAnswer_lt h).le

/-- The answer never gets ahead of what was sent. -/
theorem length_foldl_updateAnswer_le (prev : Text) (events : List ThinkEvent) :
    ((events.map ThinkEvent.toAnswer).foldl updateAnswer prev).length ≤
      prev.length + (events.flatMap ThinkEvent.written).length := by
  induction events generalizing prev with
  | nil => exact Nat.le_refl _
  | cons event events ih =>
      have hstep := length_updateAnswer_le prev event
      rw [List.length_append] at hstep
      rw [List.map_cons, List.foldl_cons, List.flatMap_cons, List.length_append, ← Nat.add_assoc]
      exact (ih _).trans (Nat.add_le_add_right hstep _)

/-- No event is taken for the whole answer. -/
def AllAdd : Text → List ThinkEvent → Prop
  | _, [] => True
  | prev, event :: events => event.Adds prev ∧ AllAdd (prev ++ event.written) events

theorem foldl_updateAnswer_iff (prev : Text) (events : List ThinkEvent) :
    (events.map ThinkEvent.toAnswer).foldl updateAnswer prev =
      prev ++ events.flatMap ThinkEvent.written ↔ AllAdd prev events := by
  induction events generalizing prev with
  | nil => exact iff_of_true (List.append_nil prev).symm trivial
  | cons event events ih =>
      rw [List.map_cons, List.foldl_cons, List.flatMap_cons, ← List.append_assoc]
      by_cases h : event.Adds prev
      · rw [updateAnswer_of_adds h, ih]
        exact (and_iff_right h).symm
      · refine iff_of_false (fun heq => ?_) fun hall => h hall.1
        have hle := length_foldl_updateAnswer_le (updateAnswer prev event.toAnswer) events
        have hlt := length_updateAnswer_lt h
        rw [heq, List.length_append] at hle
        omega

theorem allAdd_iff (prev : Text) (events : List ThinkEvent) :
    AllAdd prev events ↔ ∀ before value after, events = before ++ .text value :: after →
      Extends (prev ++ before.flatMap ThinkEvent.written) value := by
  induction events generalizing prev with
  | nil =>
      refine iff_of_true trivial fun before value after h => ?_
      exact absurd h (List.append_ne_nil_of_right_ne_nil before (List.cons_ne_nil _ _)).symm
  | cons event events ih =>
      rw [AllAdd, ih]
      constructor
      · rintro ⟨hadds, hrest⟩ before value after h
        cases before with
        | nil =>
            obtain ⟨rfl, -⟩ := List.cons.inj h
            rw [List.flatMap_nil, List.append_nil]
            exact hadds
        | cons first before =>
            obtain ⟨rfl, hafter⟩ := List.cons.inj h
            rw [List.flatMap_cons, ← List.append_assoc]
            exact hrest before value after hafter
      · intro h
        refine ⟨?_, fun before value after hafter => ?_⟩
        · cases event with
          | marker value => trivial
          | text value =>
              have hhead := h [] value events rfl
              rwa [List.flatMap_nil, List.append_nil] at hhead
        · have hlater := h (event :: before) value after (congrArg (event :: ·) hafter)
          rwa [List.flatMap_cons, ← List.append_assoc] at hlater

theorem updateAnswer_finalAnswer (prev answer : Text) :
    updateAnswer prev (finalAnswer answer) = prev := by
  have hnot : ¬ (prev ≠ [] ∧ prev <+: []) := fun h => h.1 (List.prefix_nil.mp h.2)
  exact (if_neg hnot).trans (List.append_nil prev)

/-- The client shows what was sent exactly if no text starts with all that was written before it. -/
theorem answer_shown_iff (events : List ThinkEvent) (final : Option Text) :
    (answerEvents events final).foldl updateAnswer [] = events.flatMap ThinkEvent.written ↔
      ∀ before value after, events = before ++ .text value :: after →
        before.flatMap ThinkEvent.written = [] ∨
          ¬ before.flatMap ThinkEvent.written <+: value := by
  have hfinal : (answerEvents events final).foldl updateAnswer [] =
      (events.map ThinkEvent.toAnswer).foldl updateAnswer [] := by
    rw [answerEvents, List.foldl_append]
    cases final with
    | none => rfl
    | some answer => exact updateAnswer_finalAnswer _ answer
  rw [hfinal]
  exact (foldl_updateAnswer_iff [] events).trans (allAdd_iff [] events)

/-- The second text starts with the first. -/
theorem answer_loses_text :
    (answerEvents [.text ['n'], .text ['n', 'o']] none).foldl updateAnswer [] ≠
      [ThinkEvent.text ['n'], .text ['n', 'o']].flatMap ThinkEvent.written := by
  decide

end Client

end RagFlow.Chat
