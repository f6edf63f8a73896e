/-
# When the stream loses nothing

Each chunk brings at most one piece, so the text lags behind after a tag, and a chunk that starts
with all the text so far is taken for the whole text. What is not handed on before the reply ends is
lost.
-/

import RagFlow.Chat.ThinkStream

namespace RagFlow.Chat

open RagFlow.Math
open RagFlow.Chunking (Text)

/-! ## States between two chunks -/

/-- The state that has handed on `read` and still looks at `pending`, without a buffer. -/
def ThinkStreamState.at (read pending : Text) (endswithThink inThink : Bool) :
    ThinkStreamState where
  fullText := read ++ pending
  lastIdx := read.length
  endswithThink := endswithThink
  lastFull := read ++ pending
  lastModelFull := read ++ pending
  inThink := inThink
  buffer := []

/-- The chunk adds something to the text so far. -/
def Brings (full chunk new : Text) : Prop :=
  chunk ≠ [] ∧ newPart full chunk = (new, full ++ new) ∧ new ≠ []

/-- The chunk is not taken for the whole text. -/
def Extends (full chunk : Text) : Prop := full = [] ∨ ¬ full <+: chunk

section Step

variable {read pending chunk new u v q : Text} {endswith think : Bool} {chunks : List Text}

theorem Extends.brings {full : Text} (h : Extends full chunk) (hne : chunk ≠ []) :
    Brings full chunk chunk := by
  refine ⟨hne, ?_, hne⟩
  rcases h with rfl | h
  · rfl
  · rw [newPart, if_neg h]

theorem brings_of_starts {full rest : Text} (hfull : full ≠ []) (hrest : rest ≠ []) :
    Brings full (full ++ rest) rest := by
  refine ⟨fun h => hfull (List.append_eq_nil_iff.mp h).1, ?_, hrest⟩
  rw [newPart, if_pos (List.prefix_append full rest), List.drop_left]

/-- What a chunk does, by what is to be looked at. -/
theorem Brings.chunkDelta (h : Brings (read ++ pending) chunk new) :
    chunkDelta (.at read pending endswith think) chunk =
      match occurrence? startTag (pending ++ new) with
      | some 0 => (startTag, { ThinkStreamState.at read (pending ++ new) endswith think with
          lastIdx := read.length + startTag.length })
      | some (i + 1) => ((pending ++ new).take (i + 1),
          { ThinkStreamState.at read (pending ++ new) endswith think with
            lastIdx := read.length + (i + 1) })
      | none =>
        if endTag <:+ pending ++ new then
          passOn (.at read (pending ++ new) true think) (pending ++ new)
        else if endswith then (endTag, .at read (pending ++ new) false think)
        else passOn (.at read (pending ++ new) endswith think) (pending ++ new) := by
  obtain ⟨hchunk, hpart, hnew⟩ := h
  have hgrown : read ++ pending ++ new ≠ read ++ pending := fun heq =>
    hnew (List.append_right_eq_self.mp heq)
  have hdrop : (read ++ pending ++ new).drop read.length = pending ++ new := by
    rw [List.append_assoc, List.drop_left]
  rw [Chat.chunkDelta, if_neg hchunk]
  dsimp only [ThinkStreamState.at]
  rw [hpart, if_neg hnew, nextThinkDelta, if_neg hgrown]
  dsimp only
  rw [hdrop]
  cases occurrence? startTag (pending ++ new) with
  | none => simp only [List.append_assoc]
  | some i => cases i <;> simp only [List.append_assoc]

theorem Brings.opens (h : Brings (read ++ pending) chunk new)
    (hq : pending ++ new = startTag ++ q) :
    shown (.at read pending endswith think) (chunk :: chunks) =
      shown (.at (read ++ startTag) q endswith true) chunks := by
  have hfound : occurrence? startTag (pending ++ new) = some 0 := by
    rw [hq]
    exact marked_startTag.occurrence?_append (u := []) (fun hd => by
      exact absurd (List.infix_nil.mp hd) marked_startTag.ne_nil)
  have hat : { ThinkStreamState.at read (pending ++ new) endswith true with
      lastIdx := read.length + startTag.length } =
        ThinkStreamState.at (read ++ startTag) q endswith true := by
    simp only [ThinkStreamState.at, hq, List.append_assoc, List.length_append]
  rw [shown_cons, h.chunkDelta, hfound]
  dsimp only
  rw [emitted_tag (Or.inl rfl), ← hat]
  rfl

theorem Brings.before (h : Brings (read ++ pending) chunk new)
    (hq : pending ++ new = u ++ (startTag ++ q)) (hne : u ≠ []) (hu : ¬ startTag <:+: u) :
    shown (.at read pending endswith think) (chunk :: chunks) =
      emitted think u fun think =>
        shown (.at (read ++ u) (startTag ++ q) endswith think) chunks := by
  have hfound : occurrence? startTag (pending ++ new) = some u.length := by
    rw [hq]
    exact marked_startTag.occurrence?_append hu
  have htake : (pending ++ new).take u.length = u := by rw [hq, List.take_left]
  obtain ⟨i, hi⟩ := Nat.exists_eq_succ_of_ne_zero fun h0 => hne (List.eq_nil_of_length_eq_zero h0)
  rw [shown_cons, h.chunkDelta, hfound, hi]
  dsimp only
  rw [← Nat.succ_eq_add_one, ← hi, htake]
  refine congrArg (emitted think u) (funext fun think' => ?_)
  simp only [ThinkStreamState.at, hq, List.append_assoc, List.length_append]

theorem passOn_of_suffix {state : ThinkStreamState} (h : endTag <:+ state.fullText) (t : Text) :
    passOn state t = (removeTags t,
      { state with lastIdx := state.fullText.length - endTag.length }) := by
  rw [passOn, if_pos h]

theorem passOn_of_not_suffix {state : ThinkStreamState} (h : ¬ endTag <:+ state.fullText)
    (t : Text) :
    passOn state t = (removeTags t, { state with lastIdx := state.fullText.length }) := by
  rw [passOn, if_neg h]

variable (endswith think) in
/-- The text ends with a closing tag, which is looked at once more. -/
theorem at_of_eq (h : read ++ pending = v ++ endTag) :
    { ThinkStreamState.at read pending endswith think with
      lastIdx := (read ++ pending).length - endTag.length } =
      ThinkStreamState.at v endTag endswith think := by
  simp only [ThinkStreamState.at, h, List.length_append, Nat.add_sub_cancel]

theorem Brings.ends (h : Brings (read ++ pending) chunk new)
    (hstart : ¬ startTag <:+: pending ++ new) (hu : pending ++ new = u ++ endTag) :
    shown (.at read pending endswith think) (chunk :: chunks) =
      emitted think (removeTags (pending ++ new)) fun think =>
        shown (.at (read ++ u) endTag true think) chunks := by
  have hend : endTag <:+ pending ++ new := ⟨u, hu.symm⟩
  have hfull : read ++ (pending ++ new) = read ++ u ++ endTag := by rw [hu, List.append_assoc]
  rw [shown_cons, h.chunkDelta, occurrence?_eq_none hstart]
  dsimp only
  rw [if_pos hend, passOn_of_suffix (List.suffix_append_of_suffix hend)]
  refine congrArg (emitted think _) (funext fun think => ?_)
  rw [← at_of_eq true think hfull]
  rfl

theorem Brings.closes (h : Brings (read ++ pending) chunk new)
    (hstart : ¬ startTag <:+: pending ++ new) (hend : ¬ endTag <:+ pending ++ new) :
    shown (.at read pending true think) (chunk :: chunks) =
      shown (.at read (pending ++ new) false false) chunks := by
  rw [shown_cons, h.chunkDelta, occurrence?_eq_none hstart]
  dsimp only
  rw [if_neg hend, if_pos rfl]
  exact emitted_tag (Or.inr rfl) _

theorem Brings.plain (h : Brings (read ++ pending) chunk new)
    (hstart : ¬ startTag <:+: pending ++ new) (hfull : ¬ endTag <:+ read ++ (pending ++ new)) :
    shown (.at read pending false think) (chunk :: chunks) =
      emitted think (removeTags (pending ++ new)) fun think =>
        shown (.at (read ++ (pending ++ new)) [] false think) chunks := by
  have hend : ¬ endTag <:+ pending ++ new := fun hend =>
    hfull (List.suffix_append_of_suffix hend)
  rw [shown_cons, h.chunkDelta, occurrence?_eq_none hstart]
  dsimp only
  rw [if_neg hend, if_neg Bool.false_ne_true, passOn_of_not_suffix hfull]
  refine congrArg (emitted think _) (funext fun think => ?_)
  simp only [ThinkStreamState.at, List.append_nil]

/-- A closing tag at the end that was not looked at as a whole is looked at once more. -/
theorem Brings.late (h : Brings (read ++ pending) chunk new)
    (hstart : ¬ startTag <:+: pending ++ new) (hend : ¬ endTag <:+ pending ++ new)
    (hv : read ++ (pending ++ new) = v ++ endTag) :
    shown (.at read pending false think) (chunk :: chunks) =
      emitted think (removeTags (pending ++ new)) fun think =>
        shown (.at v endTag false think) chunks := by
  have hfull : endTag <:+ read ++ (pending ++ new) := ⟨v, hv.symm⟩
  rw [shown_cons, h.chunkDelta, occurrence?_eq_none hstart]
  dsimp only
  rw [if_neg hend, if_neg Bool.false_ne_true, passOn_of_suffix hfull]
  refine congrArg (emitted think _) (funext fun think => ?_)
  rw [← at_of_eq false think hv]
  rfl

end Step

/-! ## Where a reply stands -/

/-- Where the stream stands in a reply. -/
inductive Mode where
  /-- An answer is handed on as it comes; `said` is the answer so far. -/
  | answering (said : Text)
  /-- Reasoning has begun, and none of it is handed on yet; one more piece is needed where the
  answer before ended with a closing tag. -/
  | opening (late : Bool) (thoughts : List Text)
  /-- Reasoning is handed on as it comes. -/
  | reasoning
  /-- The first piece of an answer has closed the section and waits. -/
  | closing (said : Text)

/-- The last piece was reasoning. -/
def Mode.reasoningStart : Mode → Bool
  | .answering _ | .closing _ => false
  | .opening _ _ | .reasoning => true

/-- What is still to be handed on. -/
def Mode.owed : Mode → List (Char × Bool)
  | .answering _ | .reasoning => []
  | .opening _ thoughts => flagged true thoughts.flatten
  | .closing said => flagged false said

/-- The rest of a reply that loses nothing. Reasoning has a second piece, and a third one where it
is late, and the first ones do not make up a tag; an answer to reasoning has a second piece, and the
first two have no tag between them. -/
def Passes : Mode → List Delta → Prop
  | .answering _, [] => True
  | .answering said, .answer content :: deltas => Passes (.answering (said ++ content)) deltas
  | .answering said, .reasoning text :: deltas =>
    TagFree text ∧ Passes (.opening (endTag <:+ said) [text]) deltas
  | .opening _ _, [] => False
  | .opening _ _, .answer _ :: _ => False
  | .opening true thoughts, .reasoning text :: deltas =>
    TagFree text ∧ Passes (.opening false (thoughts ++ [text])) deltas
  | .opening false thoughts, .reasoning text :: deltas =>
    TagFree text ∧ (thoughts ++ [text]).flatten ≠ startTag ∧
      (thoughts ++ [text]).flatten ≠ endTag ∧ Passes .reasoning deltas
  | .reasoning, [] => True
  | .reasoning, .reasoning text :: deltas => TagFree text ∧ Passes .reasoning deltas
  | .reasoning, .answer content :: deltas => Passes (.closing content) deltas
  | .closing _, [] => False
  | .closing _, .reasoning _ :: _ => False
  | .closing said, .answer content :: deltas =>
    TagFree (said ++ content) ∧ Passes (.answering (said ++ content)) deltas

/-- Pieces of reasoning as they are sent after the opening tag. -/
def sentThoughts (thoughts : List Text) : Text := thoughts.flatMap (· ++ endTag)

/-- The states of the stream, by where it stands. -/
inductive Stands : Mode → ThinkStreamState → Prop
  | answering {read pending before said : Text} (full : read ++ pending = before ++ said)
      (pending_eq : pending = if endTag <:+ said then endTag else [])
      (before_ends : before = [] ∨ endTag <:+ before ∧ said ≠ []) :
      Stands (.answering said) (.at read pending false false)
  | late (read : Text) {thoughts : List Text} (tagFree : ∀ t ∈ thoughts, TagFree t) :
      Stands (.opening true thoughts) (.at read (startTag ++ sentThoughts thoughts) false false)
  | opening (read : Text) {thoughts : List Text} (tagFree : ∀ t ∈ thoughts, TagFree t) :
      Stands (.opening false thoughts) (.at read (sentThoughts thoughts) false true)
  | reasoning (read : Text) : Stands .reasoning (.at read endTag true true)
  | closing (read said : Text) :
      Stands (.closing said) (.at read (endTag ++ said) false false)

section Stands

variable {said text content : Text} {thoughts : List Text} {state : ThinkStreamState}

theorem emitted_of_tagFree {t : Text} (h : TagFree t) (think : Bool)
    (rest : Bool → Option (List (Char × Bool))) :
    emitted think t rest = (rest think).map (flagged think t ++ ·) := by
  by_cases hne : t = []
  · subst hne
    exact Option.map_id'.symm
  · exact emitted_text hne (fun htag => htag.elim h.ne_startTag h.ne_endTag) rest

theorem not_startTag_infix_sentThoughts (h : ∀ t ∈ thoughts, TagFree t) :
    ¬ startTag <:+: sentThoughts thoughts := by
  induction thoughts with
  | nil => exact fun hd => marked_startTag.ne_nil (List.infix_nil.mp hd)
  | cons t thoughts ih =>
      rw [sentThoughts, List.flatMap_cons, List.append_assoc, startTag_infix_iff, not_or]
      exact ⟨(h t List.mem_cons_self).1, ih fun u hu => h u (List.mem_cons_of_mem t hu)⟩

theorem removeTags_sentThoughts_append (h : ∀ t ∈ thoughts, TagFree t) (v : Text) :
    removeTags (sentThoughts thoughts ++ v) = thoughts.flatten ++ removeTags v := by
  induction thoughts with
  | nil => rfl
  | cons t thoughts ih =>
      rw [sentThoughts, List.flatMap_cons, List.append_assoc, List.append_assoc,
        removeTags_append_endTag, (h t List.mem_cons_self).removeTags, List.flatten_cons,
        List.append_assoc]
      exact congrArg (t ++ ·) (ih fun u hu => h u (List.mem_cons_of_mem t hu))

theorem removeTags_sentThoughts (h : ∀ t ∈ thoughts, TagFree t) :
    removeTags (sentThoughts thoughts) = thoughts.flatten := by
  have happend := removeTags_sentThoughts_append h []
  rw [List.append_nil] at happend
  exact happend.trans (List.append_nil _)

theorem sentThoughts_concat (thoughts : List Text) (t : Text) :
    sentThoughts (thoughts ++ [t]) = sentThoughts thoughts ++ (t ++ endTag) := by
  rw [sentThoughts, List.flatMap_append, List.flatMap_singleton]
  rfl

theorem forall_tagFree_concat (h : ∀ t ∈ thoughts, TagFree t) (htext : TagFree text) :
    ∀ t ∈ thoughts ++ [text], TagFree t := by
  intro t ht
  rcases List.mem_append.mp ht with ht | ht
  · exact h t ht
  · exact List.mem_singleton.mp ht ▸ htext

/-- A closing tag at the end of what follows a closing tag belongs to what follows. -/
theorem endTag_suffix_append {before v : Text} (hbefore : endTag <:+ before) (hv : v ≠ [])
    (h : endTag <:+ before ++ v) : endTag <:+ v := by
  obtain ⟨x, rfl⟩ := hbefore
  refine marked_endTag.suffix_of_append hv (List.suffix_of_suffix_length_le h ?_ ?_)
  · rw [List.append_assoc]
    exact List.suffix_append x _
  · rw [List.length_append]
    exact Nat.le_add_right _ _

theorem TagFree.not_suffix (h : TagFree text) : ¬ endTag <:+ text := fun hd => h.2 hd.isInfix

theorem not_startTag_infix_endTag_append (h : TagFree text) : ¬ startTag <:+: endTag ++ text := by
  have hiff : startTag <:+: [] ++ (endTag ++ text) ↔ _ := startTag_infix_iff
  rw [List.nil_append] at hiff
  rw [hiff, not_or]
  exact ⟨fun hd => marked_startTag.ne_nil (List.infix_nil.mp hd), h.1⟩

/-! ### Steps -/

/-- What is looked at of an answer, whether or not a closing tag comes before. -/
theorem looked_at {pending : Text} (hpending : pending = if endTag <:+ said then endTag else [])
    (hcontent : TagFree content) (hne : content ≠ []) :
    ¬ startTag <:+: pending ++ content ∧ ¬ endTag <:+ pending ++ content ∧
      removeTags (pending ++ content) = content := by
  by_cases hsaid : endTag <:+ said
  · rw [if_pos hsaid] at hpending
    subst hpending
    exact ⟨not_startTag_infix_endTag_append hcontent,
      fun hd => hcontent.not_suffix (endTag_suffix_append List.suffix_rfl hne hd),
      removeTags_endTag_append.trans hcontent.removeTags⟩
  · rw [if_neg hsaid] at hpending
    subst hpending
    exact ⟨hcontent.1, hcontent.not_suffix, hcontent.removeTags⟩

theorem Stands.answering_answer (h : Stands (.answering said) state) (hcontent : TagFree content)
    (hne : content ≠ []) (hext : Extends state.fullText content) :
    ∃ next, Stands (.answering (said ++ content)) next ∧
      next.fullText = state.fullText ++ content ∧
      ∀ chunks, shown state (content :: chunks) =
        (shown next chunks).map (flagged false content ++ ·) := by
  cases h with
  | @answering read pending before _ full pending_eq before_ends =>
    have hbrings : Brings (read ++ pending) content content := hext.brings hne
    obtain ⟨hstart, hend, hremoved⟩ := looked_at pending_eq hcontent hne
    have hfull : read ++ (pending ++ content) = before ++ (said ++ content) := by
      rw [← List.append_assoc, full, List.append_assoc]
    have hnext : before = [] ∨ endTag <:+ before ∧ said ++ content ≠ [] :=
      before_ends.imp_right fun h => ⟨h.1, List.append_ne_nil_of_right_ne_nil said hne⟩
    have hshown : ∀ rest : Bool → Option (List (Char × Bool)),
        emitted false (removeTags (pending ++ content)) rest =
          (rest false).map (flagged false content ++ ·) := by
      rw [hremoved]
      exact emitted_of_tagFree hcontent false
    by_cases hsuffix : endTag <:+ said ++ content
    · obtain ⟨v, hv⟩ : endTag <:+ before ++ (said ++ content) :=
        List.suffix_append_of_suffix hsuffix
      refine ⟨.at v endTag false false, .answering hv (if_pos hsuffix).symm hnext, ?_,
        fun chunks => ?_⟩
      · exact hv.trans (hfull.symm.trans (List.append_assoc _ _ _).symm)
      · rw [hbrings.late hstart hend (hfull.trans hv.symm), hshown]
    · have hnot : ¬ endTag <:+ read ++ (pending ++ content) := by
        rw [hfull]
        intro hd
        rcases before_ends with rfl | ⟨hbefore, -⟩
        · exact hsuffix hd
        · exact hsuffix (endTag_suffix_append hbefore
            (List.append_ne_nil_of_right_ne_nil said hne) hd)
      refine ⟨.at (read ++ (pending ++ content)) [] false false,
        .answering ((List.append_nil _).trans hfull) (if_neg hsuffix).symm hnext, ?_,
        fun chunks => ?_⟩
      · exact (List.append_nil _).trans (List.append_assoc _ _ _).symm
      · rw [hbrings.plain hstart hnot, hshown]

/-- The first piece of reasoning as it is sent. -/
theorem opened_ne_nil (text : Text) : startTag ++ (text ++ endTag) ≠ [] := by
  exact List.cons_ne_nil _ _

theorem closed_ne_nil (text : Text) : text ++ endTag ≠ [] :=
  List.append_ne_nil_of_right_ne_nil text (List.cons_ne_nil _ _)

theorem Stands.answering_reasoning (h : Stands (.answering said) state) (htext : TagFree text)
    (hext : Extends state.fullText (startTag ++ (text ++ endTag))) :
    ∃ next, Stands (.opening (endTag <:+ said) [text]) next ∧
      next.fullText = state.fullText ++ (startTag ++ (text ++ endTag)) ∧
      ∀ chunks, shown state ((startTag ++ (text ++ endTag)) :: chunks) = shown next chunks := by
  have hthoughts : ∀ t ∈ [text], TagFree t := fun t ht => List.mem_singleton.mp ht ▸ htext
  have hsent : sentThoughts [text] = text ++ endTag := List.append_nil _
  cases h with
  | @answering read pending before _ full pending_eq before_ends =>
    have hbrings := hext.brings (opened_ne_nil text)
    by_cases hsaid : endTag <:+ said
    · rw [if_pos hsaid] at pending_eq
      subst pending_eq
      rw [decide_eq_true hsaid]
      refine ⟨.at (read ++ endTag) (startTag ++ sentThoughts [text]) false false,
        .late _ hthoughts, ?_, fun chunks => ?_⟩
      · rw [hsent]
        rfl
      · rw [hsent, hbrings.before (u := endTag) rfl (List.cons_ne_nil _ _) (by decide)]
        rfl
    · rw [if_neg hsaid] at pending_eq
      subst pending_eq
      rw [decide_eq_false hsaid]
      refine ⟨.at (read ++ startTag) (sentThoughts [text]) false true, .opening _ hthoughts, ?_,
        fun chunks => ?_⟩
      · rw [hsent]
        simp only [ThinkStreamState.at, List.append_nil, List.append_assoc]
      · rw [hsent]
        exact hbrings.opens rfl

theorem Stands.late_reasoning (h : Stands (.opening true thoughts) state) (htext : TagFree text)
    (hext : Extends state.fullText (text ++ endTag)) :
    ∃ next, Stands (.opening false (thoughts ++ [text])) next ∧
      next.fullText = state.fullText ++ (text ++ endTag) ∧
      ∀ chunks, shown state ((text ++ endTag) :: chunks) = shown next chunks := by
  cases h with
  | late read tagFree =>
    have hbrings := hext.brings (closed_ne_nil text)
    refine ⟨.at (read ++ startTag) (sentThoughts (thoughts ++ [text])) false true,
      .opening _ (forall_tagFree_concat tagFree htext), ?_, fun chunks => ?_⟩
    · simp only [ThinkStreamState.at, sentThoughts_concat, List.append_assoc]
    · refine hbrings.opens ?_
      rw [sentThoughts_concat, List.append_assoc]

theorem Stands.opening_reasoning (h : Stands (.opening false thoughts) state)
    (htext : TagFree text) (hstart : (thoughts ++ [text]).flatten ≠ startTag)
    (hend : (thoughts ++ [text]).flatten ≠ endTag) (hne : text ≠ [])
    (hext : Extends state.fullText (text ++ endTag)) :
    ∃ next, Stands .reasoning next ∧ next.fullText = state.fullText ++ (text ++ endTag) ∧
      ∀ chunks, shown state ((text ++ endTag) :: chunks) =
        (shown next chunks).map (flagged true (thoughts ++ [text]).flatten ++ ·) := by
  cases h with
  | opening read tagFree =>
    have hbrings := hext.brings (closed_ne_nil text)
    have hall := forall_tagFree_concat tagFree htext
    have hno := not_startTag_infix_sentThoughts hall
    rw [sentThoughts_concat] at hno
    have hremoved := removeTags_sentThoughts hall
    rw [sentThoughts_concat] at hremoved
    refine ⟨.at (read ++ (sentThoughts thoughts ++ text)) endTag true true, .reasoning _, ?_,
      fun chunks => ?_⟩
    · simp only [ThinkStreamState.at, List.append_assoc]
    · rw [hbrings.ends hno (List.append_assoc _ _ _).symm, hremoved]
      refine emitted_text ?_ (fun htag => htag.elim hstart hend) _
      rw [List.flatten_append, List.flatten_singleton]
      exact List.append_ne_nil_of_right_ne_nil _ hne

theorem Stands.reasoning_reasoning (h : Stands .reasoning state) (htext : TagFree text)
    (hext : Extends state.fullText (text ++ endTag)) :
    ∃ next, Stands .reasoning next ∧ next.fullText = state.fullText ++ (text ++ endTag) ∧
      ∀ chunks, shown state ((text ++ endTag) :: chunks) =
        (shown next chunks).map (flagged true text ++ ·) := by
  cases h with
  | reasoning read =>
    have hbrings := hext.brings (closed_ne_nil text)
    have hall : ∀ t ∈ [] ++ [text], TagFree t :=
      forall_tagFree_concat (fun t ht => absurd ht List.not_mem_nil) htext
    have hno : ¬ startTag <:+: [] ++ (endTag ++ (text ++ endTag)) := by
      rw [startTag_infix_iff, not_or]
      refine ⟨fun hd => marked_startTag.ne_nil (List.infix_nil.mp hd), ?_⟩
      have htextEnd := not_startTag_infix_sentThoughts hall
      rwa [sentThoughts_concat] at htextEnd
    have hremoved : removeTags (endTag ++ (text ++ endTag)) = text := by
      have htextEnd := removeTags_sentThoughts hall
      rw [sentThoughts_concat] at htextEnd
      exact removeTags_endTag_append.trans (htextEnd.trans (List.append_nil text))
    refine ⟨.at (read ++ (endTag ++ text)) endTag true true, .reasoning _, ?_, fun chunks => ?_⟩
    · simp only [ThinkStreamState.at, List.append_assoc]
    · rw [hbrings.ends hno (List.append_assoc _ _ _).symm, hremoved]
      exact emitted_of_tagFree htext true _

theorem Stands.reasoning_answer (h : Stands .reasoning state) (hcontent : TagFree content)
    (hne : content ≠ []) (hext : Extends state.fullText content) :
    ∃ next, Stands (.closing content) next ∧ next.fullText = state.fullText ++ content ∧
      ∀ chunks, shown state (content :: chunks) = shown next chunks := by
  cases h with
  | reasoning read =>
    have hbrings := hext.brings hne
    refine ⟨.at read (endTag ++ content) false false, .closing read content,
      (List.append_assoc _ _ _).symm, fun chunks => ?_⟩
    exact hbrings.closes (not_startTag_infix_endTag_append hcontent)
      fun hd => hcontent.not_suffix (endTag_suffix_append List.suffix_rfl hne hd)

theorem Stands.closing_answer (h : Stands (.closing said) state)
    (htagFree : TagFree (said ++ content)) (hne : content ≠ [])
    (hext : Extends state.fullText content) :
    ∃ next, Stands (.answering (said ++ content)) next ∧
      next.fullText = state.fullText ++ content ∧
      ∀ chunks, shown state (content :: chunks) =
        (shown next chunks).map (flagged false (said ++ content) ++ ·) := by
  cases h with
  | closing read =>
    have hbrings := hext.brings hne
    have hsaid : said ++ content ≠ [] := List.append_ne_nil_of_right_ne_nil said hne
    have hread : endTag <:+ read ++ endTag := List.suffix_append read endTag
    have hno : ¬ startTag <:+: endTag ++ said ++ content := by
      rw [List.append_assoc]
      exact not_startTag_infix_endTag_append htagFree
    have hfull : read ++ (endTag ++ said ++ content) = read ++ endTag ++ (said ++ content) := by
      simp only [List.append_assoc]
    have hnot : ¬ endTag <:+ read ++ (endTag ++ said ++ content) := by
      rw [hfull]
      exact fun hd => htagFree.not_suffix (endTag_suffix_append hread hsaid hd)
    have hremoved : removeTags (endTag ++ said ++ content) = said ++ content := by
      rw [List.append_assoc]
      exact removeTags_endTag_append.trans htagFree.removeTags
    refine ⟨.at (read ++ (endTag ++ said ++ content)) [] false false,
      .answering ((List.append_nil _).trans hfull) (if_neg htagFree.not_suffix).symm
        (Or.inr ⟨hread, hsaid⟩), ?_, fun chunks => ?_⟩
    · exact (List.append_nil _).trans (List.append_assoc _ _ _).symm
    · rw [hbrings.plain hno hnot, hremoved]
      exact emitted_of_tagFree htagFree false _

end Stands

/-! ## What is enough -/

/-- The pieces of a reply: text, and answers without tags. -/
def Delta.Valid : Delta → Prop
  | .answer content => content ≠ [] ∧ TagFree content
  | .reasoning text => text ≠ []

/-- No chunk is taken for the whole text. -/
def ExtendsAll : Text → List Text → Prop
  | _, [] => True
  | full, chunk :: chunks => Extends full chunk ∧ ExtendsAll (full ++ chunk) chunks

theorem map_flagged_append {out : Option (List (Char × Bool))} {t u : List (Char × Bool)}
    (h : out = some u) : out.map (t ++ ·) = some (t ++ u) := by
  rw [h]
  rfl

/-- From wherever the stream stands, what passes is read as it was sent. -/
theorem Stands.shown_of_passes {mode : Mode} {state : ThinkStreamState} {deltas : List Delta}
    (hstands : Stands mode state) (hvalid : ∀ d ∈ deltas, d.Valid)
    (hext : ExtendsAll state.fullText (asyncChatStreamly mode.reasoningStart deltas))
    (hpasses : Passes mode deltas) :
    shown state (asyncChatStreamly mode.reasoningStart deltas) =
      some (mode.owed ++ deltas.flatMap Delta.sent) := by
  induction deltas generalizing mode state with
  | nil =>
      cases hstands with
      | answering => rfl
      | reasoning => rfl
      | late => exact hpasses.elim
      | opening => exact hpasses.elim
      | closing => exact hpasses.elim
  | cons delta deltas ih =>
      have hdelta := hvalid delta List.mem_cons_self
      have hrest : ∀ d ∈ deltas, d.Valid := fun d hd => hvalid d (List.mem_cons_of_mem delta hd)
      rw [List.flatMap_cons]
      cases mode with
      | answering said =>
          cases delta with
          | answer content =>
              obtain ⟨next, hnext, hfull, hshown⟩ :=
                hstands.answering_answer hdelta.2 hdelta.1 hext.1
              refine (hshown _).trans (map_flagged_append ?_)
              exact ih hnext hrest (hfull ▸ hext.2) hpasses
          | reasoning text =>
              obtain ⟨next, hnext, hfull, hshown⟩ := hstands.answering_reasoning hpasses.1 hext.1
              refine (hshown _).trans ((ih hnext hrest (hfull ▸ hext.2) hpasses.2).trans ?_)
              have howed : (Mode.opening (endTag <:+ said) [text]).owed = flagged true text :=
                congrArg (flagged true) List.flatten_singleton
              rw [howed]
              rfl
      | opening late thoughts =>
          cases delta with
          | answer content => exact (by cases late <;> exact hpasses.elim)
          | reasoning text =>
              cases late with
              | true =>
                  obtain ⟨next, hnext, hfull, hshown⟩ := hstands.late_reasoning hpasses.1 hext.1
                  refine (hshown _).trans ((ih hnext hrest (hfull ▸ hext.2) hpasses.2).trans ?_)
                  rw [Mode.owed, List.flatten_append, List.flatten_singleton, flagged_append,
                    List.append_assoc]
                  rfl
              | false =>
                  obtain ⟨htext, hstart, hend, hlater⟩ := hpasses
                  obtain ⟨next, hnext, hfull, hshown⟩ :=
                    hstands.opening_reasoning htext hstart hend hdelta hext.1
                  refine ((hshown _).trans (map_flagged_append
                    (ih hnext hrest (hfull ▸ hext.2) hlater))).trans ?_
                  rw [Mode.owed, List.flatten_append, List.flatten_singleton, flagged_append,
                    List.append_assoc]
                  rfl
      | reasoning =>
          cases delta with
          | answer content =>
              obtain ⟨next, hnext, hfull, hshown⟩ :=
                hstands.reasoning_answer hdelta.2 hdelta.1 hext.1
              exact (hshown _).trans (ih hnext hrest (hfull ▸ hext.2) hpasses)
          | reasoning text =>
              obtain ⟨next, hnext, hfull, hshown⟩ := hstands.reasoning_reasoning hpasses.1 hext.1
              refine (hshown _).trans (map_flagged_append ?_)
              exact ih hnext hrest (hfull ▸ hext.2) hpasses.2
      | closing said =>
          cases delta with
          | reasoning text => exact hpasses.elim
          | answer content =>
              obtain ⟨next, hnext, hfull, hshown⟩ :=
                hstands.closing_answer hpasses.1 hdelta.1 hext.1
              refine ((hshown _).trans (map_flagged_append
                (ih hnext hrest (hfull ▸ hext.2) hpasses.2))).trans ?_
              rw [Mode.owed, flagged_append, List.append_assoc]
              rfl

end RagFlow.Chat
