/-
# What the stream loses otherwise

Where no tag is put together from several pieces, a reply is read as it was sent only if each of its
chunks adds to the text and each section has a second piece. What was passed over once is not made
up for: from then on less is shown than was sent.
-/

import RagFlow.Chat.Lossless
import Mathlib.Algebra.GroupWithZero.Nat

namespace RagFlow.Chat

open RagFlow.Math
open RagFlow.Chunking (Text)

/-! ## No more than was sent -/

/-- The text of a piece. -/
def Delta.content : Delta → Text
  | .answer content => content
  | .reasoning text => text

/-- The length of all pieces. -/
def sentLength (deltas : List Delta) : ℕ := (deltas.flatMap Delta.sent).length

/-- A closing tag is shown as text of a section. -/
def ShowsTag (out : List (Char × Bool)) : Prop := ∃ think, flagged think endTag <:+: out

/-- There is no more to read than so many characters, or a tag is shown as text. -/
def AtMost (n : ℕ) (out : Option (List (Char × Bool))) : Prop :=
  ∀ shown, out = some shown → ShowsTag shown ∨ shown.length ≤ n

section AtMost

variable {n m : ℕ} {out : Option (List (Char × Bool))} {t u read pending : Text}
  {rest : Bool → Option (List (Char × Bool))} {think endswith reasoningStart : Bool}
  {deltas : List Delta}

theorem length_flagged (think : Bool) (t : Text) : (flagged think t).length = t.length :=
  List.length_map _

theorem Delta.length_sent (d : Delta) : d.sent.length = d.content.length := by
  cases d <;> exact length_flagged _ _

theorem sentLength_cons (d : Delta) (deltas : List Delta) :
    sentLength (d :: deltas) = d.content.length + sentLength deltas := by
  rw [sentLength, List.flatMap_cons, List.length_append, Delta.length_sent]
  rfl

theorem ShowsTag.append_left {shown : List (Char × Bool)} (h : ShowsTag shown)
    (before : List (Char × Bool)) : ShowsTag (before ++ shown) := by
  obtain ⟨think, hin⟩ := h
  exact ⟨think, hin.trans (List.suffix_append before shown).isInfix⟩

theorem AtMost.mono (h : AtMost n out) (hle : n ≤ m) : AtMost m out := fun shown hshown =>
  (h shown hshown).imp_right fun hlength => hlength.trans hle

/-- A piece shows no more than its own text. -/
theorem atMost_emitted (h : ∀ think, AtMost n (rest think)) (t : Text) :
    AtMost (t.length + n) (emitted think t rest) := by
  by_cases hempty : t = []
  · rw [emitted, if_pos hempty]
    exact (h think).mono (Nat.le_add_left _ _)
  by_cases htag : t = startTag ∨ t = endTag
  · rw [emitted_tag htag]
    exact (h _).mono (Nat.le_add_left _ _)
  · rw [emitted_text hempty htag]
    intro shown hshown
    obtain ⟨later, hlater, rfl⟩ := Option.map_eq_some_iff.mp hshown
    refine (h think later hlater).imp (ShowsTag.append_left · _) fun hle => ?_
    rw [List.length_append, length_flagged]
    exact Nat.add_le_add_left hle _

/-- The same where text stands before an opening tag. -/
theorem atMost_emitted_before (h : ∀ think, AtMost n (rest think)) (hne : u ≠ [])
    (hu : ¬ startTag <:+: u) :
    AtMost ((removeTags u).length + n) (emitted think u rest) := by
  by_cases htag : u = endTag
  · rw [emitted_tag (Or.inr htag)]
    exact (h _).mono (Nat.le_add_left _ _)
  by_cases hfree : TagFree u
  · rw [hfree.removeTags]
    exact atMost_emitted h u
  · have hend : endTag <:+: u := by
      by_contra hend
      exact hfree ⟨hu, hend⟩
    have hstart : u ≠ startTag := by
      rintro rfl
      exact hu (List.infix_refl _)
    rw [emitted_text hne fun h => h.elim hstart htag]
    intro shown hshown
    obtain ⟨later, -, rfl⟩ := Option.map_eq_some_iff.mp hshown
    have hin : flagged think endTag <:+: flagged think u := hend.map _
    exact Or.inl ⟨think, hin.trans (List.prefix_append _ _).isInfix⟩

/-- What stands before the first opening tag. -/
theorem exists_before_startTag (h : startTag <:+: t) :
    ∃ u q, t = u ++ (startTag ++ q) ∧ ¬ startTag <:+: u := by
  induction t with
  | nil => exact absurd (List.infix_nil.mp h) marked_startTag.ne_nil
  | cons c t ih =>
      by_cases hhere : startTag <+: c :: t
      · obtain ⟨q, hq⟩ := hhere
        exact ⟨[], q, hq.symm, fun hd => marked_startTag.ne_nil (List.infix_nil.mp hd)⟩
      · obtain ⟨u, q, rfl, hu⟩ := ih ((List.infix_cons_iff.mp h).resolve_left hhere)
        refine ⟨c :: u, q, rfl, fun hd => ?_⟩
        rcases List.infix_cons_iff.mp hd with hd | hd
        · exact hhere (hd.trans (List.prefix_append (c :: u) _))
        · exact hu hd

theorem removeTags_endTag : removeTags endTag = [] := rfl

/-- A chunk adds no more than what is left of it without tags. -/
theorem Brings.atMost {chunk new : Text} {chunks : List Text}
    (h : Brings (read ++ pending) chunk new)
    (hrest : ∀ read' pending' endswith think,
      read' ++ pending' = read ++ (pending ++ new) →
      AtMost ((removeTags pending').length + n)
        (shown (.at read' pending' endswith think) chunks)) :
    AtMost ((removeTags (pending ++ new)).length + n)
      (shown (.at read pending endswith think) (chunk :: chunks)) := by
  by_cases hstart : startTag <:+: pending ++ new
  · obtain ⟨u, q, hq, hu⟩ := exists_before_startTag hstart
    cases hne : u with
    | nil =>
        rw [hne, List.nil_append] at hq
        rw [h.opens hq, hq, removeTags_startTag_append]
        exact hrest _ _ _ _ (by rw [hq, List.append_assoc])
    | cons c u' =>
        have hne' : u ≠ [] := hne ▸ List.cons_ne_nil c u'
        rw [h.before hq hne' hu, hq, removeTags_append_startTag, List.length_append, Nat.add_assoc]
        refine atMost_emitted_before (fun think => ?_) hne' hu
        have hlater := hrest (read ++ u) (startTag ++ q) endswith think
          (by rw [hq, List.append_assoc])
        rwa [removeTags_startTag_append] at hlater
  · by_cases hend : endTag <:+ pending ++ new
    · obtain ⟨u, hu⟩ := hend
      rw [h.ends hstart hu.symm]
      refine atMost_emitted (fun think => ?_) _
      have hlater := hrest (read ++ u) endTag true think (by rw [← hu, List.append_assoc])
      rwa [removeTags_endTag, List.length_nil, Nat.zero_add] at hlater
    · cases endswith with
      | true =>
          rw [h.closes hstart hend]
          exact hrest _ _ _ _ rfl
      | false =>
          by_cases hfull : endTag <:+ read ++ (pending ++ new)
          · obtain ⟨v, hv⟩ := hfull
            rw [h.late hstart hend hv.symm]
            refine atMost_emitted (fun think => ?_) _
            have hlater := hrest v endTag false think hv
            rwa [removeTags_endTag, List.length_nil, Nat.zero_add] at hlater
          · rw [h.plain hstart hfull]
            refine atMost_emitted (fun think => ?_) _
            have hlater := hrest (read ++ (pending ++ new)) [] false think (List.append_nil _)
            rwa [show removeTags [] = [] from rfl, List.length_nil, Nat.zero_add] at hlater

theorem length_removeTags_closed (pending text : Text) :
    (removeTags (pending ++ (text ++ endTag))).length ≤
      (removeTags pending).length + text.length := by
  have hclosed : removeTags (pending ++ text ++ (endTag ++ [])) = removeTags (pending ++ text) :=
    removeTags_append_endTag.trans (List.append_nil _)
  rw [List.append_nil, List.append_assoc] at hclosed
  rw [hclosed]
  exact length_removeTags_append_le

/-- A piece adds no more than its text. -/
theorem length_removeTags_opened (pending text : Text) :
    (removeTags (pending ++ (startTag ++ (text ++ endTag)))).length ≤
      (removeTags pending).length + text.length := by
  rw [removeTags_append_startTag, List.length_append]
  exact Nat.add_le_add_left ((length_removeTags_closed [] text).trans (Nat.zero_add _).le) _

theorem atMost_atEnd :
    AtMost n (shown (.at read pending endswith think) []) := by
  intro shown hshown
  refine Or.inr ?_
  cases endswith with
  | false => exact (Option.some.inj hshown) ▸ Nat.zero_le n
  | true =>
      cases think with
      | false => cases hshown
      | true => exact (Option.some.inj hshown) ▸ Nat.zero_le n

variable (endswith think) in
/-- As long as each chunk adds to the text, no more is read than was sent. -/
theorem atMost_shown (hvalid : ∀ d ∈ deltas, d.Valid)
    (hext : ExtendsAll (read ++ pending) (asyncChatStreamly reasoningStart deltas)) :
    AtMost ((removeTags pending).length + sentLength deltas)
      (shown (.at read pending endswith think) (asyncChatStreamly reasoningStart deltas)) := by
  induction deltas generalizing reasoningStart read pending endswith think with
  | nil => exact atMost_atEnd
  | cons d deltas ih =>
      have hrest : ∀ d ∈ deltas, d.Valid := fun d hd => hvalid d (List.mem_cons_of_mem _ hd)
      have hd := hvalid d List.mem_cons_self
      rw [sentLength_cons, ← Nat.add_assoc]
      cases d with
      | answer content =>
          refine ((hext.1.brings hd.1).atMost fun read' pending' endswith think hfull => ?_).mono
            (Nat.add_le_add_right length_removeTags_append_le _)
          exact ih _ _ hrest (by rw [hfull, ← List.append_assoc]; exact hext.2)
      | reasoning text =>
          have hne : (if reasoningStart then [] else startTag) ++ (text ++ endTag) ≠ [] :=
            List.append_ne_nil_of_right_ne_nil _ (closed_ne_nil text)
          refine ((hext.1.brings hne).atMost fun read' pending' endswith think hfull => ?_).mono
            (Nat.add_le_add_right ?_ _)
          · exact ih _ _ hrest (by rw [hfull, ← List.append_assoc]; exact hext.2)
          · cases reasoningStart with
            | true => exact length_removeTags_closed pending text
            | false => exact length_removeTags_opened pending text

end AtMost

/-! ## Replies without tags across pieces -/

/-- No tag is put together from pieces of one kind that follow each other. -/
def NoTagAcross (deltas : List Delta) : Prop :=
  (∀ texts : List Text, texts.map Delta.answer <:+: deltas → TagFree texts.flatten) ∧
    ∀ texts : List Text, texts.map Delta.reasoning <:+: deltas → TagFree texts.flatten

/-- The piece of a kind, `true` for reasoning. -/
def Delta.of (think : Bool) (t : Text) : Delta := if think then .reasoning t else .answer t

section Across

variable {deltas : List Delta} {think : Bool} {t u w : Text} {x y : List (Char × Bool)}

theorem Delta.exists_of (d : Delta) : ∃ think, d = .of think d.content ∧
    d.sent = flagged think d.content := by
  cases d with
  | answer content => exact ⟨false, rfl, rfl⟩
  | reasoning text => exact ⟨true, rfl, rfl⟩

theorem NoTagAcross.tagFree (h : NoTagAcross deltas) {texts : List Text}
    (hin : texts.map (Delta.of think) <:+: deltas) : TagFree texts.flatten := by
  cases think with
  | false => exact h.1 texts hin
  | true => exact h.2 texts hin

theorem NoTagAcross.of_infix {deltas' : List Delta} (h : NoTagAcross deltas)
    (hin : deltas' <:+: deltas) : NoTagAcross deltas' :=
  ⟨fun texts ht => h.1 texts (ht.trans hin), fun texts ht => h.2 texts (ht.trans hin)⟩

theorem map_fst_flagged (think : Bool) (t : Text) : (flagged think t).map Prod.fst = t := by
  rw [flagged, List.map_map]
  exact List.map_id t

theorem flagged_ne_nil (think : Bool) (h : t ≠ []) : flagged think t ≠ [] :=
  fun hnil => h (List.map_eq_nil_iff.mp hnil)

/-- Sections that begin with the same character are of one kind. -/
theorem eq_of_flagged_head {think' : Bool} (ht : t ≠ []) (hu : u ≠ [])
    (h : flagged think t <+: flagged think' u ++ x) : think = think' := by
  obtain ⟨c, t, rfl⟩ := List.exists_cons_of_ne_nil ht
  obtain ⟨c', u, rfl⟩ := List.exists_cons_of_ne_nil hu
  exact (Prod.mk.inj (List.cons_prefix_cons.mp h).1).2

/-- Text at the head of a section is its beginning, or goes on behind it. -/
theorem prefix_flagged_append (h : flagged think t <+: flagged think u ++ x) :
    t <+: u ∨ ∃ t', t = u ++ t' ∧ flagged think t' <+: x := by
  rcases Nat.le_total t.length u.length with hle | hle
  · refine Or.inl ?_
    have hpre : flagged think t <+: flagged think u :=
      List.prefix_of_prefix_length_le h (List.prefix_append _ x)
        (by rw [length_flagged, length_flagged]; exact hle)
    have hfst := hpre.map Prod.fst
    rwa [map_fst_flagged, map_fst_flagged] at hfst
  · refine Or.inr ?_
    have hpre : flagged think u <+: flagged think t :=
      List.prefix_of_prefix_length_le (List.prefix_append _ x) h
        (by rw [length_flagged, length_flagged]; exact hle)
    have hfst := hpre.map Prod.fst
    rw [map_fst_flagged, map_fst_flagged] at hfst
    obtain ⟨t', rfl⟩ := hfst
    rw [flagged_append, List.prefix_append_right_inj] at h
    exact ⟨t', rfl, h⟩

/-- Characters of one section at the head of what was sent are from pieces of one kind. -/
theorem exists_run_at_head (hne : ∀ d ∈ deltas, d.content ≠ [])
    (h : flagged think w <+: deltas.flatMap Delta.sent) :
    ∃ texts : List Text, texts.map (Delta.of think) <+: deltas ∧ w <+: texts.flatten := by
  induction deltas generalizing w with
  | nil =>
      have hw : w = [] := by
        by_contra hw
        exact flagged_ne_nil think hw (List.prefix_nil.mp h)
      exact ⟨[], List.nil_prefix, hw ▸ List.nil_prefix⟩
  | cons d deltas ih =>
      by_cases hw : w = []
      · exact ⟨[], List.nil_prefix, hw ▸ List.nil_prefix⟩
      obtain ⟨think', hd, hsent⟩ := d.exists_of
      rw [List.flatMap_cons, hsent] at h
      obtain rfl : think = think' := eq_of_flagged_head hw (hne d List.mem_cons_self) h
      rcases prefix_flagged_append h with hpre | ⟨w', rfl, hlater⟩
      · refine ⟨[d.content], ?_, by rwa [List.flatten_singleton]⟩
        rw [List.map_singleton, ← hd]
        exact ⟨deltas, rfl⟩
      · obtain ⟨texts, htexts, hw'⟩ := ih (fun d hd => hne d (List.mem_cons_of_mem _ hd)) hlater
        refine ⟨d.content :: texts, ?_, ?_⟩
        · rw [List.map_cons, ← hd]
          exact (List.prefix_cons_inj d).mpr htexts
        · exact (List.prefix_append_right_inj d.content).mpr hw'

theorem infix_append_cases {α : Type*} {l u v : List α} (h : l <:+: u ++ v) :
    (∃ s, s <:+ u ∧ s ≠ [] ∧ l <+: s ++ v) ∨ l <:+: v := by
  induction u with
  | nil => exact Or.inr h
  | cons a u ih =>
      rcases List.infix_cons_iff.mp h with hhere | hlater
      · exact Or.inl ⟨a :: u, List.suffix_rfl, List.cons_ne_nil a u, hhere⟩
      · refine (ih hlater).imp_left fun ⟨s, hs, hne, hl⟩ => ?_
        exact ⟨s, hs.trans (List.suffix_cons a u), hne, hl⟩

theorem Delta.content_of (think : Bool) (t : Text) : (Delta.of think t).content = t := by
  cases think <;> rfl

theorem Delta.sent_of (think : Bool) (t : Text) : (Delta.of think t).sent = flagged think t := by
  cases think <;> rfl

/-- The same wherever they occur. -/
theorem exists_run_within (hne : ∀ d ∈ deltas, d.content ≠ []) (hw : w ≠ [])
    (h : flagged think w <:+: deltas.flatMap Delta.sent) :
    ∃ texts : List Text, texts.map (Delta.of think) <:+: deltas ∧ w <:+: texts.flatten := by
  induction deltas with
  | nil => exact absurd (List.infix_nil.mp h) (flagged_ne_nil think hw)
  | cons d deltas ih =>
      have hrest : ∀ d ∈ deltas, d.content ≠ [] := fun d hd => hne d (List.mem_cons_of_mem _ hd)
      obtain ⟨think', hd, hsent⟩ := d.exists_of
      rw [List.flatMap_cons, hsent] at h
      rcases infix_append_cases h with ⟨s, ⟨before, hs⟩, hsne, hpre⟩ | hlater
      · -- The section begins in this piece, of which `t` is what it takes.
        obtain ⟨t₀, t, hcontent, hbefore, rfl⟩ := List.map_eq_append_iff.mp hs.symm
        have ht : t ≠ [] := fun h => hsne (by rw [h, List.map_nil])
        obtain rfl : think = think' := eq_of_flagged_head hw ht hpre
        have hrun : flagged think w <+: (Delta.of think t :: deltas).flatMap Delta.sent := by
          rw [List.flatMap_cons, Delta.sent_of]
          exact hpre
        obtain ⟨texts, htexts, hwtexts⟩ := exists_run_at_head (List.forall_mem_cons.mpr
          ⟨by rwa [Delta.content_of], hrest⟩) hrun
        cases texts with
        | nil => exact absurd (List.prefix_nil.mp hwtexts) hw
        | cons t' texts =>
            rw [List.map_cons, List.cons_prefix_cons] at htexts
            have ht' : t' = t := by
              have := congrArg Delta.content htexts.1
              rwa [Delta.content_of, Delta.content_of] at this
            refine ⟨d.content :: texts, ?_, ?_⟩
            · rw [List.map_cons, ← hd]
              exact ((List.prefix_cons_inj d).mpr htexts.2).isInfix
            · rw [List.flatten_cons, hcontent, List.append_assoc, ← ht']
              exact hwtexts.isInfix.trans (List.suffix_append _ _).isInfix
      · obtain ⟨texts, htexts, hwtexts⟩ := ih hrest hlater
        exact ⟨texts, htexts.trans (List.suffix_cons d deltas).isInfix, hwtexts⟩

/-- No tag is sent within a section. -/
theorem NoTagAcross.not_showsTag (h : NoTagAcross deltas) (hne : ∀ d ∈ deltas, d.content ≠ []) :
    ¬ ShowsTag (deltas.flatMap Delta.sent) := by
  rintro ⟨think, hin⟩
  obtain ⟨texts, htexts, hend⟩ := exists_run_within hne (List.cons_ne_nil _ _) hin
  exact (h.tagFree htexts).2 hend

theorem NoTagAcross.tail {d : Delta} (h : NoTagAcross (d :: deltas)) : NoTagAcross deltas :=
  h.of_infix (List.suffix_cons d deltas).isInfix

/-- An answer in front lengthens the run that it stands before. -/
theorem noTagAcross_answer_iff : NoTagAcross (.answer t :: deltas) ↔
    NoTagAcross deltas ∧
      ∀ texts : List Text, texts.map Delta.answer <+: deltas → TagFree (t ++ texts.flatten) := by
  constructor
  · refine fun h => ⟨h.tail, fun texts htexts => ?_⟩
    have hrun : (t :: texts).map Delta.answer <+: .answer t :: deltas :=
      (List.prefix_cons_inj _).mpr htexts
    exact h.1 _ hrun.isInfix
  · rintro ⟨hdeltas, hrun⟩
    constructor
    · intro texts htexts
      rcases List.infix_cons_iff.mp htexts with hhere | hlater
      · cases texts with
        | nil => exact hdeltas.1 [] List.nil_infix
        | cons t' texts =>
            rw [List.map_cons, List.cons_prefix_cons] at hhere
            obtain rfl := Delta.answer.inj hhere.1
            exact hrun texts hhere.2
      · exact hdeltas.1 texts hlater
    · intro texts htexts
      rcases List.infix_cons_iff.mp htexts with hhere | hlater
      · cases texts with
        | nil => exact hdeltas.2 [] List.nil_infix
        | cons t' texts => exact absurd (List.cons_prefix_cons.mp hhere).1 Delta.noConfusion
      · exact hdeltas.2 texts hlater

/-- What goes on with an answer can be taken as one piece with it. -/
theorem NoTagAcross.merge (h : NoTagAcross (.answer t :: .answer u :: deltas)) :
    NoTagAcross (.answer (t ++ u) :: deltas) := by
  obtain ⟨hlater, hrun⟩ := noTagAcross_answer_iff.mp h
  refine noTagAcross_answer_iff.mpr ⟨hlater.tail, fun texts htexts => ?_⟩
  rw [List.append_assoc]
  exact hrun (u :: texts) ((List.prefix_cons_inj _).mpr htexts)

theorem NoTagAcross.drop (h : NoTagAcross (.answer (t ++ u) :: deltas)) :
    NoTagAcross (.answer u :: deltas) := by
  obtain ⟨hlater, hrun⟩ := noTagAcross_answer_iff.mp h
  refine noTagAcross_answer_iff.mpr ⟨hlater, fun texts htexts => ?_⟩
  have hfree := hrun texts htexts
  rw [List.append_assoc] at hfree
  exact hfree.right

theorem NoTagAcross.cons_nil (h : NoTagAcross deltas) : NoTagAcross (.answer [] :: deltas) :=
  noTagAcross_answer_iff.mpr ⟨h, fun texts htexts => h.1 texts htexts.isInfix⟩

/-- Two answers in a row have no tag between them. -/
theorem NoTagAcross.answers (h : NoTagAcross (.answer t :: .answer u :: deltas)) :
    TagFree (t ++ u) := by
  have hfree := h.merge.1 [t ++ u] (List.prefix_append [Delta.answer (t ++ u)] deltas).isInfix
  rwa [List.flatten_singleton] at hfree

variable (think) in
theorem NoTagAcross.head (h : NoTagAcross (.of think t :: deltas)) : TagFree t := by
  have hrun : [t].map (Delta.of think) <:+: Delta.of think t :: deltas :=
    (List.prefix_append [Delta.of think t] deltas).isInfix
  have hfree := h.tagFree hrun
  rwa [List.flatten_singleton] at hfree

theorem Delta.Valid.content_ne_nil {d : Delta} (h : d.Valid) : d.content ≠ [] := by
  cases d with
  | answer content => exact h.1
  | reasoning text => exact h

end Across

/-! ## After the first section -/

/-- A section of reasoning has come, and what came since tells the text from any chunk. -/
def Past (reasoningStart : Bool) (full : Text) : Prop :=
  if reasoningStart then startTag <:+: full ∧ endTag <:+: full
  else ∃ before after, full = before ++ (endTag ++ after) ∧ after ≠ []

section Past

variable {full text content : Text} {deltas : List Delta} {reasoningStart : Bool}

theorem Past.has_endTag (h : Past reasoningStart full) : endTag <:+: full := by
  cases reasoningStart with
  | true => exact h.2
  | false =>
      obtain ⟨before, after, rfl, -⟩ := h
      exact ⟨before, after, List.append_assoc _ _ _⟩

theorem Past.answer (h : Past reasoningStart full) (hne : content ≠ []) :
    Past false (full ++ content) := by
  obtain ⟨before, after, rfl⟩ := h.has_endTag
  exact ⟨before, after ++ content, by simp only [List.append_assoc],
    List.append_ne_nil_of_right_ne_nil after hne⟩

theorem past_opened (full text : Text) : Past true (full ++ (startTag ++ (text ++ endTag))) :=
  ⟨⟨full, text ++ endTag, List.append_assoc _ _ _⟩, ⟨full ++ (startTag ++ text), [], by
    simp only [List.append_assoc, List.append_nil]⟩⟩

theorem Past.closed (h : Past true full) (text : Text) : Past true (full ++ (text ++ endTag)) :=
  ⟨h.1.trans (List.prefix_append full _).isInfix, h.2.trans (List.prefix_append full _).isInfix⟩

theorem Past.extends_answer (h : Past reasoningStart full) (hcontent : TagFree content) :
    Extends full content :=
  Or.inr fun hpre => hcontent.2 (h.has_endTag.trans hpre.isInfix)

theorem Past.extends_closed (h : Past true full) (htext : TagFree text) :
    Extends full (text ++ endTag) := by
  refine Or.inr fun hpre => ?_
  have hall : ∀ t ∈ [text], TagFree t := fun t ht => List.mem_singleton.mp ht ▸ htext
  have hno := not_startTag_infix_sentThoughts hall
  rw [sentThoughts, List.flatMap_singleton] at hno
  exact hno (h.1.trans hpre.isInfix)

/-- In the first piece of reasoning the closing tag is at the end only. -/
theorem not_endTag_prefix_opened {before after : Text} (htext : TagFree text) (hne : after ≠ []) :
    ¬ before ++ (endTag ++ after) <+: startTag ++ (text ++ endTag) := by
  intro h
  have hsplit : startTag ++ (text ++ endTag) =
      startTag ++ (text ++ endTag.dropLast) ++ ['>'] := by
    rw [List.append_assoc, List.append_assoc]
    rfl
  have hlength := h.length_le
  have hpos : 0 < after.length := List.length_pos_of_ne_nil hne
  rw [hsplit] at h hlength
  have hbefore : before ++ endTag <+: startTag ++ (text ++ endTag.dropLast) := by
    have hwhole : before ++ endTag <+: startTag ++ (text ++ endTag.dropLast) ++ ['>'] := by
      rw [← List.append_assoc] at h
      exact (List.prefix_append _ after).trans h
    refine List.prefix_of_prefix_length_le hwhole (List.prefix_append _ _) ?_
    simp only [List.length_append, List.length_singleton] at hlength ⊢
    omega
  have hin : endTag <:+: [] ++ (startTag ++ (text ++ endTag.dropLast)) :=
    (List.suffix_append before endTag).isInfix.trans hbefore.isInfix
  rw [endTag_infix_iff] at hin
  rcases hin with hnil | hin
  · exact absurd (List.infix_nil.mp hnil) marked_endTag.ne_nil
  · have hmark : endTag <:+: text ∨ endTag <:+: endTag.dropLast :=
      marked_endTag.infix_append_iff.mp hin
    exact hmark.elim htext.2 (by decide)

theorem Past.extends_opened (h : Past false full) (htext : TagFree text) :
    Extends full (startTag ++ (text ++ endTag)) := by
  obtain ⟨before, after, rfl, hne⟩ := h
  exact Or.inr (not_endTag_prefix_opened htext hne)

/-- From then on each chunk adds to the text. -/
theorem Past.extendsAll (h : Past reasoningStart full) (hvalid : ∀ d ∈ deltas, d.Valid)
    (hfree : ∀ d ∈ deltas, TagFree d.content) :
    ExtendsAll full (asyncChatStreamly reasoningStart deltas) := by
  induction deltas generalizing reasoningStart full with
  | nil => trivial
  | cons d deltas ih =>
      have hd := hvalid d List.mem_cons_self
      have hdfree := hfree d List.mem_cons_self
      have hrest : ∀ {reasoningStart full}, Past reasoningStart full →
          ExtendsAll full (asyncChatStreamly reasoningStart deltas) := fun h =>
        ih h (fun d hd => hvalid d (List.mem_cons_of_mem _ hd))
          fun d hd => hfree d (List.mem_cons_of_mem _ hd)
      cases d with
      | answer content => exact ⟨h.extends_answer hdfree, hrest (h.answer hd.1)⟩
      | reasoning text =>
          cases reasoningStart with
          | true => exact ⟨h.extends_closed hdfree, hrest (h.closed text)⟩
          | false => exact ⟨h.extends_opened hdfree, hrest (past_opened full text)⟩

end Past

/-! ## What does not pass -/

/-- The pieces of the run that the stream stands in. -/
def Mode.current : Mode → List Delta
  | .answering said | .closing said => [.answer said]
  | .opening _ thoughts => thoughts.map Delta.reasoning
  | .reasoning => []

/-- Nothing is late, and there is something to be handed on. -/
def Mode.Prompt : Mode → Prop
  | .answering _ | .reasoning => True
  | .opening late thoughts => late = false ∧ thoughts ≠ [] ∧ ∀ t ∈ thoughts, t ≠ []
  | .closing said => said ≠ []

section Fails

variable {n : ℕ} {mode : Mode} {state : ThinkStreamState} {deltas : List Delta}
  {read said text content t u : Text} {thoughts : List Text} {x y : List (Char × Bool)}
  {out : Option (List (Char × Bool))} {chunks : List Text}

/-- More than can be read is not read. -/
theorem AtMost.ne_some (h : AtMost n out) (hx : ¬ ShowsTag x) (hlt : n < x.length) :
    out ≠ some x := fun heq =>
  (h x heq).elim hx fun hle => absurd hlt (Nat.not_lt.mpr hle)

/-- A section ends where one of the other kind begins. -/
theorem prefix_of_flagged_eq {think : Bool} (hu : u ≠ [])
    (h : flagged think t ++ x = flagged think said ++ (flagged (!think) u ++ y)) : t <+: said := by
  rcases prefix_flagged_append (x := flagged (!think) u ++ y) ⟨x, h⟩ with
    hpre | ⟨t', rfl, hlater⟩
  · exact hpre
  · have ht' : t' = [] := by
      by_contra ht'
      have hkind := eq_of_flagged_head ht' hu hlater
      cases think <;> cases hkind
    rw [ht', List.append_nil]

/-- A section of one piece, when an answer follows. -/
theorem Stands.opening_answer_ne (hstands : Stands (.opening false thoughts) state)
    (hthoughts : thoughts ≠ []) (hvalid : ∀ d ∈ deltas, d.Valid) (hcontent : TagFree content)
    (hne : content ≠ [])
    (hext : ExtendsAll state.fullText (asyncChatStreamly true (.answer content :: deltas)))
    (htags : ¬ ShowsTag (flagged true thoughts.flatten ++
      (flagged false content ++ deltas.flatMap Delta.sent))) :
    shown state (asyncChatStreamly true (.answer content :: deltas)) ≠
      some (flagged true thoughts.flatten ++
        (flagged false content ++ deltas.flatMap Delta.sent)) := by
  cases hstands with
  | opening read tagFree =>
    have hbrings := hext.1.brings hne
    obtain ⟨thoughts', t, rfl⟩ : ∃ thoughts' t, thoughts = thoughts' ++ [t] :=
      ⟨_, _, (List.dropLast_append_getLast hthoughts).symm⟩
    have hsplit : sentThoughts (thoughts' ++ [t]) ++ content =
        sentThoughts thoughts' ++ t ++ (endTag ++ content) := by
      simp only [sentThoughts_concat, List.append_assoc]
    have hstart : ¬ startTag <:+: sentThoughts (thoughts' ++ [t]) ++ content := by
      have hno := not_startTag_infix_sentThoughts tagFree
      rw [sentThoughts_concat, ← List.append_assoc] at hno
      rw [hsplit, startTag_infix_iff, not_or]
      exact ⟨fun hd => hno (hd.trans (List.prefix_append _ _).isInfix), hcontent.1⟩
    have hend : ¬ endTag <:+ read ++ (sentThoughts (thoughts' ++ [t]) ++ content) := by
      intro hd
      have hbefore : endTag <:+ read ++ sentThoughts thoughts' ++ t ++ endTag :=
        List.suffix_append _ _
      refine hcontent.not_suffix (endTag_suffix_append hbefore hne ?_)
      rwa [hsplit, ← List.append_assoc, ← List.append_assoc, ← List.append_assoc] at hd
    have hremoved : removeTags (sentThoughts (thoughts' ++ [t]) ++ content) =
        (thoughts' ++ [t]).flatten ++ content := by
      rw [removeTags_sentThoughts_append tagFree, hcontent.removeTags]
    have hlater : ∀ think, AtMost (sentLength deltas) (shown (.at
        (read ++ (sentThoughts (thoughts' ++ [t]) ++ content)) [] false think)
        (asyncChatStreamly false deltas)) := by
      intro think
      have hrest : ExtendsAll (read ++ (sentThoughts (thoughts' ++ [t]) ++ content) ++ [])
          (asyncChatStreamly false deltas) := by
        rw [List.append_nil, ← List.append_assoc]
        exact hext.2
      have hle := atMost_shown think false hvalid hrest
      rwa [show removeTags [] = [] from rfl, List.length_nil, Nat.zero_add] at hle
    rw [asyncChatStreamly, hbrings.plain hstart hend, hremoved]
    by_cases htag : (thoughts' ++ [t]).flatten ++ content = startTag ∨
        (thoughts' ++ [t]).flatten ++ content = endTag
    · rw [emitted_tag htag]
      refine (hlater _).ne_some htags ?_
      have hpos := List.length_pos_of_ne_nil hne
      rw [List.length_append, List.length_append, length_flagged, length_flagged, sentLength]
      omega
    · rw [emitted_text (List.append_ne_nil_of_right_ne_nil _ hne) htag]
      intro heq
      obtain ⟨out', -, hout⟩ := Option.map_eq_some_iff.mp heq
      have hpre := (prefix_of_flagged_eq hne hout).length_le
      rw [List.length_append] at hpre
      have hpos := List.length_pos_of_ne_nil hne
      omega

/-- An answer of one piece, when reasoning follows. -/
theorem Stands.closing_reasoning_ne (hstands : Stands (.closing said) state) (hsaid : TagFree said)
    (hne : said ≠ []) (htext : text ≠ [])
    (hext : Extends state.fullText (startTag ++ (text ++ endTag))) :
    shown state ((startTag ++ (text ++ endTag)) :: chunks) ≠
      some (flagged false said ++ (flagged true text ++ y)) := by
  cases hstands with
  | closing read =>
    have hbrings := hext.brings (opened_ne_nil text)
    have hpos := List.length_pos_of_ne_nil hne
    have htag : ¬ (endTag ++ said = startTag ∨ endTag ++ said = endTag) := by
      rintro (h | h)
      · have hlength := congrArg List.length h
        rw [List.length_append] at hlength
        change 8 + said.length = 7 at hlength
        omega
      · exact hne (List.append_right_eq_self.mp h)
    have hends : endTag ++ said ≠ [] := List.append_ne_nil_of_right_ne_nil _ hne
    rw [hbrings.before rfl hends (not_startTag_infix_endTag_append hsaid),
      emitted_text hends htag]
    intro heq
    obtain ⟨out', -, hout⟩ := Option.map_eq_some_iff.mp heq
    have hpre := (prefix_of_flagged_eq htext hout).length_le
    rw [List.length_append] at hpre
    change 8 + said.length ≤ said.length at hpre
    omega

theorem of_map_flagged {think : Bool} {t : Text} (h : out.map (flagged think t ++ ·) =
    some (flagged think t ++ x)) : out = some x := by
  obtain ⟨x', hx', heq⟩ := Option.map_eq_some_iff.mp h
  rw [hx', List.append_cancel_left heq]

theorem flatMap_sent_reasoning (thoughts : List Text) :
    (thoughts.map Delta.reasoning).flatMap Delta.sent = flagged true thoughts.flatten := by
  rw [flagged, List.map_flatten, List.flatMap_map]
  rfl

theorem NoTagAcross.tagFree_content (h : NoTagAcross deltas) : ∀ d ∈ deltas, TagFree d.content := by
  intro d hd
  obtain ⟨think, hof, -⟩ := d.exists_of
  have hrun : [d.content].map (Delta.of think) <:+: deltas := by
    rw [List.map_singleton, ← hof]
    exact (List.singleton_infix_iff d deltas).mpr hd
  have hfree := h.tagFree hrun
  rwa [List.flatten_singleton] at hfree

/-- After the first section, what is read as it was sent passes. -/
theorem Stands.passes_of_shown (hstands : Stands mode state) (hprompt : mode.Prompt)
    (hvalid : ∀ d ∈ deltas, d.Valid) (hacross : NoTagAcross (mode.current ++ deltas))
    (hpast : Past mode.reasoningStart state.fullText)
    (hshown : shown state (asyncChatStreamly mode.reasoningStart deltas) =
      some (mode.owed ++ deltas.flatMap Delta.sent)) : Passes mode deltas := by
  have hdeltas : NoTagAcross deltas := hacross.of_infix (List.suffix_append _ _).isInfix
  have hext := hpast.extendsAll hvalid hdeltas.tagFree_content
  induction deltas generalizing mode state with
  | nil =>
      rw [List.flatMap_nil, List.append_nil] at hshown
      cases hstands with
      | answering => trivial
      | reasoning => trivial
      | late => exact absurd hprompt.1 Bool.noConfusion
      | @opening _ thoughts =>
          have howed : flagged true thoughts.flatten = [] := (Option.some.inj hshown).symm
          have hflatten : thoughts.flatten = [] := List.map_eq_nil_iff.mp howed
          obtain ⟨t, ht⟩ := List.exists_mem_of_ne_nil _ hprompt.2.1
          exact hprompt.2.2 t ht (List.flatten_eq_nil_iff.mp hflatten t ht)
      | closing read said =>
          have howed : flagged false said = [] := (Option.some.inj hshown).symm
          exact hprompt (List.map_eq_nil_iff.mp howed)
  | cons d deltas ih =>
      have hd := hvalid d List.mem_cons_self
      have hdfree := hdeltas.tagFree_content d List.mem_cons_self
      have hrest : ∀ d ∈ deltas, d.Valid := fun d hd => hvalid d (List.mem_cons_of_mem _ hd)
      have hcontents : ∀ d' ∈ d :: deltas, d'.content ≠ [] := fun d' hd' =>
        (hvalid d' hd').content_ne_nil
      rw [List.flatMap_cons] at hshown
      cases mode with
      | answering said =>
          cases d with
          | answer content =>
              obtain ⟨next, hnext, hfull, hstep⟩ :=
                hstands.answering_answer hd.2 hd.1 hext.1
              refine ih hnext trivial hrest hacross.merge (hfull ▸ hpast.answer hd.1) ?_
                hdeltas.tail (hfull ▸ hext.2)
              exact of_map_flagged ((hstep _).symm.trans hshown)
          | reasoning text =>
              obtain ⟨next, hnext, hfull, hstep⟩ := hstands.answering_reasoning hdfree hext.1
              have hsaid : TagFree said := hacross.head false
              have hprompt' : (Mode.opening (endTag <:+ said) [text]).Prompt :=
                ⟨decide_eq_false hsaid.not_suffix, List.cons_ne_nil _ _,
                  fun t ht => List.mem_singleton.mp ht ▸ hd⟩
              refine ⟨hdfree, ih hnext hprompt' hrest hdeltas (hfull ▸ past_opened _ _) ?_
                hdeltas.tail (hfull ▸ hext.2)⟩
              have howed : (Mode.opening (endTag <:+ said) [text]).owed = flagged true text :=
                congrArg (flagged true) List.flatten_singleton
              rw [howed]
              exact (hstep _).symm.trans hshown
      | opening late thoughts =>
          obtain ⟨rfl, hne, hthoughts⟩ := hprompt
          have hcurrent : ¬ ShowsTag ((thoughts.map Delta.reasoning ++ d :: deltas).flatMap
              Delta.sent) := by
            refine hacross.not_showsTag fun d' hd' => ?_
            rcases List.mem_append.mp hd' with hd' | hd'
            · obtain ⟨t, ht, rfl⟩ := List.mem_map.mp hd'
              exact hthoughts t ht
            · exact hcontents d' hd'
          rw [List.flatMap_append, List.flatMap_cons, flatMap_sent_reasoning] at hcurrent
          cases d with
          | answer content =>
              exact hstands.opening_answer_ne hne hrest hd.2 hd.1 hext hcurrent hshown
          | reasoning text =>
              have hall : TagFree (thoughts ++ [text]).flatten := by
                refine hacross.2 (thoughts ++ [text]) (List.IsPrefix.isInfix ⟨deltas, ?_⟩)
                rw [List.map_append, List.append_assoc]
                rfl
              obtain ⟨next, hnext, hfull, hstep⟩ := hstands.opening_reasoning hdfree
                hall.ne_startTag hall.ne_endTag hd hext.1
              refine ⟨hdfree, hall.ne_startTag, hall.ne_endTag, ih hnext trivial hrest hdeltas.tail
                (hfull ▸ hpast.closed text) ?_ hdeltas.tail (hfull ▸ hext.2)⟩
              refine of_map_flagged ((hstep _).symm.trans (hshown.trans ?_))
              rw [List.flatten_append, List.flatten_singleton, flagged_append, List.append_assoc]
              rfl
      | reasoning =>
          cases d with
          | answer content =>
              obtain ⟨next, hnext, hfull, hstep⟩ := hstands.reasoning_answer hd.2 hd.1 hext.1
              exact ih hnext hd.1 hrest hdeltas (hfull ▸ hpast.answer hd.1)
                ((hstep _).symm.trans hshown) hdeltas.tail (hfull ▸ hext.2)
          | reasoning text =>
              obtain ⟨next, hnext, hfull, hstep⟩ := hstands.reasoning_reasoning hdfree hext.1
              refine ⟨hdfree, ih hnext trivial hrest hdeltas.tail (hfull ▸ hpast.closed text) ?_
                hdeltas.tail (hfull ▸ hext.2)⟩
              exact of_map_flagged ((hstep _).symm.trans hshown)
      | closing said =>
          cases d with
          | reasoning text =>
              exact hstands.closing_reasoning_ne (hacross.head false) hprompt hd hext.1
                hshown
          | answer content =>
              have hboth : TagFree (said ++ content) := hacross.answers
              obtain ⟨next, hnext, hfull, hstep⟩ := hstands.closing_answer hboth hd.1 hext.1
              refine ⟨hboth, ih hnext trivial hrest hacross.merge (hfull ▸ hpast.answer hd.1) ?_
                hdeltas.tail (hfull ▸ hext.2)⟩
              refine of_map_flagged ((hstep _).symm.trans (hshown.trans ?_))
              rw [flagged_append, List.append_assoc]
              rfl

end Fails

/-! ## Before the first section -/

section Early

variable {deltas : List Delta} {read pending content text missing said t u : Text}
  {chunks : List Text} {n : ℕ} {x y : List (Char × Bool)} {state : ThinkStreamState}
  {rest : Bool → Option (List (Char × Bool))} {endswith think : Bool}

/-- The whole text once more changes nothing. -/
theorem shown_repeat (hne : read ++ pending ≠ []) :
    shown (.at read pending endswith think) ((read ++ pending) :: chunks) =
      shown (.at read pending endswith think) chunks := by
  have hpart : newPart (read ++ pending) (read ++ pending) = ([], read ++ pending) := by
    rw [newPart, if_pos (List.prefix_refl _), List.drop_length]
  have hdelta : chunkDelta (.at read pending endswith think) (read ++ pending) =
      ([], .at read pending endswith think) := by
    rw [chunkDelta, if_neg hne]
    dsimp only [ThinkStreamState.at]
    rw [hpart, if_pos rfl]
  rw [shown_cons, hdelta]
  rfl

variable (read) in
/-- An answer before the first section is shown, or the part of it that goes beyond the text so
far. -/
theorem early_answer (hpending : pending = [] ∨ pending = endTag) (hcontent : TagFree content)
    (hne : content ≠ []) :
    ∃ read' pending' t, (pending' = [] ∨ pending' = endTag) ∧ t.length ≤ content.length ∧
      (¬ Extends (read ++ pending) content → t.length < content.length) ∧
      ∀ chunks, shown (.at read pending false false) (content :: chunks) =
        (shown (.at read' pending' false false) chunks).map (flagged false t ++ ·) := by
  have hbrings : ∀ new, Brings (read ++ pending) content new → TagFree new →
      ∃ read' pending', (pending' = [] ∨ pending' = endTag) ∧
        ∀ chunks, shown (.at read pending false false) (content :: chunks) =
          (shown (.at read' pending' false false) chunks).map (flagged false new ++ ·) := by
    intro new hnew hfree
    have hsaid : pending = if endTag <:+ pending then endTag else [] := by
      rcases hpending with rfl | rfl
      · rfl
      · exact (if_pos List.suffix_rfl).symm
    obtain ⟨hstart, hend, hremoved⟩ := looked_at hsaid hfree hnew.2.2
    by_cases hfull : endTag <:+ read ++ (pending ++ new)
    · obtain ⟨v, hv⟩ := hfull
      refine ⟨v, endTag, Or.inr rfl, fun chunks => ?_⟩
      rw [hnew.late hstart hend hv.symm, hremoved]
      exact emitted_of_tagFree hfree false _
    · refine ⟨read ++ (pending ++ new), [], Or.inl rfl, fun chunks => ?_⟩
      rw [hnew.plain hstart hfull, hremoved]
      exact emitted_of_tagFree hfree false _
  by_cases hext : Extends (read ++ pending) content
  · obtain ⟨read', pending', hpending', hshown⟩ := hbrings content (hext.brings hne) hcontent
    exact ⟨read', pending', content, hpending', le_rfl, fun h => absurd hext h, hshown⟩
  · rw [Extends, not_or, not_not] at hext
    obtain ⟨hfull, new, rfl⟩ := hext
    have hpos := List.length_pos_of_ne_nil hfull
    by_cases hnew : new = []
    · subst hnew
      refine ⟨read, pending, [], hpending, Nat.zero_le _, fun _ => ?_, fun chunks => ?_⟩
      · rwa [List.append_nil]
      · rw [List.append_nil, shown_repeat hfull]
        exact Option.map_id'.symm
    · obtain ⟨read', pending', hpending', hshown⟩ :=
        hbrings new (brings_of_starts hfull hnew) hcontent.right
      refine ⟨read', pending', new, hpending', ?_, fun _ => ?_, hshown⟩
      · rw [List.length_append]
        exact Nat.le_add_left _ _
      · rw [List.length_append]
        omega

/-- A piece that is no thought does not show reasoning. -/
theorem emitted_ne (h : ∀ think, AtMost y.length (rest think)) (htext : text ≠ [])
    (htags : ¬ ShowsTag (flagged false missing ++ (flagged true text ++ y))) (t : Text) :
    emitted false t rest ≠ some (flagged false missing ++ (flagged true text ++ y)) := by
  have hpos := List.length_pos_of_ne_nil htext
  have hlt : y.length < (flagged false missing ++ (flagged true text ++ y)).length := by
    rw [List.length_append, List.length_append, length_flagged, length_flagged]
    omega
  by_cases hempty : t = []
  · rw [emitted, if_pos hempty]
    exact (h false).ne_some htags hlt
  by_cases htag : t = startTag ∨ t = endTag
  · rw [emitted_tag htag]
    exact (h _).ne_some htags hlt
  · rw [emitted_text hempty htag]
    intro heq
    obtain ⟨later, hlater, hout⟩ := Option.map_eq_some_iff.mp heq
    have hpre := (prefix_of_flagged_eq htext hout).length_le
    rcases h false later hlater with hshows | hle
    · exact htags (hout ▸ hshows.append_left _)
    · have hlength := congrArg List.length hout
      simp only [List.length_append, length_flagged] at hlength
      omega

variable (missing) in
/-- The first piece of reasoning, taken for the whole text. -/
theorem hit_reasoning_ne (hpending : pending = [] ∨ pending = endTag) (htext : TagFree text)
    (hne : text ≠ []) (hvalid : ∀ d ∈ deltas, d.Valid) (hacross : NoTagAcross deltas)
    (hhit : ¬ Extends (read ++ pending) (startTag ++ (text ++ endTag)))
    (htags : ¬ ShowsTag (flagged false missing ++
      (flagged true text ++ deltas.flatMap Delta.sent))) :
    shown (.at read pending false false) (asyncChatStreamly false (.reasoning text :: deltas)) ≠
      some (flagged false missing ++ (flagged true text ++ deltas.flatMap Delta.sent)) := by
  rw [Extends, not_or, not_not] at hhit
  obtain ⟨hfull, new, hnew⟩ := hhit
  have hcontent : removeTags pending = [] := by
    rcases hpending with rfl | rfl <;> rfl
  have hlater : ∀ {read' pending' endswith think},
      read' ++ pending' = startTag ++ (text ++ endTag) → removeTags pending' = [] →
      AtMost (sentLength deltas)
        (shown (.at read' pending' endswith think) (asyncChatStreamly true deltas)) := by
    intro read' pending' endswith think hread hremoved
    have hle := atMost_shown think endswith hvalid
      (hread ▸ (past_opened [] text).extendsAll hvalid hacross.tagFree_content)
    rwa [hremoved, List.length_nil, Nat.zero_add] at hle
  rw [asyncChatStreamly, if_neg Bool.false_ne_true, ← hnew]
  by_cases hempty : new = []
  · rw [hempty, List.append_nil] at hnew ⊢
    rw [shown_repeat hfull]
    refine (hlater hnew hcontent).ne_some htags ?_
    have hpos := List.length_pos_of_ne_nil hne
    rw [List.length_append, List.length_append, length_flagged, length_flagged, sentLength]
    omega
  obtain rfl : pending = [] := by
    refine hpending.resolve_right fun hend => ?_
    subst hend
    rw [List.append_assoc] at hnew
    exact not_endTag_prefix_opened htext hempty ⟨[], (List.append_nil _).trans hnew⟩
  rw [List.append_nil] at hnew hfull
  have hbrings : Brings (read ++ []) (read ++ [] ++ new) new := by
    rw [List.append_nil]
    exact brings_of_starts hfull hempty
  have hstart : ¬ startTag <:+: [] ++ new := by
    intro hin
    obtain ⟨c, read, rfl⟩ := List.exists_cons_of_ne_nil hfull
    have htail : read ++ new = startTag.tail ++ (text ++ endTag) := (List.cons.inj hnew).2
    have hclosed : startTag <:+: text ++ endTag :=
      marked_startTag.infix_of_append (w := startTag.tail) (by decide)
        (htail ▸ hin.trans (List.suffix_append read new).isInfix)
    have hall : ∀ t ∈ [text], TagFree t := fun t ht => List.mem_singleton.mp ht ▸ htext
    have hno := not_startTag_infix_sentThoughts hall
    rw [sentThoughts, List.flatMap_singleton] at hno
    exact hno hclosed
  by_cases hend : endTag <:+ [] ++ new
  · obtain ⟨u, hu⟩ := hend
    rw [hbrings.ends hstart hu.symm]
    refine emitted_ne (fun think => hlater ?_ rfl) hne htags _
    rw [List.append_assoc, hu]
    exact hnew
  · have hfull : read ++ ([] ++ new) = startTag ++ text ++ endTag := by
      rw [List.append_assoc]
      exact hnew
    rw [hbrings.late hstart hend hfull]
    exact emitted_ne (fun think => hlater (List.append_assoc _ _ _) rfl) hne htags _

/-- What is left of a piece of which a part is shown. -/
theorem exists_rest {later : List (Char × Bool)} (hlt : t.length < content.length)
    (h : flagged false t ++ later = flagged false content ++ x) :
    ∃ m, m ≠ [] ∧ content = t ++ m ∧ later = flagged false m ++ x := by
  rcases prefix_flagged_append ⟨later, h⟩ with ⟨m, rfl⟩ | ⟨t', rfl, -⟩
  · refine ⟨m, ?_, rfl, ?_⟩
    · rintro rfl
      rw [List.append_nil] at hlt
      exact absurd hlt (Nat.lt_irrefl _)
    · rw [flagged_append, List.append_assoc] at h
      exact List.append_cancel_left h
  · rw [List.length_append] at hlt
    omega

/-- What is missing once is not made up for. -/
theorem early_ne (hpending : pending = [] ∨ pending = endTag) (hmissing : missing ≠ [])
    (hvalid : ∀ d ∈ deltas, d.Valid) (hacross : NoTagAcross (.answer missing :: deltas)) :
    shown (.at read pending false false) (asyncChatStreamly false deltas) ≠
      some (flagged false missing ++ deltas.flatMap Delta.sent) := by
  induction deltas generalizing read pending missing with
  | nil =>
      intro heq
      rw [List.flatMap_nil, List.append_nil] at heq
      exact flagged_ne_nil false hmissing (Option.some.inj heq).symm
  | cons d deltas ih =>
      have hd := hvalid d List.mem_cons_self
      have hdfree := hacross.tail.tagFree_content d List.mem_cons_self
      have hrest : ∀ d ∈ deltas, d.Valid := fun d hd => hvalid d (List.mem_cons_of_mem _ hd)
      have htags : ¬ ShowsTag (flagged false missing ++ (d :: deltas).flatMap Delta.sent) :=
        hacross.not_showsTag (List.forall_mem_cons.mpr
          ⟨hmissing, fun d' hd' => (hvalid d' hd').content_ne_nil⟩)
      cases d with
      | answer content =>
          obtain ⟨read', pending', t, hpending', hle, -, hshown⟩ :=
            early_answer read hpending (show TagFree content from hdfree) hd.1
          have hsent :
              flagged false missing ++ (Delta.answer content :: deltas).flatMap Delta.sent =
              flagged false (missing ++ content) ++ deltas.flatMap Delta.sent := by
            rw [List.flatMap_cons, flagged_append, List.append_assoc]
            rfl
          have hlt : t.length < (missing ++ content).length := by
            have hpos := List.length_pos_of_ne_nil hmissing
            rw [List.length_append]
            omega
          rw [asyncChatStreamly, hshown, hsent]
          intro heq
          obtain ⟨later, hlater, hout⟩ := Option.map_eq_some_iff.mp heq
          obtain ⟨m, hm, hboth, hlater'⟩ := exists_rest hlt hout
          exact ih hpending' hm hrest (hboth ▸ hacross.merge).drop (hlater.trans (hlater' ▸ rfl))
      | reasoning text =>
          by_cases hext : Extends (read ++ pending) (startTag ++ (text ++ endTag))
          · have hchunks : ExtendsAll (read ++ pending)
                (asyncChatStreamly false (.reasoning text :: deltas)) :=
              ⟨hext, (past_opened _ text).extendsAll hrest hacross.tail.tail.tagFree_content⟩
            have hle := atMost_shown false false hvalid hchunks
            refine hle.ne_some htags ?_
            have hpos := List.length_pos_of_ne_nil hmissing
            have hcontent : removeTags pending = [] := by
              rcases hpending with rfl | rfl <;> rfl
            rw [hcontent, List.length_nil, Nat.zero_add, List.length_append, length_flagged,
              sentLength]
            omega
          · exact hit_reasoning_ne missing hpending hdfree hd hrest hacross.tail.tail hext htags

/-- Before the first section, what is read as it was sent passes. -/
theorem passes_of_shown (hstands : Stands (.answering said) state) (hsaid : state.fullText = said)
    (hvalid : ∀ d ∈ deltas, d.Valid) (hacross : NoTagAcross (.answer said :: deltas))
    (hshown : shown state (asyncChatStreamly false deltas) = some (deltas.flatMap Delta.sent)) :
    ExtendsAll said (asyncChatStreamly false deltas) ∧ Passes (.answering said) deltas := by
  induction deltas generalizing said state with
  | nil => exact ⟨trivial, trivial⟩
  | cons d deltas ih =>
      have hd := hvalid d List.mem_cons_self
      have hdfree := hacross.tail.tagFree_content d List.mem_cons_self
      have hrest : ∀ d ∈ deltas, d.Valid := fun d hd => hvalid d (List.mem_cons_of_mem _ hd)
      have hfree : TagFree said := hacross.head false
      rw [List.flatMap_cons] at hshown
      cases d with
      | answer content =>
          by_cases hext : Extends said content
          · obtain ⟨next, hnext, hfull, hstep⟩ :=
              hstands.answering_answer hdfree hd.1 (hsaid ▸ hext)
            rw [hsaid] at hfull
            obtain ⟨hextends, hpasses⟩ := ih hnext hfull hrest hacross.merge
              (of_map_flagged ((hstep _).symm.trans hshown))
            exact ⟨⟨hext, hextends⟩, hpasses⟩
          · cases hstands with
            | @answering read pending before _ full pending_eq before_ends =>
                rw [if_neg hfree.not_suffix] at pending_eq
                obtain ⟨read', pending', t, hpending', -, hlt, hstep⟩ :=
                  early_answer read (Or.inl pending_eq) (show TagFree content from hdfree) hd.1
                obtain ⟨later, hlater, hout⟩ :=
                  Option.map_eq_some_iff.mp ((hstep _).symm.trans hshown)
                obtain ⟨m, hm, hboth, hlater'⟩ := exists_rest (hlt (by rwa [← hsaid] at hext)) hout
                exact absurd (hlater.trans (congrArg some hlater'))
                  (early_ne hpending' hm hrest (hboth ▸ hacross.tail).drop)
      | reasoning text =>
          by_cases hext : Extends said (startTag ++ (text ++ endTag))
          · obtain ⟨next, hnext, hfull, hstep⟩ :=
              hstands.answering_reasoning (show TagFree text from hdfree) (hsaid ▸ hext)
            have hpast : Past true next.fullText := hfull ▸ past_opened _ text
            have howed : (Mode.opening (endTag <:+ said) [text]).owed = flagged true text :=
              congrArg (flagged true) List.flatten_singleton
            refine ⟨⟨hext, (past_opened said text).extendsAll hrest
              hacross.tail.tail.tagFree_content⟩, hdfree, ?_⟩
            refine hnext.passes_of_shown ⟨decide_eq_false hfree.not_suffix, List.cons_ne_nil _ _,
              fun t ht => List.mem_singleton.mp ht ▸ hd⟩ hrest hacross.tail hpast ?_
            rw [howed]
            exact (hstep _).symm.trans hshown
          · have htags : ¬ ShowsTag (flagged false [] ++
                (flagged true text ++ deltas.flatMap Delta.sent)) := by
              have hnot := hacross.tail.not_showsTag fun d' hd' => (hvalid d' hd').content_ne_nil
              rwa [List.flatMap_cons] at hnot
            cases hstands with
            | @answering read pending before _ full pending_eq before_ends =>
                rw [if_neg hfree.not_suffix] at pending_eq
                exact absurd hshown (hit_reasoning_ne [] (Or.inl pending_eq) hdfree hd
                  hrest hacross.tail.tail (by rwa [← hsaid] at hext) htags)

end Early

/-! ## The stream -/

section Stream

variable {numTokens : Text → ℕ} {minTokens : ℕ} {deltas : List Delta}

/-- The stream of a reply shows it as it was sent: its markers alternate, and its texts are those
of the pieces, each in a section of thinking or not as it is reasoning or not. -/
def StreamsAll (numTokens : Text → ℕ) (minTokens : ℕ) (deltas : List Delta) : Prop :=
  readEvents false (streamWithThinkDelta numTokens minTokens (asyncChatStreamly false deltas)) =
    some (deltas.flatMap Delta.sent)

/-- No chunk starts with all chunks before it, and the reply passes. -/
def Orderly (deltas : List Delta) : Prop :=
  ExtendsAll [] (asyncChatStreamly false deltas) ∧ Passes (.answering []) deltas

instance : DecidablePred Delta.Valid
  | .answer _ => inferInstanceAs (Decidable (_ ∧ _))
  | .reasoning _ => inferInstanceAs (Decidable (_ ≠ _))

instance decidableExtendsAll : ∀ full chunks, Decidable (ExtendsAll full chunks)
  | _, [] => .isTrue trivial
  | full, chunk :: chunks =>
    have := decidableExtendsAll (full ++ chunk) chunks
    inferInstanceAs (Decidable ((_ ∨ _) ∧ _))

instance decidablePasses : ∀ mode deltas, Decidable (Passes mode deltas)
  | .answering _, [] => .isTrue trivial
  | .answering said, .answer content :: deltas =>
    decidablePasses (.answering (said ++ content)) deltas
  | .answering said, .reasoning text :: deltas =>
    have := decidablePasses (.opening (endTag <:+ said) [text]) deltas
    inferInstanceAs (Decidable (_ ∧ _))
  | .opening _ _, [] => .isFalse id
  | .opening true _, .answer _ :: _ => .isFalse id
  | .opening false _, .answer _ :: _ => .isFalse id
  | .opening true thoughts, .reasoning text :: deltas =>
    have := decidablePasses (.opening false (thoughts ++ [text])) deltas
    inferInstanceAs (Decidable (_ ∧ _))
  | .opening false _, .reasoning _ :: deltas =>
    have := decidablePasses .reasoning deltas
    inferInstanceAs (Decidable (_ ∧ _ ∧ _ ∧ _))
  | .reasoning, [] => .isTrue trivial
  | .reasoning, .reasoning _ :: deltas =>
    have := decidablePasses .reasoning deltas
    inferInstanceAs (Decidable (_ ∧ _))
  | .reasoning, .answer content :: deltas => decidablePasses (.closing content) deltas
  | .closing _, [] => .isFalse id
  | .closing _, .reasoning _ :: _ => .isFalse id
  | .closing said, .answer content :: deltas =>
    have := decidablePasses (.answering (said ++ content)) deltas
    inferInstanceAs (Decidable (_ ∧ _))

theorem stands_init : Stands (.answering []) .init :=
  have hfull : [] ++ ([] : Text) = [] ++ [] := rfl
  .answering hfull rfl (Or.inl rfl)

theorem streamsAll_iff_shown : StreamsAll numTokens minTokens deltas ↔
    shown .init (asyncChatStreamly false deltas) = some (deltas.flatMap Delta.sent) := by
  rw [StreamsAll, readEvents_streamWithThinkDelta]

instance : DecidablePred Orderly := fun _ => inferInstanceAs (Decidable (_ ∧ _))

/-- An orderly reply is shown as it was sent, and where no tag is put together from several pieces
only an orderly one is. -/
theorem stream_shows_reply (numTokens : Text → ℕ) (minTokens : ℕ) (deltas : List Delta)
    (hvalid : ∀ d ∈ deltas, d.Valid) :
    (Orderly deltas → StreamsAll numTokens minTokens deltas) ∧
      (NoTagAcross deltas → (StreamsAll numTokens minTokens deltas ↔ Orderly deltas)) := by
  have henough : Orderly deltas → StreamsAll numTokens minTokens deltas := fun h =>
    streamsAll_iff_shown.mpr (stands_init.shown_of_passes hvalid h.1 h.2)
  refine ⟨henough, fun hacross => ⟨fun h => ?_, henough⟩⟩
  exact passes_of_shown stands_init rfl hvalid hacross.cons_nil (streamsAll_iff_shown.mp h)

/-- Two pieces of each kind. -/
theorem stream_shows_two_of_each :
    StreamsAll List.length 16 [.reasoning ['H'], .reasoning ['m'], .answer ['O'], .answer ['k']] :=
  (stream_shows_reply List.length 16 _ (by decide)).1 (by decide)

/-- Of a piece that comes twice one is lost, and an answer to one piece of reasoning is shown as
part of it. -/
theorem stream_loses_pieces :
    ((∀ d ∈ [Delta.answer ['n'], .answer ['n']], d.Valid) ∧
      ¬ StreamsAll List.length 16 [.answer ['n'], .answer ['n']]) ∧
    (∀ d ∈ [Delta.reasoning ['H'], .answer ['O'], .answer ['k']], d.Valid) ∧
      ¬ StreamsAll List.length 16 [.reasoning ['H'], .answer ['O'], .answer ['k']] := by
  refine ⟨⟨by decide, ?_⟩, by decide, ?_⟩
  · rw [StreamsAll]
    decide
  · rw [StreamsAll]
    decide

end Stream

end RagFlow.Chat
