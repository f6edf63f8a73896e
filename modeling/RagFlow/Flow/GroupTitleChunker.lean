/-
# Groups of sections

`GroupTitleChunker` numbers the sections of the lines, where every title down to a target level
begins a new one, and keeps texts in one group while they are of one section and the group is not
too large. A small group takes on the next text of whatever section. A table or image is a group of
its own, and blank texts are left out.

What a group has taken on follows from the count of its tokens before every line that joined it.
-/

import Mathlib
import RagFlow.Flow.TitleLevels

namespace RagFlow.Flow

open RagFlow.Chunking (Text)
open RagFlow.Query (strip)

/-! ## Sections -/

/-- A title down to the target level; without one there are no titles. -/
def opensSection (targetLevel : Option ℕ) (level : ℕ) : Bool :=
  targetLevel.any fun target => level ≤ target

/-- The numbers of further sections, after a line of the section `sid`. -/
def sectionIdsFrom (targetLevel : Option ℕ) : ℕ → List ℕ → List ℕ
  | _, [] => []
  | sid, level :: levels =>
      let sid := if opensSection targetLevel level then sid + 1 else sid
      sid :: sectionIdsFrom targetLevel sid levels

/-- `_build_section_ids`: the first line begins no new section. -/
def buildSectionIds (levels : List ℕ) (targetLevel : Option ℕ) : List ℕ :=
  match levels with
  | [] => []
  | _ :: levels => 0 :: sectionIdsFrom targetLevel 0 levels

def resolveGroupTargetLevel (levels : List ℕ) (hierarchy : Option ℤ) (mostLevel : Option ℕ) :
    Option ℕ :=
  match hierarchy with
  | none => mostLevel
  | some hierarchy => if 0 < hierarchy then resolveTargetLevel levels hierarchy else mostLevel

section Sections

variable {targetLevel : Option ℕ}

theorem length_sectionIdsFrom (sid : ℕ) (levels : List ℕ) :
    (sectionIdsFrom targetLevel sid levels).length = levels.length := by
  induction levels generalizing sid with
  | nil => rfl
  | cons level levels ih => rw [sectionIdsFrom, List.length_cons, ih, List.length_cons]

theorem length_buildSectionIds (levels : List ℕ) :
    (buildSectionIds levels targetLevel).length = levels.length := by
  cases levels with
  | nil => rfl
  | cons level levels =>
      rw [buildSectionIds, List.length_cons, length_sectionIdsFrom, List.length_cons]

end Sections

/-! ## `GroupTitleChunker.build_chunks` -/

def minGroupTokens : ℕ := 32

def maxGroupTokens : ℕ := 1024

structure GroupState where
  recordGroups : List (List LineRecord)
  tkCnt : ℕ
  lastSid : ℤ

section Groups

variable (numTokens : Text → ℕ)

/-- The last group is one of texts, and takes on one more. -/
def GroupState.shouldMerge (st : GroupState) (secId : ℕ) : Bool :=
  (st.recordGroups.getLast?.any fun group => group.head?.any LineRecord.isText) &&
    (st.tkCnt < minGroupTokens || st.tkCnt < maxGroupTokens && (secId : ℤ) = st.lastSid)

def groupStep (st : GroupState) (line : LineRecord × ℕ) : GroupState :=
  if !line.1.isText then
    { recordGroups := st.recordGroups ++ [[line.1]], tkCnt := 0, lastSid := -2 }
  else if strip line.1.text = [] then st
  else
    let tokenCount := numTokens line.1.text
    if st.shouldMerge line.2 then
      { recordGroups :=
          st.recordGroups.dropLast ++ [st.recordGroups.getLastD [] ++ [line.1]],
        tkCnt := st.tkCnt + tokenCount, lastSid := line.2 }
    else
      { recordGroups := st.recordGroups ++ [[line.1]], tkCnt := tokenCount, lastSid := line.2 }

/-- The lines, each with the number of its section in place of its level. -/
def sectioned (hierarchy : Option ℤ) (mostLevel : Option ℕ) (lines : List (LineRecord × ℕ)) :
    List (LineRecord × ℕ) :=
  let levels := lines.map Prod.snd
  (lines.map Prod.fst).zip
    (buildSectionIds levels (resolveGroupTargetLevel levels hierarchy mostLevel))

/-- The groups of the lines, each with its level. -/
def sectionGroups (hierarchy : Option ℤ) (mostLevel : Option ℕ) (lines : List (LineRecord × ℕ)) :
    List (List LineRecord) :=
  ((sectioned hierarchy mostLevel lines).foldl (groupStep numTokens) ⟨[], 0, -2⟩).recordGroups

/-! ## What a group takes on -/

/-- All lines but blank texts. -/
def isKept (record : LineRecord) : Bool := !record.isText || strip record.text ≠ []

def tokensOf (lines : List (LineRecord × ℕ)) : ℕ :=
  (lines.map fun line => numTokens line.1.text).sum

/-- A table or image alone, or texts. A text of another section than the one before it joined a
small group, and every text one that was not too large. -/
structure SectionGroup (group : List (LineRecord × ℕ)) : Prop where
  nonempty : group ≠ []
  media : ∀ line ∈ group, line.1.isText = false → group = [line]
  small : ∀ before line line', before ++ [line] ++ [line'] <+: group → line.2 ≠ line'.2 →
    tokensOf numTokens (before ++ [line]) < minGroupTokens
  notFull : ∀ before line, before ++ [line] <+: group → tokensOf numTokens before < maxGroupTokens

/-- The lines that have been read are in groups. If the last group is one of texts then its tokens
are counted and the section of its last line is known. -/
structure GroupsOf (done : List (LineRecord × ℕ)) (st : GroupState)
    (groups : List (List (LineRecord × ℕ))) : Prop where
  records : st.recordGroups = groups.map fun group => group.map Prod.fst
  kept : groups.flatten = done.filter fun line => isKept line.1
  law : ∀ group ∈ groups, SectionGroup numTokens group
  last : ∀ group ∈ groups.getLast?, ∀ line ∈ group.head?, line.1.isText = true →
    st.tkCnt = tokensOf numTokens group ∧ ∀ line' ∈ group.getLast?, st.lastSid = line'.2

end Groups

section Steps

variable {numTokens : Text → ℕ} {done group : List (LineRecord × ℕ)} {line : LineRecord × ℕ}
  {st : GroupState} {groups : List (List (LineRecord × ℕ))}

theorem tokensOf_concat (lines : List (LineRecord × ℕ)) (line : LineRecord × ℕ) :
    tokensOf numTokens (lines ++ [line]) = tokensOf numTokens lines + numTokens line.1.text := by
  simp [tokensOf]

/-- A line alone. -/
theorem sectionGroup_singleton (line : LineRecord × ℕ) : SectionGroup numTokens [line] := by
  refine ⟨List.cons_ne_nil _ _, by simp, fun before l l' hpre => ?_, fun before l hpre => ?_⟩
  · have hlen := hpre.length_le
    simp at hlen
  · have hlen := hpre.length_le
    obtain rfl : before = [] := by
      rw [List.length_append, List.length_singleton, List.length_singleton] at hlen
      exact List.eq_nil_of_length_eq_zero (by omega)
    simp [tokensOf, maxGroupTokens]

/-- A group that begins with a text has nothing but texts. -/
theorem SectionGroup.texts (h : SectionGroup numTokens group)
    (hhead : ∀ l ∈ group.head?, l.1.isText = true) : ∀ l ∈ group, l.1.isText = true := by
  intro l hl
  by_contra hmedia
  have hgroup := h.media l hl (eq_false_of_ne_true hmedia)
  exact hmedia (hhead l (by rw [hgroup]; rfl))

/-- A text joins a group. -/
theorem SectionGroup.concat (h : SectionGroup numTokens group) (htext : line.1.isText = true)
    (htexts : ∀ l ∈ group, l.1.isText = true)
    (hsmall : ∀ l ∈ group.getLast?, l.2 ≠ line.2 → tokensOf numTokens group < minGroupTokens)
    (hfull : tokensOf numTokens group < maxGroupTokens) :
    SectionGroup numTokens (group ++ [line]) := by
  refine ⟨by simp, fun l hl hmedia => ?_, fun before l l' hpre hne => ?_, fun before l hpre => ?_⟩
  · have hall : l.1.isText = true := by
      rcases List.mem_append.mp hl with hl | hl
      · exact htexts l hl
      · exact List.mem_singleton.mp hl ▸ htext
    exact absurd hall (by simp [hmedia])
  · rcases List.prefix_concat_iff.mp hpre with heq | hpre
    · obtain ⟨rfl, hline⟩ := List.append_inj' heq rfl
      obtain rfl : l' = line := by simpa using hline
      exact hsmall l (List.getLast?_concat ..) hne
    · exact h.small before l l' hpre hne
  · rcases List.prefix_concat_iff.mp hpre with heq | hpre
    · obtain ⟨rfl, -⟩ := List.append_inj' heq rfl
      exact hfull
    · exact h.notFull before l hpre

theorem filter_kept_concat (hline : isKept line.1 = true) :
    (done ++ [line]).filter (fun l => isKept l.1) =
      done.filter (fun l => isKept l.1) ++ [line] := by
  rw [List.filter_append, List.filter_singleton, hline, Bool.cond_true]

/-- A line begins a group. -/
theorem GroupsOf.begin (h : GroupsOf numTokens done st groups) (hline : isKept line.1 = true)
    {tkCnt : ℕ} {lastSid : ℤ} (hlast : line.1.isText = true →
      tkCnt = numTokens line.1.text ∧ lastSid = line.2) :
    GroupsOf numTokens (done ++ [line])
      { recordGroups := st.recordGroups ++ [[line.1]], tkCnt, lastSid }
      (groups ++ [[line]]) := by
  refine ⟨?_, ?_, ?_, ?_⟩
  · rw [List.map_append, ← h.records]
    rfl
  · rw [List.flatten_append, h.kept, filter_kept_concat hline, List.flatten_singleton]
  · intro group hgroup
    rcases List.mem_append.mp hgroup with hgroup | hgroup
    · exact h.law group hgroup
    · exact List.mem_singleton.mp hgroup ▸ sectionGroup_singleton line
  · intro group hgroup l hl htext
    obtain rfl : [line] = group := by simpa using hgroup
    obtain rfl : line = l := by simpa using hl
    obtain ⟨htk, hsid⟩ := hlast htext
    exact ⟨by simpa [tokensOf] using htk, by simpa using hsid⟩

/-- A text joins the last group. -/
theorem GroupsOf.join (h : GroupsOf numTokens done st groups) (htext : line.1.isText = true)
    (hline : isKept line.1 = true) (hmerge : st.shouldMerge line.2 = true) :
    ∃ groups', GroupsOf numTokens (done ++ [line])
      { recordGroups := st.recordGroups.dropLast ++ [st.recordGroups.getLastD [] ++ [line.1]],
        tkCnt := st.tkCnt + numTokens line.1.text, lastSid := line.2 } groups' := by
  rw [GroupState.shouldMerge, Bool.and_eq_true, Bool.or_eq_true, Bool.and_eq_true] at hmerge
  simp only [decide_eq_true_iff] at hmerge
  obtain ⟨hlast, hsize⟩ := hmerge
  obtain ⟨init, group, rfl⟩ : ∃ init group, groups = init ++ [group] := by
    rcases List.eq_nil_or_concat groups with rfl | ⟨init, group, rfl⟩
    · rw [h.records] at hlast
      simp at hlast
    · exact ⟨init, group, List.concat_eq_append⟩
  obtain ⟨hrecords, hkept, hlaw, hcount⟩ := h
  have hgroup := hlaw group (List.mem_append_right _ List.mem_cons_self)
  obtain ⟨first, rest, rfl⟩ := List.exists_cons_of_ne_nil hgroup.nonempty
  have hfirst : first.1.isText = true := by
    rw [hrecords] at hlast
    simpa using hlast
  obtain ⟨htk, hsid⟩ := hcount _ (List.getLast?_concat ..) first rfl hfirst
  have htexts := hgroup.texts fun l hl => by
    obtain rfl : first = l := by simpa using hl
    exact hfirst
  refine ⟨init ++ [first :: rest ++ [line]], ?_, ?_, ?_, ?_⟩
  · simp [hrecords]
  · rw [filter_kept_concat hline, ← hkept]
    simp
  · intro g hg
    rcases List.mem_append.mp hg with hg | hg
    · exact hlaw g (List.mem_append_left _ hg)
    · obtain rfl := List.mem_singleton.mp hg
      refine hgroup.concat htext htexts (fun l hl hne => ?_) ?_
      · rw [← htk]
        refine hsize.resolve_right fun hboth => hne ?_
        have heq := hsid l hl
        rw [← hboth.2] at heq
        exact_mod_cast heq.symm
      · rw [← htk]
        rcases hsize with hsmall | hfull
        · exact hsmall.trans (by decide)
        · exact hfull.1
  · intro g hg l hl _
    obtain rfl : first :: rest ++ [line] = g := by simpa using hg
    refine ⟨by rw [tokensOf_concat, htk], fun l' hl' => ?_⟩
    rw [List.getLast?_concat, Option.mem_some_iff] at hl'
    rw [hl']

theorem GroupsOf.step (h : GroupsOf numTokens done st groups) (line : LineRecord × ℕ) :
    ∃ groups', GroupsOf numTokens (done ++ [line]) (groupStep numTokens st line) groups' := by
  rw [groupStep]
  split
  · next hmedia =>
      have hnot : line.1.isText = false := by simpa using hmedia
      exact ⟨_, h.begin (by simp [isKept, hnot]) fun htext => by simp [hnot] at htext⟩
  · next htext =>
      have htext : line.1.isText = true := by simpa using htext
      split
      · next hblank =>
          refine ⟨groups, h.records, ?_, h.law, h.last⟩
          rw [List.filter_append, List.filter_cons_of_neg (by simp [isKept, htext, hblank]),
            List.filter_nil, List.append_nil]
          exact h.kept
      · next hblank =>
          have hline : isKept line.1 = true := by simp [isKept, hblank]
          dsimp only
          split
          · next hmerge => exact h.join htext hline hmerge
          · exact ⟨_, h.begin hline fun _ => ⟨rfl, rfl⟩⟩

end Steps

/-! ## The groups of a document -/

theorem map_fst_sectioned (hierarchy : Option ℤ) (mostLevel : Option ℕ)
    (lines : List (LineRecord × ℕ)) :
    (sectioned hierarchy mostLevel lines).map Prod.fst = lines.map Prod.fst := by
  refine List.map_fst_zip ?_
  rw [length_buildSectionIds, List.length_map, List.length_map]

/-- The groups hold the tables, the images and the texts that are not blank, each once and in their
order, and every text joined its group with few tokens there, or within a section. -/
theorem sectionGroups_groups (numTokens : Text → ℕ) (hierarchy : Option ℤ)
    (mostLevel : Option ℕ) (lines : List (LineRecord × ℕ)) :
    ∃ groups : List (List (LineRecord × ℕ)),
      sectionGroups numTokens hierarchy mostLevel lines =
          groups.map (fun group => group.map Prod.fst) ∧
        groups.flatten =
          (sectioned hierarchy mostLevel lines).filter (fun line => isKept line.1) ∧
        groups.flatten.map Prod.fst = (lines.map Prod.fst).filter isKept ∧
        ∀ group ∈ groups, SectionGroup numTokens group := by
  have hfold : ∀ done : List (LineRecord × ℕ), ∃ groups,
      GroupsOf numTokens done (done.foldl (groupStep numTokens) ⟨[], 0, -2⟩) groups := by
    intro done
    induction done using List.reverseRecOn with
    | nil => exact ⟨[], rfl, rfl, by simp, by simp⟩
    | append_singleton done line ih =>
        obtain ⟨groups, hgroups⟩ := ih
        rw [List.foldl_append]
        exact hgroups.step line
  obtain ⟨groups, hgroups⟩ := hfold (sectioned hierarchy mostLevel lines)
  refine ⟨groups, hgroups.records, hgroups.kept, ?_, hgroups.law⟩
  rw [hgroups.kept, ← map_fst_sectioned hierarchy mostLevel lines, List.filter_map]
  rfl

end RagFlow.Flow
