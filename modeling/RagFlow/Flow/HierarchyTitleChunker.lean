/-
# Groups along a tree of titles

`HierarchyTitleChunker` builds a tree from every run of texts between tables and images, down to a
target level that the run decides itself, and makes a group of every path of the tree. A table or
image is a group of its own, and a run without titles is one group.

No line is lost, every group is in the order of the document, and each of its lines has before it
the titles above it and no others. With the contents of headings kept apart a group is a chain of
titles and the text below, and text is in one group only. With one group for every lowest title the
texts of the titles on the way stand in the middle of the chain.
-/

import Mathlib
import RagFlow.Math.Stretch
import RagFlow.Flow.TitlePaths

namespace RagFlow.Flow

open RagFlow.Math

/-! ## `HierarchyTitleChunker.build_chunks` -/

/-- `flush_text_records`. -/
def flushTextRecords (hierarchy : ℤ) (includeHeadingContent : Bool)
    (texts : List (LineRecord × ℕ)) : List (List LineRecord) :=
  let textRecords := texts.map Prod.fst
  let textLevels := texts.map Prod.snd
  if texts = [] then []
  else
    match resolveTargetLevel textLevels hierarchy with
    | none => [textRecords]
    | some targetLevel =>
        let root := buildTitleTree targetLevel (textLevels.zip (List.range textRecords.length))
        ((root.getPaths targetLevel includeHeadingContent).filter (· ≠ [])).map fun path =>
          path.filterMap fun index => textRecords[index]?

structure HierarchyState where
  recordGroups : List (List LineRecord)
  texts : List (LineRecord × ℕ)

section Groups

variable (hierarchy : ℤ) (includeHeadingContent : Bool)

def hierarchyStep (st : HierarchyState) (line : LineRecord × ℕ) : HierarchyState :=
  if line.1.isText then { st with texts := st.texts ++ [line] }
  else
    { recordGroups :=
        st.recordGroups ++ flushTextRecords hierarchy includeHeadingContent st.texts ++ [[line.1]],
      texts := [] }

/-- The groups of the lines, each with its level. -/
def hierarchyGroups (lines : List (LineRecord × ℕ)) : List (List LineRecord) :=
  let st := lines.foldl (hierarchyStep hierarchy includeHeadingContent) ⟨[], []⟩
  st.recordGroups ++ flushTextRecords hierarchy includeHeadingContent st.texts

end Groups

/-! ## Runs of texts -/

def isMedia (line : LineRecord × ℕ) : Bool := !line.1.isText

/-- The records of a group are those at the places of its path. -/
def ReadsAt (records : List LineRecord) (path : List ℕ) (group : List LineRecord) : Prop :=
  (path.map fun index => records[index]?) = group.map some

/-- A table or image makes a group; a run makes groups that are its paths down to the target level,
below all levels if it has no titles. -/
def StretchGroups (hierarchy : ℤ) (includeHeadingContent : Bool) :
    Stretch (LineRecord × ℕ) → List (List LineRecord) → Prop
  | .mark line, groups => groups = [[line.1]]
  | .run run, groups =>
      let levels := run.map Prod.snd
      ∃ paths, List.Forall₂ (ReadsAt (run.map Prod.fst)) paths groups ∧
        Reads (fun p => levels.getD p 0) ((resolveTargetLevel levels hierarchy).getD 0)
          includeHeadingContent [] 0 run.length paths

section Runs

variable {hierarchy : ℤ} {inc : Bool} {lines run : List (LineRecord × ℕ)}

/-- The places of a path are read one by one. -/
theorem readsAt_filterMap {records : List LineRecord} {path : List ℕ}
    (h : ∀ index ∈ path, index < records.length) :
    ReadsAt records path (path.filterMap fun index => records[index]?) := by
  induction path with
  | nil => rfl
  | cons index path ih =>
      have hindex := List.getElem?_eq_getElem (h index List.mem_cons_self)
      have hpath := ih fun i hi => h i (List.mem_cons_of_mem _ hi)
      rw [ReadsAt, List.map_cons, List.filterMap_cons, hindex, List.map_cons]
      exact congrArg (_ :: ·) hpath

/-- The levels of a run as a tree counts them. -/
theorem zip_range_eq_map (levels : List ℕ) :
    levels.zip (List.range levels.length) =
      (List.range levels.length).map fun p => (levels.getD p 0, p) := by
  refine List.ext_getElem (by simp) fun p hp _ => ?_
  rw [List.length_zip, List.length_range, min_self] at hp
  simp [List.getD_eq_getElem?_getD, hp]

theorem flushTextRecords_spec (hne : run ≠ []) (hlevels : ∀ line ∈ run, 1 ≤ line.2) :
    StretchGroups hierarchy inc (.run run) (flushTextRecords hierarchy inc run) := by
  have hlength : 0 < run.length := List.length_pos_of_ne_nil hne
  have hlv : ∀ p, p < run.length → 1 ≤ (run.map Prod.snd).getD p 0 := by
    intro p hp
    rw [List.getD_eq_getElem?_getD, List.getElem?_map, List.getElem?_eq_getElem hp]
    exact hlevels _ (List.getElem_mem hp)
  rw [flushTextRecords, if_neg hne, StretchGroups]
  cases htarget : resolveTargetLevel (run.map Prod.snd) hierarchy with
  | none =>
      refine ⟨[List.range' 0 run.length], .cons ?_ .nil, ?_⟩
      · refine List.ext_getElem (by simp) fun p hp _ => ?_
        simp only [List.length_map, List.length_range'] at hp
        simp [hp]
      · rw [← List.append_nil [_]]
        exact reads_empty.ofRoot hlength.ne' le_rfl fun p hp => hlv p hp
  | some target =>
      have hzip : (run.map Prod.snd).zip (List.range (run.map Prod.fst).length) =
          (List.range run.length).map fun p => ((run.map Prod.snd).getD p 0, p) := by
        have hmap := zip_range_eq_map (run.map Prod.snd)
        rwa [List.length_map] at hmap ⊢
      obtain ⟨hroot, hspans⟩ := buildTitleTree_spans (t := target) hlv
      rw [← hzip] at hroot hspans
      have hpaths : Reads _ target inc [] 0 run.length _ :=
        getPaths_reads hspans hroot (hlv 0 hlength)
      have hreads := hpaths.filter_ne_nil
      refine ⟨_, ?_, hreads⟩
      rw [List.forall₂_map_right_iff]
      refine List.forall₂_same.mpr fun path hpath => readsAt_filterMap fun index hindex => ?_
      rw [List.length_map]
      exact ((hreads.through path hpath).2 index hindex).resolve_left List.not_mem_nil |>.2

/-- The lines are cut at their tables and images, and the groups are those of the pieces, one piece
after the other. -/
def IsGrouped (hierarchy : ℤ) (inc : Bool) (lines : List (LineRecord × ℕ))
    (recordGroups : List (List LineRecord)) (stretches : List (Stretch (LineRecord × ℕ))) : Prop :=
  CutAt isMedia lines stretches ∧ ∃ groups : List (List (List LineRecord)),
    recordGroups = groups.flatten ∧
      List.Forall₂ (StretchGroups hierarchy inc) stretches groups

theorem IsGrouped.concat {stretches : List (Stretch (LineRecord × ℕ))}
    {recordGroups newGroups : List (List LineRecord)}
    (h : IsGrouped hierarchy inc lines recordGroups stretches) (piece : Stretch (LineRecord × ℕ))
    (hkind : piece.toList ≠ [] ∧ ∀ line ∈ piece.toList, isMedia line = piece.isMark)
    (hlast : ∀ last ∈ stretches.getLast?, last.isMark = true ∨ piece.isMark = true)
    (hnew : StretchGroups hierarchy inc piece newGroups) :
    IsGrouped hierarchy inc (lines ++ piece.toList) (recordGroups ++ newGroups)
      (stretches ++ [piece]) := by
  obtain ⟨hcut, groups, rfl, hall⟩ := h
  refine ⟨hcut.concat piece hkind hlast, groups ++ [newGroups], ?_, ?_⟩
  · rw [List.flatten_append, List.flatten_singleton]
  · exact List.rel_append hall (.cons hnew .nil)

/-- The lines up to the last table or image are grouped; the texts since then are an open run. -/
structure Grouping (hierarchy : ℤ) (inc : Bool) (done : List (LineRecord × ℕ))
    (st : HierarchyState) : Prop where
  texts : ∀ line ∈ st.texts, isMedia line = false
  closed : ∃ closed stretches, closed ++ st.texts = done ∧
    IsGrouped hierarchy inc closed st.recordGroups stretches ∧
    ∀ last ∈ stretches.getLast?, last.isMark = true

/-- The open run is grouped too. -/
theorem Grouping.flush {st : HierarchyState} (h : Grouping hierarchy inc lines st)
    (hlevels : ∀ line ∈ lines, 1 ≤ line.2) :
    ∃ stretches, IsGrouped hierarchy inc lines
      (st.recordGroups ++ flushTextRecords hierarchy inc st.texts) stretches := by
  obtain ⟨htexts, closed, stretches, rfl, hgrouped, hlast⟩ := h
  by_cases hne : st.texts = []
  · refine ⟨stretches, ?_⟩
    rwa [hne, List.append_nil, flushTextRecords, if_pos rfl, List.append_nil]
  · have hrun : StretchGroups hierarchy inc (.run st.texts)
        (flushTextRecords hierarchy inc st.texts) :=
      flushTextRecords_spec hne fun line hline => hlevels line (List.mem_append_right _ hline)
    have hnext := hgrouped.concat (.run st.texts) ⟨hne, htexts⟩
      (fun last hl => .inl (hlast last hl)) hrun
    exact ⟨_, hnext⟩

theorem Grouping.step {st : HierarchyState} {line : LineRecord × ℕ}
    (h : Grouping hierarchy inc lines st) (hlevels : ∀ line ∈ lines, 1 ≤ line.2) :
    Grouping hierarchy inc (lines ++ [line]) (hierarchyStep hierarchy inc st line) := by
  rw [hierarchyStep]
  split
  · next htext =>
      obtain ⟨htexts, closed, stretches, rfl, hgrouped, hlast⟩ := h
      refine ⟨fun l hl => ?_, closed, stretches, (List.append_assoc _ _ _).symm, hgrouped, hlast⟩
      rcases List.mem_append.mp hl with hl | hl
      · exact htexts l hl
      · rw [List.mem_singleton.mp hl, isMedia, htext, Bool.not_true]
  · next hmedia =>
      obtain ⟨stretches, hgrouped⟩ := h.flush hlevels
      refine ⟨by simp, lines ++ [line], stretches ++ [.mark line], List.append_nil _, ?_, ?_⟩
      · refine hgrouped.concat (.mark line) ?_ (fun _ _ => .inr rfl) rfl
        refine ⟨List.cons_ne_nil _ _, List.forall_mem_singleton.mpr ?_⟩
        rw [isMedia, eq_false_of_ne_true hmedia]
        rfl
      · simp [Stretch.isMark]

/-- Every run of texts between media is read as paths of titles, and every table or image is a
group. -/
theorem hierarchyGroups_grouped (hierarchy : ℤ) (includeHeadingContent : Bool)
    (lines : List (LineRecord × ℕ)) (hlevels : ∀ line ∈ lines, 1 ≤ line.2) :
    ∃ stretches, IsGrouped hierarchy includeHeadingContent lines
      (hierarchyGroups hierarchy includeHeadingContent lines) stretches := by
  have hfold : ∀ done : List (LineRecord × ℕ), (∀ line ∈ done, 1 ≤ line.2) →
      Grouping hierarchy includeHeadingContent done
        (done.foldl (hierarchyStep hierarchy includeHeadingContent) ⟨[], []⟩) := by
    intro done
    induction done using List.reverseRecOn with
    | nil =>
        intro _
        exact ⟨by simp, [], [], rfl, ⟨cutAt_nil, [], rfl, .nil⟩, by simp⟩
    | append_singleton done line ih =>
        intro hdone
        rw [List.foldl_append]
        have hold := fun l hl => hdone l (List.mem_append_left _ hl)
        exact (ih hold).step hold
  exact (hfold lines hlevels).flush hlevels

end Runs

/-! ## A heading with a text and a subsection -/

def textLine (text : String) (level : ℕ) : LineRecord × ℕ :=
  ({ text := text.toList, docTypeKwd := "text", layout := [] }, level)

/-- A chapter with a text of its own, and a section with one. -/
def chapterLines : List (LineRecord × ℕ) :=
  [textLine "Chapter" 1, textLine "about" bodyLevel, textLine "Section" 2,
    textLine "more" bodyLevel]

theorem hierarchyGroups_grouped_chapter :
    ∃ stretches, IsGrouped 2 true chapterLines (hierarchyGroups 2 true chapterLines) stretches :=
  hierarchyGroups_grouped 2 true chapterLines (by decide)

/-- The text of the chapter is between the two titles. -/
theorem not_startsWithChain :
    hierarchyGroups 2 false chapterLines = [chapterLines.map Prod.fst] ∧
      ¬ StartsWithChain (fun p => (chapterLines.map Prod.snd).getD p 0) 2 [0, 1, 2, 3] := by
  refine ⟨by decide, ?_⟩
  rintro ⟨chain, content, hsplit, hne, habove, -⟩
  have hlast : 3 ∈ content := by
    have hend := congrArg List.getLast? hsplit
    rw [List.getLast?_append_of_ne_nil _ hne] at hend
    exact List.mem_of_getLast? hend.symm
  have hsection : 2 ∈ chain := by
    refine (habove 3 hlast 2).mpr ⟨by decide, by decide, fun r hr hr3 htitle => ?_⟩
    obtain rfl : r = 3 := by omega
    exact absurd htitle (by decide)
  have habout : 1 ∉ chain := fun hmem => absurd ((habove 3 hlast 1).mp hmem).2.1 (by decide)
  have hbegins : chain <+: [0, 1, 2, 3] := hsplit ▸ List.prefix_append chain content
  rw [List.prefix_iff_eq_take] at hbegins
  have htake : ∀ n < 5, 2 ∈ [0, 1, 2, 3].take n → 1 ∈ [0, 1, 2, 3].take n := by decide
  have hlength : chain.length < 5 := by
    have htotal := congrArg List.length hsplit
    simp at htotal
    omega
  rw [hbegins] at hsection habout
  exact habout (htake chain.length hlength hsection)

end RagFlow.Flow
