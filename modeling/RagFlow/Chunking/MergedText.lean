/-
# Merging conserves the text

Without overlap and without custom delimiters `naive_merge` distributes its sections over the
chunks in their order. Each section brings a line break, its text, and its position tag or nothing.
The tag is left out where it can be read in the chunk already, and with texts below eight tokens.
-/

import RagFlow.Chunking.NaiveMerge

namespace RagFlow.Chunking

open RagFlow.Math

/-- A section together with what is put behind its text. -/
abbrev Tagged := Section × Text

def Tagged.text (p : Tagged) : Text := '\n' :: p.1.1 ++ p.2

/-- The chunk that holds some sections and nothing else. -/
def chunkOf (ps : List Tagged) : Text := ps.flatMap Tagged.text

/-- Behind a text stands its own tag or nothing, and the tag of a text that is long enough is found
in the chunk. -/
structure PlacedIn (o : MergeOptions) (ck : Text) (p : Tagged) : Prop where
  own : p.2 = [] ∨ p.1.2 = some p.2
  tag : 8 ≤ o.numTokens ('\n' :: p.1.1) → p.1.2.getD [] <:+: ck

/-- The sections are distributed over the chunks, in order. -/
structure Distributes (o : MergeOptions) (sections : List Section) (cks : List Text)
    (groups : List (List Tagged)) : Prop where
  sections : groups.flatten.map Prod.fst = sections
  chunks : cks = groups.map chunkOf
  placed : ∀ ps ∈ groups, ∀ p ∈ ps, PlacedIn o (chunkOf ps) p

section Distribution

variable {o : MergeOptions} {sections done : List Section} {cks : List Text}
  {groups : List (List Tagged)} {sec : Section}

theorem chunkOf_snoc (ps : List Tagged) (p : Tagged) :
    chunkOf (ps ++ [p]) = chunkOf ps ++ p.text := by
  rw [chunkOf, List.flatMap_append, List.flatMap_singleton]
  rfl

/-- A longer chunk still contains the tags. -/
theorem PlacedIn.append {ck : Text} {p : Tagged} (h : PlacedIn o ck p) (more : Text) :
    PlacedIn o (ck ++ more) p where
  own := h.own
  tag := fun hlong => (h.tag hlong).trans (List.prefix_append ck more).isInfix

theorem overlap_eq_nil (hoverlap : o.overlappedPercent = 0) (ck : Text) : o.overlap ck = [] := by
  have hall : ((removeTag ck).length : ℚ) * (100 - o.overlappedPercent) / 100 =
      (removeTag ck).length := by
    rw [hoverlap]
    ring
  have hfloor : truncate ((removeTag ck).length : ℚ) = (removeTag ck).length := by
    rw [truncate, if_pos (Nat.cast_nonneg _), Int.floor_natCast]
  rw [MergeOptions.overlap, hall, hfloor, sliceFrom, if_neg (not_lt.mpr (Int.natCast_nonneg _)),
    Int.toNat_natCast, List.drop_length]

/-- What is put behind a text that goes to the end of a chunk, where its tag is looked for in
`within`, the chunk before or the text itself. -/
theorem placedIn_withPos (sec : Section) {before within : Text}
    (hwithin : within <:+: before ++ '\n' :: sec.1) :
    ∃ tag, withPos within ('\n' :: sec.1) (o.shownPos ('\n' :: sec.1) sec.2) =
        Tagged.text (sec, tag) ∧
      PlacedIn o (before ++ Tagged.text (sec, tag)) (sec, tag) := by
  have hshown : 8 ≤ o.numTokens ('\n' :: sec.1) →
      o.shownPos ('\n' :: sec.1) sec.2 = sec.2.getD [] := fun hlong =>
    if_neg (not_lt.mpr hlong)
  by_cases hfound : o.shownPos ('\n' :: sec.1) sec.2 <:+: within
  · refine ⟨[], by rw [withPos, if_pos hfound, Tagged.text, List.append_nil], .inl rfl, ?_⟩
    intro hlong
    rw [Tagged.text, List.append_nil, ← hshown hlong]
    exact hfound.trans hwithin
  · refine ⟨_, by rw [withPos, if_neg hfound, Tagged.text], ?_, ?_⟩
    · rcases shownPos_eq o ('\n' :: sec.1) sec.2 with hnil | hown
      · exact .inl hnil
      · exact .inr hown
    · intro hlong
      rw [Tagged.text, ← hshown hlong, ← List.append_assoc]
      exact (List.suffix_append _ _).isInfix

/-- The next section goes into a chunk of its own or into the last one. -/
theorem Distributes.addChunk {s : Merging} (hoverlap : o.overlappedPercent = 0)
    (h : Distributes o done s.cks groups) (hne : groups ≠ []) :
    ∃ groups', Distributes o (done ++ [sec]) (s.addChunk o ('\n' :: sec.1) sec.2).cks groups' ∧
      groups' ≠ [] := by
  obtain ⟨gs, ps, rfl⟩ : ∃ gs ps, groups = gs ++ [ps] :=
    ⟨_, _, (List.dropLast_append_getLast hne).symm⟩
  have hcks := h.chunks
  rw [List.map_append, List.map_singleton] at hcks
  by_cases hopens : s.opens o
  · have hwithin : '\n' :: sec.1 <:+: [] ++ '\n' :: sec.1 := List.infix_rfl
    obtain ⟨tag, htext, hplaced⟩ := @placedIn_withPos o sec [] ('\n' :: sec.1) hwithin
    refine ⟨gs ++ [ps] ++ [[(sec, tag)]], ⟨?_, ?_, ?_⟩, by simp⟩
    · rw [List.flatten_append, List.map_append, h.sections]
      rfl
    · simp only [Merging.addChunk, if_pos hopens, overlap_eq_nil hoverlap, List.nil_append]
      have hsingle : chunkOf [(sec, tag)] = Tagged.text (sec, tag) := List.flatMap_singleton _ _
      rw [htext, h.chunks, ← hsingle, ← List.map_singleton, ← List.map_append]
    · intro qs hqs
      rcases List.mem_append.mp hqs with hqs | hqs
      · exact h.placed qs hqs
      · obtain rfl := List.mem_singleton.mp hqs
        intro p hp
        obtain rfl := List.mem_singleton.mp hp
        rwa [chunkOf, List.flatMap_singleton]
  · have hwithin : chunkOf ps <:+: chunkOf ps ++ '\n' :: sec.1 :=
      (List.prefix_append _ _).isInfix
    obtain ⟨tag, htext, hplaced⟩ := @placedIn_withPos o sec (chunkOf ps) (chunkOf ps) hwithin
    refine ⟨gs ++ [ps ++ [(sec, tag)]], ⟨?_, ?_, ?_⟩, by simp⟩
    · rw [← h.sections]
      simp
    · simp only [Merging.addChunk, if_neg hopens, hcks, List.dropLast_concat,
        List.getLastD_concat]
      rw [htext, List.map_append, List.map_singleton, chunkOf_snoc]
    · intro qs hqs
      rcases List.mem_append.mp hqs with hqs | hqs
      · exact h.placed qs (List.mem_append_left _ hqs)
      · obtain rfl := List.mem_singleton.mp hqs
        rw [chunkOf_snoc]
        intro p hp
        rcases List.mem_append.mp hp with hp | hp
        · exact (h.placed ps (List.mem_append_right _ List.mem_cons_self) p hp).append _
        · obtain rfl := List.mem_singleton.mp hp
          exact hplaced

/-- The merging loop, over any first sections. -/
theorem exists_distributes_foldl (hoverlap : o.overlappedPercent = 0) (sections : List Section) :
    ∃ groups, Distributes o sections
        (sections.foldl (fun s sec => s.addChunk o ('\n' :: sec.1) sec.2) Merging.start).cks
        groups ∧ groups ≠ [] := by
  let P (done : List Section) (s : Merging) : Prop :=
    ∃ groups, Distributes o done s.cks groups ∧ groups ≠ []
  show P sections _
  apply foldl_induction
  · exact ⟨[[]], ⟨rfl, rfl, by simp⟩, by simp⟩
  · intro done sec s _ ⟨groups, hgroups, hne⟩
    exact hgroups.addChunk hoverlap hne

/-- All chunks together are all sections, each with what is put behind it. -/
theorem Distributes.flatten (h : Distributes o sections cks groups) :
    cks.flatten = groups.flatten.flatMap Tagged.text := by
  have hall : ∀ gs : List (List Tagged),
      (gs.map chunkOf).flatten = gs.flatten.flatMap Tagged.text := by
    intro gs
    induction gs with
    | nil => rfl
    | cons ps gs ih =>
        rw [List.map_cons, List.flatten_cons, ih, List.flatten_cons, List.flatMap_append, chunkOf]
  rw [h.chunks, hall]

end Distribution

/-- Every section is found in the chunks with its line break, in order and with nothing between but
its own position tag, and the tag of a section of eight or more tokens is found in its chunk. -/
theorem naiveMerge_conserves (o : MergeOptions) (texts : Texts) (hne : texts.sections ≠ [])
    (hdelims : customDelimiters o.delimiter = []) (hoverlap : o.overlappedPercent = 0) :
    ∃ groups, Distributes o texts.sections (naiveMerge o texts) groups ∧
      (naiveMerge o texts).flatten = groups.flatten.flatMap Tagged.text := by
  obtain ⟨groups, hgroups, -⟩ := exists_distributes_foldl hoverlap texts.sections
  have hmerge : naiveMerge o texts = (texts.sections.foldl
      (fun s sec => s.addChunk o ('\n' :: sec.1) sec.2) Merging.start).cks := by
    simp only [naiveMerge, if_neg hne, hdelims, ne_eq, not_true_eq_false, if_false]
  rw [hmerge]
  exact ⟨groups, hgroups, hgroups.flatten⟩

theorem conserves_twoTexts :
    ∃ groups, Distributes byLength twoTexts.sections (naiveMerge byLength twoTexts) groups ∧
      (naiveMerge byLength twoTexts).flatten = groups.flatten.flatMap Tagged.text :=
  naiveMerge_conserves byLength twoTexts (by decide) (by decide) rfl

end RagFlow.Chunking
