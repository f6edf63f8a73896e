/-
# The size of merged chunks

`naive_merge` and `naive_merge_with_images` add up the tokens of the texts in a chunk, line breaks
included. A chunk is closed once its count is above a limit, `chunk_token_num` less the overlap, and
the test looks at the count before the next text is added. A chunk therefore ends with the text that
takes it above the limit, and how far above that is depends on the text.

The counts are those of the shortest runs of texts above the limit, with what is left at the end.
They stay within `chunk_token_num` exactly when these runs do. With custom delimiters nothing is
added up: every piece is a chunk with a count of its own.
-/

import RagFlow.Chunking.NaiveMerge
import RagFlow.Math.Runs

namespace RagFlow.Chunking

open RagFlow.Math

/-! ## The counts -/

/-- `tk_nums` as `naive_merge` leaves it. -/
def naiveMergeTkNums (o : MergeOptions) (texts : Texts) : List ℕ :=
  let sections := texts.sections
  if sections = [] then []
  else
    let delims := customDelimiters o.delimiter
    if delims ≠ [] then
      sections.flatMap fun sec =>
        (customPieces delims sec.1).map fun piece => o.numTokens (o.customChunk piece sec.2)
    else
      (sections.foldl (fun s sec => s.addChunk o ('\n' :: sec.1) sec.2) Merging.start).tkNums

/-- `tk_nums` as `naive_merge_with_images` leaves it. -/
def naiveMergeWithImagesTkNums {ι : Type} (o : MergeOptions)
    (concatImg : ι → Option ι → Option ι) (texts : Texts) (images : List (Option ι)) : List ℕ :=
  let sections := texts.sections
  if sections = [] ∨ sections.length ≠ images.length then []
  else
    let delims := customDelimiters o.delimiter
    if delims ≠ [] then
      (sections.zip images).flatMap fun si =>
        (customPieces delims si.1.1).map fun piece => o.numTokens (o.customChunk piece si.1.2)
    else
      ((sections.zip images).foldl
        (fun s si => s.addChunk o concatImg ('\n' :: si.1.1) si.2 si.1.2)
        ImageMerging.start).tkNums

/-- The sizes of the texts, each with its line break. -/
def sizes (o : MergeOptions) (sections : List Section) : List ℕ :=
  sections.map fun sec => o.numTokens ('\n' :: sec.1)

/-- Texts that together are above the limit of a chunk. -/
def Above (o : MergeOptions) (run : List ℕ) : Prop :=
  o.chunkTokenNum * (100 - o.overlappedPercent) / 100 < (run.sum : ℚ)

theorem full_iff (o : MergeOptions) (run : List ℕ) : o.full run.sum = true ↔ Above o run := by
  rw [MergeOptions.full, decide_eq_true_iff]
  rfl

/-! ## Chunks are runs -/

section Counts

variable {o : MergeOptions} {sections done : List Section} {s : Merging}

/-- The counts after the texts `done`: those of the runs into which their sizes are cut, and of
what is left since the last run. -/
structure Counts (o : MergeOptions) (done : List Section) (s : Merging) (runs : List (List ℕ))
    (rest : List ℕ) : Prop where
  sizes : sizes o done = runs.flatten ++ rest
  tkNums : s.tkNums = 0 :: runs.map List.sum ++ [rest.sum]
  runs : ∀ run ∈ runs, IsRun (Above o) run
  below : ∀ first, first <+: rest → first ≠ rest → ¬ Above o first
  chunk : s.cks.getLastD [] ≠ []

theorem addChunk_cks_ne_nil (o : MergeOptions) (s : Merging) (t : Text) (pos : Option Text) :
    (s.addChunk o ('\n' :: t) pos).cks.getLastD [] ≠ [] := by
  have hpos : ∀ within, withPos within ('\n' :: t) (o.shownPos ('\n' :: t) pos) ≠ [] := by
    intro within
    obtain ⟨tag, -, htag⟩ := withPos_eq within ('\n' :: t) (o.shownPos ('\n' :: t) pos)
    rw [htag]
    exact List.cons_ne_nil _ _
  by_cases hopens : s.opens o
  · simp only [Merging.addChunk, if_pos hopens, List.getLastD_concat, withPos_append]
    exact List.append_ne_nil_of_right_ne_nil _ (hpos _)
  · simp only [Merging.addChunk, if_neg hopens, List.getLastD_concat]
    exact List.append_ne_nil_of_right_ne_nil _ (hpos _)

theorem sizes_snoc (o : MergeOptions) (done : List Section) (sec : Section) :
    sizes o (done ++ [sec]) = sizes o done ++ [o.numTokens ('\n' :: sec.1)] := by
  rw [sizes, List.map_append]
  rfl

/-- The limit is not negative, so nothing at all is not above it. -/
theorem not_above_nil (hlimit : 0 ≤ o.chunkTokenNum) (hpercent : o.overlappedPercent < 100) :
    ¬ Above o [] := by
  have hscaled : (0 : ℚ) ≤ o.chunkTokenNum * (100 - o.overlappedPercent) / 100 := by
    have hnum : (0 : ℚ) ≤ o.chunkTokenNum := by exact_mod_cast hlimit
    have hrest : (0 : ℚ) ≤ 100 - o.overlappedPercent := by linarith
    positivity
  rw [Above, List.sum_nil, Nat.cast_zero]
  exact not_lt.mpr hscaled

theorem below_singleton (hnil : ¬ Above o []) (n : ℕ) :
    ∀ first, first <+: [n] → first ≠ [n] → ¬ Above o first := by
  intro first hfirst hne
  rcases List.prefix_cons_iff.mp hfirst with rfl | ⟨more, rfl, hmore⟩
  · exact hnil
  · rw [List.prefix_nil] at hmore
    exact absurd (hmore ▸ rfl) hne

theorem Counts.isRun_rest {runs : List (List ℕ)} {rest : List ℕ}
    (h : Counts o done s runs rest) (habove : Above o rest) : IsRun (Above o) rest := by
  refine ⟨habove, ?_⟩
  intro first hfirst hfull
  by_contra hne
  exact h.below first hfirst hne hfull

/-- The first text opens a chunk behind the empty one. -/
theorem Counts.first (o : MergeOptions) (hnil : ¬ Above o []) (sec : Section) :
    Counts o [sec] (Merging.start.addChunk o ('\n' :: sec.1) sec.2) []
      [o.numTokens ('\n' :: sec.1)] where
  sizes := rfl
  tkNums := by simp [Merging.addChunk, Merging.opens, Merging.start]
  runs := nofun
  below := below_singleton hnil _
  chunk := addChunk_cks_ne_nil o _ _ _

/-- A text that comes later joins what is left, or begins anew where that has become a run. -/
theorem Counts.addChunk {runs : List (List ℕ)} {rest : List ℕ} (hnil : ¬ Above o [])
    (h : Counts o done s runs rest) (sec : Section) :
    ∃ runs' rest', Counts o (done ++ [sec]) (s.addChunk o ('\n' :: sec.1) sec.2) runs' rest' := by
  have hlast : s.tkNums.getLastD 0 = rest.sum := by rw [h.tkNums, List.getLastD_concat]
  have hopens : s.opens o = true ↔ Above o rest := by
    rw [Merging.opens, hlast, Bool.or_eq_true, decide_eq_true_iff, full_iff]
    exact or_iff_right h.chunk
  by_cases habove : Above o rest
  · refine ⟨runs ++ [rest], [o.numTokens ('\n' :: sec.1)], ?_, ?_, ?_, ?_, ?_⟩
    · rw [sizes_snoc, h.sizes, List.flatten_append]
      simp
    · simp only [Merging.addChunk, if_pos (hopens.mpr habove), h.tkNums]
      simp
    · intro run hmem
      rcases List.mem_append.mp hmem with hmem | hmem
      · exact h.runs run hmem
      · exact List.mem_singleton.mp hmem ▸ h.isRun_rest habove
    · exact below_singleton hnil _
    · exact addChunk_cks_ne_nil o _ _ _
  · refine ⟨runs, rest ++ [o.numTokens ('\n' :: sec.1)], ?_, ?_, h.runs, ?_, ?_⟩
    · rw [sizes_snoc, h.sizes, List.append_assoc]
    · simp only [Merging.addChunk, if_neg (mt hopens.mp habove), hlast]
      rw [h.tkNums, List.dropLast_concat, List.sum_append, List.sum_singleton]
    · intro first hfirst hne
      rcases List.prefix_concat_iff.mp hfirst with rfl | hfirst
      · exact absurd rfl hne
      · by_cases heq : first = rest
        · exact heq ▸ habove
        · exact h.below first hfirst heq
    · exact addChunk_cks_ne_nil o _ _ _

/-- The counts of the whole loop. -/
theorem exists_counts (hnil : ¬ Above o []) (hne : sections ≠ []) :
    ∃ runs rest, Counts o sections
      (sections.foldl (fun s sec => s.addChunk o ('\n' :: sec.1) sec.2) Merging.start)
      runs rest := by
  induction sections using List.reverseRecOn with
  | nil => exact absurd rfl hne
  | append_singleton done sec ih =>
      rw [List.foldl_append, List.foldl_cons, List.foldl_nil]
      by_cases hdone : done = []
      · subst hdone
        exact ⟨[], _, Counts.first o hnil sec⟩
      · obtain ⟨runs, rest, h⟩ := ih hdone
        exact h.addChunk hnil sec

/-- However many shortest runs above the limit the texts begin with, each of them has at most
`chunk_token_num` tokens. -/
def RunsFit (o : MergeOptions) (sections : List Section) : Prop :=
  ∀ runs : List (List ℕ), (∀ run ∈ runs, IsRun (Above o) run) →
    runs.flatten <+: sizes o sections → ∀ run ∈ runs, (run.sum : ℤ) ≤ o.chunkTokenNum

/-- Where what is left is above the limit it is one more run, and else no run begins there. -/
theorem Counts.exists_all {runs : List (List ℕ)} {rest : List ℕ} (hnil : ¬ Above o [])
    (h : Counts o sections s runs rest) :
    ∃ all left : List (List ℕ), (∀ run ∈ all, IsRun (Above o) run) ∧
      (∀ first, first <+: left.flatten → ¬ Above o first) ∧ (∀ run ∈ left, ¬ Above o run) ∧
      RagFlow.Chunking.sizes o sections = all.flatten ++ left.flatten ∧
      s.tkNums = 0 :: all.map List.sum ++ left.map List.sum := by
  by_cases habove : Above o rest
  · refine ⟨runs ++ [rest], [], ?_, ?_, nofun, ?_, ?_⟩
    · intro run hmem
      rcases List.mem_append.mp hmem with hmem | hmem
      · exact h.runs run hmem
      · exact List.mem_singleton.mp hmem ▸ h.isRun_rest habove
    · intro first hfirst
      rw [List.flatten_nil, List.prefix_nil] at hfirst
      exact hfirst ▸ hnil
    · rw [h.sizes, List.flatten_append, List.flatten_singleton, List.flatten_nil, List.append_nil]
    · rw [h.tkNums, List.map_append, List.map_nil, List.append_nil]
      rfl
  · refine ⟨runs, [rest], h.runs, ?_, ?_, ?_, h.tkNums⟩
    · intro first hfirst
      rw [List.flatten_singleton] at hfirst
      by_cases heq : first = rest
      · exact heq ▸ habove
      · exact h.below first hfirst heq
    · intro run hmem
      exact List.mem_singleton.mp hmem ▸ habove
    · rw [h.sizes, List.flatten_singleton]

/-- The counts stay within `chunk_token_num` if and only if the runs do. -/
theorem Counts.le_iff {runs : List (List ℕ)} {rest : List ℕ} (hlimit : 0 ≤ o.chunkTokenNum)
    (hpercent : 0 ≤ o.overlappedPercent) (hnil : ¬ Above o [])
    (h : Counts o sections s runs rest) :
    (∀ n ∈ s.tkNums, (n : ℤ) ≤ o.chunkTokenNum) ↔ RunsFit o sections := by
  obtain ⟨all, left, hall, hleft, hbelow, hsizes, hcounts⟩ := h.exists_all hnil
  rw [hcounts]
  constructor
  · intro hle runs' hruns' hfront run hmem
    rw [hsizes] at hfront
    have hrun := (initial_runs hruns' hall hleft hfront).subset hmem
    exact hle run.sum (List.mem_append_left _
      (List.mem_cons_of_mem 0 (List.mem_map.mpr ⟨run, hrun, rfl⟩)))
  · intro hfit n hn
    rcases List.mem_append.mp hn with hn | hn
    · rcases List.mem_cons.mp hn with rfl | hn
      · exact hlimit
      · obtain ⟨run, hrun, rfl⟩ := List.mem_map.mp hn
        exact hfit all hall (hsizes ▸ List.prefix_append _ _) run hrun
    · obtain ⟨run, hrun, rfl⟩ := List.mem_map.mp hn
      have hscaled := not_lt.mp (hbelow run hrun)
      have hnum : (0 : ℚ) ≤ o.chunkTokenNum := by exact_mod_cast hlimit
      have hlow : (run.sum : ℚ) ≤ o.chunkTokenNum := by nlinarith
      rw [← @Int.cast_le ℚ, Int.cast_natCast]
      exact hlow

end Counts

/-! ## Both functions -/

/-- What keeps the counts within `chunk_token_num`: without custom delimiters the runs of texts are
small enough, and else every piece is, with its line break and its position. -/
def SizesFit (o : MergeOptions) (sections : List Section) : Prop :=
  sections ≠ [] →
    if customDelimiters o.delimiter = [] then RunsFit o sections
    else ∀ sec ∈ sections, ∀ piece ∈ customPieces (customDelimiters o.delimiter) sec.1,
      (o.numTokens (o.customChunk piece sec.2) : ℤ) ≤ o.chunkTokenNum

section Both

variable {o : MergeOptions} {texts : Texts}

theorem naiveMergeTkNums_le_iff
    (hsizes : ∀ n ∈ sizes o texts.sections, (n : ℤ) ≤ o.chunkTokenNum)
    (hpercent : 0 ≤ o.overlappedPercent) (hpercent' : o.overlappedPercent < 100) :
    (∀ n ∈ naiveMergeTkNums o texts, (n : ℤ) ≤ o.chunkTokenNum) ↔
      SizesFit o texts.sections := by
  by_cases hne : texts.sections = []
  · simp [naiveMergeTkNums, SizesFit, hne]
  · by_cases hdelims : customDelimiters o.delimiter = []
    · have hlimit : 0 ≤ o.chunkTokenNum := by
        obtain ⟨sec, hsec⟩ := List.exists_mem_of_ne_nil _ hne
        exact (Int.natCast_nonneg _).trans (hsizes _ (List.mem_map.mpr ⟨sec, hsec, rfl⟩))
      have hnil := not_above_nil hlimit hpercent'
      obtain ⟨runs, rest, hcounts⟩ := exists_counts hnil hne
      have hmerge : naiveMergeTkNums o texts = (texts.sections.foldl
          (fun s sec => s.addChunk o ('\n' :: sec.1) sec.2) Merging.start).tkNums := by
        simp only [naiveMergeTkNums, if_neg hne, hdelims, ne_eq, not_true_eq_false, if_false]
      rw [hmerge, hcounts.le_iff hlimit hpercent hnil, SizesFit, if_pos hdelims]
      exact ⟨fun h _ => h, fun h => h hne⟩
    · simp only [naiveMergeTkNums, SizesFit, hne, hdelims, ne_eq, not_false_eq_true, if_true,
        if_false, List.mem_flatMap, List.mem_map]
      constructor
      · intro h _ sec hsec piece hpiece
        exact h _ ⟨sec, hsec, piece, hpiece, rfl⟩
      · rintro h n ⟨sec, hsec, piece, hpiece, rfl⟩
        exact h trivial sec hsec piece hpiece

theorem naiveMergeWithImagesTkNums_eq {ι : Type} (concatImg : ι → Option ι → Option ι)
    {images : List (Option ι)} (hlen : images.length = texts.sections.length) :
    naiveMergeWithImagesTkNums o concatImg texts images = naiveMergeTkNums o texts := by
  by_cases hne : texts.sections = []
  · simp [naiveMergeWithImagesTkNums, naiveMergeTkNums, hne]
  · have hguard : ¬ (texts.sections = [] ∨ texts.sections.length ≠ images.length) := by
      simp [hne, hlen]
    rw [naiveMergeWithImagesTkNums, if_neg hguard, naiveMergeTkNums, if_neg hne]
    by_cases hdelims : customDelimiters o.delimiter = []
    · have hstep := @inStep_foldl ι o concatImg images texts.sections hlen
      simp only [hdelims, ne_eq, not_true_eq_false, if_false]
      rw [hstep.tkNums, merging_foldl]
    · have hzip : texts.sections.flatMap (fun sec =>
            (customPieces (customDelimiters o.delimiter) sec.1).map fun piece =>
              o.numTokens (o.customChunk piece sec.2)) =
          ((texts.sections.zip images).map Prod.fst).flatMap fun sec =>
            (customPieces (customDelimiters o.delimiter) sec.1).map fun piece =>
              o.numTokens (o.customChunk piece sec.2) := by
        rw [List.map_fst_zip hlen.ge]
      simp only [hdelims, ne_eq, not_false_eq_true, if_true]
      rw [hzip, List.flatMap_map]

end Both

/-- In both functions no count exceeds `chunk_token_num` exactly when the sizes fit. -/
theorem tkNums_le_iff {ι : Type} (o : MergeOptions) (concatImg : ι → Option ι → Option ι)
    (texts : Texts) (images : List (Option ι))
    (hsizes : ∀ n ∈ sizes o texts.sections, (n : ℤ) ≤ o.chunkTokenNum)
    (hpercent : 0 ≤ o.overlappedPercent) (hpercent' : o.overlappedPercent < 100) :
    ((∀ n ∈ naiveMergeTkNums o texts, (n : ℤ) ≤ o.chunkTokenNum) ↔
        SizesFit o texts.sections) ∧
      ((∀ n ∈ naiveMergeWithImagesTkNums o concatImg texts images, (n : ℤ) ≤ o.chunkTokenNum) ↔
        (images.length = texts.sections.length → SizesFit o texts.sections)) := by
  have hplain := naiveMergeTkNums_le_iff hsizes hpercent hpercent'
  refine ⟨hplain, ?_⟩
  by_cases hlen : images.length = texts.sections.length
  · rw [naiveMergeWithImagesTkNums_eq concatImg hlen, hplain]
    exact ⟨fun h _ => h, fun h => h hlen⟩
  · have hguard : texts.sections = [] ∨ texts.sections.length ≠ images.length :=
      .inr fun h => hlen h.symm
    rw [naiveMergeWithImagesTkNums, if_pos hguard]
    exact ⟨fun _ h => absurd h hlen, fun _ => nofun⟩

theorem tkNums_twoTexts :
    ((∀ n ∈ naiveMergeTkNums byLength twoTexts, (n : ℤ) ≤ byLength.chunkTokenNum) ↔
        SizesFit byLength twoTexts.sections) ∧
      ((∀ n ∈ naiveMergeWithImagesTkNums byLength sideBySide twoTexts [none, none],
          (n : ℤ) ≤ byLength.chunkTokenNum) ↔
        ([none, none] : List (Option (List ℕ))).length = twoTexts.sections.length →
          SizesFit byLength twoTexts.sections) :=
  tkNums_le_iff byLength sideBySide twoTexts [none, none] (by decide) (by decide) (by decide)

/-- Two texts of two tokens each, a line break and a letter, make one chunk of four tokens where
two are allowed. -/
theorem not_tkNums_le :
    ¬ ∀ (o : MergeOptions) (texts : Texts),
      (∀ n ∈ sizes o texts.sections, (n : ℤ) ≤ o.chunkTokenNum) →
      0 ≤ o.overlappedPercent → o.overlappedPercent < 100 →
      ∀ n ∈ naiveMergeTkNums o texts, (n : ℤ) ≤ o.chunkTokenNum := by
  intro h
  have hle := h { byLength with chunkTokenNum := 2 } (.plain [['a'], ['b']]) (by decide)
    (by decide) (by decide)
  revert hle
  decide +kernel

end RagFlow.Chunking
