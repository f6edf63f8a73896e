/-
# Merging short tokens in two languages

Both copies of the merge walk along the tokens and join runs of short ones. A run of five or more
is cut into pairs by the one and by the other in its own way; a shorter run is joined whole by
both. Nothing is lost in either: a stop word ends a run and stays a token of its own.
-/

import RagFlow.Query.TermWeight
import RagFlow.Math.Join

namespace RagFlow.Query

open RagFlow.Math

/-! ## The code -/

/-- `[0-9a-z]{1,2}`, all of the text. -/
def isShortWord (t : Text) : Bool :=
  t ≠ [] && t.length ≤ 2 && t.all fun c => c.isDigit || c.isLower

/-- `[0-9a-zA-Z]` at the start. -/
def startsAlnum (t : Text) : Bool := t.head?.any Char.isAlphanum

/-- The first token is joined with the second one, a longer one in another script. -/
def joinsFirst (oneTerm : Text → Bool) (first second : Text) : Bool :=
  oneTerm first && 1 < second.length && !startsAlnum second

/-- A token of a run. -/
def inRun (oneTerm : Text → Bool) (stop : List Text) (t : Text) : Bool :=
  t ≠ [] && t ∉ stop && oneTerm t

def joinSpace (tks : List Text) : Text := [' '].intercalate tks

namespace Python

/-- `$` also matches before a line break at the end. -/
def oneTerm (t : Text) : Bool :=
  t.length = 1 || isShortWord t || (t.getLast? = some '\n' && isShortWord t.dropLast)

/-- The loop of `token_merge`, with enough `fuel` for every token. -/
def mergeFrom (stop : List Text) : ℕ → List Text → List Text
  | 0, _ | _, [] => []
  | fuel + 1, t :: tks =>
    let run := (t :: tks).takeWhile (inRun oneTerm stop)
    if 1 < run.length then
      if run.length < 5 then
        joinSpace run :: mergeFrom stop fuel ((t :: tks).drop run.length)
      else joinSpace ((t :: tks).take 2) :: mergeFrom stop fuel ((t :: tks).drop 2)
    else (if 0 < t.length then [t] else []) ++ mergeFrom stop fuel tks

/-- `token_merge`. -/
def tokenMerge (stop tks : List Text) : List Text :=
  let res := match tks with
    | first :: second :: rest =>
      if joinsFirst oneTerm first second then
        joinSpace [first, second] :: mergeFrom stop rest.length rest
      else mergeFrom stop tks.length tks
    | _ => mergeFrom stop tks.length tks
  res.filter (· ≠ [])

end Python

namespace Go

def oneTerm (t : Text) : Bool := t.length = 1 || isShortWord t

/-- A run is cut into pairs. -/
def pairs : List Text → List Text
  | first :: second :: rest => (first ++ [' '] ++ second) :: pairs rest
  | run => run

/-- The loop of `TokenMerge`, with enough `fuel` for every token. -/
def mergeFrom (stop : List Text) : ℕ → List Text → List Text
  | 0, _ | _, [] => []
  | fuel + 1, t :: tks =>
    let run := (t :: tks).takeWhile (inRun oneTerm stop)
    if 1 < run.length then
      (if run.length < 5 then [joinSpace run] else pairs run) ++
        mergeFrom stop fuel ((t :: tks).drop run.length)
    else (if 0 < t.length then [t] else []) ++ mergeFrom stop fuel tks

/-- `TokenMerge`. -/
def tokenMerge (stop tks : List Text) : List Text :=
  let res := match tks with
    | first :: second :: rest =>
      if joinsFirst oneTerm first second then
        (first ++ [' '] ++ second) :: mergeFrom stop rest.length rest
      else mergeFrom stop tks.length tks
    | _ => mergeFrom stop tks.length tks
  res.filter (· ≠ [])

end Go

/-! ## What the tokens say -/

/-- The concatenation without the spaces. -/
def letters (tks : List Text) : Text := tks.flatten.filter (· ≠ ' ')

section Letters

variable {stop tks rest : List Text} {t : Text}

theorem letters_append (tks rest : List Text) :
    letters (tks ++ rest) = letters tks ++ letters rest := by
  rw [letters, List.flatten_append, List.filter_append]
  rfl

theorem letters_cons (t : Text) (tks : List Text) :
    letters (t :: tks) = letters [t] ++ letters tks :=
  letters_append [t] tks

theorem letters_joinSpace (tks : List Text) : letters [joinSpace tks] = letters tks := by
  rw [letters, letters, List.flatten_singleton, joinSpace, filter_intercalate (by simp)]

theorem letters_filter (tks : List Text) : letters (tks.filter (· ≠ [])) = letters tks := by
  rw [letters, letters, List.flatten_filter_ne_nil]

theorem letters_if (t : Text) : letters (if 0 < t.length then [t] else []) = letters [t] := by
  cases t with
  | nil => rfl
  | cons c t => rfl

theorem letters_pairs (run : List Text) : letters (Go.pairs run) = letters run := by
  induction run using Go.pairs.induct with
  | case1 first second rest ih =>
      rw [Go.pairs, letters_cons, ih, letters_cons first, letters_cons second, ← List.append_assoc]
      congr 1
      simp [letters]
  | case2 run hrun => rw [Go.pairs]; exact hrun

theorem letters_take_drop (n : ℕ) (tks : List Text) :
    letters (tks.take n) ++ letters (tks.drop n) = letters tks := by
  rw [← letters_append, List.take_append_drop]

theorem takeWhile_eq_take (p : Text → Bool) (tks : List Text) :
    tks.takeWhile p = tks.take (tks.takeWhile p).length :=
  List.prefix_iff_eq_take.mp (List.takeWhile_prefix p)

/-- One turn of a merge writes what it reads. -/
structure WritesAll (merge : ℕ → List Text → List Text) : Prop where
  nil : ∀ fuel, merge fuel [] = []
  cons : ∀ fuel t tks, ∃ n out, 1 ≤ n ∧
    merge (fuel + 1) (t :: tks) = out ++ merge fuel ((t :: tks).drop n) ∧
    letters out = letters ((t :: tks).take n)

/-- So does the whole merge. -/
theorem WritesAll.letters_eq {merge : ℕ → List Text → List Text} (h : WritesAll merge) {fuel : ℕ}
    (hfuel : tks.length ≤ fuel) : letters (merge fuel tks) = letters tks := by
  induction fuel generalizing tks with
  | zero =>
      obtain rfl := List.eq_nil_of_length_eq_zero (Nat.le_zero.mp hfuel)
      rw [h.nil]
  | succ fuel ih =>
      cases tks with
      | nil => rw [h.nil]
      | cons t tks =>
          obtain ⟨n, out, hn, hmerge, hout⟩ := h.cons fuel t tks
          have hdrop : ((t :: tks).drop n).length ≤ fuel := by
            rw [List.length_drop]
            omega
          rw [hmerge, letters_append, ih hdrop, hout, letters_take_drop]

variable (stop) in
theorem Python.writesAll : WritesAll (Python.mergeFrom stop) where
  nil fuel := by cases fuel <;> rfl
  cons fuel t tks := by
    let run := (t :: tks).takeWhile (inRun Python.oneTerm stop)
    have hrun : run = (t :: tks).take run.length := takeWhile_eq_take _ _
    by_cases hlong : 1 < run.length
    · by_cases hshort : run.length < 5
      · refine ⟨run.length, [joinSpace run], hlong.le, ?_, ?_⟩
        · rw [Python.mergeFrom]
          exact (if_pos hlong).trans (if_pos hshort)
        · rw [letters_joinSpace, ← hrun]
      · refine ⟨2, [joinSpace ((t :: tks).take 2)], by decide, ?_, letters_joinSpace _⟩
        rw [Python.mergeFrom]
        exact (if_pos hlong).trans (if_neg hshort)
    · refine ⟨1, if 0 < t.length then [t] else [], le_rfl, ?_, letters_if t⟩
      rw [Python.mergeFrom]
      exact if_neg hlong

variable (stop) in
theorem Go.writesAll : WritesAll (Go.mergeFrom stop) where
  nil fuel := by cases fuel <;> rfl
  cons fuel t tks := by
    let run := (t :: tks).takeWhile (inRun Go.oneTerm stop)
    have hrun : run = (t :: tks).take run.length := takeWhile_eq_take _ _
    by_cases hlong : 1 < run.length
    · refine ⟨run.length, if run.length < 5 then [joinSpace run] else pairs run, hlong.le, ?_, ?_⟩
      · rw [Go.mergeFrom]
        exact if_pos hlong
      · rw [← hrun]
        split_ifs
        · exact letters_joinSpace run
        · exact letters_pairs run
    · refine ⟨1, if 0 < t.length then [t] else [], le_rfl, ?_, letters_if t⟩
      rw [Go.mergeFrom]
      exact if_neg hlong

theorem letters_pair (first second : Text) (rest : List Text) :
    letters ((first ++ [' '] ++ second) :: rest) = letters (first :: second :: rest) := by
  rw [letters_cons, letters_cons first, letters_cons second, ← List.append_assoc]
  congr 1
  simp [letters]

theorem Python.letters_tokenMerge (stop tks : List Text) :
    letters (Python.tokenMerge stop tks) = letters tks := by
  have hmerge : ∀ l : List Text, letters (Python.mergeFrom stop l.length l) = letters l :=
    fun l => (Python.writesAll stop).letters_eq le_rfl
  unfold Python.tokenMerge
  rw [letters_filter]
  rcases tks with - | ⟨first, - | ⟨second, rest⟩⟩
  · exact hmerge _
  · exact hmerge _
  · dsimp only
    split_ifs
    · rw [letters_cons, letters_joinSpace, hmerge, ← letters_append]
      rfl
    · exact hmerge _

theorem Go.letters_tokenMerge (stop tks : List Text) :
    letters (Go.tokenMerge stop tks) = letters tks := by
  have hmerge : ∀ l : List Text, letters (Go.mergeFrom stop l.length l) = letters l :=
    fun l => (Go.writesAll stop).letters_eq le_rfl
  unfold Go.tokenMerge
  rw [letters_filter]
  rcases tks with - | ⟨first, - | ⟨second, rest⟩⟩
  · exact hmerge _
  · exact hmerge _
  · dsimp only
    split_ifs
    · rw [letters_pair]
      change letters ([first, second] ++ mergeFrom stop rest.length rest) =
        letters ([first, second] ++ rest)
      rw [letters_append, hmerge, letters_append]
    · exact hmerge _

theorem takeWhile_congr {p q : Text → Bool} (h : ∀ t ∈ tks, p t = q t) :
    tks.takeWhile p = tks.takeWhile q := by
  induction tks with
  | nil => rfl
  | cons t tks ih =>
      rw [List.forall_mem_cons] at h
      rw [List.takeWhile_cons, List.takeWhile_cons, h.1, ih h.2]

end Letters

/-! ## Agreement -/

/-- No five tokens in a row belong to one run. -/
def RunsShort (stop tks : List Text) : Prop :=
  ∀ run, run <:+: tks → (∀ t ∈ run, inRun Go.oneTerm stop t = true) → run.length < 5

/-- Without a line break at its end, a token is one term in both languages. -/
theorem oneTerm_eq {t : Text} (h : t.getLast? ≠ some '\n') : Python.oneTerm t = Go.oneTerm t := by
  simp [Python.oneTerm, Go.oneTerm, h]

section Agree

variable {stop tks : List Text}

theorem mergeFrom_eq (hbreak : ∀ t ∈ tks, t.getLast? ≠ some '\n') (hruns : RunsShort stop tks)
    (fuel : ℕ) : Go.mergeFrom stop fuel tks = Python.mergeFrom stop fuel tks := by
  induction fuel generalizing tks with
  | zero => cases tks <;> rfl
  | succ fuel ih =>
      cases tks with
      | nil => rfl
      | cons t tks =>
          have hsame : (t :: tks).takeWhile (inRun Python.oneTerm stop) =
              (t :: tks).takeWhile (inRun Go.oneTerm stop) :=
            takeWhile_congr fun u hu => by rw [inRun, inRun, oneTerm_eq (hbreak u hu)]
          have hdrop : ∀ n, Go.mergeFrom stop fuel ((t :: tks).drop n) =
              Python.mergeFrom stop fuel ((t :: tks).drop n) := fun n =>
            ih (fun u hu => hbreak u (List.mem_of_mem_drop hu)) fun run hrun =>
              hruns run (hrun.trans (List.drop_suffix n _).isInfix)
          have hshort : ((t :: tks).takeWhile (inRun Go.oneTerm stop)).length < 5 :=
            hruns _ (List.takeWhile_prefix _).isInfix fun u hu => List.mem_takeWhile_imp hu
          rw [Go.mergeFrom, Python.mergeFrom, hsame]
          simp only [if_pos hshort, hdrop, List.singleton_append]
          have htail := hdrop 1
          rw [List.drop_one, List.tail_cons] at htail
          rw [htail]

theorem tokenMerge_eq (hbreak : ∀ t ∈ tks, t.getLast? ≠ some '\n') (hruns : RunsShort stop tks) :
    Go.tokenMerge stop tks = Python.tokenMerge stop tks := by
  unfold Go.tokenMerge Python.tokenMerge
  rcases tks with - | ⟨first, - | ⟨second, rest⟩⟩
  · rfl
  · exact congrArg (List.filter _) (mergeFrom_eq hbreak hruns 1)
  · have hfirst := oneTerm_eq (hbreak first List.mem_cons_self)
    have hrest : Go.mergeFrom stop rest.length rest = Python.mergeFrom stop rest.length rest :=
      mergeFrom_eq (fun t ht => hbreak t (by simp [ht])) (fun run hrun =>
        hruns run (hrun.trans ⟨[first, second], [], by simp⟩)) _
    have hpair : joinSpace [first, second] = first ++ [' '] ++ second := by simp [joinSpace]
    simp only [joinsFirst, hfirst, hrest, hpair, mergeFrom_eq hbreak hruns]

end Agree

/-- Both merges keep every token, and they are one merge as long as runs are short. -/
theorem tokenMerge_agrees (stop tks : List Text) :
    letters (Go.tokenMerge stop tks) = letters tks ∧
      letters (Python.tokenMerge stop tks) = letters tks ∧
      ((∀ t ∈ tks, t.getLast? ≠ some '\n') → RunsShort stop tks →
        Go.tokenMerge stop tks = Python.tokenMerge stop tks) :=
  ⟨Go.letters_tokenMerge stop tks, Python.letters_tokenMerge stop tks, tokenMerge_eq⟩

theorem tokenMerge_agrees_pair :
    Go.tokenMerge ["的".toList] ["a".toList, "b".toList] =
      Python.tokenMerge ["的".toList] ["a".toList, "b".toList] :=
  (tokenMerge_agrees ["的".toList] ["a".toList, "b".toList]).2.2 (by decide) fun _ hrun _ =>
    hrun.length_le.trans_lt (by decide)

/-- The merges agree and keep just the tokens that are no stop words. -/
structure MergesWithoutStops (stop tks : List Text) : Prop where
  agree : Go.tokenMerge stop tks = Python.tokenMerge stop tks
  go : letters (Go.tokenMerge stop tks) = (tks.filter (· ∉ stop)).flatten
  python : letters (Python.tokenMerge stop tks) = (tks.filter (· ∉ stop)).flatten

/-- A stop word ends a run and stays. -/
theorem not_mergesWithoutStops :
    ¬ MergesWithoutStops ["的".toList] ["我".toList, "的".toList] := by
  intro h
  have hkept := h.python
  rw [Python.letters_tokenMerge] at hkept
  exact absurd hkept (by decide)

/-! ## The merge of the query -/

theorem isOneTerm_eq (t : Text) : TermWeight.isOneTerm t = Go.oneTerm t := by
  rw [Bool.eq_iff_iff]
  simp only [TermWeight.isOneTerm, Go.oneTerm, isShortWord, decide_eq_true_eq, Bool.or_eq_true,
    Bool.and_eq_true, and_assoc, and_left_comm]

theorem joinSpace_ne_nil {tks : List Text} (h : 2 ≤ tks.length) : joinSpace tks ≠ [] := by
  rcases tks with - | ⟨a, - | ⟨b, tks⟩⟩
  · exact absurd h (by decide)
  · exact absurd h (by simp)
  · rw [joinSpace, List.intercalate_cons_cons]
    simp

theorem mergeFrom_ne_nil {stop : List Text} {fuel : ℕ} {tks : List Text} :
    ∀ t ∈ Python.mergeFrom stop fuel tks, t ≠ [] := by
  induction fuel generalizing tks with
  | zero => cases tks <;> exact fun t ht => absurd ht List.not_mem_nil
  | succ fuel ih =>
      cases tks with
      | nil => exact fun t ht => absurd ht List.not_mem_nil
      | cons t tks =>
          rw [Python.mergeFrom]
          split_ifs with hlong hshort hne
          · exact List.forall_mem_cons.mpr ⟨joinSpace_ne_nil hlong, ih⟩
          · refine List.forall_mem_cons.mpr ⟨joinSpace_ne_nil ?_, ih⟩
            have hle :=
              (List.takeWhile_prefix (l := t :: tks) (inRun Python.oneTerm stop)).length_le
            rw [List.length_take]
            omega
          · exact List.forall_mem_cons.mpr ⟨List.ne_nil_of_length_pos hne, ih⟩
          · exact ih

theorem termWeight_mergeFrom {tks : List Text} (hbreak : ∀ t ∈ tks, t.getLast? ≠ some '\n')
    (fuel : ℕ) : TermWeight.mergeFrom fuel tks = Python.mergeFrom stopWords fuel tks := by
  induction fuel generalizing tks with
  | zero => cases tks <;> rfl
  | succ fuel ih =>
      cases tks with
      | nil => rfl
      | cons t tks =>
          have hsame : (t :: tks).takeWhile (fun t => !t.isEmpty && t ∉ stopWords &&
              TermWeight.isOneTerm t) = (t :: tks).takeWhile (inRun Python.oneTerm stopWords) :=
            takeWhile_congr fun u hu => by
              rw [inRun, isOneTerm_eq, oneTerm_eq (hbreak u hu)]
              cases u <;> rfl
          have hdrop : ∀ n, TermWeight.mergeFrom fuel ((t :: tks).drop n) =
              Python.mergeFrom stopWords fuel ((t :: tks).drop n) := fun n =>
            ih fun u hu => hbreak u (List.mem_of_mem_drop hu)
          have htail := hdrop 1
          rw [List.drop_one, List.tail_cons] at htail
          rw [TermWeight.mergeFrom, Python.mergeFrom, hsame]
          simp only [hdrop, htail]
          split_ifs with hlong hshort hnil hpos hpos
          · rw [← takeWhile_eq_take]
            rfl
          · rfl
          · simp [hnil] at hpos
          · rfl
          · rfl
          · exact absurd (List.length_pos_of_ne_nil hnil) hpos

/-- The terms of a query are merged in the way of Python. -/
theorem termWeight_tokenMerge {tks : List Text} (hbreak : ∀ t ∈ tks, t.getLast? ≠ some '\n') :
    TermWeight.tokenMerge tks = Python.tokenMerge stopWords tks := by
  have hmerge : ∀ l : List Text, (∀ t ∈ l, t ∈ tks) → TermWeight.mergeFrom l.length l =
      (Python.mergeFrom stopWords l.length l).filter (· ≠ []) := by
    intro l hl
    rw [termWeight_mergeFrom (fun t ht => hbreak t (hl t ht)), List.filter_eq_self.mpr]
    exact fun t ht => decide_eq_true (mergeFrom_ne_nil t ht)
  unfold TermWeight.tokenMerge Python.tokenMerge
  rcases tks with - | ⟨first, - | ⟨second, rest⟩⟩
  · rfl
  · exact hmerge [first] fun _ ht => ht
  · have hfirst : TermWeight.isOneTerm first = Python.oneTerm first := by
      rw [isOneTerm_eq, oneTerm_eq (hbreak first List.mem_cons_self)]
    have hjoins : (TermWeight.isOneTerm first = true ∧ 1 < second.length ∧
        (!second.head?.any Char.isAlphanum) = true) ↔
        joinsFirst Python.oneTerm first second = true := by
      simp [joinsFirst, hfirst, startsAlnum, and_assoc]
    simp only [hjoins]
    split_ifs
    · rw [List.filter_cons_of_pos (by simpa using joinSpace_ne_nil le_rfl),
        ← hmerge rest fun t ht => by simp [ht]]
      rfl
    · exact hmerge _ fun _ ht => ht

end RagFlow.Query
