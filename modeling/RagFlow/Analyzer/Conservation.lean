/-
# What the segmentation keeps

Both greedy segmentations cut the whole text, and the walk over them keeps what it has passed. A
search keeps its text unless each way that it tries takes exactly eleven tokens: at that depth it
records a segmentation only if there is text left.
-/

import RagFlow.Analyzer.Segment
import RagFlow.Math.Join
import Mathlib.Logic.Relation

namespace RagFlow.Analyzer

open RagFlow.Math

/-- Tokens that make up a text. -/
structure IsSegmentation (text : Text) (tokens : List Text) : Prop where
  flatten : tokens.flatten = text
  ne_nil : ∀ t ∈ tokens, t ≠ []

variable {tables : Tables}

/-! ## Substrings -/

theorem substr_ne_nil {line : Text} {s e : ℕ} (hs : s < e) (he : e ≤ line.length) :
    UTF8Substr line s (e - s) ≠ [] := by
  intro hnil
  have hlength := congrArg List.length hnil
  rw [UTF8Substr, List.length_take, List.length_drop, List.length_nil] at hlength
  omega

theorem substr_append_drop {line : Text} {s e : ℕ} (hs : s ≤ e) :
    UTF8Substr line s (e - s) ++ line.drop e = line.drop s := by
  have hdrop : line.drop e = (line.drop s).drop (e - s) := by
    rw [List.drop_drop, Nat.add_sub_cancel' hs]
  rw [hdrop]
  exact List.take_append_drop _ _

theorem take_append_substr {line : Text} {s e : ℕ} (hs : s ≤ e) :
    line.take s ++ UTF8Substr line s (e - s) = line.take e := by
  have htake : line.take e = line.take (s + (e - s)) := by rw [Nat.add_sub_cancel' hs]
  rw [htake, List.take_add]
  rfl

/-! ## The greedy segmentations -/

section Greedy

variable (tables) (line : Text)

theorem greedyToken_fst (t : Text) : (greedyToken tables t).1 = t := by
  rw [greedyToken]
  split_ifs <;> rfl

/-- From `s` on, the forward segmentation makes up the rest of the line. -/
theorem forwardFrom_isSegmentation (s : ℕ) :
    IsSegmentation (line.drop s) ((forwardFrom tables line s).map Prod.fst) := by
  induction s using forwardFrom.induct tables line with
  | case1 s h hlt hle e ih =>
      have hlast : shrinkRight tables line s (extendRight tables line s (s + 1)) ≤ line.length :=
        hle
      rw [forwardFrom, dif_pos h, List.map_cons, greedyToken_fst]
      refine ⟨?_, ?_⟩
      · rw [List.flatten_cons, ih.flatten]
        exact substr_append_drop hlt.le
      · intro t ht
        rcases List.mem_cons.mp ht with rfl | ht
        · exact substr_ne_nil hlt hlast
        · exact ih.ne_nil t ht
  | case2 s h =>
      rw [forwardFrom, dif_neg h, List.map_nil, List.drop_eq_nil_of_le (Nat.le_of_not_lt h)]
      exact ⟨rfl, fun t ht => absurd ht List.not_mem_nil⟩

theorem maxForward_isSegmentation : IsSegmentation line (maxForward tables line) :=
  forwardFrom_isSegmentation tables line 0

/-- Up to `e`, the backward segmentation makes up the start of the line. -/
theorem backwardFrom_isSegmentation (e : ℕ) (he : e ≤ line.length) :
    IsSegmentation (line.take e) ((backwardFrom tables line e).reverse.map Prod.fst) := by
  induction e using backwardFrom.induct tables line with
  | case1 e h hlt s ih =>
      have hs : s ≤ line.length := hlt.le.trans he
      rw [backwardFrom, dif_pos h, List.reverse_cons, List.map_append, List.map_singleton,
        greedyToken_fst]
      refine ⟨?_, ?_⟩
      · rw [List.flatten_append, (ih hs).flatten, List.flatten_singleton]
        exact take_append_substr hlt.le
      · intro t ht
        rcases List.mem_append.mp ht with ht | ht
        · exact (ih hs).ne_nil t ht
        · rw [List.mem_singleton.mp ht]
          exact substr_ne_nil hlt he
  | case2 e h =>
      rw [backwardFrom, dif_neg h, Nat.eq_zero_of_not_pos h]
      exact ⟨rfl, fun t ht => absurd ht List.not_mem_nil⟩

theorem maxBackward_isSegmentation : IsSegmentation line (maxBackward tables line) := by
  have h := backwardFrom_isSegmentation tables line line.length le_rfl
  rwa [List.take_length] at h

end Greedy

/-! ## The search -/

section Search

variable (tables) (chars : Text)

/-- The tokens that a call of the search goes on with. -/
def continuations (s : ℕ) (preTokens : List (Text × Value)) : List (ℕ × Text × Value) :=
  if tried tables chars s preTokens = [] then [(s + 1, singleToken tables chars s)]
  else tried tables chars s preTokens

/-- From a call of the search, its position and its tokens, to a call that it makes. -/
def Step (a b : ℕ × List (Text × Value)) : Prop :=
  a.1 < chars.length ∧ a.2.length ≤ MAX_DFS_DEPTH ∧
    ∃ c ∈ continuations tables chars a.1 a.2, b = (c.1, a.2 ++ [c.2])

/-- A call records a segmentation at the end of the text, but at the last depth before it. -/
def Records (a : ℕ × List (Text × Value)) : Prop :=
  if a.2.length ≤ MAX_DFS_DEPTH then a.1 = chars.length else a.1 < chars.length

/-- Not all ways that the search tries end with the text at exactly eleven tokens. -/
def Covers : Prop := ∃ a, Relation.ReflTransGen (Step tables chars) (0, []) a ∧ Records chars a

theorem lt_firstEnd (s : ℕ) (preTokens : List (Text × Value)) :
    s < firstEnd tables chars s preTokens := by
  unfold firstEnd
  dsimp only
  split <;> split_ifs <;> omega

variable {tables chars}

theorem mem_tried {s : ℕ} {preTokens : List (Text × Value)} {c : ℕ × Text × Value}
    (h : c ∈ tried tables chars s preTokens) :
    s < c.1 ∧ c.1 ≤ chars.length ∧ c.2.1 = UTF8Substr chars s (c.1 - s) := by
  obtain ⟨e, he, hc⟩ := List.mem_filterMap.mp h
  have hrange := List.mem_range'_1.mp ((List.takeWhile_sublist _).subset he)
  have hfirst := lt_firstEnd tables chars s preTokens
  dsimp only at hc
  split_ifs at hc
  obtain rfl := Option.some.inj hc
  refine ⟨by omega, ?_, rfl⟩
  have := hrange.2
  unfold UTF8Length at this
  omega

theorem mem_continuations {s : ℕ} (hs : s < chars.length) {preTokens : List (Text × Value)}
    {c : ℕ × Text × Value} (h : c ∈ continuations tables chars s preTokens) :
    s < c.1 ∧ c.1 ≤ chars.length ∧ c.2.1 = UTF8Substr chars s (c.1 - s) := by
  rw [continuations] at h
  split_ifs at h
  · obtain rfl := List.mem_singleton.mp h
    refine ⟨Nat.lt_succ_self s, hs, ?_⟩
    rw [Nat.add_sub_cancel_left, singleToken]
    dsimp only
    split_ifs <;> rfl
  · exact mem_tried h

variable (tables chars) (memoAll : Bool)

/-- A call goes through its continuations one after another. -/
def visit (levels : ℕ) (preTokens : List (Text × Value)) (reached : ℕ × Found)
    (c : ℕ × Text × Value) : ℕ × Found :=
  let child := dfs tables chars memoAll levels c.1 (preTokens ++ [c.2]) reached.2
  (max reached.1 child.1, child.2)

theorem le_foldl_visit (levels : ℕ) (preTokens : List (Text × Value))
    (cs : List (ℕ × Text × Value)) (reached : ℕ × Found) :
    reached.1 ≤ (cs.foldl (visit tables chars memoAll levels preTokens) reached).1 := by
  induction cs generalizing reached with
  | nil => exact le_rfl
  | cons c cs ih =>
      rw [List.foldl_cons]
      exact le_trans (le_max_left _ _) (ih (visit tables chars memoAll levels preTokens reached c))

theorem dfs_succ_eq (levels s : ℕ) (preTokens : List (Text × Value)) (found : Found) :
    dfs tables chars memoAll (levels + 1) s preTokens found =
      if chars.length ≤ s then (s, record tables memoAll preTokens found)
      else
        let deepest := (tried tables chars s preTokens).foldl
          (visit tables chars memoAll levels preTokens) (s, found)
        if s < deepest.1 then deepest
        else dfs tables chars memoAll levels (s + 1) (preTokens ++ [singleToken tables chars s])
          deepest.2 := rfl

theorem dfs_zero_eq (s : ℕ) (preTokens : List (Text × Value)) (found : Found) :
    dfs tables chars memoAll 0 s preTokens found =
      (chars.length, if s < chars.length then record tables memoAll
          (preTokens ++ [(UTF8Substr chars s (chars.length - s), encode (-12) 0)]) found
        else found) := rfl

theorem le_dfs (levels : ℕ) {s : ℕ} (hs : s ≤ chars.length) (preTokens : List (Text × Value))
    (found : Found) : s ≤ (dfs tables chars memoAll levels s preTokens found).1 := by
  induction levels generalizing s preTokens found with
  | zero => exact hs
  | succ levels ih =>
      rw [dfs_succ_eq]
      dsimp only
      split_ifs with hend hdeep
      · exact le_rfl
      · exact hdeep.le
      · have hlt : s < chars.length := Nat.lt_of_not_le hend
        exact (Nat.le_succ s).trans (ih hlt _ _)

variable {tables chars memoAll}

/-- Before the end of the text, a call is the fold over its continuations. -/
theorem dfs_succ {levels s : ℕ} (hs : s < chars.length) {preTokens : List (Text × Value)}
    {found : Found} :
    dfs tables chars memoAll (levels + 1) s preTokens found =
      (continuations tables chars s preTokens).foldl
        (visit tables chars memoAll levels preTokens) (s, found) := by
  rw [dfs_succ_eq, if_neg (Nat.not_le.mpr hs), continuations]
  dsimp only
  cases htried : tried tables chars s preTokens with
  | nil =>
      have hle := le_dfs tables chars memoAll levels hs
        (preTokens ++ [singleToken tables chars s]) found
      rw [if_pos rfl, List.foldl_nil, if_neg (lt_irrefl s), List.foldl_cons, List.foldl_nil, visit]
      dsimp only
      rw [max_eq_right ((Nat.le_succ s).trans hle)]
  | cons c cs =>
      have hc := mem_tried (htried ▸ List.mem_cons_self)
      have hle := le_dfs tables chars memoAll levels hc.2.1 (preTokens ++ [c.2]) found
      have hfold := le_foldl_visit tables chars memoAll levels preTokens cs
        (visit tables chars memoAll levels preTokens (s, found) c)
      rw [if_neg (List.cons_ne_nil _ _), List.foldl_cons, if_pos]
      exact hc.1.trans_le (hle.trans ((le_max_right _ _).trans hfold))

/-! ### What a search finds -/

/-- Either nothing is found, or a segmentation of the text. -/
def Sound (chars : Text) (found : Found) : Prop :=
  if found.maxScore.isSome then found.bestTokens ≠ [] ∧ IsSegmentation chars found.bestTokens
  else found.bestTokens = []

omit tables in
/-- The next token after those of the text up to `s`. -/
theorem IsSegmentation.snoc {s e : ℕ} {preTokens : List (Text × Value)} {token : Text × Value}
    (hseg : IsSegmentation (chars.take s) (preTokens.map Prod.fst)) (hs : s < e)
    (he : e ≤ chars.length) (htoken : token.1 = UTF8Substr chars s (e - s)) :
    IsSegmentation (chars.take e) ((preTokens ++ [token]).map Prod.fst) := by
  refine ⟨?_, fun t ht => ?_⟩
  · rw [List.map_append, List.flatten_append, hseg.flatten, List.map_singleton,
      List.flatten_singleton, htoken, take_append_substr hs.le]
  · rw [List.map_append, List.mem_append, List.map_singleton, List.mem_singleton] at ht
    rcases ht with ht | rfl
    · exact hseg.ne_nil t ht
    · rw [htoken]
      exact substr_ne_nil hs he

/-- A segmentation that is recorded leaves one found. -/
theorem record_spec {preTokens : List (Text × Value)} {found : Found}
    (hne : preTokens ≠ []) (hseg : IsSegmentation chars (preTokens.map Prod.fst))
    (hsound : Sound chars found) :
    Sound chars (record tables false preTokens found) ∧
      (record tables false preTokens found).maxScore.isSome := by
  obtain ⟨currentScore, hscore⟩ : ∃ currentScore, score tables preTokens = some currentScore := by
    rw [score, if_neg hne]
    exact ⟨_, rfl⟩
  simp only [record, hscore, Bool.false_eq_true, if_false]
  split_ifs with hbest
  · simp [Sound, hne, hseg]
  · refine ⟨hsound, ?_⟩
    by_contra hnone
    rw [Bool.not_eq_true, Option.isSome_eq_false_iff, Option.isNone_iff_eq_none] at hnone
    exact hbest fun best hmem => by rw [hnone] at hmem; cases hmem

/-- What one call does to what is found: `P` says if it finds anything. -/
def Finds (chars : Text) (before after : Found) (P : Prop) : Prop :=
  Sound chars before → Sound chars after ∧ (after.maxScore.isSome ↔ before.maxScore.isSome ∨ P)

theorem finds_foldl {levels : ℕ} {preTokens : List (Text × Value)}
    {P : ℕ × Text × Value → Prop} (cs : List (ℕ × Text × Value))
    (h : ∀ c ∈ cs, ∀ found, Finds chars found
      (dfs tables chars false levels c.1 (preTokens ++ [c.2]) found).2 (P c))
    (reached : ℕ × Found) :
    Finds chars reached.2 (cs.foldl (visit tables chars false levels preTokens) reached).2
      (∃ c ∈ cs, P c) := by
  intro hsound
  induction cs generalizing reached with
  | nil => exact ⟨hsound, by simp⟩
  | cons c cs ih =>
      obtain ⟨hchild, hiff⟩ := h c List.mem_cons_self reached.2 hsound
      obtain ⟨hrest, hiff'⟩ := ih (fun c' hc' => h c' (List.mem_cons_of_mem _ hc'))
        (visit tables chars false levels preTokens reached c) hchild
      refine ⟨hrest, hiff'.trans ?_⟩
      simp only [List.mem_cons, exists_eq_or_imp]
      rw [← or_assoc]
      exact or_congr_left hiff

/-! ### Which calls lead to a segmentation -/

variable (tables chars) in
/-- A call leads to one that records a segmentation. -/
def Leads (a : ℕ × List (Text × Value)) : Prop :=
  ∃ b, Relation.ReflTransGen (Step tables chars) a b ∧ Records chars b

theorem leads_iff {a : ℕ × List (Text × Value)} :
    Leads tables chars a ↔ Records chars a ∨ ∃ b, Step tables chars a b ∧ Leads tables chars b := by
  constructor
  · rintro ⟨c, hc, hrecords⟩
    rcases Relation.ReflTransGen.cases_head hc with rfl | ⟨b, hstep, hb⟩
    · exact Or.inl hrecords
    · exact Or.inr ⟨b, hstep, c, hb, hrecords⟩
  · rintro (hrecords | ⟨b, hstep, c, hc, hrecords⟩)
    · exact ⟨a, .refl, hrecords⟩
    · exact ⟨c, .head hstep hc, hrecords⟩

theorem leads_of_deep {s : ℕ} {preTokens : List (Text × Value)}
    (hdeep : MAX_DFS_DEPTH < preTokens.length) :
    Leads tables chars (s, preTokens) ↔ s < chars.length := by
  have hnostep : ∀ b, ¬ Step tables chars (s, preTokens) b := fun b hstep =>
    Nat.not_le.mpr hdeep hstep.2.1
  rw [leads_iff, Records, if_neg (Nat.not_le.mpr hdeep)]
  simp [hnostep]

theorem leads_of_lt {s : ℕ} (hs : s < chars.length) {preTokens : List (Text × Value)}
    (hshallow : preTokens.length ≤ MAX_DFS_DEPTH) :
    Leads tables chars (s, preTokens) ↔
      ∃ c ∈ continuations tables chars s preTokens,
        Leads tables chars (c.1, preTokens ++ [c.2]) := by
  rw [leads_iff, Records, if_pos hshallow, or_iff_right hs.ne]
  constructor
  · rintro ⟨b, ⟨-, -, c, hc, rfl⟩, hleads⟩
    exact ⟨c, hc, hleads⟩
  · rintro ⟨c, hc, hleads⟩
    exact ⟨_, ⟨hs, hshallow, c, hc, rfl⟩, hleads⟩

theorem leads_of_end {preTokens : List (Text × Value)}
    (hshallow : preTokens.length ≤ MAX_DFS_DEPTH) :
    Leads tables chars (chars.length, preTokens) := by
  rw [leads_iff, Records, if_pos hshallow]
  exact Or.inl rfl

/-- From a call on, what is found is a segmentation of the text, and something is found exactly
if a call that it leads to records. -/
theorem dfs_finds (hne : chars ≠ []) {levels s : ℕ} {preTokens : List (Text × Value)}
    (hs : s ≤ chars.length) (hlevels : preTokens.length + levels = MAX_DFS_DEPTH + 1)
    (hseg : IsSegmentation (chars.take s) (preTokens.map Prod.fst)) (found : Found) :
    Finds chars found (dfs tables chars false levels s preTokens found).2
      (Leads tables chars (s, preTokens)) := by
  induction levels generalizing s preTokens found with
  | zero =>
      intro hsound
      rw [leads_of_deep (by omega), dfs_zero_eq]
      dsimp only
      by_cases hlt : s < chars.length
      · have hrest : IsSegmentation (chars.take chars.length)
            ((preTokens ++ [(UTF8Substr chars s (chars.length - s), encode (-12) 0)]).map
              Prod.fst) := hseg.snoc hlt le_rfl rfl
        rw [List.take_length] at hrest
        rw [if_pos hlt]
        obtain ⟨hafter, hsome⟩ := record_spec (List.append_ne_nil_of_right_ne_nil _
          (List.cons_ne_nil _ _)) hrest hsound
        exact ⟨hafter, iff_of_true hsome (Or.inr hlt)⟩
      · rw [if_neg hlt]
        exact ⟨hsound, by simp [hlt]⟩
  | succ levels ih =>
      have hshallow : preTokens.length ≤ MAX_DFS_DEPTH := by omega
      rcases Nat.lt_or_eq_of_le hs with hlt | rfl
      · rw [dfs_succ hlt, leads_of_lt hlt hshallow]
        refine finds_foldl _ (fun c hc found => ?_) (s, found)
        obtain ⟨hlt', hle, hc'⟩ := mem_continuations hlt hc
        refine ih hle ?_ (hseg.snoc hlt' hle hc') found
        rw [List.length_append, List.length_singleton]
        omega
      · rw [List.take_length] at hseg
        have hpre : preTokens ≠ [] := by
          rintro rfl
          exact hne hseg.flatten.symm
        intro hsound
        rw [dfs_succ_eq, if_pos le_rfl]
        obtain ⟨hafter, hsome⟩ := record_spec hpre hseg hsound
        exact ⟨hafter, iff_of_true hsome (Or.inr (leads_of_end hshallow))⟩

/-- The search of a whole text: it finds a segmentation, or nothing at all. -/
theorem search_spec (tables : Tables) (hne : chars ≠ []) :
    let best := (dfs tables chars false (MAX_DFS_DEPTH + 1) 0 [] .start).2.bestTokens
    (best = [] ∨ IsSegmentation chars best) ∧ (best ≠ [] ↔ Covers tables chars) := by
  have hstart : Sound chars Found.start := by rw [Sound]; rfl
  have hseg : IsSegmentation (chars.take 0) (([] : List (Text × Value)).map Prod.fst) :=
    ⟨rfl, fun t ht => absurd ht List.not_mem_nil⟩
  obtain ⟨hafter, hiff⟩ := dfs_finds hne (Nat.zero_le _) (Nat.zero_add _) hseg Found.start hstart
  have hcovers : _ ↔ Covers tables chars := hiff.trans (or_iff_right Bool.false_ne_true)
  rw [Sound] at hafter
  dsimp only
  split_ifs at hafter with hsome
  · exact ⟨Or.inr hafter.2, iff_of_true hafter.1 (hcovers.mp hsome)⟩
  · exact ⟨Or.inl hafter, iff_of_false (not_not.mpr hafter) (mt hcovers.mpr hsome)⟩

/-- Nothing is searched for in an empty text, and nothing found. -/
theorem search_nil (tables : Tables) :
    (dfs tables [] false (MAX_DFS_DEPTH + 1) 0 [] .start).2.bestTokens = [] := rfl

/-- What is found has the characters of the text. -/
theorem search_subset (tables : Tables) (text : Text) {c : Char}
    (h : c ∈ (dfs tables text false (MAX_DFS_DEPTH + 1) 0 [] .start).2.bestTokens.flatten) :
    c ∈ text := by
  by_cases hnil : text = []
  · rw [hnil, search_nil] at h
    exact absurd h List.not_mem_nil
  · rcases (search_spec tables hnil).1 with hbest | hbest
    · rw [hbest] at h
      exact absurd h List.not_mem_nil
    · rwa [hbest.flatten] at h

end Search

/-! ## The walk -/

section Walk

/-- The text without its blanks. -/
def noBlanks (s : Text) : Text := s.filter (· ≠ ' ')

theorem noBlanks_append (s t : Text) : noBlanks (s ++ t) = noBlanks s ++ noBlanks t :=
  List.filter_append s t

/-- The blanks that a join inserts go with the others. -/
theorem noBlanks_intercalate (tokens : List Text) :
    noBlanks ([' '].intercalate tokens) = noBlanks tokens.flatten := by
  refine filter_intercalate (fun a ha => ?_) tokens
  rw [List.mem_singleton.mp ha]
  rfl

theorem join_eq {tokens : List Text} {start stop : ℕ} (h : stop ≤ tokens.length) (delim : Text) :
    join tokens start stop delim =
      some (delim.intercalate ((tokens.take stop).drop start)) := by
  rw [join, if_neg]
  rintro ⟨-, hlt⟩
  omega

theorem flatten_take_append {tokens : List Text} {start stop : ℕ} (h : start ≤ stop) :
    (tokens.take start).flatten ++ ((tokens.take stop).drop start).flatten =
      (tokens.take stop).flatten := by
  have htake : tokens.take start = (tokens.take stop).take start := by
    rw [List.take_take, Nat.min_eq_left h]
  rw [htake, ← List.flatten_append, List.take_append_drop]

/-- The tokens that are counted are within both segmentations and equal. -/
theorem countSame_spec {tks1 tks : List Text} {i j same : ℕ} (hi : i + same ≤ tks1.length)
    (hj : j + same ≤ tks.length)
    (heq : (tks1.take (i + same)).drop i = (tks.take (j + same)).drop j) :
    let n := countSame tks1 tks i j same
    same ≤ n ∧ i + n ≤ tks1.length ∧ j + n ≤ tks.length ∧
      (tks1.take (i + n)).drop i = (tks.take (j + n)).drop j := by
  induction same using countSame.induct tks1 tks i j with
  | case1 same h ih =>
      obtain ⟨hi', hj', htoken⟩ := h
      have hnext : (tks1.take (i + (same + 1))).drop i = (tks.take (j + (same + 1))).drop j := by
        rw [← Nat.add_assoc, ← Nat.add_assoc, List.take_add_one, List.take_add_one,
          List.drop_append_of_le_length, List.drop_append_of_le_length, heq, htoken]
        · rw [List.length_take]
          omega
        · rw [List.length_take]
          omega
      have hrest := ih hi' hj' hnext
      rw [countSame, if_pos ⟨hi', hj', htoken⟩]
      exact ⟨(Nat.le_succ same).trans hrest.1, hrest.2⟩
  | case2 same h =>
      rw [countSame, if_neg h]
      exact ⟨le_rfl, hi, hj, heq⟩

variable (tables) (tks1 tks : List Text)

/-- What the loop keeps: up to where its tokens begin, both segmentations have the same text, and
the result has that text too if every search kept its own. -/
structure Walked (i₀ j₀ : ℕ) (out : Inner) : Prop where
  left : i₀ ≤ tks1.length
  right : j₀ ≤ tks.length
  aligned : (tks1.take i₀).flatten = (tks.take j₀).flatten
  searches : ∀ x ∈ out.searches,
    x.2 = (dfs tables x.1 false (MAX_DFS_DEPTH + 1) 0 [] .start).2.bestTokens
  kept : (∀ x ∈ out.searches, x.2.flatten = x.1) →
    noBlanks out.res.flatten = noBlanks (tks.take j₀).flatten
  chars : ∀ token ∈ out.res, ∀ c ∈ token, c = ' ' ∨ c ∈ tks.flatten

variable {tables tks1 tks} {i j i₀ j₀ : ℕ} {out : Inner}

omit tables in
/-- A join of tokens has their characters and blanks. -/
theorem mem_intercalate {tokens : List Text} {c : Char} (h : c ∈ [' '].intercalate tokens) :
    c = ' ' ∨ c ∈ tokens.flatten := by
  by_cases hc : c = ' '
  · exact Or.inl hc
  · have hmem : c ∈ noBlanks ([' '].intercalate tokens) :=
      List.mem_filter.mpr ⟨h, by simpa using hc⟩
    rw [noBlanks_intercalate] at hmem
    exact Or.inr (List.mem_of_mem_filter hmem)

omit tables in
theorem mem_flatten_of_slice {start stop : ℕ} {c : Char}
    (h : c ∈ ((tks.take stop).drop start).flatten) : c ∈ tks.flatten := by
  obtain ⟨t, ht, hc⟩ := List.mem_flatten.mp h
  exact List.mem_flatten.mpr ⟨t, List.mem_of_mem_take (List.mem_of_mem_drop ht), hc⟩

theorem Walked.search (h : Walked tables tks1 tks i₀ j₀ out) (hi : i₀ ≤ i) (hj : j₀ ≤ j)
    (hleft : i ≤ tks1.length) (hright : j ≤ tks.length)
    (heq : ((tks1.take i).drop i₀).flatten = ((tks.take j).drop j₀).flatten) :
    Walked tables tks1 tks i j (out.search tables ((tks.take j).drop j₀).flatten) := by
  refine ⟨hleft, hright, ?_, ?_, ?_, ?_⟩
  · rw [← flatten_take_append hi, ← flatten_take_append hj, h.aligned, heq]
  · intro x hx
    rcases List.mem_append.mp hx with hx | hx
    · exact h.searches x hx
    · obtain rfl := List.mem_singleton.mp hx
      rfl
  · intro hkept
    have hbefore := h.kept fun x hx => hkept x (List.mem_append_left _ hx)
    have hsearch := hkept _ (List.mem_append_right _ (List.mem_singleton_self _))
    rw [Inner.search, ← flatten_take_append hj, List.flatten_append, noBlanks_append,
      noBlanks_append, hbefore, List.flatten_singleton, noBlanks_intercalate, hsearch]
  · intro token htoken c hc
    rcases List.mem_append.mp htoken with htoken | htoken
    · exact h.chars token htoken c hc
    · rw [List.mem_singleton.mp htoken] at hc
      exact (mem_intercalate hc).imp_right fun hbest =>
        mem_flatten_of_slice (search_subset tables _ hbest)

theorem Walked.push (h : Walked tables tks1 tks i₀ j₀ out) (hi : i₀ ≤ i) (hj : j₀ ≤ j)
    (hleft : i ≤ tks1.length) (hright : j ≤ tks.length)
    (heq : (tks1.take i).drop i₀ = (tks.take j).drop j₀) :
    Walked tables tks1 tks i j (out.push ([' '].intercalate ((tks.take j).drop j₀))) := by
  refine ⟨hleft, hright, ?_, h.searches, ?_, ?_⟩
  · rw [← flatten_take_append hi, ← flatten_take_append hj, h.aligned, heq]
  · intro hkept
    rw [Inner.push, ← flatten_take_append hj, List.flatten_append, noBlanks_append,
      noBlanks_append, h.kept hkept, List.flatten_singleton, noBlanks_intercalate]
  · intro token htoken c hc
    rcases List.mem_append.mp htoken with htoken | htoken
    · exact h.chars token htoken c hc
    · rw [List.mem_singleton.mp htoken] at hc
      exact (mem_intercalate hc).imp_right mem_flatten_of_slice

/-- The loop reads within both segmentations, and keeps what it has passed. -/
theorem walk_spec {i j i₀ j₀ : ℕ} {out : Inner} (hi : i₀ ≤ i) (hj : j₀ ≤ j)
    (h : Walked tables tks1 tks i₀ j₀ out) :
    ∃ i₁ j₁ out', walk tables tks1 tks i j i₀ j₀ out = some (i₁, j₁, out') ∧
      Walked tables tks1 tks i₁ j₁ out' := by
  rw [walk]
  by_cases hinside : i < tks1.length ∧ j < tks.length
  · obtain ⟨hleft, hright⟩ := hinside
    rw [if_pos ⟨hleft, hright⟩]
    simp only [join_eq hleft.le, join_eq hright.le, intercalate_nil_left, Option.bind_eq_bind,
      Option.bind_some]
    by_cases htext : ((tks1.take i).drop i₀).flatten = ((tks.take j).drop j₀).flatten
    · rw [if_neg (not_not.mpr htext)]
      by_cases htoken : tks1[i]? = tks[j]?
      · have hone : (tks1.take (i + 1)).drop i = (tks.take (j + 1)).drop j := by
          rw [List.take_add_one, List.take_add_one, List.drop_append_of_le_length,
            List.drop_append_of_le_length, htoken]
          · simp
          · rw [List.length_take]
            omega
          · rw [List.length_take]
            omega
        obtain ⟨-, hleft', hright', heq⟩ := countSame_spec hleft hright hone
        rw [if_neg (not_not.mpr htoken), join_eq hright', Option.bind_some]
        have hnext := (h.search hi hj hleft.le hright.le htext).push
          (Nat.le_add_right i _) (Nat.le_add_right j _) hleft' hright' heq
        exact walk_spec (Nat.le_succ _) (Nat.le_succ _) hnext
      · rw [if_pos htoken]
        exact walk_spec (hi.trans (Nat.le_succ i)) (hj.trans (Nat.le_succ j)) h
    · rw [if_pos htext]
      by_cases hlonger : byteSize ((tks.take j).drop j₀).flatten <
          byteSize ((tks1.take i).drop i₀).flatten
      · rw [if_pos hlonger]
        exact walk_spec hi (hj.trans (Nat.le_succ j)) h
      · rw [if_neg hlonger]
        exact walk_spec (hi.trans (Nat.le_succ i)) hj h
  · rw [if_neg hinside]
    exact ⟨i₀, j₀, out, rfl, h⟩
termination_by (tks1.length - i) + (tks.length - j)
decreasing_by all_goals omega

/-- `TokenizeInner` reads within both segmentations of `L`, and it keeps `L` if every search keeps
its text; it makes up no characters. -/
theorem tokenizeInner_spec (tables : Tables) (L : Text) :
    ∃ out, tokenizeInner tables L = some out ∧
      (∀ x ∈ out.searches,
        x.2 = (dfs tables x.1 false (MAX_DFS_DEPTH + 1) 0 [] .start).2.bestTokens) ∧
      ((∀ x ∈ out.searches, x.2.flatten = x.1) → noBlanks out.res.flatten = noBlanks L) ∧
      ∀ token ∈ out.res, ∀ c ∈ token, c = ' ' ∨ c ∈ L := by
  obtain ⟨hforward, -⟩ := maxForward_isSegmentation tables L
  obtain ⟨hbackward, -⟩ := maxBackward_isSegmentation tables L
  rw [tokenizeInner]
  generalize maxBackward tables L = tks1 at *
  generalize maxForward tables L = tks at *
  have hcount := @countSame_spec tks1 tks 0 0 0 (Nat.zero_le _) (Nat.zero_le _) rfl
  simp only [Nat.zero_add] at hcount
  obtain ⟨-, hleft, hright, heq⟩ := hcount
  generalize countSame tks1 tks 0 0 0 = same at *
  have hstart : Walked tables tks1 tks same same
      { res := if 0 < same then [[' '].intercalate ((tks.take same).drop 0)] else []
        searches := [] } := by
    refine ⟨hleft, hright, ?_, fun x hx => absurd hx List.not_mem_nil, fun _ => ?_, ?_⟩
    · exact congrArg List.flatten heq
    · by_cases hsame : 0 < same
      · rw [if_pos hsame, List.flatten_singleton, noBlanks_intercalate, List.drop_zero]
      · rw [if_neg hsame, Nat.eq_zero_of_not_pos hsame]
        rfl
    · intro token htoken c hc
      dsimp only at htoken
      split_ifs at htoken
      · rw [List.mem_singleton.mp htoken] at hc
        exact (mem_intercalate hc).imp_right mem_flatten_of_slice
      · exact absurd htoken List.not_mem_nil
  obtain ⟨i₁, j₁, out, hwalk, h⟩ :=
    walk_spec (Nat.le_succ same) (Nat.le_succ same) hstart
  simp only [join_eq hright, hwalk, join_eq le_rfl, intercalate_nil_left, Option.bind_eq_bind,
    Option.bind_some]
  by_cases hrest : i₁ < tks1.length
  · have hend : ((tks1.take tks1.length).drop i₁).flatten =
        ((tks.take tks.length).drop j₁).flatten := by
      have hwhole : (tks1.take i₁).flatten ++ ((tks1.take tks1.length).drop i₁).flatten =
          (tks1.take i₁).flatten ++ ((tks.take tks.length).drop j₁).flatten := by
        rw [flatten_take_append h.left, h.aligned, flatten_take_append h.right, List.take_length,
          List.take_length, hforward, hbackward]
      exact List.append_cancel_left hwhole
    have hlast := h.search h.left h.right le_rfl le_rfl hend
    rw [if_pos hrest]
    refine ⟨_, rfl, hlast.searches, fun hkept => ?_, hforward ▸ hlast.chars⟩
    rw [hlast.kept hkept, List.take_length, hforward]
  · rw [if_neg hrest]
    refine ⟨_, rfl, h.searches, fun hkept => ?_, hforward ▸ h.chars⟩
    rw [h.kept hkept, ← h.aligned, List.take_of_length_le (Nat.le_of_not_lt hrest), hbackward]

end Walk

/-! ## Conservation -/

section Conservation

theorem covers_nil (tables : Tables) : Covers tables [] := ⟨(0, []), .refl, rfl⟩

/-- `TokenizeInner` has a result for every dictionary and every text. It keeps the text, and each
of its searches finds a segmentation, exactly if no search is of a text that all ways it tries
end with at eleven tokens. -/
theorem tokenizeInner_conserves_iff (tables : Tables) (L : Text) :
    ∃ out, tokenizeInner tables L = some out ∧
      ((noBlanks out.res.flatten = noBlanks L ∧
          ∀ x ∈ out.searches, x.1 ≠ [] → x.2 ≠ [] ∧ IsSegmentation x.1 x.2) ↔
        ∀ x ∈ out.searches, Covers tables x.1) := by
  obtain ⟨out, hout, hsearches, hkept, -⟩ := tokenizeInner_spec tables L
  refine ⟨out, hout, ?_⟩
  constructor
  · rintro ⟨-, hfound⟩ x hx
    by_cases hnil : x.1 = []
    · rw [hnil]
      exact covers_nil tables
    · have hspec := (search_spec tables hnil).2
      rw [← hsearches x hx] at hspec
      exact hspec.mp (hfound x hx hnil).1
  · intro hcovers
    have hfound : ∀ x ∈ out.searches, x.1 ≠ [] → x.2 ≠ [] ∧ IsSegmentation x.1 x.2 := by
      intro x hx hnil
      obtain ⟨hseg, hspec⟩ := search_spec tables hnil
      rw [← hsearches x hx] at hseg hspec
      have hne := hspec.mpr (hcovers x hx)
      exact ⟨hne, hseg.resolve_left hne⟩
    refine ⟨hkept fun x hx => ?_, hfound⟩
    by_cases hnil : x.1 = []
    · rw [hsearches x hx, hnil, search_nil]
      rfl
    · exact (hfound x hx hnil).2.flatten

/-- A dictionary with the word for a laugh. -/
def laughTables : Tables := { trie := loadTrie [("哈哈".toList, encode (-4) 0)], double := id }

/-- Twenty-one characters of laughter are lost. -/
theorem tokenizeInner_loses :
    ¬ ∃ out, tokenizeInner laughTables (List.replicate 21 '哈') = some out ∧
      noBlanks out.res.flatten = noBlanks (List.replicate 21 '哈') ∧
      ∀ x ∈ out.searches, x.1 ≠ [] → x.2 ≠ [] ∧ IsSegmentation x.1 x.2 := by
  rintro ⟨out, hout, hkept, -⟩
  have hlost : (tokenizeInner laughTables (List.replicate 21 '哈')).map
      (fun out => noBlanks out.res.flatten) = some [] := by decide +kernel
  rw [hout, Option.map_some, hkept] at hlost
  exact absurd hlost (by decide +kernel)

end Conservation

end RagFlow.Analyzer
