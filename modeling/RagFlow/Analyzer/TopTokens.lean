/-
# What the table of segmentations keeps

At each place the table has the best segmentations of each class, those with the same number of
tokens and of long tokens. Within a class a common continuation does not change what is better, so
those of a later place come from them. The selection is right if the first candidates come in order.
-/

import RagFlow.Analyzer.BestTokens
import RagFlow.Math.TopN
import Mathlib.Algebra.Order.Ring.Cast

namespace RagFlow.Analyzer.BestTokens

open RagFlow.Math

/-! ## Classes -/

theorem lessK_iff {a b : ℕ × ℕ} : lessK a b = true ↔ a.1 < b.1 ∨ a.1 = b.1 ∧ a.2 < b.2 := by
  rw [lessK, Bool.or_eq_true, Bool.and_eq_true, decide_eq_true_eq, decide_eq_true_eq,
    decide_eq_true_eq]

theorem not_lessK_self (a : ℕ × ℕ) : ¬ lessK a a = true := by
  rw [lessK_iff]
  omega

theorem lessK_asymm {a b : ℕ × ℕ} (h : lessK a b = true) : ¬ lessK b a = true := by
  rw [lessK_iff] at h ⊢
  omega

/-- Candidates in the order of their classes. -/
def InOrder (candidates : List BestTokenCandidate) : Prop :=
  (candidates.map BestTokenCandidate.k).Pairwise fun a b => ¬ lessK b a = true

/-- What comes before a class, the class, and what comes behind it. -/
structure AroundClass (x : ℕ × ℕ) (before own behind : List BestTokenCandidate) : Prop where
  before : ∀ c ∈ before, lessK c.k x = true
  own : ∀ c ∈ own, c.k = x
  behind : ∀ c ∈ behind, lessK x c.k = true

theorem InOrder.split {candidates : List BestTokenCandidate} (h : InOrder candidates) (x : ℕ × ℕ) :
    ∃ before own behind, candidates = before ++ own ++ behind ∧
      AroundClass x before own behind := by
  induction candidates with
  | nil => exact ⟨[], [], [], rfl, by simp, by simp, by simp⟩
  | cons a rest ih =>
      rw [InOrder, List.map_cons, List.pairwise_cons] at h
      obtain ⟨before, own, behind, rfl, hbefore, hown, hbehind⟩ := ih h.2
      have hle : ∀ c ∈ before ++ own ++ behind, ¬ lessK c.k a.k = true := fun c hc =>
        h.1 _ (List.mem_map_of_mem hc)
      by_cases hless : lessK a.k x = true
      · exact ⟨a :: before, own, behind, rfl, List.forall_mem_cons.2 ⟨hless, hbefore⟩, hown,
          hbehind⟩
      · have hnil : before = [] := by
          refine List.eq_nil_iff_forall_not_mem.2 fun c hc => ?_
          have hca := hle c (List.mem_append_left _ (List.mem_append_left _ hc))
          have hcx := hbefore c hc
          rw [lessK_iff] at hless hca hcx
          omega
        subst hnil
        by_cases heq : a.k = x
        · exact ⟨[], a :: own, behind, rfl, by simp, List.forall_mem_cons.2 ⟨heq, hown⟩, hbehind⟩
        · have hgreater : lessK x a.k = true := by
            rw [lessK_iff] at hless ⊢
            have : a.k.1 ≠ x.1 ∨ a.k.2 ≠ x.2 := by
              by_contra hboth
              rw [not_or, not_not, not_not] at hboth
              exact heq (Prod.ext hboth.1 hboth.2)
            omega
          have hnil : own = [] := by
            refine List.eq_nil_iff_forall_not_mem.2 fun c hc => ?_
            have hca := hle c (List.mem_append_left _ (List.mem_append_right _ hc))
            rw [hown c hc] at hca
            exact hca hgreater
          subst hnil
          exact ⟨[], [], a :: behind, rfl, by simp, by simp,
            List.forall_mem_cons.2 ⟨hgreater, hbehind⟩⟩

theorem minElement_spec {range : List BestTokenCandidate} (hne : range ≠ []) :
    ∃ before m behind, minElement range = some (before, m, behind) ∧
      range = before ++ m :: behind ∧ ∀ c ∈ range, m.F ≤ c.F := by
  induction range with
  | nil => exact absurd rfl hne
  | cons a rest ih =>
      rw [minElement]
      cases rest with
      | nil => exact ⟨[], a, [], rfl, rfl, by simp⟩
      | cons b rest =>
          obtain ⟨before, m, behind, hmin, hsplit, hle⟩ := ih (List.cons_ne_nil _ _)
          rw [hmin]
          by_cases hless : m.F < a.F
          · refine ⟨a :: before, m, behind, by simp only [if_pos hless], ?_, ?_⟩
            · rw [hsplit, List.cons_append]
            · exact List.forall_mem_cons.2 ⟨hless.le, hle⟩
          · refine ⟨[], a, b :: rest, by simp only [if_neg hless], rfl, ?_⟩
            exact List.forall_mem_cons.2 ⟨le_rfl, fun c hc => (not_lt.1 hless).trans (hle c hc)⟩

/-! ## One candidate -/

/-- The best of each class. -/
abbrev Top (n : ℕ) (kept all : List BestTokenCandidate) : Prop :=
  IsTop BestTokenCandidate.k BestTokenCandidate.F n kept all

section Add

variable {n : ℕ} {candidates : List BestTokenCandidate} {add : BestTokenCandidate}

namespace AroundClass

variable {x : ℕ × ℕ} {before own behind : List BestTokenCandidate}

theorem countUp_eq (h : AroundClass x before own behind) :
    countUp BestTokenCandidate.k BestTokenCandidate.F x (fun _ => true) (before ++ own ++ behind) =
      own.length := by
  have hnone {l : List BestTokenCandidate} (hl : ∀ c ∈ l, c.k ≠ x) :
      countUp BestTokenCandidate.k BestTokenCandidate.F x (fun _ => true) l = 0 :=
    countUp_eq_zero hl
  rw [countUp_append, countUp_append,
    hnone fun c hc heq => not_lessK_self x (heq ▸ h.before c hc),
    hnone fun c hc heq => not_lessK_self x (heq ▸ h.behind c hc), Nat.zero_add, Nat.add_zero]
  exact List.countP_eq_length.2 fun c hc => by rw [h.own c hc]; simp

theorem mem_own (h : AroundClass x before own behind) {c : BestTokenCandidate}
    (hc : c ∈ before ++ own ++ behind) (hx : c.k = x) : c ∈ own := by
  rcases List.mem_append.1 hc with hc | hc
  · rcases List.mem_append.1 hc with hc | hc
    · exact absurd (hx ▸ h.before c hc) (not_lessK_self _)
    · exact hc
  · exact absurd (hx ▸ h.behind c hc) (not_lessK_self _)

theorem not_lessK_of_own_behind (h : AroundClass x before own behind) {c : BestTokenCandidate}
    (hc : c ∈ own ++ behind) : ¬ lessK c.k x = true := by
  rcases List.mem_append.1 hc with hc | hc
  · rw [h.own c hc]
    exact not_lessK_self _
  · exact lessK_asymm (h.behind c hc)

theorem not_lessK_of_before_own (h : AroundClass x before own behind) {c : BestTokenCandidate}
    (hc : c ∈ before ++ own) : ¬ lessK x c.k = true := by
  rcases List.mem_append.1 hc with hc | hc
  · exact lessK_asymm (h.before c hc)
  · rw [h.own c hc]
    exact not_lessK_self _

/-- The two searches find the ends of the class. -/
theorem addBestTokenCandidateTopN_eq (h : AroundClass add.k before own behind) (topN : ℤ) :
    addBestTokenCandidateTopN topN (before ++ own ++ behind) add =
      if topN ≤ own.length then
        (minElement own).map fun (first, it, last) =>
          if add.F ≤ it.F then before ++ own ++ behind
          else before ++ (first ++ add :: last) ++ behind
      else some (before ++ add :: (own ++ behind)) := by
  have hB : partitionPoint (fun a => lessK a.k add.k) (before ++ own ++ behind) =
      before.length := by
    rw [List.append_assoc]
    exact partitionPoint_append h.before fun c hc => h.not_lessK_of_own_behind hc
  have hE : partitionPoint (fun a => !lessK add.k a.k) (before ++ own ++ behind) =
      (before ++ own).length := by
    refine partitionPoint_append (fun c hc => ?_) fun c hc => by simp [h.behind c hc]
    rw [Bool.not_eq_true', Bool.eq_false_iff]
    exact h.not_lessK_of_before_own hc
  have htake : (before ++ own ++ behind).take before.length = before := by
    rw [List.append_assoc, List.take_left]
  have hdrop : (before ++ own ++ behind).drop before.length = own ++ behind := by
    rw [List.append_assoc, List.drop_left]
  have hrange :
      ((before ++ own ++ behind).take (before ++ own).length).drop before.length = own := by
    rw [List.take_left, List.drop_left]
  rw [addBestTokenCandidateTopN, hB, hE, hrange, htake, hdrop, List.drop_left]

theorem inOrder_insert (h : AroundClass add.k before own behind)
    (horder : InOrder (before ++ own ++ behind)) : InOrder (before ++ add :: (own ++ behind)) := by
  rw [InOrder, List.append_assoc, List.map_append, List.pairwise_append] at horder
  rw [InOrder, List.map_append, List.map_cons, List.pairwise_append, List.pairwise_cons]
  refine ⟨horder.1, ⟨?_, horder.2.1⟩, fun a ha => List.forall_mem_cons.2 ⟨?_, horder.2.2 a ha⟩⟩
  · intro b hb
    obtain ⟨c, hc, rfl⟩ := List.mem_map.1 hb
    exact h.not_lessK_of_own_behind hc
  · obtain ⟨c, hc, rfl⟩ := List.mem_map.1 ha
    exact lessK_asymm (h.before c hc)

end AroundClass

theorem perm_inner (before first last behind : List BestTokenCandidate) (c : BestTokenCandidate) :
    (before ++ (first ++ c :: last) ++ behind).Perm (c :: (before ++ (first ++ last) ++ behind)) :=
  have hinner : (first ++ c :: last).Perm (c :: (first ++ last)) := List.perm_middle
  have houter : (before ++ c :: (first ++ last)).Perm (c :: (before ++ (first ++ last))) :=
    List.perm_middle
  ((hinner.append_left before).trans houter).append_right behind

/-- A candidate takes its place in the order, and the best of each class are kept. -/
theorem addBestTokenCandidateTopN_spec (hn : 1 ≤ n) (horder : InOrder candidates)
    (add : BestTokenCandidate) :
    ∃ candidates', addBestTokenCandidateTopN n candidates add = some candidates' ∧
      InOrder candidates' ∧ ∀ all, Top n candidates all → Top n candidates' (add :: all) := by
  obtain ⟨before, own, behind, rfl, haround⟩ := horder.split add.k
  have hclass := haround.countUp_eq
  rw [haround.addBestTokenCandidateTopN_eq]
  by_cases hfull : (n : ℤ) ≤ own.length
  · have hne : own ≠ [] := by
      rintro rfl
      simp only [List.length_nil] at hfull
      omega
    obtain ⟨first, it, last, hmin, hsplit, hleast⟩ := minElement_spec hne
    have hleast : ∀ m ∈ before ++ own ++ behind, m.k = add.k → it.F ≤ m.F := fun m hm hkm =>
      hleast m (haround.mem_own hm hkm)
    have hcount : n ≤ countUp BestTokenCandidate.k BestTokenCandidate.F add.k (fun _ => true)
        (before ++ own ++ behind) := by omega
    simp only [if_pos hfull, hmin, Option.map_some]
    by_cases hworse : add.F ≤ it.F
    · refine ⟨_, if_pos hworse ▸ rfl, horder, fun all hall => ?_⟩
      exact hall.reject hcount fun m hm hkm => hworse.trans (hleast m hm hkm)
    · have hit : it.k = add.k :=
        haround.own it (hsplit ▸ List.mem_append_right _ List.mem_cons_self)
      refine ⟨before ++ (first ++ add :: last) ++ behind, by rw [if_neg hworse], ?_,
        fun all hall => ?_⟩
      · have hkeys : (before ++ (first ++ add :: last) ++ behind).map BestTokenCandidate.k =
            (before ++ own ++ behind).map BestTokenCandidate.k := by
          rw [hsplit]
          simp only [List.map_append, List.map_cons, hit]
        rw [InOrder, hkeys]
        exact horder
      · have hall' := hall.replace (hsplit ▸ perm_inner before first last behind it) hit hcount
          hleast (not_le.1 hworse).le
        exact hall'.perm (perm_inner before first last behind add).symm (.refl _)
  · rw [if_neg hfull]
    refine ⟨_, rfl, haround.inOrder_insert horder, fun all hall => ?_⟩
    have hroom : countUp BestTokenCandidate.k BestTokenCandidate.F add.k (fun _ => true)
        (before ++ own ++ behind) < n := by omega
    refine (hall.insert hroom).perm ?_ (.refl _)
    rw [List.append_assoc]
    exact List.perm_middle.symm

/-- The same for several candidates. -/
theorem foldlM_add_spec (hn : 1 ≤ n) (adds : List BestTokenCandidate) :
    ∀ {candidates}, InOrder candidates →
      ∃ candidates', adds.foldlM (addBestTokenCandidateTopN n) candidates = some candidates' ∧
        InOrder candidates' ∧ ∀ all, Top n candidates all → Top n candidates' (all ++ adds) := by
  induction adds with
  | nil =>
      intro candidates horder
      exact ⟨candidates, rfl, horder, fun all hall => by rwa [List.append_nil]⟩
  | cons add adds ih =>
      intro candidates horder
      obtain ⟨next, hnext, hnextOrder, hnextTop⟩ := addBestTokenCandidateTopN_spec hn horder add
      obtain ⟨last, hlast, hlastOrder, hlastTop⟩ := ih hnextOrder
      refine ⟨last, by rw [List.foldlM_cons, hnext]; exact hlast, hlastOrder, fun all hall => ?_⟩
      exact (hlastTop _ (hnextTop all hall)).perm (.refl _) List.perm_middle.symm

end Add

/-! ## Segmentations -/

section Segmentations

variable {d : Dictionary} {chars t : Text} {tokens : List Text} {bound p : ℕ}

/-- A token that stands for itself. -/
def IsToken (d : Dictionary) (t : Text) : Prop := t ≠ [] ∧ (t.length = 1 ∨ d.IsWord t)

/-- The candidate of some tokens. -/
def candidateOf (d : Dictionary) (tokens : List Text) : BestTokenCandidate where
  tl := tokens.reverse
  N := (sizes tokens).1
  L := (sizes tokens).2
  F := (tokens.map d.freq).sum

theorem candidateOf_injective : Function.Injective (candidateOf d) := fun _ _ h =>
  List.reverse_injective (congrArg BestTokenCandidate.tl h)

theorem candidateOf_concat (tokens : List Text) (t : Text) :
    candidateOf d (tokens ++ [t]) =
      (candidateOf d tokens).update t (d.freq t) (if 2 ≤ t.length then 1 else 0) := by
  simp only [candidateOf, BestTokenCandidate.update, sizes, List.reverse_append, List.reverse_cons,
    List.reverse_nil, List.nil_append, List.singleton_append, List.length_append,
    List.length_singleton, List.countP_append, List.countP_cons, List.countP_nil, List.map_append,
    List.map_cons, List.map_nil, List.sum_append, List.sum_cons, List.sum_nil, add_zero, zero_add,
    decide_eq_true_eq]

theorem score_candidateOf (tokens : List Text) :
    (candidateOf d tokens).score = scoreOf d tokens := by
  simp only [BestTokenCandidate.score, candidateOf, scoreOf]

/-- The segmentations up to a place whose last token starts before another one. -/
def Ends (d : Dictionary) (chars : Text) (bound p : ℕ) (tokens : List Text) : Prop :=
  IsSegmentation d (chars.take p) tokens ∧ (tokens ≠ [] → tokens.dropLast.flatten.length < bound)

theorem isSegmentation_concat :
    IsSegmentation d chars (tokens ++ [t]) ↔
      tokens.flatten ++ t = chars ∧ (∀ t' ∈ tokens, IsToken d t') ∧ IsToken d t := by
  rw [IsSegmentation, List.flatten_append, List.flatten_singleton, List.forall_mem_append,
    List.forall_mem_singleton]
  rfl

theorem flatten_lt (h : IsSegmentation d (chars.take p) (tokens ++ [t])) :
    tokens.flatten.length < p := by
  rw [isSegmentation_concat] at h
  have hlen := congrArg List.length h.1
  have hpos := List.length_pos_of_ne_nil h.2.2.1
  have htake : (chars.take p).length ≤ p := List.length_take_le _ _
  rw [List.length_append] at hlen
  omega

theorem ends_concat : Ends d chars bound p (tokens ++ [t]) ↔
    IsSegmentation d (chars.take p) (tokens ++ [t]) ∧ tokens.flatten.length < bound := by
  rw [Ends, List.dropLast_concat]
  exact and_congr_right'
    (imp_iff_right (List.append_ne_nil_of_right_ne_nil _ (List.cons_ne_nil _ _)))

theorem ends_nil : Ends d chars bound p [] ↔ IsSegmentation d (chars.take p) [] :=
  and_iff_left fun hne => absurd rfl hne

theorem ends_of_le (h : p ≤ bound) : Ends d chars bound p tokens ↔
    IsSegmentation d (chars.take p) tokens := by
  induction tokens using List.reverseRecOn with
  | nil => exact ends_nil
  | append_singleton tokens t =>
      rw [ends_concat]
      exact and_iff_left_of_imp fun hseg => (flatten_lt hseg).trans_le h

/-- A segmentation whose last token starts before the next place has it start before this one, or at
this one. -/
theorem ends_succ (hbound : bound < p) (hp : p ≤ chars.length) :
    Ends d chars (bound + 1) p tokens ↔ Ends d chars bound p tokens ∨
      IsToken d ((chars.drop bound).take (p - bound)) ∧ ∃ before,
        Ends d chars bound bound before ∧
          tokens = before ++ [(chars.drop bound).take (p - bound)] := by
  have hsplit : chars.take bound ++ (chars.drop bound).take (p - bound) = chars.take p := by
    rw [← List.take_add, Nat.add_sub_cancel' hbound.le]
  have hlen : (chars.take bound).length = bound := by
    rw [List.length_take]
    omega
  constructor
  · intro h
    induction tokens using List.reverseRecOn with
    | nil => exact .inl (ends_nil.2 (ends_nil.1 h))
    | append_singleton tokens t =>
        rw [ends_concat] at h
        rcases Nat.lt_succ_iff_lt_or_eq.1 h.2 with hlt | heq
        · exact .inl (ends_concat.2 ⟨h.1, hlt⟩)
        · obtain ⟨hflat, htokens, ht⟩ := isSegmentation_concat.1 h.1
          rw [← hsplit] at hflat
          obtain ⟨hleft, rfl⟩ := List.append_inj hflat (heq.trans hlen.symm)
          exact .inr ⟨ht, tokens, (ends_of_le le_rfl).2 ⟨hleft, htokens⟩, rfl⟩
  · rintro (h | ⟨ht, before, hbefore, rfl⟩)
    · exact ⟨h.1, fun hne => (h.2 hne).trans (Nat.lt_succ_self _)⟩
    · have hseg := (ends_of_le le_rfl).1 hbefore
      rw [ends_concat, isSegmentation_concat, hseg.1, hlen]
      exact ⟨⟨hsplit, hseg.2, ht⟩, Nat.lt_succ_self _⟩

end Segmentations

/-! ## The table -/

section Table

variable {d : Dictionary} {n : ℕ} {chars : Text} {dpVec : List (List BestTokenCandidate)}

/-- The candidates at a place are the best of each class among the segmentations up to there whose
last token starts before `bound`. -/
structure Holds (d : Dictionary) (n : ℕ) (chars : Text) (bound p : ℕ)
    (candidates : List BestTokenCandidate) : Prop where
  order : InOrder candidates
  top : ∃ all : List (List Text),
    all.Nodup ∧ (∀ tokens, tokens ∈ all ↔ Ends d chars bound p tokens) ∧
    Top n candidates (all.map (candidateOf d))

theorem Holds.congr {bound bound' p : ℕ} {candidates : List BestTokenCandidate}
    (h : Holds d n chars bound p candidates)
    (hends : ∀ tokens, Ends d chars bound p tokens ↔ Ends d chars bound' p tokens) :
    Holds d n chars bound' p candidates := by
  obtain ⟨all, hnodup, hall, htop⟩ := h.top
  exact ⟨h.order, all, hnodup, fun tokens => (hall tokens).trans (hends tokens), htop⟩

/-- The places before `i + j` have the segmentations whose last token starts at `i` too. -/
structure TableAt (d : Dictionary) (n : ℕ) (chars : Text) (i j : ℕ)
    (dpVec : List (List BestTokenCandidate)) : Prop where
  length : dpVec.length = chars.length + 1
  holds : ∀ p ≤ chars.length,
    Holds d n chars (if p < i + j then i + 1 else i) p (dpVec.getD p [])

/-- Continuing what is kept at `i` by a token is continuing all segmentations by it. -/
theorem Holds.extend {i p : ℕ} {here there : List BestTokenCandidate} (hn : 1 ≤ n) (hip : i < p)
    (hp : p ≤ chars.length) (hhere : Holds d n chars (i + 1) i here)
    (hthere : Holds d n chars i p there) (htoken : IsToken d ((chars.drop i).take (p - i))) :
    ∃ target, (here.map fun c => c.update ((chars.drop i).take (p - i))
        (d.freq ((chars.drop i).take (p - i)))
        (if 2 ≤ ((chars.drop i).take (p - i)).length then 1 else 0)).foldlM
          (addBestTokenCandidateTopN n) there = some target ∧
      Holds d n chars (i + 1) p target := by
  set t := (chars.drop i).take (p - i) with ht
  obtain ⟨target, htarget, horder, htop⟩ := foldlM_add_spec hn
    (here.map fun c => c.update t (d.freq t) (if 2 ≤ t.length then 1 else 0)) hthere.order
  obtain ⟨allHere, hnodupHere, hallHere, htopHere⟩ := hhere.top
  obtain ⟨allThere, hnodupThere, hallThere, htopThere⟩ := hthere.top
  have hends : ∀ tokens, tokens ∈ allHere ↔ Ends d chars i i tokens := fun tokens =>
    (hallHere tokens).trans ((ends_of_le (Nat.le_succ i)).trans (ends_of_le le_rfl).symm)
  refine ⟨target, htarget, horder, allThere ++ allHere.map (· ++ [t]), ?_, fun tokens => ?_, ?_⟩
  · refine hnodupThere.append (hnodupHere.map (List.append_left_injective [t])) ?_
    intro tokens hthere hhere
    obtain ⟨before, hbefore, rfl⟩ := List.mem_map.1 hhere
    have hlt := (ends_concat.1 ((hallThere _).1 hthere)).2
    have hflat := congrArg List.length ((hends before).1 hbefore).1.1
    rw [List.length_take] at hflat
    omega
  · rw [List.mem_append, List.mem_map, hallThere, ends_succ hip hp]
    refine or_congr_right ((exists_congr fun before => ?_).trans (and_iff_right htoken).symm)
    rw [hends]
    exact and_congr_right' eq_comm
  · have hmap : (allThere ++ allHere.map (· ++ [t])).map (candidateOf d) =
        allThere.map (candidateOf d) ++ (allHere.map (candidateOf d)).map fun c =>
          c.update t (d.freq t) (if 2 ≤ t.length then 1 else 0) := by
      rw [List.map_append, List.map_map, List.map_map]
      refine congrArg (_ ++ ·) (List.map_congr_left fun tokens _ => ?_)
      exact candidateOf_concat tokens t
    have hinjective : Function.Injective fun x : ℕ × ℕ =>
        (x.1 + 1, x.2 + if 2 ≤ t.length then 1 else 0) := fun x y hxy =>
      Prod.ext (Nat.succ.inj (Prod.mk.inj hxy).1) (Nat.add_right_cancel (Prod.mk.inj hxy).2)
    have hmonotone : Monotone fun F : ℤ => F + d.freq t := fun F F' hF => by
      exact Int.add_le_add_right hF _
    rw [hmap]
    exact (htop _ htopThere.self).append htopThere
      (htopHere.map hinjective hmonotone (fun _ => rfl) fun _ => rfl)

theorem getD_set (l : List (List BestTokenCandidate)) (q p : ℕ) (x : List BestTokenCandidate) :
    (l.set q x).getD p [] = if q = p ∧ q < l.length then x else l.getD p [] := by
  rw [List.getD_eq_getElem?_getD, List.getElem?_set, List.getD_eq_getElem?_getD]
  by_cases heq : q = p
  · subst heq
    by_cases hlt : q < l.length
    · rw [if_pos rfl, if_pos hlt, if_pos ⟨rfl, hlt⟩]
      rfl
    · rw [if_pos rfl, if_neg hlt, if_neg fun hboth => hlt hboth.2,
        List.getElem?_eq_none (Nat.le_of_not_lt hlt)]
  · rw [if_neg heq, if_neg fun hboth => heq hboth.1]

theorem length_slice {i j : ℕ} (hij : i + j ≤ chars.length) :
    ((chars.drop i).take j).length = j := by
  rw [List.length_take, List.length_drop]
  omega

/-- Places without a token from `i` are done. -/
theorem TableAt.skip {i j j' : ℕ} (h : TableAt d n chars i j dpVec)
    (hskip : ∀ m, 1 ≤ m → j ≤ m → m < j' → i + m ≤ chars.length →
      ¬ IsToken d ((chars.drop i).take m)) (hle : j ≤ j') (hj : 1 ≤ j) :
    TableAt d n chars i j' dpVec where
  length := h.length
  holds p hp := by
    have hold := h.holds p hp
    by_cases hbefore : p < i + j
    · rw [if_pos hbefore] at hold
      rw [if_pos (by omega)]
      exact hold
    · rw [if_neg hbefore] at hold
      split_ifs with hafter
      · refine hold.congr fun tokens => ?_
        rw [ends_succ (by omega) hp]
        refine (or_iff_left fun hright => ?_).symm
        exact hskip (p - i) (by omega) (by omega) (by omega) (by omega) hright.1
      · exact hold

/-- A token from `i` is taken. -/
theorem TableAt.dpF {i j : ℕ} (hn : 1 ≤ n) (h : TableAt d n chars i j dpVec) (hj : 1 ≤ j)
    (hij : i + j ≤ chars.length) (htoken : IsToken d ((chars.drop i).take j)) :
    ∃ dpVec', dpF n i j ((chars.drop i).take j) (d.freq ((chars.drop i).take j))
        (if 2 ≤ j then 1 else 0) dpVec = some dpVec' ∧ TableAt d n chars i (j + 1) dpVec' := by
  have hhere := h.holds i (by omega)
  have hthere := h.holds (i + j) hij
  rw [if_pos (by omega)] at hhere
  rw [if_neg (by omega)] at hthere
  have hsub : i + j - i = j := Nat.add_sub_cancel_left i j
  obtain ⟨target, htarget, hholds⟩ := hhere.extend hn (by omega) hij hthere (by rwa [hsub])
  rw [hsub, length_slice hij] at htarget
  refine ⟨dpVec.set (i + j) target, ?_, ?_, fun p hp => ?_⟩
  · rw [BestTokens.dpF, htarget]
    rfl
  · rw [List.length_set, h.length]
  · have hlt : i + j < dpVec.length := by
      rw [h.length]
      omega
    by_cases heq : i + j = p
    · rw [if_pos (by omega), getD_set, if_pos ⟨heq, hlt⟩, ← heq]
      exact hholds
    · have hsame : p < i + (j + 1) ↔ p < i + j := by omega
      have hget : (dpVec.set (i + j) target).getD p [] = dpVec.getD p [] := by
        rw [getD_set, if_neg fun hboth => heq hboth.1]
      rw [hget]
      simp only [hsame]
      exact h.holds p hp

/-! ## The dictionary -/

/-- A value is found for the words only. -/
theorem traverse_nonneg_iff {t : Text} : 0 ≤ d.traverse (key t) ↔ d.IsWord t := by
  rw [Dictionary.traverse, Dictionary.IsWord]
  cases hget : d.trie.get? (key t) with
  | some v => exact iff_of_true (d.nonneg _ v hget) rfl
  | none =>
      refine iff_of_false ?_ (by simp)
      by_cases hkeys : d.hasKeysWithPrefix (key t) = true
      · simp only [if_pos hkeys]
        omega
      · simp only [if_neg hkeys]
        omega

theorem freq_of_isWord {t : Text} (h : d.IsWord t) :
    d.freq t = decodeFreq (BitVec.ofInt 32 (d.traverse (key t))) := by
  rw [Dictionary.freq, Dictionary.traverse]
  obtain ⟨v, hv⟩ := Option.isSome_iff_exists.1 h
  rw [hv]
  simp only [BitVec.ofInt_toInt]

theorem freq_of_not_isWord {t : Text} (h : ¬ d.IsWord t) : d.freq t = -12 := by
  rw [Dictionary.freq, Option.not_isSome_iff_eq_none.1 h]

/-- Where the search stops, no longer token is a word. -/
theorem not_isWord_of_traverse {t t' : Text} (h : d.traverse (key t) = -2) (hle : t <+: t') :
    ¬ d.IsWord t' := by
  have hprefix : ¬ d.hasKeysWithPrefix (key t) = true := by
    intro hkeys
    rw [Dictionary.traverse] at h
    cases hget : d.trie.get? (key t) with
    | some v =>
        have hv := d.nonneg _ v hget
        rw [hget] at h
        simp only at h
        omega
    | none =>
        rw [hget] at h
        simp only [if_pos hkeys] at h
        omega
  intro hword
  obtain ⟨v, hv⟩ := Option.isSome_iff_exists.1 hword
  refine hprefix (List.any_eq_true.2 ⟨_, Dict.get?_eq_some_iff.1 hv, ?_⟩)
  exact List.isPrefixOf_iff_prefix.2 (hle.map Char.toLower)

/-- All tokens from a place are taken. -/
theorem tokensFrom_spec (hn : 1 ≤ n) {i : ℕ} (left : ℕ) :
    ∀ {j dpVec}, TableAt d n chars i j dpVec → 1 ≤ j → i + j + left = chars.length + 1 →
      ∃ dpVec', tokensFrom d n i (chars.drop i) left j dpVec = some dpVec' ∧
        TableAt d n chars i (chars.length + 1) dpVec' := by
  induction left with
  | zero =>
      intro j dpVec h hj hlen
      refine ⟨dpVec, rfl, h.skip (fun m _ hjm _ hm => absurd hm (by omega)) (by omega) hj⟩
  | succ left ih =>
      intro j dpVec h hj hlen
      have hij : i + j ≤ chars.length := by omega
      have hne : (chars.drop i).take j ≠ [] := List.ne_nil_of_length_pos (by
        rw [length_slice hij]
        omega)
      rw [tokensFrom]
      by_cases hword : d.IsWord ((chars.drop i).take j)
      · obtain ⟨dpVec', hdp, h'⟩ := h.dpF hn hj hij ⟨hne, .inr hword⟩
        obtain ⟨last, hlast, hfinal⟩ := ih h' (by omega) (by omega)
        refine ⟨last, ?_, hfinal⟩
        rw [if_pos (traverse_nonneg_iff.2 hword), ← freq_of_isWord hword]
        exact (congrArg (Option.bind · _) hdp).trans hlast
      · have hfirst : ∃ dpVec', (if j = 1 then
            dpF n i j ((chars.drop i).take j) (-12) 0 dpVec else some dpVec) = some dpVec' ∧
              TableAt d n chars i (j + 1) dpVec' := by
          by_cases hone : j = 1
          · obtain ⟨dpVec', hdp, h'⟩ := h.dpF hn hj hij ⟨hne, .inl ((length_slice hij).trans hone)⟩
            rw [freq_of_not_isWord hword, if_neg (by omega)] at hdp
            exact ⟨dpVec', by rw [if_pos hone]; exact hdp, h'⟩
          · refine ⟨dpVec, if_neg hone, h.skip (fun m _ hjm hmj _ htoken => ?_) (by omega) hj⟩
            obtain rfl : m = j := by omega
            rcases htoken.2 with hlen | htoken
            · rw [length_slice hij] at hlen
              exact hone hlen
            · exact hword htoken
        obtain ⟨dpVec', hdp, h'⟩ := hfirst
        rw [if_neg (mt traverse_nonneg_iff.1 hword), hdp]
        by_cases hstop : d.traverse (key ((chars.drop i).take j)) = -2
        · refine ⟨dpVec', if_pos hstop,
            h'.skip (fun m _ hjm _ hm htoken => ?_) (by omega) (by omega)⟩
          rcases htoken.2 with hlen' | htoken
          · rw [length_slice hm] at hlen'
            omega
          · exact not_isWord_of_traverse hstop
              (List.take_prefix_take_left (by omega)) htoken
        · obtain ⟨last, hlast, hfinal⟩ := ih h' (by omega) (by omega)
          exact ⟨last, (if_neg hstop).trans hlast, hfinal⟩

theorem isSegmentation_nil {tokens : List Text} : IsSegmentation d [] tokens ↔ tokens = [] := by
  constructor
  · intro h
    cases tokens with
    | nil => rfl
    | cons t tokens => exact absurd (List.append_eq_nil_iff.1 h.1).1 (h.2 t List.mem_cons_self).1
  · rintro rfl
    exact ⟨rfl, fun t ht => absurd ht List.not_mem_nil⟩

/-- Before the first place there is one segmentation, without tokens. -/
theorem tableAt_start (hn : 1 ≤ n) :
    TableAt d n chars 0 1 ([.first] :: List.replicate (UTF8Length chars) []) where
  length := by rw [List.length_cons, List.length_replicate]; rfl
  holds p hp := by
    cases p with
    | zero =>
        refine ⟨List.pairwise_singleton _ _, [[]], List.nodup_singleton _, fun tokens => ?_, ?_⟩
        · rw [if_pos Nat.one_pos, ends_of_le (Nat.zero_le _), List.take_zero, isSegmentation_nil,
            List.mem_singleton]
        · exact (IsTop.nil n).insert hn
    | succ p =>
        have hempty : ([BestTokenCandidate.first] ::
            List.replicate (UTF8Length chars) []).getD (p + 1) [] = [] := by
          rw [List.getD_cons_succ, List.getD_eq_getElem?_getD, List.getElem?_replicate]
          split_ifs <;> rfl
        rw [hempty, if_neg (by omega)]
        refine ⟨.nil, [], List.nodup_nil, fun tokens => ?_, .nil n⟩
        refine iff_of_false List.not_mem_nil fun h => ?_
        induction tokens using List.reverseRecOn with
        | nil =>
            have hlen := congrArg List.length h.1.1
            rw [List.length_take] at hlen
            simp only [List.flatten_nil, List.length_nil] at hlen
            omega
        | append_singleton tokens t => exact absurd (ends_concat.1 h).2 (Nat.not_lt_zero _)

/-- The table after the first places. -/
theorem tableUpTo_spec (hn : 1 ≤ n) :
    ∀ i ≤ chars.length,
      ∃ dpVec, tableUpTo d n chars i = some dpVec ∧ TableAt d n chars i 1 dpVec := by
  intro i
  induction i with
  | zero => exact fun _ => ⟨_, rfl, tableAt_start hn⟩
  | succ i ih =>
      intro hi
      obtain ⟨dpVec, hdp, htable⟩ := ih (by omega)
      obtain ⟨next, hnext, hdone⟩ :=
        tokensFrom_spec hn (UTF8Length (chars.drop i)) htable le_rfl (by
        rw [UTF8Length, List.length_drop]
        omega)
      refine ⟨next, by rw [tableUpTo, hdp]; exact hnext, hdone.length, fun p hp => ?_⟩
      have hold := hdone.holds p hp
      rw [if_pos (by omega)] at hold
      split_ifs with hnear
      · exact hold.congr fun tokens =>
          (ends_of_le (by omega)).trans (ends_of_le (by omega)).symm
      · exact hold

/-- The candidates for the whole text. -/
theorem candidates_spec (d : Dictionary) (chars : Text) (hn : 1 ≤ n) (hsmall : n < 2 ^ 31) :
    ∃ dpVec, tableUpTo d (BitVec.ofNat 32 n).toInt chars (UTF8Length chars) = some dpVec ∧
      InOrder (dpVec.getLastD []) ∧ ∃ all : List (List Text), all.Nodup ∧
        (∀ tokens, tokens ∈ all ↔ IsSegmentation d chars tokens) ∧
          Top n (dpVec.getLastD []) (all.map (candidateOf d)) := by
  have htop : (BitVec.ofNat 32 n).toInt = n := by
    have hnat : (BitVec.ofNat 32 n).toNat = n := by
      rw [BitVec.toNat_ofNat]
      exact Nat.mod_eq_of_lt (by omega)
    rw [BitVec.toInt_eq_toNat_of_lt (by omega), hnat]
  obtain ⟨dpVec, hdp, htable⟩ := tableUpTo_spec (d := d) hn chars.length le_rfl
  have hlast : dpVec.getLastD [] = dpVec.getD chars.length [] := by
    rw [List.getLastD_eq_getLast?, List.getLast?_eq_getElem?, htable.length, Nat.add_sub_cancel,
      List.getD_eq_getElem?_getD]
  obtain ⟨horder, all, hnodup, hall, htopAll⟩ := htable.holds chars.length le_rfl
  refine ⟨dpVec, by rw [htop]; exact hdp, hlast ▸ horder, all, hnodup, fun tokens => ?_,
    hlast ▸ htopAll⟩
  rw [hall, if_pos (Nat.lt_succ_self _), ends_of_le (Nat.le_succ _), List.take_length]

end Table

/-! ## The selection -/

section Selection

variable {d : Dictionary} {n : ℕ} {chars : Text}
variable {midResult candidates all : List BestTokenCandidate}
  {c : BestTokenCandidate}

/-- The best of all. -/
abbrev Best (n : ℕ) (kept all : List BestTokenCandidate) : Prop :=
  IsTop (fun _ => ()) BestTokenCandidate.score n kept all

def Falling (candidates : List BestTokenCandidate) : Prop :=
  candidates.Pairwise fun a b => b.score ≤ a.score

theorem countUp_unit (candidates : List BestTokenCandidate) (u : Unit) :
    countUp (fun _ => ()) BestTokenCandidate.score u (fun _ => true) candidates =
      candidates.length :=
  List.countP_eq_length.2 fun _ _ => by simp

/-- Candidates for which there is room are all taken. -/
theorem foldlM_take_room : ∀ {midResult : List BestTokenCandidate},
    midResult.length + candidates.length ≤ n →
      candidates.foldlM (takeCandidate n) midResult = some (midResult ++ candidates) := by
  induction candidates with
  | nil => exact fun _ => congrArg some (List.append_nil _).symm
  | cons c candidates ih =>
      intro midResult hroom
      rw [List.length_cons] at hroom
      rw [List.foldlM_cons, takeCandidate, if_pos (by omega)]
      refine (ih ?_).trans (congrArg some (List.append_assoc _ _ _))
      rw [List.length_append, List.length_singleton]
      omega

/-- The candidates that are better than another one come first. -/
theorem Falling.split {kept : List BestTokenCandidate} (h : Falling kept) (c : BestTokenCandidate) :
    ∃ better others, kept = better ++ others ∧ (∀ a ∈ better, c.score < a.score) ∧
      ∀ a ∈ others, a.score ≤ c.score := by
  induction kept with
  | nil => exact ⟨[], [], rfl, by simp, by simp⟩
  | cons a rest ih =>
      rw [Falling, List.pairwise_cons] at h
      by_cases hbetter : c.score < a.score
      · obtain ⟨better, others, rfl, hb, ho⟩ := ih h.2
        exact ⟨a :: better, others, rfl, List.forall_mem_cons.2 ⟨hbetter, hb⟩, ho⟩
      · refine ⟨[], a :: rest, rfl, by simp, List.forall_mem_cons.2 ⟨not_lt.1 hbetter, ?_⟩⟩
        exact fun b hb => (h.1 b hb).trans (not_lt.1 hbetter)

/-- Without room a candidate takes the place of the last one, if it is better. -/
theorem takeCandidate_spec (hn : 1 ≤ n) (hlen : midResult.length = n) (hfall : Falling midResult)
    (c : BestTokenCandidate) :
    ∃ midResult', takeCandidate n midResult c = some midResult' ∧ midResult'.length = n ∧
      Falling midResult' ∧ ∀ all, Best n midResult all → Best n midResult' (c :: all) := by
  induction midResult using List.reverseRecOn with
  | nil =>
      rw [List.length_nil] at hlen
      omega
  | append_singleton kept back =>
      rw [takeCandidate, if_neg (by omega), List.getLast?_concat, Option.map_some,
        List.dropLast_concat]
      rw [Falling, List.pairwise_append] at hfall
      have hback : ∀ m ∈ kept ++ [back], back.score ≤ m.score := by
        intro m hm
        rcases List.mem_append.1 hm with hm | hm
        · exact hfall.2.2 m hm back (List.mem_singleton_self _)
        · rw [List.mem_singleton.1 hm]
      have hfull : n ≤ countUp (fun _ => ()) BestTokenCandidate.score () (fun _ => true)
          (kept ++ [back]) := by rw [countUp_unit, hlen]
      by_cases hbetter : back.score < c.score
      · obtain ⟨better, others, rfl, hb, ho⟩ := Falling.split hfall.1 c
        have hpoint : partitionPoint (fun a => decide (c.score < a.score)) (better ++ others) =
            better.length :=
          partitionPoint_append (fun a ha => decide_eq_true (hb a ha)) fun a ha => by
            rw [decide_eq_true_eq]
            exact not_lt.2 (ho a ha)
        refine ⟨better ++ c :: others, ?_, ?_, ?_, fun all hall => ?_⟩
        · simp only [if_pos hbetter, hpoint, List.take_left, List.drop_left]
        · rw [List.length_append, List.length_append, List.length_singleton] at hlen
          rw [List.length_append, List.length_cons]
          omega
        · have hinner := hfall.1
          rw [List.pairwise_append] at hinner
          rw [Falling, List.pairwise_append, List.pairwise_cons]
          refine ⟨hinner.1, ⟨ho, hinner.2.1⟩, fun a ha => List.forall_mem_cons.2 ⟨(hb a ha).le, ?_⟩⟩
          exact hinner.2.2 a ha
        · have hperm : (better ++ others ++ [back]).Perm (back :: (better ++ others)) :=
            List.perm_append_singleton _ _
          exact (hall.replace hperm rfl hfull (fun m hm _ => hback m hm) hbetter.le).perm
            List.perm_middle.symm (.refl _)
      · refine ⟨kept ++ [back], by rw [if_neg hbetter], hlen, ?_, fun all hall => ?_⟩
        · rw [Falling, List.pairwise_append]
          exact hfall
        · exact hall.reject hfull fun m hm _ => (not_lt.1 hbetter).trans (hback m hm)

theorem foldlM_take_full (hn : 1 ≤ n) (candidates : List BestTokenCandidate) :
    ∀ {midResult}, midResult.length = n → Falling midResult →
      ∃ midResult', candidates.foldlM (takeCandidate n) midResult = some midResult' ∧
        Falling midResult' ∧
          ∀ all, Best n midResult all → Best n midResult' (all ++ candidates) := by
  induction candidates with
  | nil =>
      intro midResult _ hfall
      exact ⟨midResult, rfl, hfall, fun all hall => by rwa [List.append_nil]⟩
  | cons c candidates ih =>
      intro midResult hlen hfall
      obtain ⟨next, hnext, hnextLen, hnextFall, hnextBest⟩ := takeCandidate_spec hn hlen hfall c
      obtain ⟨last, hlast, hlastFall, hlastBest⟩ := ih hnextLen hnextFall
      refine ⟨last, by rw [List.foldlM_cons, hnext]; exact hlast, hlastFall, fun all hall => ?_⟩
      exact (hlastBest _ (hnextBest all hall)).perm (.refl _) List.perm_middle.symm

theorem best_self (h : candidates.length ≤ n) : Best n candidates candidates where
  rest := ⟨[], by rw [List.append_nil]⟩
  count _ _ _ := (min_eq_right (List.countP_le_length.trans h)).symm

/-- Where the first candidates come in order, the selection has the best of all in order. -/
theorem select_spec (hn : 1 ≤ n) (hfall : Falling (candidates.take n)) :
    ∃ midResult, candidates.foldlM (takeCandidate n) [] = some midResult ∧ Falling midResult ∧
      Best n midResult candidates := by
  have hroom : ([] : List BestTokenCandidate).length + (candidates.take n).length ≤ n := by
    rw [List.length_nil, Nat.zero_add]
    exact List.length_take_le _ _
  have hfirst := foldlM_take_room hroom
  have hbest : Best n (candidates.take n) (candidates.take n) := best_self (List.length_take_le _ _)
  have hsplit : candidates.foldlM (takeCandidate n) [] =
      (candidates.drop n).foldlM (takeCandidate n) (candidates.take n) := by
    conv_lhs => rw [← List.take_append_drop n candidates]
    rw [List.foldlM_append, hfirst]
    rfl
  rw [hsplit]
  rcases Nat.lt_or_ge candidates.length n with hshort | hlong
  · rw [List.drop_eq_nil_of_le hshort.le]
    rw [List.take_of_length_le hshort.le] at hbest hfall ⊢
    exact ⟨candidates, rfl, hfall, hbest⟩
  · obtain ⟨last, hlast, hlastFall, hlastBest⟩ := foldlM_take_full hn (candidates.drop n)
      (List.length_take_of_le hlong) hfall
    refine ⟨last, hlast, hlastFall, ?_⟩
    have := hlastBest _ hbest
    rwa [List.take_append_drop] at this

end Selection

/-! ## All segmentations -/

section Whole

variable {d : Dictionary} {n : ℕ} {chars : Text} {all : List (List Text)}
  {candidates midResult : List BestTokenCandidate}

/-- Within a class the score is greater where the frequencies are. -/
theorem score_le_iff {a b : BestTokenCandidate} (h : a.k = b.k) :
    a.score ≤ b.score ↔ a.F ≤ b.F := by
  have hN : a.N = b.N := (Prod.mk.inj h).1
  have hL : a.L = b.L := (Prod.mk.inj h).2
  rw [BestTokenCandidate.score, BestTokenCandidate.score, hN, hL, add_le_add_iff_right, Int.cast_le]

theorem ncard_eq (hnodup : all.Nodup)
    (hall : ∀ tokens, tokens ∈ all ↔ IsSegmentation d chars tokens) :
    {tokens | IsSegmentation d chars tokens}.ncard = all.length := by
  have hset : {tokens | IsSegmentation d chars tokens} = (all.toFinset : Set (List Text)) := by
    ext tokens
    rw [Set.mem_ofPred_eq, Finset.mem_coe, List.mem_toFinset, hall]
  rw [hset, Set.ncard_coe_finset, List.toFinset_card_of_nodup hnodup]

/-- What is selected is what should come out. -/
theorem optimal_of_best (hnodup : all.Nodup)
    (hall : ∀ tokens, tokens ∈ all ↔ IsSegmentation d chars tokens) (hfall : Falling midResult)
    (hbest : Best n midResult (all.map (candidateOf d))) :
    Optimal d chars n (midResult.map fun c => (c.tl.reverse, c.score)) := by
  obtain ⟨dropped, hrest⟩ := hbest.rest
  have hof : ∀ c ∈ midResult, ∃ tokens ∈ all, candidateOf d tokens = c := fun c hc =>
    List.mem_map.1 (hbest.subset hc)
  have htl : ((midResult ++ dropped).map fun c => c.tl.reverse).Perm all := by
    have hmap : (all.map (candidateOf d)).map (fun c => c.tl.reverse) = all := by
      rw [List.map_map]
      exact List.map_id'' (fun tokens => List.reverse_reverse tokens) all
    exact (hrest.map _).trans (.of_eq hmap)
  rw [List.map_append] at htl
  have hfst : (midResult.map fun c => (c.tl.reverse, c.score)).map Prod.fst =
      midResult.map fun c => c.tl.reverse := by
    rw [List.map_map]
    rfl
  constructor
  · intro r hr
    obtain ⟨c, hc, rfl⟩ := List.mem_map.1 hr
    obtain ⟨tokens, htokens, rfl⟩ := hof c hc
    have hrev : (candidateOf d tokens).tl.reverse = tokens := List.reverse_reverse tokens
    rw [hrev, score_candidateOf]
    exact ⟨(hall tokens).1 htokens, rfl⟩
  · rw [hfst]
    exact (htl.nodup_iff.2 hnodup).of_append_left
  · have hcount := hbest.count () (fun _ => true) monotone_const
    rw [countUp_unit, countUp_unit, List.length_map] at hcount
    rw [List.length_map, hcount, ncard_eq hnodup hall]
  · exact List.pairwise_map.2 hfall
  · intro tokens htokens hout r hr
    obtain ⟨c, hc, rfl⟩ := List.mem_map.1 hr
    rw [hfst] at hout
    have hdropped : candidateOf d tokens ∈ dropped := by
      have hmem := hrest.mem_iff.2
        (List.mem_map_of_mem (f := candidateOf d) ((hall tokens).2 htokens))
      refine (List.mem_append.1 hmem).resolve_left fun hin => hout ?_
      exact List.mem_map.2 ⟨_, hin, List.reverse_reverse tokens⟩
    rw [← score_candidateOf]
    exact hbest.le_of_dropped hrest hdropped hc rfl

/-- The score never rises with the number of tokens and, for as many tokens, with that of long
ones. -/
def NeverRises (d : Dictionary) (chars : Text) : Prop :=
  ∀ tokens tokens', IsSegmentation d chars tokens → IsSegmentation d chars tokens' →
    ¬ lessK (sizes tokens') (sizes tokens) = true → scoreOf d tokens' ≤ scoreOf d tokens

theorem falling_of_neverRises (hrises : NeverRises d chars)
    (hall : ∀ tokens, tokens ∈ all ↔ IsSegmentation d chars tokens) (horder : InOrder candidates)
    (hsub : candidates ⊆ all.map (candidateOf d)) : Falling candidates := by
  refine (List.pairwise_map.1 horder).imp_of_mem fun {a b} ha hb hab => ?_
  obtain ⟨tokens, htokens, rfl⟩ := List.mem_map.1 (hsub ha)
  obtain ⟨tokens', htokens', rfl⟩ := List.mem_map.1 (hsub hb)
  rw [score_candidateOf, score_candidateOf]
  exact hrises tokens tokens' ((hall _).1 htokens) ((hall _).1 htokens') hab

/-- Where there is room for all segmentations, they all are candidates. -/
theorem mem_candidates (htop : Top n candidates (all.map (candidateOf d))) (hroom : all.length ≤ n)
    {tokens : List Text} (htokens : tokens ∈ all) : candidateOf d tokens ∈ candidates := by
  obtain ⟨dropped, hrest⟩ := htop.rest
  have hmem := hrest.mem_iff.2 (List.mem_map_of_mem (f := candidateOf d) htokens)
  refine (List.mem_append.1 hmem).resolve_right fun hdropped => ?_
  have hcount := htop.count (candidateOf d tokens).k (fun _ => true) monotone_const
  have hpos : 0 < countUp BestTokenCandidate.k BestTokenCandidate.F (candidateOf d tokens).k
      (fun _ => true) dropped := countUp_pos hdropped rfl rfl
  have hle : countUp BestTokenCandidate.k BestTokenCandidate.F (candidateOf d tokens).k
      (fun _ => true) (all.map (candidateOf d)) ≤ n :=
    List.countP_le_length.trans (by rwa [List.length_map])
  rw [← countUp_perm hrest, countUp_append] at hcount hle
  omega

/-- Between classes the score has to fall, if all segmentations are returned. -/
theorem falls_of_findsBest (hn : 1 ≤ n) (hsmall : n < 2 ^ 31)
    (hroom : {tokens | IsSegmentation d chars tokens}.ncard ≤ n) (h : FindsBest d chars n)
    {tokens tokens' : List Text} (htokens : IsSegmentation d chars tokens)
    (htokens' : IsSegmentation d chars tokens')
    (hless : lessK (sizes tokens) (sizes tokens') = true) :
    scoreOf d tokens' ≤ scoreOf d tokens := by
  obtain ⟨dpVec, hdp, horder, all, hnodup, hall, htop⟩ :=
    candidates_spec d chars hn hsmall
  obtain ⟨result, hresult, hoptimal⟩ := h
  rw [ncard_eq hnodup hall] at hroom
  have hlen : ([] : List BestTokenCandidate).length + (dpVec.getLastD []).length ≤ n := by
    obtain ⟨dropped, hrest⟩ := htop.rest
    have := hrest.length_eq
    rw [List.length_append, List.length_map] at this
    rw [List.length_nil]
    omega
  rw [getBestTokensTopN, hdp, Option.bind_some, foldlM_take_room hlen] at hresult
  have hfall : Falling (dpVec.getLastD []) := by
    have := hoptimal.sorted
    rw [← Option.some.inj hresult] at this
    exact List.pairwise_map.1 this
  have hmem := mem_candidates htop hroom ((hall _).2 htokens)
  have hmem' := mem_candidates htop hroom ((hall _).2 htokens')
  let R : BestTokenCandidate → BestTokenCandidate → Prop := fun a b =>
    ¬ lessK b.k a.k = true ∧ b.score ≤ a.score
  have : Std.Symm fun a b => R a b ∨ R b a := ⟨fun _ _ => Or.symm⟩
  have hboth : (dpVec.getLastD []).Pairwise fun a b => R a b ∨ R b a :=
    ((List.pairwise_map.1 horder).and hfall).imp Or.inl
  have hne : candidateOf d tokens ≠ candidateOf d tokens' := by
    intro heq
    rw [candidateOf_injective heq] at hless
    exact not_lessK_self _ hless
  rw [← score_candidateOf, ← score_candidateOf]
  rcases hboth.forall hmem hmem' hne with hafter | hbefore
  · exact hafter.2
  · exact absurd hless hbefore.1

/-- One best segmentation is found, and several are where the score never rises from a class to the
next; where all segmentations are returned, it must not. -/
theorem findsBest (d : Dictionary) (chars : Text) (n : ℕ) (hn : 1 ≤ n) (hsmall : n < 2 ^ 31) :
    (n = 1 ∨ NeverRises d chars → FindsBest d chars n) ∧
      ({tokens | IsSegmentation d chars tokens}.ncard ≤ n → FindsBest d chars n →
        ∀ tokens tokens', IsSegmentation d chars tokens → IsSegmentation d chars tokens' →
          lessK (sizes tokens) (sizes tokens') = true → scoreOf d tokens' ≤ scoreOf d tokens) := by
  refine ⟨fun h => ?_, fun hroom hfinds tokens tokens' htokens htokens' =>
    falls_of_findsBest hn hsmall hroom hfinds htokens htokens'⟩
  obtain ⟨dpVec, hdp, horder, all, hnodup, hall, htop⟩ :=
    candidates_spec d chars hn hsmall
  have hfirst : Falling ((dpVec.getLastD []).take n) := by
    rcases h with rfl | hrises
    · cases dpVec.getLastD [] with
      | nil => exact .nil
      | cons c candidates => exact List.pairwise_singleton _ _
    · exact (falling_of_neverRises hrises hall horder htop.subset).sublist (List.take_sublist _ _)
  obtain ⟨midResult, hmid, hfall, hbest⟩ := select_spec hn hfirst
  refine ⟨_, ?_, optimal_of_best hnodup hall hfall (htop.coarse (fun a b => score_le_iff) hbest)⟩
  rw [getBestTokensTopN, hdp, Option.bind_some, hmid]
  rfl

end Whole

/-! ## Two characters -/

/-- A word and its two characters, which are more frequent. -/
def pairDictionary : Dictionary where
  trie := ((Dict.empty.set ['a', 'b'] (encode 10 0)).set ['a'] (encode 100 0)).set ['b']
    (encode 100 0)
  double := id
  nonneg := by
    have hall : ∀ e ∈ (((Dict.empty.set ['a', 'b'] (encode 10 0)).set ['a']
        (encode 100 0)).set ['b'] (encode 100 0)).entries, 0 ≤ e.2.toInt := by decide
    exact fun k v hv => hall (k, v) (Dict.get?_eq_some_iff.1 hv)

/-- The one segmentation asked for is the best. -/
theorem findsBest_one : FindsBest pairDictionary ['a', 'b'] 1 :=
  (findsBest pairDictionary ['a', 'b'] 1 le_rfl (by decide)).1 (.inl rfl)

/-- Of two segmentations the one with fewer tokens comes first, though it is not the better one. -/
theorem not_findsBest : ¬ FindsBest pairDictionary ['a', 'b'] 2 := by
  have hresult : getBestTokensTopN pairDictionary ['a', 'b'] 2 =
      some [([['a', 'b']], 41), ([['a'], ['b']], 215)] := by decide +kernel
  rintro ⟨result, hsome, hoptimal⟩
  rw [hresult] at hsome
  obtain rfl := Option.some.inj hsome
  have hsorted := hoptimal.sorted
  rw [List.pairwise_pair] at hsorted
  exact absurd hsorted (by decide)

end RagFlow.Analyzer.BestTokens
