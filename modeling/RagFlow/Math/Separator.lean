/-
# Splitting at a separator

The pieces of a list between the leftmost occurrences of a separator. A list of pieces comes back
from its join exactly if no piece contains the separator or, with another behind it, runs into it.
-/

import RagFlow.Math.Split

namespace RagFlow.Math

variable {α : Type*}

/-- The stretches of a split, without the matches between them. -/
def stretches : List (List α) → List (List α)
  | [] => []
  | [s] => [s]
  | s :: _ :: rest => s :: stretches rest

variable [DecidableEq α]

/-- The pieces between occurrences of a separator. -/
def splitAtSep (d l : List α) : List (List α) := stretches (splitMatches (literal d) l)

/-- No occurrence of `d` begins inside `s` where `rest` follows. -/
def Clean (d s rest : List α) : Prop := ∀ t, t <:+ s → t ≠ [] → ¬ d <+: t ++ rest

/-- Pieces that can be told apart when they are joined. -/
def Separated (d : List α) : List (List α) → Prop
  | [] => False
  | [s] => Clean d s []
  | s :: s' :: rest => Clean d s d ∧ Separated d (s' :: rest)

/-- No piece between single elements has one of them. -/
theorem not_mem_of_mem_splitOn {t w : List α} {c : α} (h : w ∈ t.splitOn c) : c ∉ w := by
  induction t generalizing w with
  | nil =>
      rw [List.splitOn_nil, List.mem_singleton] at h
      rw [h]
      exact List.not_mem_nil
  | cons a t ih =>
      rw [List.splitOn_cons_eq_if_modifyHead] at h
      split_ifs at h with ha
      · rcases List.mem_cons.mp h with rfl | h
        · exact List.not_mem_nil
        · exact ih h
      · cases hsplit : t.splitOn c with
        | nil => exact absurd hsplit (List.splitOn_ne_nil c t)
        | cons v vs =>
            rw [hsplit] at h ih
            rcases List.mem_cons.mp h with rfl | h
            · intro hc
              rcases List.mem_cons.mp hc with rfl | hc
              · exact ha (beq_self_eq_true c)
              · exact ih List.mem_cons_self hc
            · exact ih (List.mem_cons_of_mem v h)

section Separator

variable {d s s' cur l : List α} {ps : List (List α)}

omit [DecidableEq α] in
theorem splitFrom_drop (m : List α → ℕ) (skip : ℕ) (cur l : List α) :
    splitFrom m skip cur l = splitFrom m 0 cur (l.drop skip) := by
  induction l generalizing skip with
  | nil => rw [List.drop_nil]; cases skip <;> rfl
  | cons a l ih =>
      cases skip with
      | zero => rfl
      | succ skip => rw [splitFrom, ih, List.drop_succ_cons]

omit [DecidableEq α] in
theorem Clean.of_suffix {rest : List α} (h : Clean d s rest) (hsuf : s' <:+ s) :
    Clean d s' rest :=
  fun t ht hne => h t (ht.trans hsuf) hne

omit [DecidableEq α] in
theorem clean_nil (d rest : List α) : Clean d [] rest :=
  fun _ ht hne => absurd (List.suffix_nil.mp ht) hne

omit [DecidableEq α] in
/-- At the end of the list nothing runs on. -/
theorem clean_end_iff (hd : d ≠ []) : Clean d s [] ↔ ¬ d <:+: s := by
  rw [List.infix_iff_prefix_suffix]
  constructor
  · rintro h ⟨t, hpre, hsuf⟩
    refine h t hsuf ?_ (by rwa [List.append_nil])
    rintro rfl
    exact hd (List.prefix_nil.mp hpre)
  · intro h t hsuf _ hpre
    rw [List.append_nil] at hpre
    exact h ⟨t, hpre, hsuf⟩

omit [DecidableEq α] in
/-- What follows a separator does not matter. -/
theorem clean_append_iff (d s rest : List α) : Clean d s (d ++ rest) ↔ Clean d s d := by
  have hlong : ∀ t : List α, d <+: t ++ (d ++ rest) ↔ d <+: t ++ d := fun t => by
    rw [← List.append_assoc]
    exact ⟨fun h => List.prefix_of_prefix_length_le h (List.prefix_append _ _)
      (by rw [List.length_append]; exact Nat.le_add_left _ _), fun h => h.trans
      (List.prefix_append _ _)⟩
  simp only [Clean, hlong]

/-- A clean stretch is read as it is. -/
theorem splitFrom_append_of_clean (h : Clean d s l) :
    splitFrom (literal d) 0 cur (s ++ l) = splitFrom (literal d) 0 (cur ++ s) l := by
  induction s generalizing cur with
  | nil => rw [List.nil_append, List.append_nil]
  | cons a s ih =>
      have hno : literal d (a :: (s ++ l)) = 0 :=
        if_neg (h (a :: s) List.suffix_rfl (List.cons_ne_nil a s))
      rw [List.cons_append, splitFrom_of_no_match hno, ih (h.of_suffix (List.suffix_cons a s)),
        List.append_assoc, List.singleton_append]

theorem splitFrom_sep (hd : d ≠ []) :
    splitFrom (literal d) 0 cur (d ++ l) = cur :: d :: splitFrom (literal d) 0 [] l := by
  obtain ⟨a, d', rfl⟩ := List.exists_cons_of_ne_nil hd
  have hmatch : literal (a :: d') (a :: (d' ++ l)) = d'.length + 1 :=
    if_pos (List.prefix_append (a :: d') l)
  rw [List.cons_append, splitFrom_of_match hmatch, splitFrom_drop _ d'.length]
  simp

/-- Pieces that can be told apart come back from their join. -/
theorem splitAtSep_intercalate (hd : d ≠ []) (h : Separated d ps) :
    splitAtSep d (d.intercalate ps) = ps := by
  rw [splitAtSep, splitMatches]
  induction ps with
  | nil => exact absurd h id
  | cons s ps ih =>
      cases ps with
      | nil =>
          have hread : splitFrom (literal d) 0 [] (s ++ []) =
              splitFrom (literal d) 0 ([] ++ s) [] := splitFrom_append_of_clean h
          rw [List.append_nil, List.nil_append] at hread
          rw [List.intercalate_singleton, hread]
          rfl
      | cons s' ps =>
          obtain ⟨hclean, hrest⟩ := h
          rw [List.intercalate_cons_cons, List.append_assoc,
            splitFrom_append_of_clean ((clean_append_iff d s _).mpr hclean), splitFrom_sep hd,
            List.nil_append, stretches, ih hrest]

/-- The pieces of a split can be told apart, and their join is the list. -/
theorem splitAtSep_spec (hd : d ≠ []) (l : List α) :
    Separated d (splitAtSep d l) ∧ d.intercalate (splitAtSep d l) = l := by
  -- From inside a piece, of which what has been read is clean.
  have hgen : ∀ n, ∀ cur l : List α, l.length ≤ n → Clean d cur l →
      Separated d (stretches (splitFrom (literal d) 0 cur l)) ∧
        d.intercalate (stretches (splitFrom (literal d) 0 cur l)) = cur ++ l := by
    intro n
    induction n with
    | zero =>
        intro cur l hl hclean
        obtain rfl := List.length_eq_zero_iff.mp (Nat.le_zero.mp hl)
        exact ⟨hclean, by rw [splitFrom, stretches, List.intercalate_singleton, List.append_nil]⟩
    | succ n ih =>
        intro cur l hl hclean
        cases l with
        | nil => exact ⟨hclean, by
            rw [splitFrom, stretches, List.intercalate_singleton, List.append_nil]⟩
        | cons a l =>
            by_cases hpre : d <+: a :: l
            · obtain ⟨rest, hrest⟩ := hpre
              rw [← hrest] at hl hclean ⊢
              have hshort : rest.length ≤ n := by
                have hpos := List.length_pos_iff.mpr hd
                rw [List.length_append] at hl
                omega
              obtain ⟨hsep, hjoin⟩ := ih [] rest hshort (clean_nil d rest)
              rw [splitFrom_sep hd, stretches]
              cases hpieces : stretches (splitFrom (literal d) 0 [] rest) with
              | nil =>
                  rw [hpieces] at hsep
                  exact absurd hsep id
              | cons s' ps =>
                  rw [hpieces] at hsep hjoin
                  refine ⟨⟨(clean_append_iff d cur rest).mp hclean, hsep⟩, ?_⟩
                  rw [List.intercalate_cons_cons, hjoin, List.nil_append, List.append_assoc]
            · have hread : Clean d (cur ++ [a]) l := by
                intro t ht hne
                rcases List.suffix_concat_iff.mp ht with rfl | ⟨t', rfl, ht'⟩
                · exact absurd rfl hne
                · rw [List.append_assoc, List.singleton_append]
                  by_cases hnil : t' = []
                  · rw [hnil]
                    exact hpre
                  · exact hclean t' ht' hnil
              rw [splitFrom_of_no_match (if_neg hpre)]
              rw [List.length_cons] at hl
              have hstep := ih (cur ++ [a]) l (by omega) hread
              rwa [List.append_assoc, List.singleton_append] at hstep
  exact hgen l.length [] l le_rfl (clean_nil d l)

omit [DecidableEq α] in
theorem length_intercalate (hps : ps ≠ []) :
    (d.intercalate ps).length + d.length = ps.flatten.length + ps.length * d.length := by
  induction ps with
  | nil => exact absurd rfl hps
  | cons s ps ih =>
      cases ps with
      | nil => simp
      | cons s' ps =>
          have hlen := ih (List.cons_ne_nil s' ps)
          rw [List.intercalate_cons_cons, List.length_append, List.length_append,
            List.flatten_cons (l := s), List.length_append, List.length_cons (a := s),
            Nat.succ_mul]
          omega

omit [DecidableEq α] in
theorem flatten_filter_nonempty (ps : List (List α)) :
    (ps.filter fun s => !s.isEmpty).flatten = ps.flatten := by
  induction ps with
  | nil => rfl
  | cons s ps ih => cases s <;> simp [ih]

/-- When the empty pieces are dropped, a list of pieces comes back from its join exactly if none
is empty and they can be told apart. -/
theorem filter_splitAtSep_intercalate_iff (hd : d ≠ []) :
    ((splitAtSep d (d.intercalate ps)).filter fun s => !s.isEmpty) = ps ↔
      ps = [] ∨ (∀ s ∈ ps, s ≠ []) ∧ Separated d ps := by
  constructor
  · intro h
    obtain ⟨hsep, hjoin⟩ := splitAtSep_spec hd (d.intercalate ps)
    generalize splitAtSep d (d.intercalate ps) = qs at h hsep hjoin
    by_cases hps : ps = []
    · exact Or.inl hps
    -- As many separators were read as were written, so no piece was dropped.
    have hqs : qs ≠ [] := by
      rintro rfl
      exact hsep
    have hlen := length_intercalate (d := d) hqs
    rw [hjoin, length_intercalate hps, ← flatten_filter_nonempty qs, h] at hlen
    have hcount : (qs.filter fun s => !s.isEmpty).length = qs.length := by
      rw [h]
      exact Nat.eq_of_mul_eq_mul_right (List.length_pos_iff.mpr hd) (Nat.add_left_cancel hlen)
    have hall := List.length_filter_eq_length_iff.mp hcount
    have hsame : qs = ps := (List.filter_eq_self.mpr hall).symm.trans h
    subst hsame
    exact Or.inr ⟨fun s hs hnil => by simpa [hnil] using hall s hs, hsep⟩
  · rintro (rfl | ⟨hne, hsep⟩)
    · have hnil : splitAtSep d [] = [[]] := rfl
      rw [List.intercalate_nil, hnil]
      rfl
    · rw [splitAtSep_intercalate hd hsep, List.filter_eq_self]
      intro s hs
      simpa using hne s hs

/-! ## Separators of one entry repeated -/

omit [DecidableEq α] in
/-- A piece runs into a separator of `a`s exactly if it ends in an `a`. -/
theorem clean_replicate_iff {n : ℕ} {a : α} (hn : n ≠ 0) :
    Clean (List.replicate n a) s (List.replicate n a) ↔
      ¬ List.replicate n a <:+: s ∧ s.getLast? ≠ some a := by
  constructor
  · intro h
    constructor
    · rw [List.infix_iff_prefix_suffix]
      rintro ⟨t, hpre, hsuf⟩
      refine h t hsuf ?_ (hpre.trans (List.prefix_append t _))
      rintro rfl
      exact hn ((List.replicate_eq_nil_iff a).mp (List.prefix_nil.mp hpre))
    · intro hlast
      obtain ⟨s', rfl⟩ := List.getLast?_eq_some_iff.mp hlast
      refine h [a] (List.suffix_append s' [a]) (List.cons_ne_nil a []) ?_
      rw [List.singleton_append, ← List.replicate_succ, List.replicate_succ']
      exact List.prefix_append _ _
  · rintro ⟨hno, hlast⟩ t hsuf hne hpre
    rcases Nat.le_total n t.length with hle | hle
    · have hin : List.replicate n a <+: t := List.prefix_of_prefix_length_le hpre
        (List.prefix_append t _) (by rwa [List.length_replicate])
      exact hno (List.infix_iff_prefix_suffix.mpr ⟨t, hin, hsuf⟩)
    · have hin : t <+: List.replicate n a := List.prefix_of_prefix_length_le
        (List.prefix_append t _) hpre (by rwa [List.length_replicate])
      have hall : ∀ b ∈ t, b = a := fun b hb => List.eq_of_mem_replicate (hin.subset hb)
      obtain ⟨s', rfl⟩ := hsuf
      refine hlast ?_
      rw [List.getLast?_append_of_ne_nil _ hne, List.getLast?_eq_some_getLast hne,
        hall _ (List.getLast_mem hne)]

omit [DecidableEq α] in
theorem separated_replicate_iff {n : ℕ} {a : α} (hn : n ≠ 0) (hps : ps ≠ []) :
    Separated (List.replicate n a) ps ↔
      (∀ s ∈ ps, ¬ List.replicate n a <:+: s) ∧ ∀ s ∈ ps.dropLast, s.getLast? ≠ some a := by
  induction ps with
  | nil => exact absurd rfl hps
  | cons s ps ih =>
      cases ps with
      | nil =>
          rw [Separated, clean_end_iff fun h => hn ((List.replicate_eq_nil_iff a).mp h)]
          simp
      | cons s' ps =>
          rw [Separated, clean_replicate_iff hn, ih (List.cons_ne_nil s' ps),
            List.dropLast_cons_cons, List.forall_mem_cons (a := s) (l := s' :: ps),
            List.forall_mem_cons (a := s) (l := (s' :: ps).dropLast)]
          exact and_and_and_comm

/-! ## Separators that begin with an entry of their own -/

omit [DecidableEq α] in
theorem intercalate_append {qs : List (List α)} (hps : ps ≠ []) (hqs : qs ≠ []) :
    d.intercalate (ps ++ qs) = d.intercalate ps ++ (d ++ d.intercalate qs) := by
  induction ps with
  | nil => exact absurd rfl hps
  | cons s ps ih =>
      cases ps with
      | nil =>
          obtain ⟨q, qs, rfl⟩ := List.exists_cons_of_ne_nil hqs
          rw [List.singleton_append, List.intercalate_cons_cons, List.intercalate_singleton,
            List.append_assoc]
      | cons s' ps =>
          rw [List.cons_append, List.cons_append, List.intercalate_cons_cons, ← List.cons_append,
            ih (List.cons_ne_nil s' ps), List.intercalate_cons_cons]
          simp only [List.append_assoc]

omit [DecidableEq α] in
/-- Such a separator begins in no piece that does not contain it. -/
theorem Clean.of_head {c : α} {tail : List α} (hc : c ∉ tail) (h : Clean (c :: tail) s []) :
    Clean (c :: tail) s (c :: tail) := by
  intro t hsuf hne hpre
  rcases Nat.le_total (c :: tail).length t.length with hle | hle
  · refine h t hsuf hne ?_
    rw [List.append_nil]
    exact List.prefix_of_prefix_length_le hpre (List.prefix_append t _) hle
  · -- The separator runs out of `t`, so that its first entry is also a later one.
    have hin : t <+: c :: tail :=
      List.prefix_of_prefix_length_le (List.prefix_append t _) hpre hle
    obtain ⟨u, hu⟩ := hin
    obtain ⟨a, t', rfl⟩ := List.exists_cons_of_ne_nil hne
    obtain ⟨rfl, htail⟩ := List.cons.inj hu
    rw [← hu, List.prefix_append_right_inj] at hpre
    cases u with
    | nil =>
        refine h (a :: t') hsuf hne ?_
        rw [List.append_nil, ← hu, List.append_nil]
    | cons b u =>
        obtain ⟨v, hv⟩ := hpre
        rw [List.cons_append, List.cons_append] at hv
        refine hc ?_
        rw [← htail, ← (List.cons.inj hv).1]
        exact List.mem_append_right t' List.mem_cons_self

omit [DecidableEq α] in
theorem Separated.append {qs : List (List α)} (hclean : ∀ s, Clean d s [] → Clean d s d)
    (hps : Separated d ps) (hqs : Separated d qs) : Separated d (ps ++ qs) := by
  induction ps with
  | nil => exact absurd hps id
  | cons s ps ih =>
      cases ps with
      | nil =>
          cases qs with
          | nil => exact absurd hqs id
          | cons q qs => exact ⟨hclean s hps, hqs⟩
      | cons s' ps => exact ⟨hps.1, ih hps.2⟩

omit [DecidableEq α] in
theorem Separated.ne_nil (h : Separated d ps) : ps ≠ [] := by
  rintro rfl
  exact h

/-- A separator put between two lists only puts their pieces together. -/
theorem splitAtSep_append {c : α} {tail : List α} (hc : c ∉ tail) (u v : List α) :
    splitAtSep (c :: tail) (u ++ (c :: tail ++ v)) =
      splitAtSep (c :: tail) u ++ splitAtSep (c :: tail) v := by
  have hd : c :: tail ≠ [] := List.cons_ne_nil c tail
  obtain ⟨hus, hu⟩ := splitAtSep_spec hd u
  obtain ⟨hvs, hv⟩ := splitAtSep_spec hd v
  have hjoin := intercalate_append (d := c :: tail) hus.ne_nil hvs.ne_nil
  rw [hu, hv] at hjoin
  rw [← hjoin]
  exact splitAtSep_intercalate hd (hus.append (fun s hs => hs.of_head hc) hvs)

omit [DecidableEq α] in
theorem mem_intercalate_of_mem (sep : List α) {w : List α} {a : α} (hw : w ∈ ps) (ha : a ∈ w) :
    a ∈ sep.intercalate ps := by
  induction ps with
  | nil => exact absurd hw List.not_mem_nil
  | cons v ps ih =>
      cases ps with
      | nil =>
          rw [List.intercalate_singleton]
          exact List.mem_singleton.mp hw ▸ ha
      | cons u us =>
          rw [List.intercalate_cons_cons]
          rcases List.mem_cons.mp hw with rfl | hw
          · exact List.mem_append_left _ (List.mem_append_left _ ha)
          · exact List.mem_append_right _ (ih hw)

omit [DecidableEq α] in
theorem mem_of_mem_intercalate {sep : List α} {a : α} (h : a ∈ sep.intercalate ps) :
    a ∈ sep ∨ ∃ w ∈ ps, a ∈ w := by
  induction ps with
  | nil => exact absurd h List.not_mem_nil
  | cons v ps ih =>
      cases ps with
      | nil =>
          rw [List.intercalate_singleton] at h
          exact Or.inr ⟨v, List.mem_cons_self, h⟩
      | cons u us =>
          rw [List.intercalate_cons_cons] at h
          rcases List.mem_append.mp h with h | h
          · rcases List.mem_append.mp h with h | h
            · exact Or.inr ⟨v, List.mem_cons_self, h⟩
            · exact Or.inl h
          · rcases ih h with h | ⟨w, hw, ha⟩
            · exact Or.inl h
            · exact Or.inr ⟨w, List.mem_cons_of_mem v hw, ha⟩

/-- A separator of one element that no piece has. -/
theorem splitAtSep_singleton {a : α} (hps : ps ≠ []) (h : ∀ p ∈ ps, a ∉ p) :
    splitAtSep [a] ([a].intercalate ps) = ps := by
  refine splitAtSep_intercalate (List.cons_ne_nil a []) ?_
  rw [← List.replicate_one, separated_replicate_iff Nat.one_ne_zero hps]
  constructor
  · intro p hp ha
    exact h p hp (ha.subset List.mem_cons_self)
  · intro p hp ha
    exact h p (List.dropLast_subset _ hp) (List.mem_of_getLast? ha)

end Separator

end RagFlow.Math

/-! ## Lists that are glued together one by one

A running list grows by a separator and the next part. What comes out is the join of the
parts, as long as none is empty. A list of such joins tells the number of its parts and their
lengths together, so no part can be missing from it. -/

namespace RagFlow.Math

universe u

variable {α : Type u} {sep : List α}

/-- The next part behind the running list. -/
def glue (sep cur part : List α) : List α :=
  cur ++ (if cur = [] then [] else sep) ++ part

/-- A join of parts that are not empty is empty only if there are none. -/
theorem intercalate_eq_nil_iff {parts : List (List α)} (hparts : ∀ p ∈ parts, p ≠ []) :
    sep.intercalate parts = [] ↔ parts = [] := by
  constructor
  · intro h
    rcases parts with _ | ⟨p, _ | ⟨q, parts⟩⟩
    · rfl
    · exact absurd (by simpa using h) (hparts p List.mem_cons_self)
    · rw [List.intercalate_cons_cons, List.append_eq_nil_iff, List.append_eq_nil_iff] at h
      exact absurd h.1.1 (hparts p List.mem_cons_self)
  · rintro rfl
    rfl

theorem intercalate_append_singleton {parts : List (List α)} (hne : parts ≠ []) (p : List α) :
    sep.intercalate (parts ++ [p]) = sep.intercalate parts ++ sep ++ p := by
  induction parts with
  | nil => exact absurd rfl hne
  | cons q parts ih =>
      cases parts with
      | nil => simp [List.intercalate]
      | cons r parts =>
          rw [List.cons_append, List.cons_append, List.intercalate_cons_cons, ← List.cons_append,
            ih (List.cons_ne_nil r parts), List.intercalate_cons_cons]
          simp only [List.append_assoc]

theorem glue_intercalate {parts : List (List α)} (hparts : ∀ p ∈ parts, p ≠ []) (p : List α) :
    glue sep (sep.intercalate parts) p = sep.intercalate (parts ++ [p]) := by
  by_cases hnil : parts = []
  · subst hnil
    simp [glue]
  · have hne : sep.intercalate parts ≠ [] := mt (intercalate_eq_nil_iff hparts).mp hnil
    rw [glue, if_neg hne, intercalate_append_singleton hnil]

/-- Each of the joins is of consecutive parts, and there is no part that is not in one. -/
def Joined (sep : List α) (parts joins : List (List α)) : Prop :=
  ∃ groups : List (List (List α)), groups.flatten = parts ∧ (∀ g ∈ groups, g ≠ []) ∧
    joins = groups.map sep.intercalate

theorem joined_nil : Joined sep [] [] := ⟨[], rfl, by simp, rfl⟩

theorem Joined.snoc {parts joins : List (List α)} (h : Joined sep parts joins)
    {group : List (List α)} (hgroup : group ≠ []) :
    Joined sep (parts ++ group) (joins ++ [sep.intercalate group]) := by
  obtain ⟨groups, rfl, hne, rfl⟩ := h
  refine ⟨groups ++ [group], by simp, ?_, by simp⟩
  intro g hg
  rcases List.mem_append.mp hg with hg | hg
  · exact hne g hg
  · rw [List.mem_singleton.mp hg]
    exact hgroup

/-- The joins tell how many parts there are and how long. -/
theorem Joined.length_eq {parts joins : List (List α)} (h : Joined sep parts joins) :
    parts.flatten.length + parts.length * sep.length =
      joins.flatten.length + joins.length * sep.length := by
  obtain ⟨groups, rfl, hne, rfl⟩ := h
  induction groups with
  | nil => rfl
  | cons g groups ih =>
      have hrest := ih fun g' hg' => hne g' (List.mem_cons_of_mem g hg')
      have hfirst := length_intercalate (d := sep) (hne g List.mem_cons_self)
      simp only [List.flatten_cons, List.flatten_append, List.length_append, List.map_cons,
        List.length_cons, Nat.add_mul, Nat.one_mul] at hrest ⊢
      omega

/-- So no part can be missing in front. -/
theorem Joined.eq_nil_of_append (hsep : sep ≠ []) {lost parts joins : List (List α)}
    (h : Joined sep parts joins) (h' : Joined sep (lost ++ parts) joins) : lost = [] := by
  have hlength := h'.length_eq
  rw [← h.length_eq, List.flatten_append, List.length_append, List.length_append,
    Nat.add_mul] at hlength
  have hzero : lost.length * sep.length = 0 := by omega
  rcases Nat.mul_eq_zero.mp hzero with hnil | hnil
  · exact List.eq_nil_of_length_eq_zero hnil
  · exact absurd (List.eq_nil_of_length_eq_zero hnil) hsep

end RagFlow.Math
