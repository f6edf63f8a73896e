/-
# Conditions of a query

A condition is read from tokens as a predicate of rows: OR binds weaker than AND, AND weaker
than NOT, and parentheses group. What stands between these is left to the language, which says
what a comparison means.
-/

import RagFlow.Math.Except
import RagFlow.Sql.Tokens

namespace RagFlow.Sql

open RagFlow.Math (mapM_congr)

/-- A word in capital or small letters. -/
def keyword (k : String) : Token → Bool
  | .word w => w.map Char.toLower = k.toList
  | _ => false

/-! ## Parentheses -/

def deeper (d : ℕ) (t : Token) : ℕ :=
  if t = .sign '(' then d + 1 else if t = .sign ')' then d - 1 else d

def depth (d : ℕ) (ts : List Token) : ℕ := ts.foldl deeper d

/-- The pieces between the separators outside parentheses. -/
@[grind =] def splitTop (isSep : Token → Bool) : ℕ → List Token → List (List Token)
  | _, [] => [[]]
  | d, t :: ts =>
    if d = 0 && isSep t then [] :: splitTop isSep 0 ts
    else (splitTop isSep (deeper d t) ts).modifyHead (t :: ·)

/-- What stands before and behind the parenthesis that closes. -/
@[grind =] def untilClose : ℕ → List Token → Option (List Token × List Token)
  | _, [] => none
  | d, t :: ts =>
    if t = .sign ')' then
      if d = 0 then some ([], ts) else (untilClose (d - 1) ts).map fun r => (t :: r.1, r.2)
    else (untilClose (deeper d t) ts).map fun r => (t :: r.1, r.2)

/-- The tokens between two parentheses that belong together. -/
def inner : List Token → Option (List Token)
  | .sign '(' :: ts =>
    match untilClose 0 ts with
    | some (body, []) => some body
    | _ => none
  | _ => none

/-! ## The meaning of a condition -/

section Meaning

variable {ρ : Type*} (comparison : List Token → Option (ρ → Bool))

section Level

variable (sub : List Token → Option (ρ → Bool))

def factor : List Token → Option (ρ → Bool)
  | [] => none
  | t :: ts =>
    if keyword "not" t then (factor ts).map fun p row => !p row
    else
      match inner (t :: ts) with
      | some body => sub body
      | none => comparison (t :: ts)

def factors (ts : List Token) : Option (List (ρ → Bool)) :=
  (splitTop (keyword "and") 0 ts).mapM (factor comparison sub)

def conjunction (ts : List Token) : Option (ρ → Bool) :=
  (factors comparison sub ts).map fun ps row => ps.all (· row)

def disjuncts (ts : List Token) : Option (List (ρ → Bool)) :=
  (splitTop (keyword "or") 0 ts).mapM (conjunction comparison sub)

end Level

/-- Conditions in which parentheses are nested less than `n` times. -/
def conditionWithin : ℕ → List Token → Option (ρ → Bool)
  | 0, _ => none
  | n + 1, ts => (disjuncts comparison (conditionWithin n) ts).map fun ps row => ps.any (· row)

def condition (ts : List Token) : Option (ρ → Bool) :=
  conditionWithin comparison (ts.length + 1) ts

end Meaning

/-! ## Depth -/

/-- Tokens with parentheses that belong together in pairs. -/
inductive Balanced : List Token → Prop
  | nil : Balanced []
  | cons {t : Token} {ts : List Token} : t ≠ .sign '(' → t ≠ .sign ')' → Balanced ts →
      Balanced (t :: ts)
  | group {body ts : List Token} : Balanced body → Balanced ts →
      Balanced (.sign '(' :: (body ++ .sign ')' :: ts))

section Depth

variable {isSep : Token → Bool} {a b ts body : List Token} {t : Token} {d n m : ℕ}

theorem depth_append : depth d (a ++ b) = depth (depth d a) b := List.foldl_append

theorem Balanced.depth_eq (h : Balanced ts) : depth d ts = d := by
  induction h generalizing d with
  | nil => rfl
  | cons hopen hclose _ ih =>
      rw [depth, List.foldl_cons, deeper, if_neg hopen, if_neg hclose]
      exact ih
  | @group body ts _ _ ihBody ihRest =>
      have hbody : depth (d + 1) body = d + 1 := ihBody
      rw [depth, List.foldl_cons, List.foldl_append, List.foldl_cons]
      change depth (deeper (depth (d + 1) body) (.sign ')')) ts = d
      rw [hbody]
      exact ihRest

theorem Balanced.untilClose_append (h : Balanced ts) (b : List Token) :
    untilClose d (ts ++ b) = (untilClose d b).map fun r => (ts ++ r.1, r.2) := by
  induction h generalizing d b with
  | nil => simp
  | cons hopen hclose _ ih =>
      rw [List.cons_append, untilClose, if_neg hclose, deeper, if_neg hopen, if_neg hclose, ih,
        Option.map_map]
      rfl
  | @group body ts _ _ ihBody ihRest =>
      rw [List.cons_append, untilClose, if_neg (by decide), List.append_assoc, ihBody,
        List.cons_append, untilClose, if_pos rfl, deeper, if_pos rfl, if_neg (Nat.succ_ne_zero d),
        Nat.add_sub_cancel, ihRest, Option.map_map, Option.map_map, Option.map_map]
      congr 1
      funext r
      simp

theorem Balanced.inner_eq (h : Balanced body) :
    inner (.sign '(' :: (body ++ [.sign ')'])) = some body := by
  rw [inner, h.untilClose_append]
  simp [untilClose]

theorem Balanced.append (ha : Balanced a) (hb : Balanced b) : Balanced (a ++ b) := by
  induction ha with
  | nil => exact hb
  | cons hopen hclose _ ih => exact .cons hopen hclose ih
  | group hbody _ _ ih =>
      rw [List.cons_append, List.append_assoc]
      exact .group hbody ih

/-! ## Pieces -/

/-- Tokens without a separator outside parentheses. -/
def TopFree (isSep : Token → Bool) (ts : List Token) : Prop := splitTop isSep 0 ts = [ts]

theorem splitTop_append (ha : splitTop isSep d a = [a]) :
    splitTop isSep d (a ++ b) = (splitTop isSep (depth d a) b).modifyHead (a ++ ·) := by
  induction a generalizing d with
  | nil =>
      rw [List.nil_append]
      exact (congrFun List.modifyHead_id _).symm
  | cons t a ih =>
      rw [splitTop] at ha
      split_ifs at ha with hsep
      · cases ha
      · cases hpieces : splitTop isSep (deeper d t) a with
        | nil => simp [hpieces] at ha
        | cons p ps =>
            rw [hpieces, List.modifyHead_cons] at ha
            obtain ⟨hp, rfl⟩ := List.cons.inj ha
            obtain rfl := (List.cons.inj hp).2
            rw [List.cons_append, splitTop, if_neg hsep, ih hpieces, List.modifyHead_modifyHead]
            rfl

theorem TopFree.splitTop_append (ha : TopFree isSep a) (hdepth : depth 0 a = 0) (b : List Token) :
    splitTop isSep 0 (a ++ b) = (splitTop isSep 0 b).modifyHead (a ++ ·) := by
  rw [Sql.splitTop_append ha, hdepth]

theorem TopFree.append (ha : TopFree isSep a) (hdepth : depth 0 a = 0) (hb : TopFree isSep b) :
    TopFree isSep (a ++ b) := by
  rw [TopFree, ha.splitTop_append hdepth, hb]
  rfl

theorem topFree_singleton (ht : isSep t = false) : TopFree isSep [t] := by
  simp [TopFree, splitTop, ht]

theorem topFree_of_forall (h : ∀ t ∈ ts, isSep t = false) : splitTop isSep d ts = [ts] := by
  induction ts generalizing d with
  | nil => rfl
  | cons t ts ih =>
      rw [splitTop, h t List.mem_cons_self, Bool.and_false, if_neg Bool.false_ne_true,
        ih fun u hu => h u (List.mem_cons_of_mem t hu)]
      rfl

theorem splitTop_succ_cons :
    splitTop isSep (d + 1) (t :: ts) =
      (splitTop isSep (deeper (d + 1) t) ts).modifyHead (t :: ·) := by
  rw [splitTop, if_neg (by simp)]

theorem Balanced.splitTop_succ (h : Balanced ts) : splitTop isSep (d + 1) ts = [ts] := by
  induction h generalizing d with
  | nil => rfl
  | cons hopen hclose _ ih =>
      rw [splitTop_succ_cons, deeper, if_neg hopen, if_neg hclose, ih]
      rfl
  | @group body ts hbody _ ihBody ihRest =>
      rw [splitTop_succ_cons, deeper, if_pos rfl, Sql.splitTop_append ihBody, hbody.depth_eq,
        splitTop_succ_cons, deeper, if_neg (by decide), if_pos rfl, Nat.add_sub_cancel, ihRest]
      rfl

theorem topFree_group (h : Balanced body) (hopen : isSep (.sign '(') = false) :
    TopFree isSep (.sign '(' :: (body ++ [.sign ')'])) := by
  have hinside : splitTop isSep (0 + 1) body = [body] := h.splitTop_succ
  rw [TopFree, splitTop, hopen, deeper, if_pos rfl, Sql.splitTop_append hinside, h.depth_eq]
  simp [splitTop]

theorem TopFree.splitTop_sep (ha : TopFree isSep a) (hdepth : depth 0 a = 0)
    (ht : isSep t = true) : splitTop isSep 0 (a ++ t :: b) = a :: splitTop isSep 0 b := by
  rw [ha.splitTop_append hdepth, splitTop, ht]
  simp

/-- Pieces that are joined with separators. -/
theorem splitTop_intercalate {pieces : List (List Token)} (ht : isSep t = true)
    (hne : pieces ≠ []) (hpieces : ∀ p ∈ pieces, TopFree isSep p ∧ depth 0 p = 0) :
    splitTop isSep 0 ([t].intercalate pieces) = pieces := by
  induction pieces with
  | nil => exact absurd rfl hne
  | cons p ps ih =>
      obtain ⟨hfree, hdepth⟩ := hpieces p List.mem_cons_self
      cases ps with
      | nil =>
          rw [List.intercalate_singleton]
          exact hfree
      | cons q ps =>
          rw [List.intercalate_cons_cons, List.append_assoc, List.singleton_append,
            hfree.splitTop_sep hdepth ht,
            ih (List.cons_ne_nil q ps) fun r hr => hpieces r (List.mem_cons_of_mem p hr)]

theorem topFree_intercalate {pieces : List (List Token)} (ht : isSep t = false)
    (hdeeper : ∀ d, deeper d t = d) (hpieces : ∀ p ∈ pieces, TopFree isSep p ∧ depth 0 p = 0) :
    TopFree isSep ([t].intercalate pieces) := by
  induction pieces with
  | nil => rfl
  | cons p ps ih =>
      obtain ⟨hfree, hdepth⟩ := hpieces p List.mem_cons_self
      cases ps with
      | nil =>
          rw [List.intercalate_singleton]
          exact hfree
      | cons q ps =>
          have hrest := ih fun r hr => hpieces r (List.mem_cons_of_mem p hr)
          have hstart : depth 0 (p ++ [t]) = 0 := by
            rw [depth_append, hdepth]
            exact hdeeper 0
          rw [List.intercalate_cons_cons]
          exact (hfree.append hdepth (topFree_singleton ht)).append hstart hrest

theorem length_le_of_mem_splitTop {p : List Token} (hp : p ∈ splitTop isSep d ts) :
    p.length ≤ ts.length := by
  induction ts generalizing d p with
  | nil =>
      obtain rfl := List.mem_singleton.mp hp
      exact Nat.le_refl _
  | cons t ts ih =>
      rw [splitTop] at hp
      split_ifs at hp
      · rcases List.mem_cons.mp hp with rfl | hp
        · exact Nat.zero_le _
        · exact Nat.le_succ_of_le (ih hp)
      · cases hpieces : splitTop isSep (deeper d t) ts with
        | nil => simp [hpieces] at hp
        | cons q qs =>
            rw [hpieces, List.modifyHead_cons] at hp
            rcases List.mem_cons.mp hp with rfl | hp
            · exact Nat.succ_le_succ (ih (hpieces ▸ List.mem_cons_self))
            · exact Nat.le_succ_of_le (ih (hpieces ▸ List.mem_cons_of_mem _ hp))

theorem length_untilClose {r : List Token × List Token} (h : untilClose d ts = some r) :
    r.1.length + r.2.length < ts.length := by
  induction ts generalizing d r with
  | nil => cases h
  | cons t ts ih =>
      rw [untilClose] at h
      split_ifs at h
      · obtain rfl := Option.some.inj h
        simp
      all_goals
        obtain ⟨r', hr', rfl⟩ := Option.map_eq_some_iff.mp h
        have hlen := ih hr'
        simp only [List.length_cons]
        omega

theorem length_inner (h : inner ts = some body) : body.length < ts.length := by
  rw [inner.eq_def] at h
  split at h
  · split at h
    · rename_i htokens
      obtain rfl := Option.some.inj h
      have hlen := length_untilClose htokens
      simp only [List.length_cons, List.length_nil] at hlen ⊢
      omega
    · cases h
  · cases h

end Depth

/-! ## Reading a condition -/

section Condition

variable {ρ : Type*} {comparison : List Token → Option (ρ → Bool)}
  {sub sub' : List Token → Option (ρ → Bool)} {ts a b body : List Token} {t : Token} {n m : ℕ}
  {p : ρ → Bool}

theorem factor_congr (h : ∀ body, body.length < ts.length → sub body = sub' body) :
    factor comparison sub ts = factor comparison sub' ts := by
  induction ts with
  | nil => rfl
  | cons t ts ih =>
      rw [factor, factor, ih fun body hbody => h body (Nat.lt_succ_of_lt hbody)]
      cases hinner : inner (t :: ts) with
      | none => rfl
      | some body =>
          dsimp only
          rw [h body (length_inner hinner)]

theorem disjuncts_congr (h : ∀ body, body.length < ts.length → sub body = sub' body) :
    disjuncts comparison sub ts = disjuncts comparison sub' ts := by
  refine mapM_congr fun piece hpiece => ?_
  rw [conjunction, conjunction, factors, factors]
  congr 1
  refine mapM_congr fun q hq => factor_congr fun body hbody => h body ?_
  exact Nat.lt_of_lt_of_le hbody
    (Nat.le_trans (length_le_of_mem_splitTop hq) (length_le_of_mem_splitTop hpiece))

/-- A depth that is enough does not matter. -/
theorem conditionWithin_eq (hn : ts.length < n) (hm : ts.length < m) :
    conditionWithin comparison n ts = conditionWithin comparison m ts := by
  induction n generalizing m ts with
  | zero => cases hn
  | succ n ih =>
      cases m with
      | zero => cases hm
      | succ m =>
          rw [conditionWithin, conditionWithin]
          rw [disjuncts_congr fun body hbody => ih (Nat.lt_of_lt_of_le hbody (Nat.le_of_lt_succ hn))
            (Nat.lt_of_lt_of_le hbody (Nat.le_of_lt_succ hm))]

/-- A condition holds if one of its disjuncts does. -/
theorem condition_eq :
    condition comparison ts =
      (disjuncts comparison (condition comparison) ts).map fun ps row => ps.any (· row) := by
  rw [condition, conditionWithin]
  rw [disjuncts_congr fun body hbody => conditionWithin_eq hbody (Nat.lt_succ_self _)]
  rfl

theorem factor_not (ht : keyword "not" t = true) :
    factor comparison sub (t :: ts) = (factor comparison sub ts).map fun p row => !p row := by
  rw [factor, if_pos ht]

theorem factor_group (hbody : Balanced body) :
    factor comparison sub (.sign '(' :: (body ++ [.sign ')'])) = sub body := by
  rw [factor, if_neg (by simp [keyword]), hbody.inner_eq]

theorem factor_comparison (ht : keyword "not" t = false) (hopen : t ≠ .sign '(') :
    factor comparison sub (t :: ts) = comparison (t :: ts) := by
  have hinner : inner (t :: ts) = none := by
    rw [inner.eq_def]
    split
    · rename_i heq
      exact absurd (List.cons.inj heq).1 hopen
    · rfl
  rw [factor, ht, if_neg Bool.false_ne_true, hinner]

/-- A piece that is read as one factor. -/
structure IsFactor (ts : List Token) : Prop where
  or_free : TopFree (keyword "or") ts
  and_free : TopFree (keyword "and") ts
  depth_eq : depth 0 ts = 0

theorem keyword_or_of_and (ht : keyword "and" t = true) : keyword "or" t = false := by
  cases t with
  | word w =>
      have hw : w.map Char.toLower = "and".toList := by simpa [keyword] using ht
      rw [keyword, hw]
      decide
  | quoted q t => rfl
  | sign c => rfl

theorem deeper_of_keyword {k : String} (ht : keyword k t = true) (d : ℕ) : deeper d t = d := by
  cases t with
  | word w => rfl
  | quoted q t => rfl
  | sign c => exact Bool.noConfusion ht

theorem conjunction_factor (h : IsFactor ts) (hp : factor comparison sub ts = some p) :
    conjunction comparison sub ts = some p := by
  have hsplit : splitTop (keyword "and") 0 ts = [ts] := h.and_free
  rw [conjunction, factors, hsplit, List.mapM_cons, hp]
  simp

theorem condition_factor (h : IsFactor ts)
    (hp : factor comparison (condition comparison) ts = some p) :
    condition comparison ts = some p := by
  have hone : splitTop (keyword "or") 0 ts = [ts] := h.or_free
  rw [condition_eq, disjuncts, hone, List.mapM_cons, conjunction_factor h hp]
  simp

/-- A token that neither joins conditions nor groups them. -/
def Plain (t : Token) : Prop :=
  keyword "and" t = false ∧ keyword "or" t = false ∧ t ≠ .sign '(' ∧ t ≠ .sign ')'

instance (t : Token) : Decidable (Plain t) :=
  inferInstanceAs (Decidable (keyword "and" t = false ∧ keyword "or" t = false ∧
    t ≠ .sign '(' ∧ t ≠ .sign ')'))

theorem balanced_of_plain (h : ∀ t ∈ ts, Plain t) : Balanced ts := by
  induction ts with
  | nil => exact .nil
  | cons t ts ih =>
      obtain ⟨-, -, hopen, hclose⟩ := h t List.mem_cons_self
      exact .cons hopen hclose (ih fun u hu => h u (List.mem_cons_of_mem t hu))

theorem balanced_intercalate {pieces : List (List Token)} (hopen : t ≠ .sign '(')
    (hclose : t ≠ .sign ')') (h : ∀ q ∈ pieces, Balanced q) :
    Balanced ([t].intercalate pieces) := by
  induction pieces with
  | nil => exact .nil
  | cons q qs ih =>
      have hq := h q List.mem_cons_self
      cases qs with
      | nil =>
          rw [List.intercalate_singleton]
          exact hq
      | cons r rs =>
          rw [List.intercalate_cons_cons, List.append_assoc]
          exact hq.append (.cons hopen hclose (ih fun x hx => h x (List.mem_cons_of_mem q hx)))

theorem isFactor_of_plain (h : ∀ t ∈ ts, Plain t) : IsFactor ts where
  or_free := topFree_of_forall fun t ht => (h t ht).2.1
  and_free := topFree_of_forall fun t ht => (h t ht).1
  depth_eq := (balanced_of_plain h).depth_eq

theorem IsFactor.append (ha : IsFactor a) (hb : IsFactor b) : IsFactor (a ++ b) where
  or_free := ha.or_free.append ha.depth_eq hb.or_free
  and_free := ha.and_free.append ha.depth_eq hb.and_free
  depth_eq := by rw [depth_append, ha.depth_eq, hb.depth_eq]

theorem isFactor_group (h : Balanced body) : IsFactor (.sign '(' :: (body ++ [.sign ')'])) where
  or_free := topFree_group h rfl
  and_free := topFree_group h rfl
  depth_eq := (Balanced.group h .nil).depth_eq

/-- Factors that are joined with AND. -/
theorem condition_intercalate_and {pieces : List (List Token)} {ps : List (ρ → Bool)}
    (ht : keyword "and" t = true) (hne : pieces ≠ []) (hpieces : ∀ q ∈ pieces, IsFactor q)
    (hps : pieces.mapM (factor comparison (condition comparison)) = some ps) :
    condition comparison ([t].intercalate pieces) = some fun row => ps.all (· row) := by
  have hor := topFree_intercalate (keyword_or_of_and ht) (deeper_of_keyword ht) fun q hq =>
    ⟨(hpieces q hq).or_free, (hpieces q hq).depth_eq⟩
  have hone : splitTop (keyword "or") 0 ([t].intercalate pieces) = [[t].intercalate pieces] := hor
  have hand := splitTop_intercalate ht hne fun q hq =>
    ⟨(hpieces q hq).and_free, (hpieces q hq).depth_eq⟩
  have hconj : conjunction comparison (condition comparison) ([t].intercalate pieces) =
      some fun row => ps.all (· row) := by
    rw [conjunction, factors, hand, hps]
    rfl
  rw [condition_eq, disjuncts, hone, List.mapM_cons, hconj]
  simp

/-- Factors that are joined with OR. -/
theorem condition_intercalate_or {pieces : List (List Token)} {ps : List (ρ → Bool)}
    (ht : keyword "or" t = true) (hne : pieces ≠ []) (hpieces : ∀ q ∈ pieces, IsFactor q)
    (hps : pieces.mapM (factor comparison (condition comparison)) = some ps) :
    condition comparison ([t].intercalate pieces) = some fun row => ps.any (· row) := by
  have hor := splitTop_intercalate ht hne fun q hq =>
    ⟨(hpieces q hq).or_free, (hpieces q hq).depth_eq⟩
  have hconj : pieces.mapM (conjunction comparison (condition comparison)) = some ps := by
    rw [← hps]
    refine mapM_congr fun q hq => ?_
    cases hq' : factor comparison (condition comparison) q with
    | none =>
        have hsplit : splitTop (keyword "and") 0 q = [q] := (hpieces q hq).and_free
        rw [conjunction, factors, hsplit, List.mapM_cons, hq']
        rfl
    | some p => exact conjunction_factor (hpieces q hq) hq'
  rw [condition_eq, disjuncts, hor, hconj]
  rfl

end Condition

end RagFlow.Sql
