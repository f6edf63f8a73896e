/-
# Variable references in a text

The canvas reads a text as a reference once it has stripped braces and blanks from its ends. The
migration finds references by a pattern that asks for braces. What becomes of a reference follows
from what the pattern finds in the text, of which a reference has room for one match only.
-/

import Mathlib.Data.List.DropRight
import RagFlow.Migration.Dsl

namespace RagFlow.Migration

open RagFlow.Math
open RagFlow.Ingestion (isSpace)

/-! ## What the canvas reads -/

/-- `text.strip(c)`. -/
def strip (c : Char) (text : Text) : Text := (text.dropWhile (· = c)).rdropWhile (· = c)

def stripExp (exp : Text) : Text :=
  strip '}' (strip '{' (strip ' ' (strip '}' (strip '{' exp))))

/-- `Graph.get_variable_value`: the component and the variable that are asked for. A text without
`@` names a global, and one with several raises. -/
def variableRef (exp : Text) : Option (Text × Text) :=
  match (stripExp exp).dropWhile (· ≠ '@') with
  | '@' :: name =>
    if '@' ∈ name then none else some ((stripExp exp).takeWhile (· ≠ '@'), name)
  | _ => none

def stripLeft (text : Text) : Text :=
  ((((text.dropWhile (· = '{')).dropWhile (· = '}')).dropWhile (· = ' ')).dropWhile
    (· = '{')).dropWhile (· = '}')

def stripRight (text : Text) : Text :=
  ((((text.rdropWhile (· = '{')).rdropWhile (· = '}')).rdropWhile (· = ' ')).rdropWhile
    (· = '{')).rdropWhile (· = '}')

section Lists

variable {α : Type*} {p : α → Bool} {a : α} {u v l : List α}

theorem dropWhile_append_stop (ha : p a = false) :
    (u ++ a :: l).dropWhile p = u.dropWhile p ++ a :: l := by
  induction u with
  | nil => simp [ha]
  | cons b u ih =>
      rw [List.cons_append, List.dropWhile_cons, List.dropWhile_cons, ih]
      split <;> rfl

theorem rdropWhile_append_stop (ha : p a = false) :
    (u ++ a :: l).rdropWhile p = u ++ a :: l.rdropWhile p := by
  rw [List.rdropWhile, List.rdropWhile, List.reverse_append, List.reverse_cons, List.append_assoc,
    List.singleton_append, dropWhile_append_stop ha, List.reverse_append, List.reverse_cons,
    List.reverse_reverse, List.append_assoc, List.singleton_append]

theorem mem_rdropWhile_iff (ha : p a = false) : a ∈ l.rdropWhile p ↔ a ∈ l := by
  constructor
  · exact fun h => (List.rdropWhile_prefix p l).subset h
  · intro h
    obtain ⟨u, v, rfl⟩ := List.append_of_mem h
    rw [rdropWhile_append_stop ha]
    exact List.mem_append_right _ List.mem_cons_self

theorem not_mem_dropWhile (h : a ∉ l) : a ∉ l.dropWhile p := fun hmem =>
  h ((List.dropWhile_suffix p).subset hmem)

end Lists

theorem strip_at {c : Char} (hc : c ≠ '@') (a b : Text) :
    strip c (a ++ '@' :: b) = a.dropWhile (· = c) ++ '@' :: b.rdropWhile (· = c) := by
  have hstop : decide ('@' = c) = false := by simp [Ne.symm hc]
  rw [strip, dropWhile_append_stop (p := fun x => decide (x = c)) hstop,
    rdropWhile_append_stop (p := fun x => decide (x = c)) hstop]

theorem stripExp_at (a b : Text) :
    stripExp (a ++ '@' :: b) = stripLeft a ++ '@' :: stripRight b := by
  rw [stripExp, strip_at (by decide), strip_at (by decide), strip_at (by decide),
    strip_at (by decide), strip_at (by decide)]
  rfl

theorem not_mem_stripLeft {a : Text} (h : '@' ∉ a) : '@' ∉ stripLeft a :=
  not_mem_dropWhile (not_mem_dropWhile (not_mem_dropWhile (not_mem_dropWhile
    (not_mem_dropWhile h))))

theorem mem_stripRight_iff {b : Text} : '@' ∈ stripRight b ↔ '@' ∈ b := by
  rw [stripRight, mem_rdropWhile_iff (by decide), mem_rdropWhile_iff (by decide),
    mem_rdropWhile_iff (by decide), mem_rdropWhile_iff (by decide),
    mem_rdropWhile_iff (by decide)]

theorem mem_of_mem_stripExp {t : Text} {x : Char} (h : x ∈ stripExp t) : x ∈ t := by
  have hstrip : ∀ (c : Char) (u : Text), x ∈ strip c u → x ∈ u := fun c u hu =>
    (List.dropWhile_suffix _).subset ((List.rdropWhile_prefix _ _).subset hu)
  exact hstrip _ _ (hstrip _ _ (hstrip _ _ (hstrip _ _ (hstrip _ _ h))))

theorem variableRef_at {a : Text} (b : Text) (ha : '@' ∉ a) :
    variableRef (a ++ '@' :: b) =
      if '@' ∈ b then none else some (stripLeft a, stripRight b) := by
  have hleft : ∀ x ∈ stripLeft a, decide (x ≠ '@') = true := fun x hx => by
    simpa using fun h : x = '@' => not_mem_stripLeft ha (h ▸ hx)
  have hdrop : (stripLeft a ++ '@' :: stripRight b).dropWhile (fun x => decide (x ≠ '@')) =
      '@' :: stripRight b := by
    rw [List.dropWhile_append_of_pos hleft]
    exact List.dropWhile_cons_of_neg (by decide)
  have htake : (stripLeft a ++ '@' :: stripRight b).takeWhile (fun x => decide (x ≠ '@')) =
      stripLeft a := by
    rw [List.takeWhile_append_of_pos hleft, List.takeWhile_cons_of_neg (by decide),
      List.append_nil]
  rw [variableRef, stripExp_at, hdrop, htake]
  simp only [mem_stripRight_iff]

/-- A reference has one `@`, and what is stripped from it stands on either side. -/
theorem exists_at_of_variableRef {t c name : Text} (h : variableRef t = some (c, name)) :
    ∃ a b, t = a ++ '@' :: b ∧ '@' ∉ a ∧ '@' ∉ b ∧ c = stripLeft a ∧ name = stripRight b := by
  have hmem : '@' ∈ t := by
    rw [variableRef] at h
    split at h
    · next hdrop =>
        have hin : '@' ∈ (stripExp t).dropWhile (· ≠ '@') := hdrop ▸ List.mem_cons_self
        exact mem_of_mem_stripExp ((List.dropWhile_suffix _).subset hin)
    · cases h
  obtain ⟨a, b, rfl, ha⟩ := List.eq_append_cons_of_mem hmem
  rw [variableRef_at b ha] at h
  split at h
  · cases h
  · next hb =>
      obtain ⟨hc, hname⟩ := Prod.mk.inj (Option.some.inj h)
      exact ⟨a, b, rfl, ha, hb, hc.symm, hname.symm⟩

/-! ## New ids -/

theorem renameId_spec (t : Text) : renameId t = t ∨
    ∃ e ∈ componentRenames, ∃ r, t = e.1 ++ ':' :: r ∧ renameId t = e.2 ++ ':' :: r := by
  have hstep : ∀ renames : List (Text × Text), renameIdBy renames t = t ∨
      ∃ e ∈ renames, ∃ r, t = e.1 ++ ':' :: r ∧ renameIdBy renames t = e.2 ++ ':' :: r := by
    intro renames
    induction renames with
    | nil => exact .inl rfl
    | cons e renames ih =>
        obtain ⟨oldName, newName⟩ := e
        rw [renameIdBy]
        split
        · next hstart =>
            obtain ⟨r, rfl⟩ := hstart
            refine .inr ⟨_, List.mem_cons_self, r, by simp, ?_⟩
            rw [List.drop_left, List.append_assoc]
            rfl
        · rcases ih with hsame | ⟨e, he, hr⟩
          · exact .inl hsame
          · exact .inr ⟨e, List.mem_cons_of_mem _ he, hr⟩
  exact hstep componentRenames

/-- An id that changes begins with an old name, and then with a new one. -/
theorem head_renameId {t : Text} (h : renameId t ≠ t) :
    ∃ x y u v, t = x :: u ∧ renameId t = y :: v ∧ x ∈ ['S', 'H', 'P'] ∧ y ∈ ['T', 'D'] := by
  rcases renameId_spec t with hsame | ⟨e, he, r, ht, hnew⟩
  · exact absurd hsame h
  · simp only [componentRenames, List.mem_cons, List.not_mem_nil, or_false] at he
    rcases he with rfl | rfl | rfl <;>
      exact ⟨_, _, _, _, ht, hnew, by decide, by decide⟩

theorem renameId_renameId (t : Text) : renameId (renameId t) = renameId t := by
  by_contra hagain
  by_cases h : renameId t = t
  · rw [h] at hagain
    exact hagain h
  · obtain ⟨_, y, _, v, _, hnew, _, hy⟩ := head_renameId h
    obtain ⟨x, _, u, _, hold, _, hx, _⟩ := head_renameId hagain
    rw [hold, List.cons.injEq] at hnew
    rw [hnew.1] at hx
    simp only [List.mem_cons, List.not_mem_nil, or_false] at hx hy
    rcases hy with rfl | rfl <;> simp at hx

/-- What follows an `@` does not matter. -/
theorem renameId_at {a : Text} (b : Text) :
    renameId (a ++ '@' :: b) = renameId a ++ '@' :: b := by
  have hstart : ∀ o : Text, '@' ∉ o → (o <+: a ++ '@' :: b ↔ o <+: a) := by
    intro o ho
    refine ⟨fun h => ?_, fun h => h.trans (List.prefix_append a _)⟩
    rcases List.prefix_or_prefix_of_prefix h (List.prefix_append a _) with hshort | ⟨o', rfl⟩
    · exact hshort
    · cases o' with
      | nil => rw [List.append_nil]
      | cons x o' =>
          have hx := (List.cons_prefix_cons.mp ((List.prefix_append_right_inj a).mp h)).1
          subst hx
          exact absurd (List.mem_append_right a List.mem_cons_self) ho
  have hstep : ∀ renames : List (Text × Text), (∀ e ∈ renames, '@' ∉ e.1) →
      renameIdBy renames (a ++ '@' :: b) = renameIdBy renames a ++ '@' :: b := by
    intro renames
    induction renames with
    | nil => intro _; rfl
    | cons e renames ih =>
        intro hno
        obtain ⟨oldName, newName⟩ := e
        have hold : '@' ∉ oldName ++ [':'] := by
          simpa using hno _ List.mem_cons_self
        rw [renameIdBy, renameIdBy, ih fun e he => hno e (List.mem_cons_of_mem _ he)]
        by_cases h : oldName ++ [':'] <+: a
        · rw [if_pos h, if_pos ((hstart _ hold).mpr h), List.drop_append_of_le_length h.length_le,
            List.append_assoc _ (List.drop _ a)]
        · rw [if_neg h, if_neg fun h' => h ((hstart _ hold).mp h')]
  exact hstep componentRenames (by decide)

/-! ## What the pattern finds -/

/-- A match is made of an opening with a brace, an id, an `@` with a name, and a closing. -/
theorem matchRef_spec {s o c name cl : Text} (h : matchRef s = some (o, c, name, cl)) :
    o ++ c ++ name ++ cl <+: s ∧ '@' ∉ o ∧ c ≠ [] ∧ (∀ x ∈ c, isIdChar x = true) ∧
      ∃ name', name = '@' :: name' := by
  unfold matchRef at h
  dsimp only at h
  split at h
  · next rest hrest =>
      split at h
      · next hfound =>
          simp only [Option.some.injEq, Prod.mk.injEq] at h
          obtain ⟨ho, hc, hname, hcl⟩ := h
          refine ⟨?_, ?_, hc ▸ hfound.2.1, fun x hx => ?_, _, hname.symm⟩
          · -- The parts are what is taken from the text one after the other.
            have hopen := List.takeWhile_append_dropWhile (p := fun x => decide (x = '{')) (l := s)
            have hspace := List.takeWhile_append_dropWhile (p := isSpace)
              (l := s.dropWhile fun x => decide (x = '{'))
            have hid := List.takeWhile_append_dropWhile (p := isIdChar)
              (l := (s.dropWhile fun x => decide (x = '{')).dropWhile isSpace)
            have hnm := List.takeWhile_append_dropWhile (p := isNameChar) (l := rest)
            have hspace' := List.takeWhile_append_dropWhile (p := isSpace)
              (l := rest.dropWhile isNameChar)
            have hclose := List.takeWhile_append_dropWhile (p := fun x => decide (x = '}'))
              (l := (rest.dropWhile isNameChar).dropWhile isSpace)
            rw [← ho, ← hc, ← hname, ← hcl]
            refine ⟨((rest.dropWhile isNameChar).dropWhile isSpace).dropWhile
              (fun x => decide (x = '}')), ?_⟩
            conv_rhs => rw [← hopen, ← hspace, ← hid, hrest, ← hnm, ← hspace', ← hclose]
            simp only [List.append_assoc, List.cons_append]
          · rw [← ho, List.mem_append, not_or]
            constructor
            · intro hmem
              have hbrace := List.mem_takeWhile_imp hmem
              simp at hbrace
            · intro hmem
              have hblank := List.mem_takeWhile_imp hmem
              revert hblank
              decide
          · rw [← hc] at hx
            exact List.mem_takeWhile_imp hx
      · cases h
  · cases h

theorem at_split_unique {a b a' b' : Text} (ha : '@' ∉ a) (ha' : '@' ∉ a')
    (h : a ++ '@' :: b = a' ++ '@' :: b') : a = a' ∧ b = b' := by
  induction a generalizing a' with
  | nil =>
      cases a' with
      | nil => exact ⟨rfl, (List.cons.inj h).2⟩
      | cons x a' =>
          have hx := (List.cons.inj h).1
          exact absurd (hx ▸ List.mem_cons_self) ha'
  | cons y a ih =>
      cases a' with
      | nil =>
          have hy := (List.cons.inj h).1
          exact absurd (hy ▸ List.mem_cons_self) ha
      | cons x a' =>
          obtain ⟨rfl, hrest⟩ := List.cons.inj h
          obtain ⟨rfl, rfl⟩ := ih (fun hmem => ha (List.mem_cons_of_mem y hmem))
            (fun hmem => ha' (List.mem_cons_of_mem y hmem)) hrest
          exact ⟨rfl, rfl⟩

theorem matchRef_of_not_mem {s : Text} (h : '@' ∉ s) : matchRef s = none := by
  cases hm : matchRef s with
  | none => rfl
  | some g =>
      obtain ⟨o, c, name, cl⟩ := g
      obtain ⟨hstart, _, _, _, name', rfl⟩ := matchRef_spec hm
      exact absurd (hstart.subset (by simp)) h

/-- A match before the only `@` reaches up to it with its id. -/
theorem matchRef_at {a b o c name cl : Text} (ha : '@' ∉ a)
    (h : matchRef (a ++ '@' :: b) = some (o, c, name, cl)) :
    a = o ++ c ∧ c ≠ [] ∧ (∀ x ∈ c, isIdChar x = true) ∧
      ∃ rest, '@' :: b = name ++ cl ++ rest := by
  obtain ⟨⟨rest, hrest⟩, ho, hc, hid, name', rfl⟩ := matchRef_spec h
  have hco : '@' ∉ o ++ c := by
    rw [List.mem_append, not_or]
    exact ⟨ho, fun hmem => absurd (hid _ hmem) (by decide)⟩
  have hsplit : (o ++ c) ++ '@' :: (name' ++ cl ++ rest) = a ++ '@' :: b := by
    rw [← hrest]
    simp only [List.append_assoc, List.cons_append]
  obtain ⟨hoc, hb⟩ := at_split_unique hco ha hsplit
  exact ⟨hoc.symm, hc, hid, rest, by rw [← hb]; rfl⟩

/-- The id of the first match in a text. -/
def refId : Text → Option Text
  | [] => none
  | x :: xs =>
    match matchRef (x :: xs) with
    | some (_, c, _, _) => some c
    | none => refId xs

theorem refId_of_not_mem {s : Text} (h : '@' ∉ s) : refId s = none := by
  induction s with
  | nil => rfl
  | cons x s ih =>
      rw [refId, matchRef_of_not_mem h]
      exact ih fun hmem => h (List.mem_cons_of_mem x hmem)

variable {ids : List Text}

theorem substitute_of_not_mem {s : Text} (h : '@' ∉ s) :
    substitute (refMatcher ids) s = s := by
  refine substitute_of_none fun t ht _ => ?_
  rw [refMatcher, matchRef_of_not_mem fun hmem => h (ht.subset hmem)]
  rfl

/-- A text with one `@` has its id before the `@` replaced, if the pattern finds one. -/
theorem substitute_at {a b : Text} (ha : '@' ∉ a) (hb : '@' ∉ b) :
    (refId (a ++ '@' :: b) = none ∧
        substitute (refMatcher ids) (a ++ '@' :: b) = a ++ '@' :: b) ∨
      ∃ q d, refId (a ++ '@' :: b) = some d ∧ a = q ++ d ∧ d ≠ [] ∧
        (∀ x ∈ d, isIdChar x = true) ∧
        substitute (refMatcher ids) (a ++ '@' :: b) = q ++ mapId ids d ++ '@' :: b := by
  induction a with
  | nil =>
      have hnone : matchRef ('@' :: b) = none := by
        cases hm : matchRef ('@' :: b) with
        | none => rfl
        | some g =>
            obtain ⟨o, c, name, cl⟩ := g
            obtain ⟨hoc, hc, _⟩ := matchRef_at (a := []) ha hm
            exact absurd (List.append_eq_nil_iff.mp hoc.symm).2 hc
      refine .inl ⟨?_, ?_⟩
      · rw [List.nil_append, refId, hnone]
        exact refId_of_not_mem hb
      · rw [List.nil_append, substitute_cons_of_none (by rw [refMatcher, hnone]; rfl),
          substitute_of_not_mem hb]
  | cons x a ih =>
      have ha' : '@' ∉ a := fun hmem => ha (List.mem_cons_of_mem x hmem)
      cases hm : matchRef (x :: (a ++ '@' :: b)) with
      | none =>
          have hsub : substitute (refMatcher ids) (x :: (a ++ '@' :: b)) =
              x :: substitute (refMatcher ids) (a ++ '@' :: b) :=
            substitute_cons_of_none (by rw [refMatcher, hm]; rfl)
          have hid : refId (x :: (a ++ '@' :: b)) = refId (a ++ '@' :: b) := by
            rw [refId, hm]
          rw [List.cons_append, hsub, hid]
          rcases ih ha' with ⟨hnone, hsame⟩ | ⟨q, d, hd, rfl, hne, hall, hsub'⟩
          · exact .inl ⟨hnone, by rw [hsame]⟩
          · exact .inr ⟨x :: q, d, hd, rfl, hne, hall, by rw [hsub']; rfl⟩
      | some g =>
          obtain ⟨o, c, name, cl⟩ := g
          obtain ⟨hoc, hc, hid, rest, hrest⟩ := matchRef_at (a := x :: a) ha hm
          refine .inr ⟨o, c, ?_, hoc, hc, hid, ?_⟩
          · rw [List.cons_append, refId, hm]
          · have htext : x :: (a ++ '@' :: b) = o ++ c ++ name ++ cl ++ rest := by
              rw [← List.cons_append, hoc, hrest]
              simp only [List.append_assoc]
            have hpos : 0 < (o ++ c ++ name ++ cl).length := by
              simp only [List.length_append]
              have := List.length_pos_of_ne_nil hc
              omega
            have hdrop : (a ++ '@' :: b).drop ((o ++ c ++ name ++ cl).length - 1) = rest := by
              have hcons := congrArg (List.drop (o ++ c ++ name ++ cl).length) htext
              rw [List.drop_left] at hcons
              obtain ⟨n, hn⟩ := Nat.exists_eq_succ_of_ne_zero (Nat.ne_of_gt hpos)
              rw [hn] at hcons ⊢
              exact hcons
            have hno : '@' ∉ rest := by
              intro hmem
              obtain ⟨_, _, _, _, name', rfl⟩ := matchRef_spec hm
              rw [List.cons_append, List.cons_append, List.cons.injEq] at hrest
              exact hb (hrest.2 ▸ List.mem_append_right _ hmem)
            rw [List.cons_append, substitute_cons_of_some (n := (o ++ c ++ name ++ cl).length - 1)
              (r := o ++ mapId ids c ++ name ++ cl) (by rw [refMatcher, hm]; rfl), hdrop,
              substitute_of_not_mem hno, hrest]
            simp only [List.append_assoc]

/-! ## Texts that stay -/

theorem mapId_of_mem {c : Text} (h : c ∈ ids) : mapId ids c = renameId c := if_pos h

/-- The text is no id, and none with an `@` after it stands in it. -/
def NamesNone (ids : List Text) (t : Text) : Prop :=
  t ∉ ids ∧ ∀ c ∈ ids, ¬ c ++ ['@'] <:+: t

/-- A match that keeps its id is replaced by itself. -/
theorem refMatcher_same {s r : Text} {n : ℕ} (h : refMatcher ids s = some (n, r))
    (hsame : ∀ o c name cl, matchRef s = some (o, c, name, cl) → mapId ids c = c) :
    r = s.take (n + 1) := by
  rw [refMatcher, Option.map_eq_some_iff] at h
  obtain ⟨⟨o, c, name, cl⟩, hm, hr⟩ := h
  obtain ⟨⟨rest, rfl⟩, _, hc, _, _⟩ := matchRef_spec hm
  rw [Prod.mk.injEq] at hr
  have hpos : 0 < (o ++ c ++ name ++ cl).length := by
    have hlen := List.length_pos_of_ne_nil hc
    simp only [List.length_append]
    omega
  rw [← hr.1, ← hr.2, hsame o c name cl hm, Nat.sub_add_cancel hpos, List.take_left]

theorem rewriteVariableRefs_of_namesNone {t : Text} (h : NamesNone ids t) :
    rewriteVariableRefs ids t = t := by
  rw [rewriteVariableRefs, if_neg h.1]
  refine substitute_of_same fun s n r hs hm => refMatcher_same hm fun o c name cl hmatch => ?_
  obtain ⟨hstart, _, _, _, name', rfl⟩ := matchRef_spec hmatch
  refine if_neg fun hc => h.2 c hc ?_
  have hinner : c ++ ['@'] <:+: o ++ c ++ '@' :: name' ++ cl :=
    ⟨o, name' ++ cl, by simp only [List.append_assoc, List.cons_append, List.nil_append]⟩
  exact (hinner.trans hstart.isInfix).trans hs.isInfix

/-- Where every id is kept, so is every text. -/
theorem rewriteVariableRefs_of_settled (h : ∀ x, mapId ids x = x) (t : Text) :
    rewriteVariableRefs ids t = t := by
  rw [rewriteVariableRefs]
  split
  · next ht => exact (mapId_of_mem ht).symm.trans (h t)
  · exact substitute_of_same fun s n r _ hm => refMatcher_same hm fun _ c _ _ _ => h c

/-! ## References that are kept -/

/-- The pattern finds the component that a text refers to; for one whose id stays, it finds no
other component whose id does not. A text that is an id is replaced as such. -/
def Spelled (ids : List Text) (t c : Text) : Prop :=
  if t ∈ ids then renameId c = c ∨ renameId t ≠ t
  else refId t = some c ∨ renameId c = c ∧ ∀ d, refId t = some d → mapId ids d = d

theorem stripLeft_append {q y : Text} {x : Char} (hx : x ∉ ['{', '}', ' ']) :
    stripLeft (q ++ x :: y) = stripLeft q ++ x :: y := by
  simp only [List.mem_cons, List.not_mem_nil, or_false, not_or] at hx
  have hopen : decide (x = '{') = false := decide_eq_false hx.1
  have hclose : decide (x = '}') = false := decide_eq_false hx.2.1
  have hblank : decide (x = ' ') = false := decide_eq_false hx.2.2
  rw [stripLeft, dropWhile_append_stop (p := fun x => decide (x = '{')) hopen,
    dropWhile_append_stop (p := fun x => decide (x = '}')) hclose,
    dropWhile_append_stop (p := fun x => decide (x = ' ')) hblank,
    dropWhile_append_stop (p := fun x => decide (x = '{')) hopen,
    dropWhile_append_stop (p := fun x => decide (x = '}')) hclose]
  rfl

/-- An id that changes does so where it is mapped, too. -/
theorem renameId_ne_of_mapId_ne {d : Text} (h : mapId ids d ≠ d) :
    renameId d ≠ d ∧ mapId ids d = renameId d := by
  rw [mapId] at h ⊢
  split at h
  · next hd => exact ⟨h, if_pos hd⟩
  · exact absurd rfl h

theorem not_mem_renameId {t : Text} (h : '@' ∉ t) : '@' ∉ renameId t := by
  rcases renameId_spec t with hsame | ⟨e, he, r, rfl, hnew⟩
  · rw [hsame]
    exact h
  · rw [List.mem_append, not_or, List.mem_cons, not_or] at h
    rw [hnew, List.mem_append, not_or, List.mem_cons, not_or]
    refine ⟨?_, h.2⟩
    simp only [componentRenames, List.mem_cons, List.not_mem_nil, or_false] at he
    rcases he with rfl | rfl | rfl <;> decide

theorem not_mem_mapId {t : Text} (h : '@' ∉ t) : '@' ∉ mapId ids t := by
  rw [mapId]
  split
  · exact not_mem_renameId h
  · exact h

/-- An id of pattern characters, as mapped, is not stripped. -/
theorem stripLeft_mapId {q d : Text} (hne : d ≠ []) (hid : ∀ x ∈ d, isIdChar x = true) :
    stripLeft (q ++ d) = stripLeft q ++ d ∧
      stripLeft (q ++ mapId ids d) = stripLeft q ++ mapId ids d := by
  have hchar : ∀ x, isIdChar x = true → x ∉ ['{', '}', ' '] := by
    intro x hx hmem
    simp only [List.mem_cons, List.not_mem_nil, or_false] at hmem
    rcases hmem with rfl | rfl | rfl <;> exact absurd hx (by decide)
  obtain ⟨x, u, rfl⟩ := List.exists_cons_of_ne_nil hne
  have hd := stripLeft_append (q := q) (y := u) (hchar x (hid x List.mem_cons_self))
  refine ⟨hd, ?_⟩
  by_cases h : mapId ids (x :: u) = x :: u
  · rw [h, hd]
  · obtain ⟨hne, hnew⟩ := renameId_ne_of_mapId_ne h
    obtain ⟨_, y, _, v, _, hv, _, hy⟩ := head_renameId hne
    rw [hnew, hv]
    refine stripLeft_append fun hmem => ?_
    simp only [List.mem_cons, List.not_mem_nil, or_false] at hy hmem
    rcases hy with rfl | rfl <;> simp at hmem

/-- A reference to a component names its new id after the migration exactly if it is spelled so. -/
theorem variableRef_rewrite_iff {t c name : Text} (h : variableRef t = some (c, name))
    (hc : c ∈ ids) :
    variableRef (rewriteVariableRefs ids t) = some (mapId ids c, name) ↔ Spelled ids t c := by
  obtain ⟨a, b, rfl, ha, hb, rfl, rfl⟩ := exists_at_of_variableRef h
  have hread : ∀ a', '@' ∉ a' → (variableRef (a' ++ '@' :: b) =
      some (mapId ids (stripLeft a), stripRight b) ↔
        stripLeft a' = renameId (stripLeft a)) := by
    intro a' ha'
    rw [variableRef_at b ha', if_neg hb, mapId_of_mem hc]
    simp
  rw [rewriteVariableRefs, Spelled]
  split
  · rw [renameId_at, hread _ (not_mem_renameId ha)]
    by_cases hsame : renameId a = a
    · rw [hsame]
      constructor
      · exact fun heq => .inl heq.symm
      · rintro (heq | hne)
        · exact heq.symm
        · exact absurd rfl hne
    · -- An id that changes begins with a letter, and nothing is stripped from it.
      obtain ⟨x, y, u, v, hx, hy, hx', hy'⟩ := head_renameId hsame
      have hold : stripLeft a = a := by
        rw [hx]
        refine stripLeft_append (q := []) fun hmem => ?_
        simp only [List.mem_cons, List.not_mem_nil, or_false] at hx' hmem
        rcases hx' with rfl | rfl | rfl <;> simp at hmem
      have hnew : stripLeft (renameId a) = renameId a := by
        rw [hy]
        refine stripLeft_append (q := []) fun hmem => ?_
        simp only [List.mem_cons, List.not_mem_nil, or_false] at hy' hmem
        rcases hy' with rfl | rfl <;> simp at hmem
      refine iff_of_true (by rw [hnew, hold]) (.inr fun heq => hsame ?_)
      exact List.append_cancel_right heq
  · rcases @substitute_at ids a b ha hb with ⟨hnone, hsub⟩ | ⟨q, d, hd, rfl, hne, hid, hsub⟩
    · rw [hsub, hnone, hread a ha]
      constructor
      · exact fun heq => .inr ⟨heq.symm, fun d hd => by cases hd⟩
      · rintro (hd | ⟨heq, _⟩)
        · cases hd
        · exact heq.symm
    · obtain ⟨hstrip, hstrip'⟩ := @stripLeft_mapId ids q d hne hid
      have hd' : '@' ∉ d := fun hmem => ha (List.mem_append_right q hmem)
      have hq' : '@' ∉ q := fun hmem => ha (List.mem_append_left d hmem)
      have hnew : '@' ∉ q ++ mapId ids d := by
        rw [List.mem_append, not_or]
        exact ⟨hq', not_mem_mapId hd'⟩
      rw [hsub, hd, hread _ hnew, hstrip, hstrip', Option.some.injEq]
      rw [hstrip] at hc
      cases hleft : stripLeft q with
      | nil =>
          rw [hleft, List.nil_append] at hc
          rw [List.nil_append, List.nil_append, mapId_of_mem hc]
          exact iff_of_true rfl (.inl rfl)
      | cons x l =>
          have hnot : d ≠ (x :: l) ++ d := fun heq => by
            have hlen := congrArg List.length heq
            rw [List.length_append, List.length_cons] at hlen
            omega
          rw [or_iff_right hnot]
          by_cases hmap : mapId ids d = d
          · rw [hmap]
            constructor
            · exact fun heq => ⟨heq.symm, fun d' hd'' => by
                cases hd''
                exact hmap⟩
            · exact fun heq => heq.1.symm
          · refine iff_of_false (fun heq => ?_) fun hboth => hmap (hboth.2 d rfl)
            obtain ⟨hchange, hmapped⟩ := renameId_ne_of_mapId_ne hmap
            by_cases hstay : renameId ((x :: l) ++ d) = (x :: l) ++ d
            · rw [hstay] at heq
              exact hmap (List.append_cancel_left heq)
            · obtain ⟨x', y, u, v, hx, hy, hx', hy'⟩ := head_renameId hstay
              rw [hy, List.cons_append, List.cons.injEq] at heq
              rw [List.cons_append, List.cons.injEq] at hx
              rw [← hx.1, heq.1] at hx'
              simp only [List.mem_cons, List.not_mem_nil, or_false] at hx' hy'
              rcases hy' with rfl | rfl <;> simp at hx'

end RagFlow.Migration
