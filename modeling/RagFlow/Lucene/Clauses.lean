/-
# How texts are read

The same text is read in the same way wherever a clause can stand. So what a composed text is read
as follows from what its parts are read as, whether that is an item or a failure.
-/

import RagFlow.Lucene.Parse
import RagFlow.Math.Except

namespace RagFlow.Lucene

open RagFlow.Math

/-- The item is not a connective. -/
def Item.isClause : Item → Bool
  | .or => false
  | _ => true

/-- Where a clause can stand, the text is the clause `r`, which may take a boost. -/
def Closes (t : Text) (r : Option Item) : Prop :=
  (∀ outer items, run ⟨outer, items, .between⟩ t = r.map fun item => ⟨outer, items, .closed item⟩) ∧
    ∀ item ∈ r, item.isClause = true

/-- Where a clause can stand, the text is the clause `r`. -/
def Reads (t : Text) (r : Option Item) : Prop :=
  ∃ q : Option Part,
    (∀ outer items, run ⟨outer, items, .between⟩ t = q.map (State.mk outer items)) ∧
      (∀ part ∈ q, part.outside = true) ∧
      (∀ items, q.bind (finish items) = r.map (· :: items)) ∧
      ∀ item ∈ r, item.isClause = true

/-- In an empty group, the text is the items `r`, the last one first. -/
def Body (t : Text) (r : Option (List Item)) : Prop :=
  ∃ q : Option (List Item × Part),
    (∀ outer, run ⟨outer, [], .between⟩ t = q.map fun x => ⟨outer, x.1, x.2⟩) ∧
      (∀ x ∈ q, x.2.outside = true) ∧ (q.bind fun x => finish x.1 x.2) = r

variable {t u w : Text} {r : Option Item} {rs : Option (List Item)} {items : List Item}

theorem ready_cons (item : Item) (items : List Item) : ready (item :: items) = item.isClause := by
  cases item <;> rfl

/-! ## Clauses -/

theorem Closes.reads (h : Closes t r) : Reads t r := by
  refine ⟨r.map .closed, fun outer items => ?_, fun part hpart => ?_, fun items => ?_, h.2⟩
  · rw [h.1, Option.map_map]
    rfl
  · obtain ⟨item, _, rfl⟩ := Option.map_eq_some_iff.mp hpart
    rfl
  · rw [Option.bind_map]
    cases r <;> rfl

theorem closes_quoted (h : ∀ c ∈ t, c ≠ '"' ∧ c ≠ '\\') :
    Closes ('"' :: (t ++ ['"'])) (some (.phrase t none)) := by
  refine ⟨fun outer items => run_quoted h [], fun item hitem => ?_⟩
  cases hitem
  rfl

theorem Body.closes (h : Body t rs) :
    Closes ('(' :: (t ++ [')']))
      (rs.bind fun items => if ready items then some (.group items.reverse) else none) := by
  obtain ⟨q, hrun, hout, hfinish⟩ := h
  refine ⟨fun outer items => ?_, fun item hitem => ?_⟩
  · rw [run_open rfl, finish, Option.bind_some, run_append, hrun, Option.bind_map, ← hfinish]
    cases q with
    | none => rfl
    | some x =>
        simp only [Option.bind_some, Function.comp_apply]
        rw [run_close (hout x rfl)]
        cases finish x.1 x.2 with
        | none => rfl
        | some js =>
            simp only [Option.bind_some]
            split <;> rfl
  · obtain ⟨js, _, hjs⟩ := Option.bind_eq_some_iff.mp hitem
    split at hjs
    · cases hjs
      rfl
    · cases hjs

/-! ## Boosts -/

/-- A number as the boost of a clause: digits, and digits after a point. -/
inductive IsNumber : Text → Prop
  | int (ds : Text) (hne : ds ≠ []) (h : ∀ c ∈ ds, c.isDigit = true) : IsNumber ds
  | point (int ds : Text) (hint : int ≠ []) (hne : ds ≠ []) (h : ∀ c ∈ int, c.isDigit = true)
      (h' : ∀ c ∈ ds, c.isDigit = true) : IsNumber (int ++ '.' :: ds)

theorem run_to_point {outer : List (List Item)} {item : Item} {int ds : Text} (hint : int ≠ [])
    (h : ∀ c ∈ int, c.isDigit = true) (h' : ∀ c ∈ ds, c.isDigit = true) (u : Text) :
    run ⟨outer, items, .boost item []⟩ (int ++ '.' :: (ds ++ u)) =
      run ⟨outer, items, .point item int ds⟩ u := by
  have hletter : letter ⟨outer, items, .boost item int⟩ '.' =
      some ⟨outer, items, .point item int []⟩ := if_pos ⟨rfl, hint⟩
  have hstep : step ⟨outer, items, .boost item int⟩ '.' =
      some ⟨outer, items, .point item int []⟩ := (letter_of_plain rfl (by decide)).trans hletter
  rw [run_boost h, List.nil_append, run_cons, hstep, Option.bind_some, run_point h',
    List.nil_append]

/-- A number is read as one, whatever is boosted. -/
theorem IsNumber.run_eq {n : Text} (h : IsNumber n) (item : Item) :
    ∃ part : Part, (∀ outer items, run ⟨outer, items, .boost item []⟩ n =
        some ⟨outer, items, part⟩) ∧ part.outside = true ∧
      ∀ items, finish items part = some (.boosted item n :: items) := by
  cases h with
  | int _ hne h =>
      refine ⟨.boost item n, fun outer items => ?_, rfl, fun items => if_neg hne⟩
      have hrun := @run_boost outer items n item h [] []
      rw [List.append_nil] at hrun
      exact hrun
  | point int ds hint hne h h' =>
      refine ⟨.point item int ds, fun outer items => ?_, rfl, fun items => if_neg hne⟩
      have hrun := @run_to_point items outer item int ds hint h h' []
      rw [List.append_nil] at hrun
      exact hrun

theorem Closes.boost (h : Closes t r) {n : Text} (hn : IsNumber n) :
    Reads (t ++ '^' :: n) (r.map fun item => .boosted item n) := by
  cases r with
  | none =>
      refine ⟨none, fun outer items => ?_, fun _ hpart => ?_, fun _ => rfl, fun _ hitem => ?_⟩
      · rw [run_append, h.1]
        rfl
      · cases hpart
      · cases hitem
  | some item =>
      obtain ⟨part, hrun, hout, hfinish⟩ := hn.run_eq item
      refine ⟨some part, fun outer items => ?_, fun p hp => ?_, fun items => ?_, fun i hi => ?_⟩
      · rw [run_append, h.1, Option.map_some, Option.bind_some, run_caret rfl, boostable,
          Option.bind_some, hrun]
        rfl
      · cases hp
        exact hout
      · rw [Option.bind_some, hfinish]
        rfl
      · cases hi
        rfl

/-- A boost whose number runs on is not read. -/
theorem Closes.boost_none (h : Closes t r) {n : Text}
    (hn : ∀ item outer items, run ⟨outer, items, .boost item []⟩ n = none) :
    Reads (t ++ '^' :: n) none := by
  refine ⟨none, fun outer items => ?_, fun _ hpart => ?_, fun _ => rfl, fun _ hitem => ?_⟩
  · rw [run_append, h.1, Option.bind_map]
    cases r with
    | none => rfl
    | some item =>
        simp only [Option.bind_some, Function.comp_apply]
        rw [run_caret rfl, boostable, Option.bind_some, hn]
        rfl
  · cases hpart
  · cases hitem

theorem reads_word_boost (hne : w ≠ []) (hw : ∀ c ∈ w, isPlain c = true) {n : Text}
    (hn : IsNumber n) :
    Reads (w ++ '^' :: n) (if w ∈ reserved then none else some (.boosted (.word w) n)) := by
  obtain ⟨part, hrun, hout, hfinish⟩ := hn.run_eq (.word w)
  refine ⟨if w ∈ reserved then none else some part, fun outer items => ?_, fun p hp => ?_,
    fun items => ?_, fun i hi => ?_⟩
  · rw [run_word hne hw, run_caret rfl, boostable]
    split
    · rfl
    · exact hrun outer items
  · split at hp
    · cases hp
    · cases hp
      exact hout
  · split
    · rfl
    · exact hfinish items
  · split at hi
    · cases hi
    · cases hi
      rfl

theorem reads_slop (h : ∀ c ∈ t, c ≠ '"' ∧ c ≠ '\\') :
    Reads ('"' :: (t ++ "\"~2".toList)) (some (.phrase t (some ['2']))) := by
  refine ⟨some (.slop t ['2']), fun outer items => run_quoted h ['~', '2'], fun p hp => ?_,
    fun _ => rfl, fun i hi => ?_⟩
  · cases hp
    rfl
  · cases hi
    rfl

/-! ## Bodies -/

theorem body_nil : Body [] (some []) := by
  refine ⟨some ([], .between), fun outer => rfl, fun x hx => ?_, rfl⟩
  cases hx
  rfl

theorem Reads.body (h : Reads t r) : Body t (r.map fun item => [item]) := by
  obtain ⟨q, hrun, hout, hfinish, _⟩ := h
  refine ⟨q.map fun part => ([], part), fun outer => ?_, fun x hx => ?_, ?_⟩
  · rw [hrun, Option.map_map]
    rfl
  · obtain ⟨part, hpart, rfl⟩ := Option.map_eq_some_iff.mp hx
    exact hout part hpart
  · rw [Option.bind_map]
    exact hfinish []

/-- A blank ends what is being read. -/
theorem run_body_blank {q : Option (List Item × Part)} (outer : List (List Item))
    (hrun : run ⟨outer, [], .between⟩ t = q.map fun x => ⟨outer, x.1, x.2⟩)
    (hout : ∀ x ∈ q, x.2.outside = true) (u : Text) :
    run ⟨outer, [], .between⟩ (t ++ ' ' :: u) =
      (q.bind fun x => finish x.1 x.2).bind fun items => run ⟨outer, items, .between⟩ u := by
  rw [run_append, hrun, Option.bind_map]
  cases q with
  | none => rfl
  | some x =>
      simp only [Option.bind_some, Function.comp_apply]
      exact run_blank (hout x rfl) (by decide) u

theorem Body.trailing_blank (h : Body t rs) : Body (t ++ [' ']) rs := by
  obtain ⟨q, hrun, hout, rfl⟩ := h
  refine ⟨(q.bind fun x => finish x.1 x.2).map fun items => (items, .between), fun outer => ?_,
    fun x hx => ?_, ?_⟩
  · rw [run_body_blank outer (hrun outer) hout, Option.map_map]
    cases q.bind fun x => finish x.1 x.2 <;> rfl
  · obtain ⟨items, _, rfl⟩ := Option.map_eq_some_iff.mp hx
    rfl
  · cases q.bind fun x => finish x.1 x.2 <;> rfl

theorem Body.blank (h : Body t rs) (hu : Reads u r) :
    Body (t ++ ' ' :: u) (rs.bind fun items => r.map (· :: items)) := by
  obtain ⟨q, hrun, hout, rfl⟩ := h
  obtain ⟨q', hrun', hout', hfinish', _⟩ := hu
  refine ⟨(q.bind fun x => finish x.1 x.2).bind fun items => q'.map fun part => (items, part),
    fun outer => ?_, fun x hx => ?_, ?_⟩
  · rw [run_body_blank outer (hrun outer) hout]
    cases q.bind fun x => finish x.1 x.2 with
    | none => rfl
    | some items =>
        rw [Option.bind_some, Option.bind_some, hrun', Option.map_map]
        rfl
  · obtain ⟨items, _, hitems⟩ := Option.bind_eq_some_iff.mp hx
    obtain ⟨part, hpart, rfl⟩ := Option.map_eq_some_iff.mp hitems
    exact hout' part hpart
  · cases q.bind fun x => finish x.1 x.2 with
    | none => rfl
    | some items =>
        rw [Option.bind_some, Option.bind_some, Option.bind_map]
        exact hfinish' items

/-- Two clauses with a connective between them. -/
theorem Body.or (h : Body t rs) (hu : Reads u r) :
    Body (t ++ (" OR ".toList ++ u))
      (rs.bind fun items => if ready items then r.map (· :: .or :: items) else none) := by
  obtain ⟨q, hrun, hout, rfl⟩ := h
  obtain ⟨q', hrun', hout', hfinish', _⟩ := hu
  have hor : ∀ outer items, run ⟨outer, items, .between⟩ ("OR ".toList ++ u) =
      if ready items then run ⟨outer, .or :: items, .between⟩ u else none := by
    intro outer items
    rw [show "OR ".toList ++ u = orWord ++ ' ' :: u from rfl, run_word (by decide) (by decide),
      run_blank rfl (by decide), finish, finishAs, if_pos rfl]
    split <;> rfl
  refine ⟨(q.bind fun x => finish x.1 x.2).bind fun items =>
    if ready items then q'.map fun part => (.or :: items, part) else none,
    fun outer => ?_, fun x hx => ?_, ?_⟩
  · rw [show " OR ".toList ++ u = ' ' :: ("OR ".toList ++ u) from rfl,
      run_body_blank outer (hrun outer) hout]
    cases q.bind fun x => finish x.1 x.2 with
    | none => rfl
    | some items =>
        rw [Option.bind_some, Option.bind_some, hor]
        split
        · rw [hrun', Option.map_map]
          rfl
        · rfl
  · obtain ⟨items, _, hitems⟩ := Option.bind_eq_some_iff.mp hx
    split at hitems
    · obtain ⟨part, hpart, rfl⟩ := Option.map_eq_some_iff.mp hitems
      exact hout' part hpart
    · cases hitems
  · cases q.bind fun x => finish x.1 x.2 with
    | none => rfl
    | some items =>
        rw [Option.bind_some, Option.bind_some]
        split
        · rw [Option.bind_map]
          exact hfinish' (.or :: items)
        · rfl

/-- A whole text is read as the body of a group is, except that it may be blank. -/
theorem Body.parse (h : Body t rs) :
    parse t = rs.bind fun items =>
      if items.isEmpty ∨ ready items then some items.reverse else none := by
  obtain ⟨q, hrun, _, rfl⟩ := h
  rw [Lucene.parse, hrun]
  cases q with
  | none => rfl
  | some x =>
      dsimp only [bind, Option.map_some, Option.bind_some]
      cases finish x.1 x.2 with
      | none => rfl
      | some items => simp

/-! ## Joins -/

theorem intercalate_cons_eq {α : Type*} (sep t : List α) (ts : List (List α)) :
    sep.intercalate (t :: ts) = t ++ ts.flatMap (sep ++ ·) := by
  induction ts generalizing t with
  | nil => simp
  | cons u ts ih => rw [List.intercalate_cons_cons, ih, List.flatMap_cons, List.append_assoc,
        List.append_assoc]

section Joins

variable {α : Type*} {f : α → Text} {g : α → Option Item} {l : List α}

theorem Body.blanks (h : Body t rs) (hl : ∀ a ∈ l, Reads (f a) (g a)) :
    Body (t ++ l.flatMap fun a => ' ' :: f a)
      (rs.bind fun items => (l.mapM g).map fun is => is.reverse ++ items) := by
  induction l generalizing t rs with
  | nil =>
      rw [List.flatMap_nil, List.append_nil]
      have hsame : (rs.bind fun items => (([] : List α).mapM g).map
          fun is => is.reverse ++ items) = rs := by cases rs <;> rfl
      rw [hsame]
      exact h
  | cons a l ih =>
      have hbody := ih (h.blank (hl a List.mem_cons_self)) fun b hb =>
        hl b (List.mem_cons_of_mem a hb)
      rw [List.append_assoc, List.cons_append] at hbody
      rw [List.flatMap_cons, List.cons_append]
      convert hbody using 1
      cases rs with
      | none => rfl
      | some items =>
          rw [List.mapM_cons]
          cases g a with
          | none => rfl
          | some item =>
              cases l.mapM g <;> simp

/-- Clauses with blanks between them. -/
theorem body_join (hl : ∀ a ∈ l, Reads (f a) (g a)) :
    Body ([' '].intercalate (l.map f)) ((l.mapM g).map List.reverse) := by
  cases l with
  | nil => exact body_nil
  | cons a l =>
      have hbody := (hl a List.mem_cons_self).body.blanks fun b hb =>
        hl b (List.mem_cons_of_mem a hb)
      rw [List.map_cons, intercalate_cons_eq, List.flatMap_map]
      change Body (f a ++ l.flatMap fun a => ' ' :: f a) _
      convert hbody using 1
      rw [List.mapM_cons]
      cases g a with
      | none => rfl
      | some item => cases l.mapM g <;> simp

theorem Body.blank_join (h : Body t rs) (hl : ∀ a ∈ l, Reads (f a) (g a)) :
    Body (t ++ ' ' :: [' '].intercalate (l.map f))
      (rs.bind fun items => (l.mapM g).map fun is => is.reverse ++ items) := by
  cases l with
  | nil =>
      have hsame : (rs.bind fun items => (([] : List α).mapM g).map
          fun is => is.reverse ++ items) = rs := by cases rs <;> rfl
      rw [hsame]
      exact h.trailing_blank
  | cons a l =>
      have hbody := h.blanks hl
      rw [List.map_cons, intercalate_cons_eq, List.flatMap_map]
      exact hbody

theorem Body.ors (h : Body t rs) (hready : ∀ items ∈ rs, ready items = true)
    (hl : ∀ a ∈ l, Reads (f a) (g a)) :
    Body (t ++ l.flatMap fun a => " OR ".toList ++ f a)
      (rs.bind fun items => (l.mapM g).map fun is =>
        (is.flatMap fun item => [.or, item]).reverse ++ items) := by
  induction l generalizing t rs with
  | nil =>
      rw [List.flatMap_nil, List.append_nil]
      have hsame : (rs.bind fun items => (([] : List α).mapM g).map
          fun is => (is.flatMap fun item => [.or, item]).reverse ++ items) = rs := by
        cases rs <;> rfl
      rw [hsame]
      exact h
  | cons a l ih =>
      have ha := hl a List.mem_cons_self
      have hclause : ∀ item ∈ g a, item.isClause = true := by
        obtain ⟨_, _, _, _, hclause⟩ := ha
        exact hclause
      have hready' : ∀ items ∈ rs.bind fun items =>
          if ready items then (g a).map (· :: .or :: items) else none, ready items = true := by
        intro items hitems
        obtain ⟨js, _, hjs⟩ := Option.bind_eq_some_iff.mp hitems
        split at hjs
        · obtain ⟨item, hitem, rfl⟩ := Option.map_eq_some_iff.mp hjs
          rw [ready_cons]
          exact hclause item hitem
        · cases hjs
      have hbody := ih (h.or ha) hready' fun b hb => hl b (List.mem_cons_of_mem a hb)
      rw [List.append_assoc, List.append_assoc] at hbody
      rw [List.flatMap_cons, List.append_assoc]
      convert hbody using 1
      cases rs with
      | none => rfl
      | some items =>
          rw [List.mapM_cons, Option.bind_some, Option.bind_some, if_pos (hready items rfl)]
          cases g a with
          | none => rfl
          | some item => cases l.mapM g <;> simp

/-- Clauses with `OR` between them. -/
theorem body_or_join (hl : ∀ a ∈ l, Reads (f a) (g a)) :
    Body (" OR ".toList.intercalate (l.map f))
      ((l.mapM g).map fun is => (is.intersperse .or).reverse) := by
  cases l with
  | nil => exact body_nil
  | cons a l =>
      have ha := hl a List.mem_cons_self
      have hready : ∀ items ∈ (g a).map fun item => [item], ready items = true := by
        obtain ⟨_, _, _, _, hclause⟩ := ha
        intro items hitems
        obtain ⟨item, hitem, rfl⟩ := Option.map_eq_some_iff.mp hitems
        rw [ready_cons]
        exact hclause item hitem
      have hbody := ha.body.ors hready fun b hb => hl b (List.mem_cons_of_mem a hb)
      have hsperse : ∀ (item : Item) (is : List Item),
          (item :: is).intersperse .or = item :: is.flatMap fun item => [.or, item] := by
        intro item is
        induction is generalizing item with
        | nil => rfl
        | cons i is ih =>
            rw [List.intersperse_cons_cons, ih, List.flatMap_cons]
            rfl
      rw [List.map_cons, intercalate_cons_eq, List.flatMap_map]
      convert hbody using 1
      rw [List.mapM_cons]
      cases g a with
      | none => rfl
      | some item => cases l.mapM g <;> simp [hsperse]

theorem isClause_of_mapM (hl : ∀ a ∈ l, Reads (f a) (g a)) {is : List Item}
    (h : l.mapM g = some is) : ∀ item ∈ is, item.isClause = true := by
  intro item hitem
  obtain ⟨a, ha, hg⟩ := exists_of_forall₂ (mapM_eq_some_iff.mp h) hitem
  obtain ⟨_, _, _, _, hclause⟩ := hl a ha
  exact hclause item hg

theorem ready_of_isClause {is : List Item} (hne : is ≠ []) (h : ∀ item ∈ is, item.isClause = true) :
    ready is = true := by
  obtain ⟨item, is, rfl⟩ := List.exists_cons_of_ne_nil hne
  rw [ready_cons]
  exact h item List.mem_cons_self

/-- Clauses with blanks between them are read one by one. -/
theorem parse_join (hl : ∀ a ∈ l, Reads (f a) (g a)) :
    parse ([' '].intercalate (l.map f)) = l.mapM g := by
  rw [(body_join hl).parse]
  cases hm : l.mapM g with
  | none => rfl
  | some is =>
      rw [Option.map_some, Option.bind_some, List.reverse_reverse]
      refine if_pos ?_
      by_cases hne : is = []
      · rw [hne]
        exact .inl rfl
      · refine .inr (ready_of_isClause (List.reverse_ne_nil_iff.mpr hne) fun item hitem => ?_)
        exact isClause_of_mapM hl hm item (List.mem_reverse.mp hitem)

/-- Clauses with connectives between them end in a clause. -/
theorem ready_intersperse {is : List Item} (hne : is ≠ [])
    (h : ∀ item ∈ is, item.isClause = true) : ready (is.intersperse .or).reverse = true := by
  induction is with
  | nil => exact absurd rfl hne
  | cons item is ih =>
      cases is with
      | nil => exact (ready_cons item []).trans (h item List.mem_cons_self)
      | cons i is =>
          have hready := ih (List.cons_ne_nil i is) fun j hj => h j (List.mem_cons_of_mem item hj)
          rw [List.intersperse_cons_cons, List.reverse_cons, List.reverse_cons]
          cases hrev : ((i :: is).intersperse .or).reverse with
          | nil =>
              rw [hrev] at hready
              cases hready
          | cons j js =>
              rw [hrev, ready_cons] at hready
              rw [List.cons_append, List.cons_append, ready_cons]
              exact hready

theorem parse_or_join (hl : ∀ a ∈ l, Reads (f a) (g a)) :
    parse (" OR ".toList.intercalate (l.map f)) = (l.mapM g).map (·.intersperse .or) := by
  rw [(body_or_join hl).parse]
  cases hm : l.mapM g with
  | none => rfl
  | some is =>
      rw [Option.map_some, Option.bind_some, List.reverse_reverse, Option.map_some]
      refine if_pos ?_
      by_cases hne : is = []
      · rw [hne]
        exact .inl rfl
      · exact .inr (ready_intersperse hne (isClause_of_mapM hl hm))

end Joins

end RagFlow.Lucene
