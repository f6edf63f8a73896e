/-
# Words in a query

Words that are put into a query as they are can be connectives. They are read exactly if each
connective stands between two of them.
-/

import Mathlib.Data.List.Chain
import RagFlow.Lucene.Clauses

namespace RagFlow.Lucene

open RagFlow.Math

variable {t u w x : Text} {rs : Option (List Item)} {items : List Item} {f : Text → Item}

/-- Where a clause can stand, the text is a connective or the clause `f t`. -/
def ReadsAs (f : Text → Item) (t : Text) : Prop :=
  ∃ part : Part, part.outside = true ∧
    (∀ outer items, run ⟨outer, items, .between⟩ t = some ⟨outer, items, part⟩) ∧
      ∀ items, finish items part = finishAs f items t

theorem readsAs_word (hne : w ≠ []) (hw : ∀ c ∈ w, isPlain c = true) : ReadsAs .word w := by
  refine ⟨.word w, rfl, fun outer items => ?_, fun items => rfl⟩
  have hrun := @run_word outer items w hne hw []
  rw [List.append_nil] at hrun
  exact hrun

theorem ReadsAs.congr {g : Text → Item} (h : ReadsAs f t) (hfg : f t = g t) : ReadsAs g t := by
  obtain ⟨part, hout, hrun, hfinish⟩ := h
  refine ⟨part, hout, hrun, fun items => ?_⟩
  rw [hfinish, finishAs, finishAs, hfg]

theorem readsAs_quoted (h : ∀ c ∈ t, c ≠ '"' ∧ c ≠ '\\')
    (hf : f ('"' :: (t ++ ['"'])) = .phrase t none) : ReadsAs f ('"' :: (t ++ ['"'])) := by
  refine ⟨.closed (.phrase t none), rfl, fun outer items => run_quoted h [], fun items => ?_⟩
  have hnot : '"' :: (t ++ ['"']) ∉ reserved := by
    intro hmem
    simp [reserved, orWord] at hmem
  have hor : '"' :: (t ++ ['"']) ≠ orWord := by
    intro heq
    simp [orWord] at heq
  rw [finishAs, if_neg hor, if_neg hnot, hf]
  rfl

theorem ReadsAs.body (h : ReadsAs f t) : Body t (finishAs f [] t) := by
  obtain ⟨part, hout, hrun, hfinish⟩ := h
  refine ⟨some ([], part), fun outer => hrun outer [], fun x hx => ?_, hfinish []⟩
  cases hx
  exact hout

theorem Body.blank_as (h : Body t rs) (hu : ReadsAs f u) :
    Body (t ++ ' ' :: u) (rs.bind fun items => finishAs f items u) := by
  obtain ⟨q, hrun, hout, rfl⟩ := h
  obtain ⟨part, hpart, hrun', hfinish⟩ := hu
  refine ⟨(q.bind fun x => finish x.1 x.2).map fun items => (items, part), fun outer => ?_,
    fun x hx => ?_, ?_⟩
  · rw [run_body_blank outer (hrun outer) hout, Option.map_map]
    cases q.bind fun x => finish x.1 x.2 with
    | none => rfl
    | some items => exact hrun' outer items
  · obtain ⟨items, _, rfl⟩ := Option.map_eq_some_iff.mp hx
    exact hpart
  · cases q.bind fun x => finish x.1 x.2 with
    | none => rfl
    | some items => exact hfinish items

/-! ## Words with blanks between them -/

theorem Body.words {ts : List Text} (h : Body t rs) (hts : ∀ u ∈ ts, u ≠ [] → ReadsAs f u) :
    Body (t ++ ts.flatMap fun u => ' ' :: u)
      (rs.bind fun items => (ts.filter fun u => !u.isEmpty).foldlM (finishAs f) items) := by
  induction ts generalizing t rs with
  | nil =>
      rw [List.flatMap_nil, List.append_nil]
      have hsame : (rs.bind fun items => (([] : List Text).filter fun u => !u.isEmpty).foldlM
          (finishAs f) items) = rs := by cases rs <;> rfl
      rw [hsame]
      exact h
  | cons u ts ih =>
      have hrest : ∀ v ∈ ts, v ≠ [] → ReadsAs f v := fun v hv => hts v (List.mem_cons_of_mem u hv)
      rw [List.flatMap_cons]
      cases u with
      | nil =>
          have hbody := ih h.trailing_blank hrest
          rw [List.append_assoc] at hbody
          exact hbody
      | cons c u =>
          have hbody := ih (h.blank_as (hts (c :: u) List.mem_cons_self (List.cons_ne_nil c u)))
            hrest
          rw [List.append_assoc] at hbody
          convert hbody using 1
          cases rs with
          | none => rfl
          | some items => exact List.foldlM_cons ..

/-- Texts that may be empty, with blanks between them. -/
theorem body_words {ts : List Text} (hts : ∀ u ∈ ts, u ≠ [] → ReadsAs f u) :
    Body ([' '].intercalate ts)
      ((ts.filter fun u => !u.isEmpty).foldlM (finishAs f) []) := by
  cases ts with
  | nil => exact body_nil
  | cons u ts =>
      have hrest : ∀ v ∈ ts, v ≠ [] → ReadsAs f v := fun v hv => hts v (List.mem_cons_of_mem u hv)
      rw [intercalate_cons_eq]
      change Body (u ++ ts.flatMap fun v => ' ' :: v) _
      cases u with
      | nil => exact body_nil.words hrest
      | cons c u =>
          have hbody := (hts (c :: u) List.mem_cons_self (List.cons_ne_nil c u)).body.words hrest
          convert hbody using 1
          exact List.foldlM_cons ..

/-! ## Texts without syntax -/

/-- The part that ends with the word `w`. -/
def wordPart (w : Text) : Part := if w = [] then .between else .word w

/-- What is read so far, with the levels around it. -/
def finished (s : State) : Option (List (List Item) × List Item) :=
  (finish s.items s.part).map fun items => (s.outer, items)

/-- A text of words is read word by word. -/
theorem finished_run (outer : List (List Item)) (items : List Item) (w : Text)
    (hx : ∀ c ∈ x, isSpecial c = false) :
    (run ⟨outer, items, wordPart w⟩ x).bind finished =
      ((cutFrom isBlank w x).foldlM (finishAs .word) items).map fun items => (outer, items) := by
  induction x generalizing items w with
  | nil =>
      rw [run_nil, Option.bind_some, finished, cutFrom]
      cases w with
      | nil => rfl
      | cons c w =>
          rw [wordPart, if_neg (List.cons_ne_nil c w)]
          simp [finish]
  | cons c x ih =>
      have hrest : ∀ d ∈ x, isSpecial d = false := fun d hd => hx d (List.mem_cons_of_mem c hd)
      have hout : (wordPart w).outside = true := by
        rw [wordPart]
        split <;> rfl
      cases hc : isBlank c with
      | true =>
          rw [run_blank hout hc, cutFrom, if_pos hc]
          cases w with
          | nil => exact ih items [] hrest
          | cons d w =>
              rw [wordPart, if_neg (List.cons_ne_nil d w), finish]
              simp only [List.isEmpty_cons, Bool.false_eq_true, if_false, List.foldlM_cons]
              cases finishAs .word items (d :: w) with
              | none => rfl
              | some items => exact ih items [] hrest
      | false =>
          have hplain : isPlain c = true := by
            rw [isPlain, hc, hx c List.mem_cons_self]
            rfl
          have hstep : step ⟨outer, items, wordPart w⟩ c =
              some ⟨outer, items, wordPart (w ++ [c])⟩ := by
            rw [letter_of_plain hout hplain]
            cases w with
            | nil => rfl
            | cons d w => rfl
          rw [run_cons, hstep, Option.bind_some, ih items (w ++ [c]) hrest, cutFrom, hc]
          rfl

theorem parse_of_plain (hx : ∀ c ∈ x, isSpecial c = false) :
    parse x = ((cut isBlank x).foldlM (finishAs .word) []).bind fun items =>
      if items.isEmpty ∨ ready items then some items.reverse else none := by
  have hrun := finished_run [] [] [] hx
  change (run ⟨[], [], .between⟩ x).bind finished =
    ((cut isBlank x).foldlM (finishAs .word) []).map _ at hrun
  rw [parse]
  cases hs : run ⟨[], [], .between⟩ x with
  | none =>
      rw [hs] at hrun
      rw [Option.map_eq_none_iff.mp hrun.symm]
      rfl
  | some s =>
      rw [hs, Option.bind_some, finished] at hrun
      dsimp only [bind, Option.bind_some]
      cases hf : finish s.items s.part with
      | none =>
          rw [hf] at hrun
          rw [Option.map_eq_none_iff.mp hrun.symm]
          rfl
      | some items =>
          rw [hf, Option.map_some] at hrun
          obtain ⟨items', hitems', heq⟩ := Option.map_eq_some_iff.mp hrun.symm
          rw [Prod.mk.injEq] at heq
          rw [hitems', Option.bind_some, Option.bind_some, ← heq.1, heq.2]
          simp

/-- A character that cannot stand outside of quotes. -/
def isRefused (c : Char) : Bool :=
  c ∈ ['+', '-', '&', '|', '!', '{', '}', '[', ']', '*', '?', ':', '/']

/-- A refused character is in the way of a text without other syntax. -/
theorem parse_of_refused (hx : ∀ c ∈ x, isSpecial c = true → isRefused c = true)
    (h : ∃ c ∈ x, isSpecial c = true) : parse x = none := by
  have hrun : ∀ (outer : List (List Item)) (items : List Item) (w : Text),
      run ⟨outer, items, wordPart w⟩ x = none := by
    induction x with
    | nil =>
        obtain ⟨c, hc, _⟩ := h
        cases hc
    | cons d x ih =>
        intro outer items w
        have hrest : ∀ c ∈ x, isSpecial c = true → isRefused c = true := fun c hc =>
          hx c (List.mem_cons_of_mem d hc)
        have hout : (wordPart w).outside = true := by
          rw [wordPart]
          split <;> rfl
        cases hd : isSpecial d with
        | true =>
            have hrefused := hx d List.mem_cons_self hd
            have hstep : step ⟨outer, items, wordPart w⟩ d = none := by
              rw [step_outside hout]
              simp only [isRefused, List.mem_cons, List.not_mem_nil, or_false,
                decide_eq_true_eq] at hrefused
              rcases hrefused with rfl | rfl | rfl | rfl | rfl | rfl | rfl | rfl | rfl | rfl |
                rfl | rfl | rfl <;> rfl
            rw [run_cons, hstep]
            rfl
        | false =>
            have hlater : ∃ c ∈ x, isSpecial c = true := by
              obtain ⟨c, hc, hspecial⟩ := h
              rcases List.mem_cons.mp hc with rfl | hc
              · rw [hd] at hspecial
                cases hspecial
              · exact ⟨c, hc, hspecial⟩
            cases hb : isBlank d with
            | true =>
                rw [run_blank hout hb]
                cases finish items (wordPart w) with
                | none => rfl
                | some items => exact ih hrest hlater outer items []
            | false =>
                have hplain : isPlain d = true := by
                  rw [isPlain, hb, hd]
                  rfl
                have hstep : step ⟨outer, items, wordPart w⟩ d =
                    some ⟨outer, items, wordPart (w ++ [d])⟩ := by
                  rw [letter_of_plain hout hplain]
                  cases w <;> rfl
                rw [run_cons, hstep]
                exact ih hrest hlater outer items (w ++ [d])
  have hstart : run ⟨[], [], .between⟩ x = none := hrun [] [] []
  rw [parse, hstart]
  rfl

/-! ## Connectives -/

/-- Each connective stands between two clauses. -/
structure ReadsAsClauses (ws : List Text) : Prop where
  notEmpty : ws ≠ []
  known : ∀ w ∈ ws, w ∈ reserved → w = orWord
  first : ws.head? ≠ some orWord
  last : ws.getLast? ≠ some orWord
  apart : ws.IsChain fun a b => ¬ (a = orWord ∧ b = orWord)

theorem ready_finishAs (hf : ∀ t, (f t).isClause = true) {items' : List Item}
    (h : finishAs f items w = some items') : ready items' = true ↔ w ≠ orWord := by
  rw [finishAs] at h
  split at h
  · next hw =>
      split at h
      · cases h
        exact iff_of_false Bool.false_ne_true fun hne => hne hw
      · cases h
  · next hw =>
      split at h
      · cases h
      · cases h
        exact iff_of_true (by rw [ready_cons]; exact hf w) hw

/-- Words after some items. -/
theorem foldlM_finishAs_iff (hf : ∀ t, (f t).isClause = true) (ws : List Text)
    (items : List Item) :
    (∃ items', ws.foldlM (finishAs f) items = some items' ∧ ready items' = true) ↔
      (ws = [] → ready items = true) ∧ (∀ w ∈ ws, w ∈ reserved → w = orWord) ∧
        (ready items = false → ws.head? ≠ some orWord) ∧ ws.getLast? ≠ some orWord ∧
          ws.IsChain fun a b => ¬ (a = orWord ∧ b = orWord) := by
  induction ws generalizing items with
  | nil => simp
  | cons w ws ih =>
      rw [List.foldlM_cons]
      cases hw : finishAs f items w with
      | none =>
          refine iff_of_false (fun ⟨items', h, _⟩ => by cases h) fun ⟨_, hknown, hhead, _⟩ => ?_
          rw [finishAs] at hw
          split at hw
          · next heq =>
              split at hw
              · cases hw
              · next hready =>
                  exact hhead (Bool.not_eq_true _ ▸ hready) (by rw [heq]; rfl)
          · next hne =>
              split at hw
              · next hres => exact hne (hknown w List.mem_cons_self hres)
              · cases hw
      | some items' =>
          have hready := ready_finishAs hf hw
          have hkeep : (w ∈ reserved → w = orWord) ∧
              (ready items = false → w ≠ orWord) := by
            rw [finishAs] at hw
            split at hw
            · next heq =>
                split at hw
                · next hr => exact ⟨fun _ => heq, fun h => by rw [hr] at h; cases h⟩
                · cases hw
            · next hne =>
                split at hw
                · cases hw
                · next hres => exact ⟨fun h => absurd h hres, fun _ => hne⟩
          have hfalse : ready items' = false ↔ w = orWord := by
            rw [← Bool.not_eq_true, hready, not_not]
          change (∃ out, ws.foldlM (finishAs f) items' = some out ∧ _) ↔ _
          rw [ih items', hready, hfalse]
          cases ws with
          | nil =>
              simp only [List.not_mem_nil, List.head?_nil, List.getLast?_nil,
                List.mem_singleton, List.head?_cons, List.getLast?_singleton,
                List.isChain_nil, List.isChain_singleton]
              grind
          | cons v ws =>
              simp only [List.mem_cons, List.head?_cons, List.getLast?_cons_cons,
                List.isChain_cons_cons]
              grind

theorem foldlM_finishAs_nil_iff (hf : ∀ t, (f t).isClause = true) (ws : List Text) :
    (∃ items, ws.foldlM (finishAs f) [] = some items ∧ ready items = true) ↔
      ReadsAsClauses ws := by
  rw [foldlM_finishAs_iff hf]
  constructor
  · rintro ⟨hne, hknown, hfirst, hlast, hapart⟩
    exact ⟨fun h => absurd (hne h) Bool.false_ne_true, hknown, hfirst rfl, hlast, hapart⟩
  · rintro ⟨hne, hknown, hfirst, hlast, hapart⟩
    exact ⟨fun h => absurd h hne, hknown, fun _ => hfirst, hlast, hapart⟩

end RagFlow.Lucene
