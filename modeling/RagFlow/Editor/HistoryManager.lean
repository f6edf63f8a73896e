/-
# Undo and redo on the canvas

The manager has a list of copies of the canvas and an index into it. It is the bounded history of
the canvases that were pushed, where a canvas counts as the same if its JSON text is. An undo or a
redo sets a copy in the store, and pushing that copy again does nothing.
-/

import RagFlow.Editor.Json
import RagFlow.Math.Zipper

namespace RagFlow.Editor

open RagFlow.Math

/-! ## The code -/

structure CanvasState where
  nodes : List Js
  edges : List Js

/-- `JSON.stringify` of a state. -/
def CanvasState.text (s : CanvasState) : List Token :=
  stringify (.object [("nodes", .array s.nodes), ("edges", .array s.edges)])

def statesEqual (state1 state2 : CanvasState) : Bool := state1.text = state2.text

structure HistoryManager where
  history : List CanvasState
  currentIndex : ℤ
  lastSavedState : List Token

/-- Limit maximum number of history records. -/
def maxSize : ℕ := 50

namespace HistoryManager

def new : HistoryManager where
  history := []
  currentIndex := -1
  lastSavedState := []

/-- `history[index]`. -/
def at? (m : HistoryManager) (index : ℤ) : Option CanvasState :=
  if 0 ≤ index then m.history[index.toNat]? else none

/-- What is saved of the store. -/
def snapshot (nodes edges : List Js) : CanvasState where
  nodes := cloneItems nodes
  edges := cloneItems edges

/-- The states that remain when those after the current one are removed. -/
def spliced (m : HistoryManager) : List CanvasState :=
  if m.currentIndex < m.history.length - 1 then m.history.take (m.currentIndex + 1).toNat
  else m.history

def push (m : HistoryManager) (nodes edges : List Js) : HistoryManager :=
  let currentState := snapshot nodes edges
  if 0 < m.history.length ∧ (m.at? m.currentIndex).any (statesEqual currentState) then m
  else
    let history := m.spliced ++ [currentState]
    let history := if maxSize < history.length then history.tail else history
    { history := history
      currentIndex := history.length - 1
      lastSavedState := currentState.text }

def canUndo (m : HistoryManager) : Bool := 0 < m.currentIndex

def canRedo (m : HistoryManager) : Bool := m.currentIndex < m.history.length - 1

/-- The index moves, and a copy of the state there is set in the store. There is no result where
the list has no such state. -/
def moveTo (m : HistoryManager) (index : ℤ) : Option (Option CanvasState × HistoryManager) :=
  (m.at? index).map fun s => (some (snapshot s.nodes s.edges), { m with currentIndex := index })

/-- What is set in the store, and the manager after it; `undo` returns whether something is. -/
def undo (m : HistoryManager) : Option (Option CanvasState × HistoryManager) :=
  if m.canUndo then m.moveTo (m.currentIndex - 1) else some (none, m)

def redo (m : HistoryManager) : Option (Option CanvasState × HistoryManager) :=
  if m.canRedo then m.moveTo (m.currentIndex + 1) else some (none, m)

/-- A call; a push has the nodes and the edges of the store. -/
def call (m : HistoryManager) : Edit (List Js × List Js) →
    Option (Option CanvasState × HistoryManager)
  | .push (nodes, edges) => some (none, m.push nodes edges)
  | .undo => m.undo
  | .redo => m.redo

def run (m : HistoryManager) : List (Edit (List Js × List Js)) →
    Option (List (Option CanvasState) × HistoryManager)
  | [] => some ([], m)
  | c :: calls => do
    let (shown, m) ← m.call c
    let (rest, m) ← m.run calls
    return (shown :: rest, m)

/-! ## The history that the manager is -/

/-- The same call of the bounded history of snapshots. -/
def edit : Edit (List Js × List Js) → Edit CanvasState
  | .push (nodes, edges) => .push (snapshot nodes edges)
  | .undo => .undo
  | .redo => .redo

/-- A state that a copy does not change. -/
def IsCopy (s : CanvasState) : Prop := snapshot s.nodes s.edges = s

/-- The manager is at the current state of a history that is within the limit, or has none. -/
inductive Follows (m : HistoryManager) : Option (Zipper CanvasState) → Prop
  | empty : m.history = [] → m.currentIndex = -1 → Follows m none
  | standsAt (z : Zipper CanvasState) : m.history = z.toList → m.currentIndex = z.before.length →
      z.toList.length ≤ maxSize → (∀ s ∈ z.toList, IsCopy s) → Follows m (some z)

theorem isCopy_snapshot (nodes edges : List Js) : IsCopy (snapshot nodes edges) := by
  rw [IsCopy, snapshot, snapshot, cloneItems_cloneItems, cloneItems_cloneItems]

section Moves

variable {m : HistoryManager} {z : Zipper CanvasState}

theorem at?_of_follows (h : m.Follows (some z)) : m.at? m.currentIndex = some z.current := by
  cases h with
  | standsAt _ hhistory hindex _ _ =>
      rw [at?, hindex, if_pos (Int.natCast_nonneg _), Int.toNat_natCast, hhistory,
        Zipper.getElem?_toList]

/-- Going to the current state of a history with the same states. -/
theorem moveTo_eq (h : m.Follows (some z)) {z' : Zipper CanvasState}
    (hsame : z'.toList = z.toList) :
    m.moveTo z'.before.length =
        some (some z'.current, { m with currentIndex := z'.before.length }) ∧
      Follows { m with currentIndex := z'.before.length } (some z') := by
  cases h with
  | standsAt _ hhistory hindex hlength hcopies =>
      have hmem : z'.current ∈ z.toList := by
        rw [← hsame]
        exact List.mem_of_getElem? z'.getElem?_toList
      have hcopy : snapshot z'.current.nodes z'.current.edges = z'.current := hcopies _ hmem
      refine ⟨?_, .standsAt z' (hhistory.trans hsame.symm) rfl (hsame ▸ hlength) (hsame ▸ hcopies)⟩
      rw [moveTo, at?, if_pos (Int.natCast_nonneg _), Int.toNat_natCast, hhistory, ← hsame,
        Zipper.getElem?_toList, Option.map_some, hcopy]

end Moves

section Calls

variable {m : HistoryManager} {h : Option (Zipper CanvasState)} {z : Zipper CanvasState}

theorem Follows.index (hm : m.Follows (some z)) : m.currentIndex = z.before.length := by
  cases hm with
  | standsAt _ _ hindex _ _ => exact hindex

theorem Follows.length (hm : m.Follows (some z)) :
    (m.history.length : ℤ) = z.before.length + 1 + z.after.length := by
  cases hm with
  | standsAt _ hhistory _ _ _ =>
      rw [hhistory, z.length_toList]
      push_cast
      ring

theorem Follows.none (hm : m.Follows none) : m.history = [] ∧ m.currentIndex = -1 := by
  cases hm with
  | empty hhistory hindex => exact ⟨hhistory, hindex⟩

theorem undo_follows (hm : m.Follows h) : ∃ m',
    m.undo = some ((Zipper.step maxSize statesEqual h .undo).1, m') ∧
      m'.Follows (Zipper.step maxSize statesEqual h .undo).2 := by
  cases h with
  | none =>
      have hcan : m.canUndo = false := by simp [canUndo, hm.none]
      exact ⟨m, by simp [undo, hcan, Zipper.step], hm⟩
  | some z =>
      have hindex := hm.index
      cases hundo : z.undo with
      | none =>
          have hcan : m.canUndo = false := by
            simp [canUndo, hindex, Zipper.undo_eq_none_iff.mp hundo]
          exact ⟨m, by simp [undo, hcan, Zipper.step, hundo],
            by simpa [Zipper.step, hundo] using hm⟩
      | some z' =>
          obtain ⟨hsame, hbefore⟩ := Zipper.toList_undo hundo
          obtain ⟨hmove, hfollows⟩ := moveTo_eq hm hsame
          have hcan : m.canUndo = true := by
            rw [canUndo, hindex]
            simp [hbefore]
          refine ⟨_, ?_, by simpa [Zipper.step, hundo] using hfollows⟩
          have htarget : m.currentIndex - 1 = z'.before.length := by
            rw [hindex, hbefore]
            push_cast
            ring
          rw [undo, if_pos hcan, htarget, hmove]
          simp [Zipper.step, hundo]

theorem redo_follows (hm : m.Follows h) : ∃ m',
    m.redo = some ((Zipper.step maxSize statesEqual h .redo).1, m') ∧
      m'.Follows (Zipper.step maxSize statesEqual h .redo).2 := by
  cases h with
  | none =>
      have hcan : m.canRedo = false := by simp [canRedo, hm.none]
      exact ⟨m, by simp [redo, hcan, Zipper.step], hm⟩
  | some z =>
      have hindex := hm.index
      have hlength := hm.length
      cases hredo : z.redo with
      | none =>
          have hcan : m.canRedo = false := by
            simp [canRedo, hindex, hlength, Zipper.redo_eq_none_iff.mp hredo]
          exact ⟨m, by simp [redo, hcan, Zipper.step, hredo],
            by simpa [Zipper.step, hredo] using hm⟩
      | some z' =>
          obtain ⟨hsame, hbefore⟩ := Zipper.toList_redo hredo
          obtain ⟨hmove, hfollows⟩ := moveTo_eq hm hsame
          have hafter : z.after ≠ [] := fun hnil => by
            rw [Zipper.redo_eq_none_iff.mpr hnil] at hredo
            cases hredo
          have hcan : m.canRedo = true := by
            have := List.length_pos_of_ne_nil hafter
            rw [canRedo, hindex, hlength, decide_eq_true_eq]
            omega
          refine ⟨_, ?_, by simpa [Zipper.step, hredo] using hfollows⟩
          have htarget : m.currentIndex + 1 = z'.before.length := by
            rw [hindex, hbefore]
            push_cast
            ring
          rw [redo, if_pos hcan, htarget, hmove]
          simp [Zipper.step, hredo]

/-- The states after the current one are removed. -/
theorem spliced_eq (hm : m.Follows (some z)) :
    m.spliced = z.toList.take (z.before.length + 1) := by
  have hhistory : m.history = z.toList := by
    cases hm with
    | standsAt _ hhistory _ _ _ => exact hhistory
  have hlength := hm.length
  rw [spliced, hm.index]
  split_ifs with hlt
  · rw [hhistory]
    congr 1
  · refine hhistory.trans (List.take_of_length_le ?_).symm
    rw [hhistory] at hlength hlt
    omega

theorem push_of_same (hm : m.Follows (some z)) {nodes edges : List Js}
    (hsame : statesEqual (snapshot nodes edges) z.current = true) : m.push nodes edges = m := by
  have hlength := hm.length
  rw [push, at?_of_follows hm]
  exact if_pos ⟨by omega, hsame⟩

/-- A different state comes behind the current one, and the oldest goes if there are too many. -/
theorem push_of_different (hm : m.Follows (some z)) {nodes edges : List Js}
    (hne : statesEqual (snapshot nodes edges) z.current = false) :
    (m.push nodes edges).history = (z.advance maxSize (snapshot nodes edges)).toList ∧
      (m.push nodes edges).currentIndex = (m.push nodes edges).history.length - 1 := by
  have hfit : z.before.length + 1 ≤ maxSize := by
    cases hm with
    | standsAt _ _ _ hlength _ =>
        rw [z.length_toList] at hlength
        omega
  have hpush : m.push nodes edges =
      let history := m.spliced ++ [snapshot nodes edges]
      let history := if maxSize < history.length then history.tail else history
      { history := history
        currentIndex := history.length - 1
        lastSavedState := (snapshot nodes edges).text } := by
    rw [push, at?_of_follows hm]
    exact if_neg fun hand => Bool.false_ne_true (hne.symm.trans hand.2)
  refine ⟨?_, by rw [hpush]⟩
  have hlength : (m.spliced ++ [snapshot nodes edges]).length = z.before.length + 2 := by
    rw [spliced_eq hm, Zipper.take_toList]
    simp
  rw [hpush, Zipper.toList_advance (by decide), ← spliced_eq hm]
  simp only [hlength]
  split_ifs with hfull
  · have hone : z.before.length + 2 - maxSize = 1 := by omega
    rw [hone, List.drop_one]
  · have hzero : z.before.length + 2 - maxSize = 0 := by omega
    rw [hzero, List.drop_zero]

theorem push_follows (hm : m.Follows h) (nodes edges : List Js) :
    (m.push nodes edges).Follows
      (some (Zipper.push maxSize statesEqual (snapshot nodes edges) h)) := by
  cases h with
  | none =>
      obtain ⟨hhistory, hindex⟩ := hm.none
      have hpush : m.push nodes edges =
          ⟨[snapshot nodes edges], 0, (snapshot nodes edges).text⟩ := by
        simp [push, spliced, hhistory, hindex, maxSize]
      rw [hpush]
      exact .standsAt _ rfl rfl (by simp [Zipper.push, Zipper.toList, maxSize])
        (by simp [Zipper.push, Zipper.toList, isCopy_snapshot])
  | some z =>
      cases hsame : statesEqual (snapshot nodes edges) z.current with
      | true =>
          rw [push_of_same hm hsame, Zipper.push, if_pos hsame]
          exact hm
      | false =>
          obtain ⟨hhistory, hindex⟩ := push_of_different hm hsame
          rw [Zipper.push, if_neg (by simp [hsame])]
          have hlength := (z.advance maxSize (snapshot nodes edges)).length_toList
          have hafter : (z.advance maxSize (snapshot nodes edges)).after = [] := rfl
          rw [hafter, List.length_nil, Nat.add_zero] at hlength
          refine .standsAt _ hhistory ?_ ?_ ?_
          · rw [hindex, hhistory, hlength]
            push_cast
            ring
          · have hpositive : 1 ≤ maxSize := by decide
            rw [hlength, Zipper.advance, List.length_take]
            omega
          · cases hm with
            | standsAt _ _ _ _ hcopies =>
                intro s hs
                rw [Zipper.toList_advance (by decide)] at hs
                rcases List.mem_append.mp (List.mem_of_mem_drop hs) with hs | hs
                · exact hcopies s (List.mem_of_mem_take hs)
                · exact List.mem_singleton.mp hs ▸ isCopy_snapshot nodes edges

/-- One call does what it does to the bounded history. -/
theorem call_follows (hm : m.Follows h) (c : Edit (List Js × List Js)) : ∃ m',
    m.call c = some ((Zipper.step maxSize statesEqual h (edit c)).1, m') ∧
      m'.Follows (Zipper.step maxSize statesEqual h (edit c)).2 := by
  cases c with
  | push canvas => exact ⟨_, rfl, push_follows hm canvas.1 canvas.2⟩
  | undo => exact undo_follows hm
  | redo => exact redo_follows hm

theorem run_follows (hm : m.Follows h) (calls : List (Edit (List Js × List Js))) : ∃ m',
    m.run calls = some ((Zipper.run maxSize statesEqual h (calls.map edit)).1, m') ∧
      m'.Follows (Zipper.run maxSize statesEqual h (calls.map edit)).2 := by
  induction calls generalizing m h with
  | nil => exact ⟨m, rfl, hm⟩
  | cons c calls ih =>
      obtain ⟨m', hcall, hm'⟩ := call_follows hm c
      obtain ⟨m'', hrun, hm''⟩ := ih hm'
      refine ⟨m'', ?_, hm''⟩
      rw [run, hcall]
      change (m'.run calls).bind _ = _
      rw [hrun]
      rfl

end Calls

/-! ## Undo and redo -/

/-- The laws of a state of the manager. -/
structure UndoRedo (m : HistoryManager) : Prop where
  index : m.history ≠ [] → 0 ≤ m.currentIndex ∧ m.currentIndex < m.history.length
  /-- An undo that goes back is taken back by a redo. -/
  undo_redo : ∀ {s m'}, m.undo = some (some s, m') → ∃ s', m'.redo = some (some s', m)
  undo_none : ∀ {m'}, m.undo = some (none, m') → m' = m
  /-- What is restored may be pushed again. -/
  push_restored : ∀ {s m'}, m.undo = some (some s, m') ∨ m.redo = some (some s, m') →
    m'.push s.nodes s.edges = m'
  /-- A different state takes the place of what was undone, within the limit. -/
  push_different : ∀ {nodes edges},
    (∀ s, m.at? m.currentIndex = some s → statesEqual (snapshot nodes edges) s = false) →
    (m.push nodes edges).history =
      (m.history.take (m.currentIndex + 1).toNat ++ [snapshot nodes edges]).drop
        ((m.currentIndex + 2).toNat - maxSize)

/-- A move changes the index only. -/
theorem eq_of_undo {m m' : HistoryManager} {shown : Option CanvasState}
    (h : m.undo = some (shown, m')) : m' = { m with currentIndex := m'.currentIndex } := by
  unfold undo moveTo at h
  split_ifs at h
  · obtain ⟨s, -, heq⟩ := Option.map_eq_some_iff.mp h
    rw [← (Prod.mk.inj heq).2]
  · rw [← (Prod.mk.inj (Option.some.inj h)).2]

theorem eq_of_redo {m m' : HistoryManager} {shown : Option CanvasState}
    (h : m.redo = some (shown, m')) : m' = { m with currentIndex := m'.currentIndex } := by
  unfold redo moveTo at h
  split_ifs at h
  · obtain ⟨s, -, heq⟩ := Option.map_eq_some_iff.mp h
    rw [← (Prod.mk.inj heq).2]
  · rw [← (Prod.mk.inj (Option.some.inj h)).2]

section Laws

variable {m m' : HistoryManager} {h : Option (Zipper CanvasState)} {s : CanvasState}

theorem undo_eq_some (hm : m.Follows h) (hundo : m.undo = some (some s, m')) :
    ∃ z z', h = some z ∧ z.undo = some z' ∧ s = z'.current ∧ m'.Follows (some z') := by
  obtain ⟨m'', heq, hfollows⟩ := undo_follows hm
  obtain ⟨hshown, rfl⟩ := Prod.mk.inj (Option.some.inj (hundo.symm.trans heq))
  cases h with
  | none => cases hshown
  | some z =>
      cases hback : z.undo with
      | none => simp [Zipper.step, hback] at hshown
      | some z' =>
          simp only [Zipper.step, Option.bind_some, hback, Option.some.injEq] at hshown hfollows
          exact ⟨z, z', rfl, hback, hshown, hfollows⟩

theorem redo_eq_some (hm : m.Follows h) (hredo : m.redo = some (some s, m')) :
    ∃ z z', h = some z ∧ z.redo = some z' ∧ s = z'.current ∧ m'.Follows (some z') := by
  obtain ⟨m'', heq, hfollows⟩ := redo_follows hm
  obtain ⟨hshown, rfl⟩ := Prod.mk.inj (Option.some.inj (hredo.symm.trans heq))
  cases h with
  | none => cases hshown
  | some z =>
      cases hforth : z.redo with
      | none => simp [Zipper.step, hforth] at hshown
      | some z' =>
          simp only [Zipper.step, Option.bind_some, hforth, Option.some.injEq] at hshown hfollows
          exact ⟨z, z', rfl, hforth, hshown, hfollows⟩

theorem push_current {z : Zipper CanvasState} (hm : m.Follows (some z)) :
    m.push z.current.nodes z.current.edges = m := by
  have hcopy : IsCopy z.current := by
    cases hm with
    | standsAt _ _ _ _ hcopies => exact hcopies _ (List.mem_of_getElem? z.getElem?_toList)
  apply push_of_same hm
  rw [IsCopy] at hcopy
  rw [hcopy, statesEqual, decide_eq_true_eq]

theorem push_different (hm : m.Follows h) {nodes edges : List Js}
    (hne : ∀ s, m.at? m.currentIndex = some s → statesEqual (snapshot nodes edges) s = false) :
    (m.push nodes edges).history =
      (m.history.take (m.currentIndex + 1).toNat ++ [snapshot nodes edges]).drop
        ((m.currentIndex + 2).toNat - maxSize) := by
  cases h with
  | none =>
      obtain ⟨hhistory, hindex⟩ := hm.none
      simp [push, spliced, hhistory, hindex, maxSize]
  | some z =>
      have hhistory : m.history = z.toList := by
        cases hm with
        | standsAt _ hhistory _ _ _ => exact hhistory
      obtain ⟨hpushed, -⟩ := push_of_different hm (hne _ (at?_of_follows hm))
      rw [hpushed, Zipper.toList_advance (by decide), hm.index, hhistory]
      rfl

/-- The manager of a bounded history obeys the laws. -/
theorem Follows.undoRedo (hm : m.Follows h) : m.UndoRedo where
  index hne := by
    cases h with
    | none => exact absurd hm.none.1 hne
    | some z =>
        have hindex := hm.index
        have hlength := hm.length
        omega
  undo_redo hundo := by
    obtain ⟨z, z', rfl, hback, -, hm'⟩ := undo_eq_some hm hundo
    obtain ⟨m'', hredo, hm''⟩ := redo_follows hm'
    simp only [Zipper.step, Option.bind_some, Zipper.redo_of_undo hback] at hredo hm''
    refine ⟨z.current, hredo.trans ?_⟩
    -- Both moves keep the list, and the index is back.
    have hsame : m'' = m := by
      rw [eq_of_redo hredo, eq_of_undo hundo, hm''.index, ← hm.index]
    rw [hsame]
  undo_none hundo := by
    unfold undo moveTo at hundo
    split_ifs at hundo
    · obtain ⟨s, -, heq⟩ := Option.map_eq_some_iff.mp hundo
      cases (Prod.mk.inj heq).1
    · exact (Prod.mk.inj (Option.some.inj hundo)).2.symm
  push_restored hmove := by
    rcases hmove with hundo | hredo
    · obtain ⟨z, z', -, -, rfl, hm'⟩ := undo_eq_some hm hundo
      exact push_current hm'
    · obtain ⟨z, z', -, -, rfl, hm'⟩ := redo_eq_some hm hredo
      exact push_current hm'
  push_different := push_different hm

end Laws

/-- Whatever is called, the manager is the bounded history of the states that were pushed, shows
what it restores, and obeys the laws. -/
theorem run_undoRedo (calls : List (Edit (List Js × List Js))) : ∃ m,
    new.run calls = some ((Zipper.run maxSize statesEqual none (calls.map edit)).1, m) ∧
      m.Follows (Zipper.run maxSize statesEqual none (calls.map edit)).2 ∧ m.UndoRedo := by
  obtain ⟨m, hrun, hm⟩ := run_follows (m := new) (.empty rfl rfl) calls
  exact ⟨m, hrun, hm, hm.undoRedo⟩

/-- After the calls, an undo and a redo lead back to the same manager. -/
def UndoThenRedo (calls : List (Edit (List Js × List Js))) : Prop :=
  ∀ shown m, new.run calls = some (shown, m) →
    (m.undo.bind fun moved => moved.2.redo).map Prod.snd = some m

/-- At the oldest state there is nothing to undo, and the redo goes on. -/
theorem not_undoThenRedo : ¬ UndoThenRedo [.push ([], []), .push ([.null], []), .undo] := by
  intro h
  have hindex := congrArg (Option.map currentIndex) (h _ _ rfl)
  exact absurd hindex (by decide)

end HistoryManager

end RagFlow.Editor
