/-
# Reporting the progress of a task

`update_progress` reads the task row before it takes the lock, and appends its message to
the copy it has read. The numeric progress is written by a conditional update, which
looks at the row as it is. So progress follows the documented rule in the order of the
writes, and a message is lost when another one was written since the row was read.
-/

import RagFlow.Math.Threads
import Mathlib.Data.List.Infix
import Mathlib.Data.Rat.Cast.Order
import Mathlib.Tactic.NormNum

namespace RagFlow.Ingestion

open RagFlow.Math Threads

/-! ## Messages and progress -/

/-- `trim_header_by_lines`. -/
def trimHeaderByLines (text : String) (maxLength : ℕ) : String :=
  if text.length ≤ maxLength then text
  else
    let cut := (List.range text.length).find? fun i =>
      text.toList[i]? = some '\n' ∧ text.length - i ≤ maxLength
    match cut with
    | some i => String.ofList (text.toList.drop (i + 1))
    | none => text

/-- The argument `info` of `update_progress`. -/
structure ProgressInfo where
  progressMsg : String
  progress : Option ℚ

/-- The progress after `UPDATE ... SET progress` with its condition. -/
def updateRule (current new : ℚ) : ℚ :=
  if 1 ≤ new ∨ (current ≠ -1 ∧ (new = -1 ∨ current < new)) then new else current

/-- The message that a call writes, from the one that it has read. -/
def appendMsg (seen : String) (info : ProgressInfo) : String :=
  seen ++ "\n" ++ info.progressMsg

/-- The limit that messages are trimmed to. -/
def maxProgressMsg : ℕ := 3000

/-- The row of the task and who holds the lock `update_progress`. The values written to
the progress are kept in their order. -/
structure TaskRow (ι : Type*) where
  progress : ℚ
  progressMsg : String
  lock : Option ι
  written : List ℚ

/-- Where a call of `update_progress` stands. -/
inductive UpdateCall where
  | idle
  | called (info : ProgressInfo)
  /-- The row was read. -/
  | read (info : ProgressInfo) (seen : String)
  /-- The lock is taken, and the message is written next. -/
  | locked (info : ProgressInfo) (seen : String)
  /-- The progress is written next. -/
  | messaged (info : ProgressInfo)
  /-- The lock is released next. -/
  | written (info : ProgressInfo)
  | finished (info : ProgressInfo)

variable {ι : Type*}

def TaskRow.writeMsg (row : TaskRow ι) (info : ProgressInfo) (seen : String) : TaskRow ι :=
  if info.progressMsg = "" then row
  else { row with progressMsg := trimHeaderByLines (appendMsg seen info) maxProgressMsg }

def TaskRow.writeProgress (row : TaskRow ι) (info : ProgressInfo) : TaskRow ι :=
  match info.progress with
  | none => row
  | some prog =>
    { row with progress := updateRule row.progress prog, written := row.written ++ [prog] }

/-- One step of call `i`. On macOS there is no lock. -/
inductive UpdateStep (macos : Bool) (i : ι) (row : TaskRow ι) :
    UpdateCall → TaskRow ι → UpdateCall → Prop
  | call (info : ProgressInfo) : UpdateStep macos i row .idle row (.called info)
  | read (info : ProgressInfo) :
      UpdateStep macos i row (.called info) row (.read info row.progressMsg)
  | lock (info : ProgressInfo) (seen : String) (h : macos = false) (hfree : row.lock = none) :
      UpdateStep macos i row (.read info seen) { row with lock := some i } (.locked info seen)
  | noLock (info : ProgressInfo) (seen : String) (h : macos = true) :
      UpdateStep macos i row (.read info seen) row (.locked info seen)
  | message (info : ProgressInfo) (seen : String) :
      UpdateStep macos i row (.locked info seen) (row.writeMsg info seen) (.messaged info)
  | progress (info : ProgressInfo) :
      UpdateStep macos i row (.messaged info) (row.writeProgress info) (.written info)
  | unlock (info : ProgressInfo) :
      UpdateStep macos i row (.written info)
        { row with lock := if macos then row.lock else none } (.finished info)

/-- Where a message is written next, the one in the row is still the one that the call has
read, and the new one is within the limit. -/
def FreshMsg (row : TaskRow ι) (call : UpdateCall) : Prop :=
  ∀ info seen, call = .locked info seen → info.progressMsg ≠ "" →
    row.progressMsg = seen ∧ (appendMsg seen info).length ≤ maxProgressMsg

/-- Where a progress of at least 1 is written next, the row has no larger one. -/
def NoLargerProgress (row : TaskRow ι) (call : UpdateCall) : Prop :=
  ∀ info prog, call = .messaged info → info.progress = some prog → 1 ≤ prog →
    row.progress ≤ prog

def FreshStep (macos : Bool) (i : ι) (row : TaskRow ι) (call : UpdateCall)
    (row' : TaskRow ι) (call' : UpdateCall) : Prop :=
  UpdateStep macos i row call row' call' ∧ FreshMsg row call ∧ NoLargerProgress row call

/-! ## The progress -/

variable {macos : Bool} {i : ι} {row row' : TaskRow ι} {call call' : UpdateCall}

/-- The rule lets progress decrease to -1 only, unless the new value is at least 1. -/
theorem updateRule_mono {current new : ℚ} (h : 1 ≤ new → current ≤ new) :
    current ≤ updateRule current new ∨ updateRule current new = -1 := by
  rw [updateRule]
  split_ifs with hcond
  · rcases hcond with hone | ⟨-, rfl | hlt⟩
    · exact Or.inl (h hone)
    · exact Or.inr rfl
    · exact Or.inl hlt.le
  · exact Or.inl le_rfl

/-- A failed task recovers with a value of at least 1 only. -/
theorem updateRule_failed (new : ℚ) : updateRule (-1) new = -1 ∨ 1 ≤ updateRule (-1) new := by
  rw [updateRule]
  split_ifs with hcond
  · rcases hcond with hone | ⟨hne, -⟩
    · exact Or.inr hone
    · exact absurd rfl hne
  · exact Or.inl rfl

/-- A step leaves the progress alone, or writes one value by the rule. -/
theorem UpdateStep.progress_eq (h : UpdateStep macos i row call row' call') :
    (row'.progress = row.progress ∧ row'.written = row.written) ∨
      ∃ info prog, call = .messaged info ∧ info.progress = some prog ∧
        row'.progress = updateRule row.progress prog ∧ row'.written = row.written ++ [prog] := by
  cases h with
  | message info seen =>
      rw [TaskRow.writeMsg]
      split_ifs <;> exact Or.inl ⟨rfl, rfl⟩
  | progress info =>
      rw [TaskRow.writeProgress]
      cases hprog : info.progress with
      | none => exact Or.inl ⟨rfl, rfl⟩
      | some prog => exact Or.inr ⟨info, prog, rfl, hprog, rfl, rfl⟩
  | _ => exact Or.inl ⟨rfl, rfl⟩

theorem FreshStep.progress (h : FreshStep macos i row call row' call') :
    (row.progress ≤ row'.progress ∨ row'.progress = -1) ∧
      (row.progress = -1 → row'.progress = -1 ∨ 1 ≤ row'.progress) := by
  obtain ⟨hstep, -, hlarger⟩ := h
  rcases hstep.progress_eq with ⟨heq, -⟩ | ⟨info, prog, hcall, hprog, heq, -⟩
  · rw [heq]
    exact ⟨Or.inl le_rfl, Or.inl⟩
  · rw [heq]
    refine ⟨updateRule_mono (hlarger info prog hcall hprog), fun hfailed => ?_⟩
    rw [hfailed]
    exact updateRule_failed prog

/-! ## The messages -/

/-- A call that has written its message finds it in the row. -/
def UpdateCall.Kept (row : TaskRow ι) : UpdateCall → Prop
  | .messaged info | .written info | .finished info =>
    info.progressMsg.toList <:+: row.progressMsg.toList
  | _ => True

/-- A fresh write appends to the message in the row. -/
theorem writeMsg_of_fresh {info : ProgressInfo} {seen : String}
    (h : FreshMsg row (.locked info seen)) :
    row.progressMsg.toList <:+: (row.writeMsg info seen).progressMsg.toList ∧
      info.progressMsg.toList <:+: (row.writeMsg info seen).progressMsg.toList := by
  rw [TaskRow.writeMsg]
  split_ifs with hempty
  · rw [hempty]
    exact ⟨List.infix_refl _, List.nil_infix⟩
  · obtain ⟨rfl, hlen⟩ := h info seen rfl hempty
    show _ <:+: (trimHeaderByLines _ _).toList ∧ _ <:+: (trimHeaderByLines _ _).toList
    rw [trimHeaderByLines, if_pos hlen, appendMsg, String.toList_append, String.toList_append,
      List.append_assoc]
    refine ⟨(List.prefix_append _ _).isInfix, ?_⟩
    rw [← List.append_assoc]
    exact (List.suffix_append _ _).isInfix

/-- A fresh step keeps what the message in the row contains. -/
theorem FreshStep.progressMsg (h : FreshStep macos i row call row' call') :
    row.progressMsg.toList <:+: row'.progressMsg.toList := by
  obtain ⟨hstep, hfresh, -⟩ := h
  cases hstep with
  | message info seen => exact (writeMsg_of_fresh hfresh).1
  | progress info =>
      rw [TaskRow.writeProgress]
      split <;> exact List.infix_refl _
  | _ => exact List.infix_refl _

theorem UpdateCall.Kept.mono (hcall : call.Kept row)
    (h : row.progressMsg.toList <:+: row'.progressMsg.toList) : call.Kept row' := by
  cases call with
  | messaged info | written info | finished info => exact List.IsInfix.trans hcall h
  | _ => trivial

theorem kept_stable : Stable (FreshStep (ι := ι) macos) fun _ row call => call.Kept row where
  own := by
    intro i row call row' call' hstep hcall
    have hmsg := hstep.progressMsg
    obtain ⟨hstep, hfresh, -⟩ := hstep
    cases hstep with
    | message info seen => exact (writeMsg_of_fresh hfresh).2
    | progress info => exact hcall.trans hmsg
    | unlock info => exact hcall
    | _ => trivial
  others := fun _ hstep _ hother => hother.mono hstep.progressMsg

/-! ## Runs of any number of calls -/

/-- In every run in which messages are written to the row as it was read, every call that
has finished finds its message in the row, and the progress is the one that the rule
makes of the values in the order of their writes. -/
theorem updateProgress_keeps_messages [DecidableEq ι] {start g : Threads ι (TaskRow ι) UpdateCall}
    {n : ℕ} (hidle : ∀ i, start.locals i = .idle) (hwritten : start.shared.written = [])
    (hrun : Run (Interleave (FreshStep macos)) start n g) :
    (∀ i info, g.locals i = .finished info →
      info.progressMsg.toList <:+: g.shared.progressMsg.toList) ∧
    g.shared.progress = g.shared.written.foldl updateRule start.shared.progress ∧
    ∀ h, Interleave (FreshStep macos) g h →
      (g.shared.progress ≤ h.shared.progress ∨ h.shared.progress = -1) ∧
      (g.shared.progress = -1 → h.shared.progress = -1 ∨ 1 ≤ h.shared.progress) := by
  refine ⟨fun i info hfinished => ?_, ?_, fun h hstep => ?_⟩
  · have hkept : ∀ j, (start.locals j).Kept start.shared := by
      intro j
      rw [hidle j]
      trivial
    have hi := kept_stable.run hrun hkept i
    rw [hfinished] at hi
    exact hi
  · apply hrun.invariant (P := fun _ g =>
      g.shared.progress = g.shared.written.foldl updateRule start.shared.progress)
    · rw [hwritten]
      rfl
    · rintro k m _ - hm ⟨i, hmove⟩
      rcases hmove.1.progress_eq with ⟨heq, hsame⟩ | ⟨info, prog, -, -, heq, happend⟩
      · rw [move_shared, heq, hsame]
        exact hm
      · rw [move_shared, heq, happend, List.foldl_append, ← hm]
        rfl
  · cases hstep with
    | thread i hmove => exact hmove.progress

/-- A task that nobody has reported on. -/
def freshTask : Threads ℕ (TaskRow ℕ) UpdateCall where
  shared := { progress := 0, progressMsg := "", lock := none, written := [] }
  locals := fun _ => .idle

def parsed : ProgressInfo := { progressMsg := "parsed", progress := some (1 / 2) }

def indexed : ProgressInfo := { progressMsg := "indexed", progress := none }

/-- One call, from the read to the release of the lock. -/
theorem updateProgress_keeps_parsed : ∃ n g,
    Run (Interleave (FreshStep false)) freshTask n g ∧ g.locals 0 = .finished parsed ∧
      "parsed".toList <:+: g.shared.progressMsg.toList ∧ g.shared.progress = 1 / 2 := by
  have h₀ : Run (Interleave (FreshStep false)) freshTask 0 freshTask := .refl
  have h₁ := thread h₀ 0 ⟨.call parsed, by simp [FreshMsg, freshTask],
    by simp [NoLargerProgress, freshTask]⟩
  have h₂ := thread h₁ 0 ⟨.read parsed, by simp [FreshMsg], by simp [NoLargerProgress]⟩
  have h₃ := thread h₂ 0 ⟨.lock parsed "" rfl rfl, by simp [FreshMsg], by simp [NoLargerProgress]⟩
  have h₄ := thread h₃ 0 ⟨.message parsed "", by
    intro info seen heq _
    cases heq
    exact ⟨rfl, by decide⟩, by simp [NoLargerProgress]⟩
  have h₅ := thread h₄ 0 ⟨.progress parsed, by simp [FreshMsg], by
    intro info prog heq hprog hone
    cases heq
    rw [← Option.some.inj hprog] at hone
    exact absurd hone (by norm_num)⟩
  have h₆ := thread h₅ 0 ⟨.unlock parsed, by simp [FreshMsg], by simp [NoLargerProgress]⟩
  have hkeeps := updateProgress_keeps_messages (fun _ => rfl) rfl h₆
  refine ⟨_, _, h₆, rfl, hkeeps.1 0 parsed rfl, ?_⟩
  rw [hkeeps.2.1]
  show updateRule 0 (1 / 2) = 1 / 2
  norm_num [updateRule]

/-- Two calls read the row before either of them writes: the message of the first one to
write is lost, although they take turns with the lock. -/
theorem updateProgress_loses_message : ∃ n g,
    Run (Interleave (UpdateStep false)) freshTask n g ∧
      g.locals 0 = .finished parsed ∧ g.locals 1 = .finished indexed ∧
      ¬ "parsed".toList <:+: g.shared.progressMsg.toList := by
  have h₀ : Run (Interleave (UpdateStep false)) freshTask 0 freshTask := .refl
  have h₁ := thread h₀ 0 (.call parsed)
  have h₂ := thread h₁ 1 (.call indexed)
  have h₃ := thread h₂ 0 (.read parsed)
  have h₄ := thread h₃ 1 (.read indexed)
  have h₅ := thread h₄ 0 (.lock parsed "" rfl rfl)
  have h₆ := thread h₅ 0 (.message parsed "")
  have h₇ := thread h₆ 0 (.progress parsed)
  have h₈ := thread h₇ 0 (.unlock parsed)
  have h₉ := thread h₈ 1 (.lock indexed "" rfl rfl)
  have h₁₀ := thread h₉ 1 (.message indexed "")
  have h₁₁ := thread h₁₀ 1 (.progress indexed)
  have h₁₂ := thread h₁₁ 1 (.unlock indexed)
  refine ⟨_, _, h₁₂, rfl, rfl, ?_⟩
  show ¬ "parsed".toList <:+: "\nindexed".toList
  decide

end RagFlow.Ingestion
