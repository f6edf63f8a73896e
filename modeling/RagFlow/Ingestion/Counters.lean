/-
# The counters of a dataset

A dataset keeps the number of its documents and the sums of their tokens and chunks in
its own row, beside the counters in the rows of the documents. The operations on them
write the two tables in statements of their own, so others can come in between. What an
operation under way has still to write is its arrears: the row of the dataset and all
arrears together make up the sums, as long as no statement writes one side only.
-/

import RagFlow.Math.Run
import Mathlib.Algebra.BigOperators.Group.Finset.Piecewise
import Mathlib.Algebra.BigOperators.Pi
import Mathlib.Algebra.Order.BigOperators.Group.Finset
import Mathlib.Algebra.Order.Monoid.Prod
import Mathlib.Algebra.Order.Ring.Int
import Mathlib.Tactic.Abel

namespace RagFlow.Ingestion

open RagFlow.Math

/-! ## The tables -/

/-- `token_num` and `chunk_num` of a document. -/
abbrev DocCounts := ℤ × ℤ

/-- `doc_num`, `token_num` and `chunk_num` of a dataset. -/
abbrev DatasetCounts := ℤ × DocCounts

/-- The row of a dataset and those of its documents. -/
structure CounterTables (δ : Type*) where
  kb : DatasetCounts
  docs : Finset δ
  counts : δ → DocCounts

/-- The calls on the counters, each by the statement that comes next. -/
inductive CountOp (δ : Type*) where
  /-- `insert`: save the document. -/
  | insert (doc : δ) (counts : DocCounts)
  /-- `insert`: increase the number of documents. -/
  | insertKb
  /-- `queue_tasks`: set the chunks of the document to those that were reused. -/
  | queueTasks (doc : δ) (ckNum : ℕ)
  /-- `increment_chunk_num`, first of the document, then of the dataset. -/
  | increment (doc : δ) (num : DocCounts)
  | incrementKb (num : DocCounts)
  /-- `decrement_chunk_num`, first of the document, then of the dataset. -/
  | decrement (doc : δ) (num : DocCounts)
  | decrementKb (num : DocCounts)
  /-- `clear_chunk_num_when_rerun`: read the document. -/
  | clear (doc : δ)
  /-- `clear_chunk_num_when_rerun`: subtract what was read from the dataset. -/
  | clearKb (doc : δ) (read : DocCounts)
  /-- The counters of the document are reset after that. -/
  | reset (doc : δ) (read : DocCounts)
  /-- `delete_document_and_update_kb_counts`, in one transaction. -/
  | delete (doc : δ)

variable {δ : Type*}

/-- The operations that are called; the others are what is left of a call. -/
def CountOp.IsCall : CountOp δ → Prop
  | .insert .. | .queueTasks .. | .increment .. | .decrement .. | .clear _ | .delete _ => True
  | _ => False

section Statements

variable [DecidableEq δ]

/-- The row of a document is written. -/
def CounterTables.put (t : CounterTables δ) (doc : δ) (counts : DocCounts) :
    CounterTables δ where
  kb := t.kb
  docs := insert doc t.docs
  counts := Function.update t.counts doc counts

/-- `UPDATE document`, which does nothing where there is no such document. -/
def CounterTables.updateDoc (t : CounterTables δ) (doc : δ) (counts : DocCounts) :
    CounterTables δ :=
  if doc ∈ t.docs then t.put doc counts else t

/-- One statement, and what is left of the operation after it. -/
def statement (t : CounterTables δ) : CountOp δ → CounterTables δ × Option (CountOp δ)
  | .insert doc counts =>
    -- Saving a document whose id is taken raises.
    if doc ∈ t.docs then (t, none)
    else (t.put doc counts, some .insertKb)
  | .insertKb => ({ t with kb := t.kb + (1, 0) }, none)
  | .queueTasks doc ckNum => (t.updateDoc doc ((t.counts doc).1, ckNum), none)
  | .increment doc num => (t.updateDoc doc (t.counts doc + num), some (.incrementKb num))
  | .incrementKb num => ({ t with kb := t.kb + (0, num) }, none)
  | .decrement doc num =>
    if doc ∈ t.docs then (t.updateDoc doc (t.counts doc - num), some (.decrementKb num))
    else (t, none)
  | .decrementKb num => ({ t with kb := t.kb - (0, num) }, none)
  | .clear doc => (t, if doc ∈ t.docs then some (.clearKb doc (t.counts doc)) else none)
  | .clearKb doc read => ({ t with kb := t.kb - (0, read) }, some (.reset doc read))
  | .reset doc _ => (t.updateDoc doc 0, none)
  | .delete doc =>
    if doc ∈ t.docs then
      ({ t with docs := t.docs.erase doc, kb := t.kb - (1, t.counts doc) }, none)
    else (t, none)

/-- The tables and the operations under way. -/
structure CounterState (δ : Type*) where
  tables : CounterTables δ
  underWay : Multiset (CountOp δ)

/-- An operation is called, or one of those under way executes its next statement, which
satisfies `P`. -/
inductive CountStep (P : CounterTables δ → CountOp δ → Prop) :
    CounterState δ → CounterState δ → Prop
  | call (t : CounterTables δ) (ops : Multiset (CountOp δ)) (op : CountOp δ) (h : op.IsCall) :
      CountStep P ⟨t, ops⟩ ⟨t, op ::ₘ ops⟩
  | statement (t : CounterTables δ) (ops : Multiset (CountOp δ)) (op : CountOp δ) (h : P t op) :
      CountStep P ⟨t, op ::ₘ ops⟩
        ⟨(statement t op).1, (statement t op).2.elim ops fun rest => rest ::ₘ ops⟩

/-- A statement that writes as much to one table as the operation writes to the other, and
leaves no counter of a document negative. -/
def KeepsBalance (t : CounterTables δ) : CountOp δ → Prop
  | .insert doc counts => doc ∈ t.docs ∨ counts = 0
  | .queueTasks doc ckNum => doc ∈ t.docs → (t.counts doc).2 = ckNum
  | .increment doc num => doc ∈ t.docs ∧ 0 ≤ t.counts doc + num
  | .decrement doc num => doc ∈ t.docs → 0 ≤ t.counts doc - num
  | .reset doc read => doc ∈ t.docs ∧ t.counts doc = read
  | _ => True

end Statements

/-! ## Arrears -/

/-- What an operation under way has still to add to the row of the dataset. -/
def CountOp.arrears : CountOp δ → DatasetCounts
  | .insertKb => (1, 0)
  | .incrementKb num => (0, num)
  | .decrementKb num => -(0, num)
  | .reset _ read => (0, read)
  | _ => 0

/-- The number of documents and the sums of their counters. -/
def CounterTables.sums (t : CounterTables δ) : DatasetCounts :=
  ∑ doc ∈ t.docs, (1, t.counts doc)

/-- No counter of a document is negative. -/
def CounterTables.Nonneg (t : CounterTables δ) : Prop :=
  ∀ doc ∈ t.docs, 0 ≤ t.counts doc

/-- What the operations under way have still to add is what the dataset lacks, and no
counter of a document is negative. -/
structure CounterState.Balanced (s : CounterState δ) : Prop where
  sums : s.tables.kb + (s.underWay.map CountOp.arrears).sum = s.tables.sums
  nonneg : s.tables.Nonneg

variable [DecidableEq δ] {t : CounterTables δ}

/-- The sums without those of one document. -/
def CounterTables.others (t : CounterTables δ) (doc : δ) : DatasetCounts :=
  ∑ d ∈ t.docs.erase doc, (1, t.counts d)

theorem sums_of_mem {doc : δ} (h : doc ∈ t.docs) : t.sums = t.others doc + (1, t.counts doc) :=
  (Finset.sum_erase_add _ _ h).symm

theorem sums_of_not_mem {doc : δ} (h : doc ∉ t.docs) : t.sums = t.others doc := by
  rw [CounterTables.others, Finset.erase_eq_of_notMem h, CounterTables.sums]

@[simp]
theorem put_kb (doc : δ) (counts : DocCounts) : (t.put doc counts).kb = t.kb := rfl

theorem sums_put (doc : δ) (counts : DocCounts) :
    (t.put doc counts).sums = t.others doc + (1, counts) := by
  have hmem : doc ∈ (t.put doc counts).docs := Finset.mem_insert_self doc t.docs
  have hself : (t.put doc counts).counts doc = counts := by simp [CounterTables.put]
  have hothers : (t.put doc counts).others doc = t.others doc := by
    have herase : (t.put doc counts).docs.erase doc = t.docs.erase doc :=
      Finset.erase_insert_eq_erase t.docs doc
    rw [CounterTables.others, herase]
    apply Finset.sum_congr rfl
    intro d hd
    have hne : d ≠ doc := Finset.ne_of_mem_erase hd
    show (1, Function.update t.counts doc counts d) = _
    rw [Function.update_of_ne hne]
  rw [sums_of_mem hmem, hself, hothers]

theorem updateDoc_of_mem {doc : δ} (h : doc ∈ t.docs) (counts : DocCounts) :
    t.updateDoc doc counts = t.put doc counts := if_pos h

theorem updateDoc_of_not_mem {doc : δ} (h : doc ∉ t.docs) (counts : DocCounts) :
    t.updateDoc doc counts = t := if_neg h

theorem one_add_counts (counts num : DocCounts) :
    ((1, counts + num) : DatasetCounts) = (1, counts) + (0, num) := by
  simp

theorem CounterTables.Nonneg.put (h : t.Nonneg) (doc : δ) {counts : DocCounts}
    (hcounts : 0 ≤ counts) : (t.put doc counts).Nonneg := by
  intro d hd
  show 0 ≤ Function.update t.counts doc counts d
  by_cases heq : d = doc
  · rw [heq, Function.update_self]
    exact hcounts
  · rw [Function.update_of_ne heq]
    exact h d (Finset.mem_of_mem_insert_of_ne hd heq)

/-- A statement that keeps the balance: what it adds to the sums it adds to the row of the
dataset, or leaves in arrears. -/
theorem statement_spec {op : CountOp δ} (h : KeepsBalance t op) (hnonneg : t.Nonneg) :
    (statement t op).1.kb + ((statement t op).2.map CountOp.arrears).getD 0 + t.sums =
        t.kb + op.arrears + (statement t op).1.sums ∧ (statement t op).1.Nonneg := by
  cases op with
  | insert doc counts =>
      by_cases hdoc : doc ∈ t.docs
      · simp only [statement, if_pos hdoc]
        exact ⟨rfl, hnonneg⟩
      · obtain rfl := h.resolve_left hdoc
        simp only [statement, if_neg hdoc, Option.map_some, Option.getD_some, CountOp.arrears]
        rw [sums_put, sums_of_not_mem hdoc, put_kb]
        exact ⟨by abel, hnonneg.put doc le_rfl⟩
  | insertKb => exact ⟨by simp [statement, CountOp.arrears]; rfl, hnonneg⟩
  | queueTasks doc ckNum =>
      by_cases hdoc : doc ∈ t.docs
      · have hsame : ((t.counts doc).1, (ckNum : ℤ)) = t.counts doc := by rw [← h hdoc]
        simp only [statement, updateDoc_of_mem hdoc, hsame]
        rw [sums_put, ← sums_of_mem hdoc]
        exact ⟨rfl, hnonneg.put doc (hnonneg doc hdoc)⟩
      · simp only [statement, updateDoc_of_not_mem hdoc]
        exact ⟨rfl, hnonneg⟩
  | increment doc num =>
      obtain ⟨hdoc, hpos⟩ := h
      simp only [statement, updateDoc_of_mem hdoc, Option.map_some, Option.getD_some]
      rw [sums_put, sums_of_mem hdoc, put_kb, one_add_counts]
      exact ⟨by simp only [CountOp.arrears]; abel, hnonneg.put doc hpos⟩
  | incrementKb num => exact ⟨by simp [statement, CountOp.arrears]; rfl, hnonneg⟩
  | decrement doc num =>
      by_cases hdoc : doc ∈ t.docs
      · simp only [statement, if_pos hdoc, updateDoc_of_mem hdoc, Option.map_some,
          Option.getD_some]
        rw [sums_put, sums_of_mem hdoc, put_kb, sub_eq_add_neg, one_add_counts]
        refine ⟨?_, hnonneg.put doc (sub_eq_add_neg (t.counts doc) num ▸ h hdoc)⟩
        simp only [CountOp.arrears, Prod.neg_mk, neg_zero]
        abel
      · simp only [statement, if_neg hdoc]
        exact ⟨rfl, hnonneg⟩
  | decrementKb num =>
      refine ⟨?_, hnonneg⟩
      simp only [statement, CountOp.arrears, Option.map_none, Option.getD_none]
      abel
  | clear doc =>
      refine ⟨?_, hnonneg⟩
      by_cases hdoc : doc ∈ t.docs <;> simp [statement, hdoc, CountOp.arrears]
  | clearKb doc read => exact ⟨by simp [statement, CountOp.arrears]; rfl, hnonneg⟩
  | reset doc read =>
      obtain ⟨hdoc, rfl⟩ := h
      simp only [statement, updateDoc_of_mem hdoc]
      refine ⟨?_, hnonneg.put doc le_rfl⟩
      have hzero : ((1, t.counts doc) : DatasetCounts) = (1, 0) + (0, t.counts doc) := by simp
      rw [sums_put, sums_of_mem hdoc, put_kb, hzero]
      simp only [CountOp.arrears, Option.map_none, Option.getD_none]
      abel
  | delete doc =>
      by_cases hdoc : doc ∈ t.docs
      · simp only [statement, if_pos hdoc]
        refine ⟨?_, fun d hd => hnonneg d (Finset.mem_of_mem_erase hd)⟩
        rw [sums_of_mem hdoc]
        show _ = _ + t.others doc
        simp only [CountOp.arrears, Option.map_none, Option.getD_none]
        abel
      · simp only [statement, if_neg hdoc]
        exact ⟨rfl, hnonneg⟩

/-! ## Runs -/

omit [DecidableEq δ] in
/-- A call only adds an operation without arrears. -/
theorem arrears_of_isCall {op : CountOp δ} (h : op.IsCall) : op.arrears = 0 := by
  cases op <;> first | rfl | exact absurd h id

theorem CounterState.Balanced.step {s s' : CounterState δ} (hs : s.Balanced)
    (hstep : CountStep KeepsBalance s s') : s'.Balanced := by
  cases hstep with
  | call t ops op hcall =>
      refine ⟨?_, hs.nonneg⟩
      rw [Multiset.map_cons, Multiset.sum_cons, arrears_of_isCall hcall, zero_add]
      exact hs.sums
  | statement t ops op hkeeps =>
      obtain ⟨hsums, hnonneg⟩ := statement_spec hkeeps hs.nonneg
      refine ⟨?_, hnonneg⟩
      have hbefore : t.kb + (op.arrears + (ops.map CountOp.arrears).sum) = t.sums := by
        rw [← Multiset.sum_cons, ← Multiset.map_cons]
        exact hs.sums
      have hrest : (((statement t op).2.elim ops fun rest => rest ::ₘ ops).map
          CountOp.arrears).sum =
          ((statement t op).2.map CountOp.arrears).getD 0 + (ops.map CountOp.arrears).sum := by
        cases (statement t op).2 <;> simp
      show (statement t op).1.kb + Multiset.sum _ = (statement t op).1.sums
      apply add_left_cancel (a := t.kb + op.arrears)
      rw [hrest]
      calc
        _ = (statement t op).1.kb + ((statement t op).2.map CountOp.arrears).getD 0
            + (t.kb + (op.arrears + (ops.map CountOp.arrears).sum)) := by abel
        _ = _ := by rw [hbefore, hsums]

/-- An empty dataset with no operation under way. -/
def CounterState.empty (δ : Type*) : CounterState δ where
  tables := { kb := 0, docs := ∅, counts := fun _ => 0 }
  underWay := 0

/-- In every run whose statements keep the balance, whenever no operation is under way the
counters of the dataset are the number of its documents and the sums of their counters,
and not negative. -/
theorem dataset_counters_eq_sums {s : CounterState δ} {n : ℕ}
    (hrun : Run (CountStep KeepsBalance) (.empty δ) n s) (hdone : s.underWay = 0) :
    s.tables.kb.1 = s.tables.docs.card ∧
      s.tables.kb.2.1 = ∑ doc ∈ s.tables.docs, (s.tables.counts doc).1 ∧
      s.tables.kb.2.2 = ∑ doc ∈ s.tables.docs, (s.tables.counts doc).2 ∧
      0 ≤ s.tables.kb := by
  have hbalanced : s.Balanced := by
    apply hrun.invariant (P := fun _ s => s.Balanced)
    · exact ⟨by simp [CounterState.empty, CounterTables.sums], by
        intro doc hdoc
        exact absurd hdoc (Finset.notMem_empty doc)⟩
    · exact fun _ _ _ _ hm hstep => hm.step hstep
  have hsums := hbalanced.sums
  rw [hdone, Multiset.map_zero, Multiset.sum_zero, add_zero, CounterTables.sums] at hsums
  have hnonneg : 0 ≤ s.tables.kb := by
    rw [hsums]
    exact Finset.sum_nonneg fun doc hdoc => ⟨zero_le_one, hbalanced.nonneg doc hdoc⟩
  refine ⟨?_, ?_, ?_, hnonneg⟩
  · rw [hsums, Prod.fst_sum]
    simp
  · rw [hsums, Prod.snd_sum, Prod.fst_sum]
  · rw [hsums, Prod.snd_sum, Prod.snd_sum]

/-! ## Two runs -/

section Alone

variable {P : CounterTables δ → CountOp δ → Prop} {start : CounterState δ} {n : ℕ}
  {t' t'' : CounterTables δ} {rest : CountOp δ}

/-- An operation of one statement, called and executed with no other under way. -/
theorem call_alone (hrun : Run (CountStep P) start n ⟨t, 0⟩) (op : CountOp δ)
    (hcall : op.IsCall) (hP : P t op) (h : statement t op = (t', none)) :
    Run (CountStep P) start (n + 2) ⟨t', 0⟩ := by
  have hstep := CountStep.statement t 0 op hP
  rw [h] at hstep
  exact (hrun.tail (.call t 0 op hcall)).tail hstep

/-- An operation of two statements. -/
theorem call_alone_two (hrun : Run (CountStep P) start n ⟨t, 0⟩) (op : CountOp δ)
    (hcall : op.IsCall) (hP : P t op) (h : statement t op = (t', some rest)) (hP' : P t' rest)
    (h' : statement t' rest = (t'', none)) : Run (CountStep P) start (n + 3) ⟨t'', 0⟩ := by
  have hstep := CountStep.statement t 0 op hP
  have hstep' := CountStep.statement t' 0 rest hP'
  rw [h] at hstep
  rw [h'] at hstep'
  exact ((hrun.tail (.call t 0 op hcall)).tail hstep).tail hstep'

end Alone

/-- A document is inserted, and its 3 chunks with 10 tokens are counted. -/
theorem dataset_counters_eq_sums_inserted : ∃ n s,
    Run (CountStep KeepsBalance) (.empty ℕ) n s ∧ s.tables.kb = (1, 10, 3) ∧
      s.tables.kb.2.2 = ∑ doc ∈ s.tables.docs, (s.tables.counts doc).2 := by
  have h₀ : Run (CountStep KeepsBalance) (.empty ℕ) 0 (.empty ℕ) := .refl
  have h₁ := call_alone_two h₀ (.insert 0 0) trivial (Or.inr rfl) rfl trivial rfl
  have h₂ := call_alone_two h₁ (.increment 0 (10, 3)) trivial
    ⟨by decide, by decide⟩ rfl trivial rfl
  exact ⟨_, _, h₂, rfl, (dataset_counters_eq_sums h₂ rfl).2.2.1⟩

/-- Requeueing reuses 2 of the 3 chunks of the document, and the dataset still counts 3;
chunks that are counted for a document after it was deleted stay with the dataset. -/
theorem dataset_counters_drift :
    (∃ n s, Run (CountStep fun _ _ => True) (.empty ℕ) n s ∧ s.underWay = 0 ∧
      s.tables.kb.2.2 = 3 ∧ ∑ doc ∈ s.tables.docs, (s.tables.counts doc).2 = 2) ∧
    ∃ n s, Run (CountStep fun _ _ => True) (.empty ℕ) n s ∧ s.underWay = 0 ∧
      s.tables.kb.2.2 = 3 ∧ s.tables.docs = ∅ := by
  have h₀ : Run (CountStep fun _ _ => True) (.empty ℕ) 0 (.empty ℕ) := .refl
  have h₁ := call_alone_two h₀ (.insert 0 0) trivial trivial rfl trivial rfl
  constructor
  · have h₂ := call_alone_two h₁ (.increment 0 (10, 3)) trivial trivial rfl trivial rfl
    have h₃ := call_alone h₂ (.queueTasks 0 2) trivial trivial rfl
    exact ⟨_, _, h₃, rfl, rfl, rfl⟩
  · have h₂ := call_alone h₁ (.delete 0) trivial trivial rfl
    have h₃ := call_alone_two h₂ (.increment 0 (10, 3)) trivial trivial rfl trivial rfl
    exact ⟨_, _, h₃, rfl, rfl, rfl⟩

end RagFlow.Ingestion
