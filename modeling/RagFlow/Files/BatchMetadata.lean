/-
# Metadata of several documents

Updates and deletes are applied to the metadata of each listed document. Documents with a row of
metadata go through one loop, and those without through another, which leaves the deletes out.
Lists are split once more when a row is written.
-/

import Mathlib.Data.List.Dedup
import RagFlow.Agent.Variable
import RagFlow.Math.Groups
import RagFlow.Query.Text

namespace RagFlow.Files.Metadata

open RagFlow.Math
open RagFlow.Agent (Value)

/-! ## Operations on one dictionary -/

abbrev Meta := Dict String Value

structure Update where
  key : String
  value : Value
  matchValue : Value

structure Delete where
  key : String
  value : Value

/-- `match_value is not None and match_value != ""` -/
def isProvided : Value → Bool
  | .none => false
  | .str s => s ≠ ""
  | _ => true

def isNone : Value → Bool
  | .none => true
  | _ => false

def itemsOf : Value → List Value
  | .list items => items
  | v => [v]

section Operations

variable (str : Value → String)

def dedupeFrom : List String → List Value → List Value
  | _, [] => []
  | seen, item :: items =>
      if str item ∈ seen then dedupeFrom seen items
      else item :: dedupeFrom (str item :: seen) items

/-- `dedupe_list`, by the texts of the items. -/
def dedupeList (items : List Value) : List Value := dedupeFrom str [] items

def dedupeValue : Value → Value
  | .list items => .list (dedupeList str items)
  | v => v

/-- A turn of the loop of `_apply_updates`. -/
def applyUpdate (s : Meta × Bool) (upd : Update) : Meta × Bool :=
  if upd.key = "" then s
  else
    match s.1.get? upd.key with
    | none =>
        if isProvided upd.matchValue then s
        else (s.1.set upd.key (dedupeValue str upd.value), true)
    | some (.list items) =>
        if !isProvided upd.matchValue then
          (s.1.set upd.key (.list (dedupeList str (items ++ itemsOf upd.value))), true)
        else if items.any fun item => str item = str upd.matchValue then
          (s.1.set upd.key (.list (dedupeList str (items.map fun item =>
            if str item = str upd.matchValue then upd.value else item))), true)
        else s
    | some v =>
        if !isProvided upd.matchValue || str v = str upd.matchValue then
          (s.1.set upd.key upd.value, true)
        else s

/-- A turn of the loop of `_apply_deletes`. -/
def applyDelete (s : Meta × Bool) (d : Delete) : Meta × Bool :=
  if d.key = "" then s
  else
    match s.1.get? d.key with
    | none => s
    | some (.list items) =>
        if isNone d.value then (s.1.erase d.key, true)
        else
          let newList := items.filter fun item => str item ≠ str d.value
          if newList.length ≠ items.length then
            if newList ≠ [] then (s.1.set d.key (.list newList), true)
            else (s.1.erase d.key, true)
          else s
    | some v =>
        if isNone d.value || str v = str d.value then (s.1.erase d.key, true) else s

def applyUpdates (updates : List Update) (m : Meta) : Meta × Bool :=
  updates.foldl (applyUpdate str) (m, false)

def applyDeletes (deletes : List Delete) (m : Meta) : Meta × Bool :=
  deletes.foldl (applyDelete str) (m, false)

/-! ## Splitting -/

def isDelimiter (c : Char) : Bool := c ∈ ['、', ',', '，', ';', '；', '|']

def splitItem : Value → List Value
  | .str s =>
      let pieces := ((cut isDelimiter (Query.strip s.toList)).map Query.strip).filter (· ≠ [])
      if pieces = [] then [.str s] else pieces.map fun piece => .str (String.ofList piece)
  | v => [v]

def splitValue : Value → Value
  | .list items => .list (dedupeList str (items.flatMap splitItem))
  | v => v

/-- `_split_combined_values`. -/
def splitCombinedValues (m : Meta) : Meta := m.mapValues fun _ v => splitValue str v

end Operations

/-- `==` of two dictionaries. -/
def metaEq (m m' : Meta) : Bool := (Value.dict m.entries).pyEq (.dict m'.entries)

/-! ## The rows -/

/-- The rows of a dataset, and the number of updated documents. -/
abbrev State := Dict String Meta × ℕ

/-- The engine (`infinity` where a row is deleted and inserted again), `str(v)`, and the
operations. -/
structure Batch where
  infinity : Bool
  str : Value → String
  updates : List Update
  deletes : List Delete

namespace Batch

variable (b : Batch)

/-- `update_document_metadata`, in which a row that is inserted is split a second time. -/
def updateDocumentMetadata (rows : Dict String Meta) (docId : String) (m : Meta) :
    Dict String Meta :=
  let processed := splitCombinedValues b.str m
  if b.infinity then (rows.erase docId).set docId (splitCombinedValues b.str processed)
  else if docId ∈ rows then rows.set docId processed
  else rows.set docId (splitCombinedValues b.str processed)

/-- The turn of a document that has a row. -/
def oldStep (s : State) (e : String × Meta) : State :=
  let updated := applyUpdates b.str b.updates e.2
  let deleted := applyDeletes b.str b.deletes updated.1
  if (deleted.2 || updated.2) && !metaEq deleted.1 e.2 then
    if deleted.1.entries.isEmpty then (s.1.erase e.1, s.2 + 1)
    else (b.updateDocumentMetadata s.1 e.1 deleted.1, s.2 + 1)
  else s

/-- The turn of a document that has no row. -/
def newStep (s : State) (docId : String) : State :=
  let m := (applyUpdates b.str b.updates Dict.empty).1
  if m.entries.isEmpty then s else (b.updateDocumentMetadata s.1 docId m, s.2 + 1)

/-- `batch_update_metadata`. -/
def batchUpdateMetadata (rows : Dict String Meta) (docIds : List String) : State :=
  let found := rows.entries.filter fun e => e.1 ∈ docIds
  let s := found.foldl b.oldStep (rows, 0)
  if b.updates.isEmpty then s
  else (docIds.dedup.filter fun docId => docId ∉ found.map Prod.fst).foldl b.newStep s

/-! ## What is asked of a document -/

/-- `apply_deletes(apply_updates(m))`. -/
def result (m : Meta) : Meta :=
  (applyDeletes b.str b.deletes (applyUpdates b.str b.updates m).1).1

end Batch

/-- The same metadata to the host language. -/
def Same (m m' : Meta) : Prop := m = m' ∨ metaEq m m' = true

/-- The same up to the splitting of combined values. -/
def UpToSplit (str : Value → String) (m stored : Meta) : Prop :=
  Same m stored ∨ Same (splitCombinedValues str m) stored ∨
    Same (splitCombinedValues str (splitCombinedValues str m)) stored

def metaOf (row : Option Meta) : Meta := row.getD Dict.empty

/-- What the law asks of a document with its row before and after. -/
def Batch.Treats (b : Batch) (before after : Option Meta) : Prop :=
  UpToSplit b.str (b.result (metaOf before)) (metaOf after) ∧
    (b.result (metaOf before) = Dict.empty → after = none)

open Classical in
/-- All listed documents are treated alike, no other document's metadata changes, and the number
of changed documents is returned. -/
def Batch.TreatsAlike (b : Batch) (rows : Dict String Meta) (docIds : List String) : Prop :=
  let out := b.batchUpdateMetadata rows docIds
  (∀ docId ∈ docIds, b.Treats (rows.get? docId) (out.1.get? docId)) ∧
    (∀ docId, docId ∉ docIds → out.1.get? docId = rows.get? docId) ∧
    out.2 = docIds.dedup.countP fun docId =>
      ¬ Same (metaOf (out.1.get? docId)) (metaOf (rows.get? docId))

/-! ## Empty metadata -/

section Empty

variable {m m' : Meta}

theorem eq_empty_iff : m = Dict.empty ↔ m.entries = [] := by
  obtain ⟨entries, nodup⟩ := m
  simp [Dict.empty]

theorem same_empty_left : Same Dict.empty m ↔ m = Dict.empty := by
  constructor
  · rintro (h | h)
    · exact h.symm
    · rw [metaEq, Value.pyEq, Bool.and_eq_true, decide_eq_true_eq] at h
      exact eq_empty_iff.mpr (List.eq_nil_of_length_eq_zero h.1.symm)
  · rintro rfl
    exact .inl rfl

theorem same_empty_right : Same m Dict.empty ↔ m = Dict.empty := by
  constructor
  · rintro (h | h)
    · exact h
    · rw [metaEq, Value.pyEq, Bool.and_eq_true, decide_eq_true_eq] at h
      exact eq_empty_iff.mpr (List.eq_nil_of_length_eq_zero h.1)
  · rintro rfl
    exact .inl rfl

theorem splitCombinedValues_eq_empty {str : Value → String} :
    splitCombinedValues str m = Dict.empty ↔ m = Dict.empty := by
  rw [eq_empty_iff, eq_empty_iff, splitCombinedValues, Dict.mapValues]
  exact List.map_eq_nil_iff

end Empty

/-! ## The flag of a change -/

section Changed

variable {str : Value → String} {m : Meta}

/-- Operations of which one that sets no flag changes nothing. -/
theorem foldl_flag {ε : Type*} {step : Meta × Bool → ε → Meta × Bool}
    (hstep : ∀ s e, step s e = s ∨ (step s e).2 = true) (l : List ε) {s : Meta × Bool}
    (h : (l.foldl step s).2 = false) : l.foldl step s = s := by
  induction l generalizing s with
  | nil => rfl
  | cons e l ih =>
    rw [List.foldl_cons] at h ⊢
    have hrest := ih h
    rcases hstep s e with heq | hflag
    · rw [hrest, heq]
    · rw [hrest, hflag] at h
      cases h

theorem applyUpdate_flag (s : Meta × Bool) (upd : Update) :
    applyUpdate str s upd = s ∨ (applyUpdate str s upd).2 = true := by
  unfold applyUpdate
  split
  · exact .inl rfl
  · split
    · split
      · exact .inl rfl
      · exact .inr rfl
    · split
      · exact .inr rfl
      · split
        · exact .inr rfl
        · exact .inl rfl
    · split
      · exact .inr rfl
      · exact .inl rfl

theorem applyDelete_flag (s : Meta × Bool) (d : Delete) :
    applyDelete str s d = s ∨ (applyDelete str s d).2 = true := by
  unfold applyDelete
  split
  · exact .inl rfl
  · split
    · exact .inl rfl
    · split
      · exact .inr rfl
      · simp only
        split
        · split
          · exact .inr rfl
          · exact .inr rfl
        · exact .inl rfl
    · split
      · exact .inr rfl
      · exact .inl rfl

end Changed

namespace Batch

variable {b : Batch} {m : Meta}

/-- The condition of the first loop for a row to be written. -/
def written (b : Batch) (m : Meta) : Bool :=
  let updated := applyUpdates b.str b.updates m
  ((applyDeletes b.str b.deletes updated.1).2 || updated.2) && !metaEq (b.result m) m

/-- What becomes of metadata in a row. -/
def stored (b : Batch) (known : Bool) (m : Meta) : Meta :=
  if known && !b.infinity then splitCombinedValues b.str m
  else splitCombinedValues b.str (splitCombinedValues b.str m)

/-- What the updates make of no metadata. -/
def fresh (b : Batch) : Meta := (applyUpdates b.str b.updates Dict.empty).1

/-- The row of a listed document after both loops, and whether it is counted. -/
def outcome (b : Batch) : Option Meta → Option Meta × Bool
  | some m =>
      if b.written m then
        (if (b.result m).entries.isEmpty then none else some (b.stored true (b.result m)), true)
      else (some m, false)
  | none =>
      if b.fresh.entries.isEmpty then (none, false) else (some (b.stored false b.fresh), true)

theorem same_of_not_written (h : b.written m = false) : Same (b.result m) m := by
  rw [written, Bool.and_eq_false_iff] at h
  rcases h with h | h
  · rw [Bool.or_eq_false_iff] at h
    have hupdates := foldl_flag applyUpdate_flag b.updates h.2
    have hdeletes := foldl_flag applyDelete_flag b.deletes h.1
    left
    rw [result]
    unfold applyUpdates applyDeletes at *
    rw [hdeletes, hupdates]
  · exact .inr (by simpa using h)

theorem not_same_of_written (h : b.written m = true) : metaEq (b.result m) m = false := by
  rw [written, Bool.and_eq_true, Bool.not_eq_true'] at h
  exact h.2

theorem upToSplit_stored (known : Bool) (m : Meta) : UpToSplit b.str m (b.stored known m) := by
  rw [stored]
  split
  · exact .inr (.inl (.inl rfl))
  · exact .inr (.inr (.inl rfl))

theorem stored_eq_empty {known : Bool} : b.stored known m = Dict.empty ↔ m = Dict.empty := by
  rw [stored]
  split
  · exact splitCombinedValues_eq_empty
  · rw [splitCombinedValues_eq_empty, splitCombinedValues_eq_empty]

theorem upToSplit_empty_left (str : Value → String) :
    UpToSplit str Dict.empty m ↔ m = Dict.empty := by
  have hsplit : splitCombinedValues str Dict.empty = Dict.empty := rfl
  rw [UpToSplit, hsplit, hsplit, same_empty_left, or_self, or_self]

theorem get?_updateDocumentMetadata (rows : Dict String Meta) (docId : String) (m : Meta)
    (k : String) :
    (b.updateDocumentMetadata rows docId m).get? k =
      if k = docId then some (b.stored (decide (docId ∈ rows)) m) else rows.get? k := by
  rw [updateDocumentMetadata, stored]
  by_cases hk : k = docId
  · subst hk
    cases b.infinity with
    | true => simp
    | false => by_cases hmem : k ∈ rows <;> simp [hmem]
  · cases b.infinity with
    | true => simp [Dict.get?_set, Dict.get?_erase, hk]
    | false => by_cases hmem : docId ∈ rows <;> simp [hmem, Dict.get?_set, hk]

theorem oldStep_spec (s : State) (e : String × Meta) (h : s.1.get? e.1 = some e.2) :
    (∀ k, (b.oldStep s e).1.get? k =
        if k = e.1 then (b.outcome (some e.2)).1 else s.1.get? k) ∧
      (b.oldStep s e).2 = s.2 + if (b.outcome (some e.2)).2 then 1 else 0 := by
  have hknown : e.1 ∈ s.1 := Dict.mem_of_get? h
  have hstep : b.oldStep s e =
      if b.written e.2 then
        if (b.result e.2).entries.isEmpty then (s.1.erase e.1, s.2 + 1)
        else (b.updateDocumentMetadata s.1 e.1 (b.result e.2), s.2 + 1)
      else s := rfl
  rw [hstep, outcome]
  cases hw : b.written e.2 with
  | false =>
    refine ⟨fun k => ?_, rfl⟩
    by_cases hk : k = e.1
    · subst hk
      simpa using h
    · simp [hk]
  | true =>
    cases hempty : (b.result e.2).entries.isEmpty with
    | true => exact ⟨fun k => by simpa using Dict.get?_erase s.1 e.1 k, rfl⟩
    | false =>
      exact ⟨fun k => by simpa [hknown] using get?_updateDocumentMetadata s.1 e.1 _ k, rfl⟩

theorem newStep_spec (s : State) (docId : String) (h : s.1.get? docId = none) :
    (∀ k, (b.newStep s docId).1.get? k =
        if k = docId then (b.outcome none).1 else s.1.get? k) ∧
      (b.newStep s docId).2 = s.2 + if (b.outcome none).2 then 1 else 0 := by
  have hknown : docId ∉ s.1 := by simp [Dict.mem_iff_isSome, h]
  have hstep : b.newStep s docId =
      if b.fresh.entries.isEmpty then s
      else (b.updateDocumentMetadata s.1 docId b.fresh, s.2 + 1) := rfl
  rw [hstep, outcome]
  cases hempty : b.fresh.entries.isEmpty with
  | true =>
    refine ⟨fun k => ?_, rfl⟩
    by_cases hk : k = docId
    · subst hk
      simpa using h
    · simp [hk]
  | false =>
    exact ⟨fun k => by simpa [hknown] using get?_updateDocumentMetadata s.1 docId _ k, rfl⟩

/-! ## What the batch does to each document -/

section Whole

variable {rows : Dict String Meta} {docIds : List String}

def found (rows : Dict String Meta) (docIds : List String) : List (String × Meta) :=
  rows.entries.filter fun e => e.1 ∈ docIds

def missing (rows : Dict String Meta) (docIds : List String) : List String :=
  docIds.dedup.filter fun docId => docId ∉ (found rows docIds).map Prod.fst

theorem batchUpdateMetadata_eq (b : Batch) (rows : Dict String Meta) (docIds : List String) :
    b.batchUpdateMetadata rows docIds =
      (missing rows docIds).foldl b.newStep ((found rows docIds).foldl b.oldStep (rows, 0)) := by
  rw [batchUpdateMetadata]
  split
  · rename_i hempty
    -- Without updates nothing is written for a document that has no row.
    have hnone : ∀ s docId, b.newStep s docId = s := by
      intro s docId
      rw [newStep, List.isEmpty_iff.mp hempty]
      rfl
    have hfold : ∀ (l : List String) s, l.foldl b.newStep s = s := by
      intro l
      induction l with
      | nil => exact fun _ => rfl
      | cons docId l ih => exact fun s => by rw [List.foldl_cons, hnone, ih]
    exact (hfold _ _).symm
  · rfl

theorem mem_keys_found {docId : String} :
    docId ∈ (found rows docIds).map Prod.fst ↔ docId ∈ docIds ∧ (rows.get? docId).isSome := by
  rw [← Dict.mem_iff_isSome, Dict.mem_iff, Dict.keys, List.mem_map, List.mem_map]
  constructor
  · rintro ⟨e, he, rfl⟩
    obtain ⟨hrow, hlisted⟩ := List.mem_filter.mp he
    exact ⟨by simpa using hlisted, e, hrow, rfl⟩
  · rintro ⟨hlisted, e, hrow, rfl⟩
    exact ⟨e, List.mem_filter.mpr ⟨hrow, by simpa using hlisted⟩, rfl⟩

theorem nodup_found : ((found rows docIds).map Prod.fst).Nodup :=
  rows.nodup.sublist (List.filter_sublist.map _)

theorem keys_perm :
    ((found rows docIds).map Prod.fst ++ missing rows docIds).Perm docIds.dedup := by
  refine (List.perm_ext_iff_of_nodup ?_ docIds.nodup_dedup).mpr fun docId => ?_
  · refine List.nodup_append'.mpr ⟨nodup_found, docIds.nodup_dedup.filter _, ?_⟩
    intro docId hfound hmissing
    exact absurd hfound (by simpa using (List.mem_filter.mp hmissing).2)
  · rw [List.mem_append, missing, List.mem_filter, List.mem_dedup]
    by_cases hfound : docId ∈ (found rows docIds).map Prod.fst
    · simp only [hfound, true_or, (mem_keys_found.mp hfound).1]
    · simp only [hfound, false_or, not_false_eq_true, decide_true, and_true]

/-- Each listed document is treated on its own. -/
theorem batch_spec (b : Batch) (rows : Dict String Meta) (docIds : List String) :
    (∀ docId ∈ docIds, (b.batchUpdateMetadata rows docIds).1.get? docId =
        (b.outcome (rows.get? docId)).1) ∧
      (∀ docId, docId ∉ docIds →
        (b.batchUpdateMetadata rows docIds).1.get? docId = rows.get? docId) ∧
      (b.batchUpdateMetadata rows docIds).2 =
        docIds.dedup.countP fun docId => (b.outcome (rows.get? docId)).2 := by
  have hrow : ∀ e ∈ found rows docIds, rows.get? e.1 = some e.2 := fun e he =>
    Dict.get?_eq_some_iff.mpr (List.mem_filter.mp he).1
  obtain ⟨hold, holdOut, holdCount⟩ := foldl_own_keys b.oldStep Prod.fst
    (fun e => (b.outcome (some e.2)).1) (fun e => (b.outcome (some e.2)).2) rows
    (found rows docIds) nodup_found
    (fun s e he h => oldStep_spec s e (h.trans (hrow e he))) (s := (rows, 0)) fun _ _ => rfl
  have hmissing : ∀ docId ∈ missing rows docIds, docId ∈ docIds ∧ rows.get? docId = none ∧
      ((found rows docIds).foldl b.oldStep (rows, 0)).1.get? docId = none := by
    intro docId hdoc
    obtain ⟨hlisted, hfound⟩ := List.mem_filter.mp hdoc
    rw [List.mem_dedup] at hlisted
    have hfound : docId ∉ (found rows docIds).map Prod.fst := by simpa using hfound
    have hnone : rows.get? docId = none := by
      cases hget : rows.get? docId with
      | none => rfl
      | some m => exact absurd (mem_keys_found.mpr ⟨hlisted, by rw [hget]; rfl⟩) hfound
    exact ⟨hlisted, hnone, (holdOut docId hfound).trans hnone⟩
  obtain ⟨hnew, hnewOut, hnewCount⟩ := foldl_own_keys b.newStep id
    (fun _ => (b.outcome none).1) (fun _ => (b.outcome none).2)
    ((found rows docIds).foldl b.oldStep (rows, 0)).1 (missing rows docIds)
    (by rw [List.map_id]; exact docIds.nodup_dedup.filter _)
    (fun s docId hdoc h => newStep_spec s docId (h.trans (hmissing docId hdoc).2.2))
    (s := (found rows docIds).foldl b.oldStep (rows, 0)) fun _ _ => rfl
  rw [List.map_id] at hnewOut
  rw [batchUpdateMetadata_eq]
  refine ⟨fun docId hlisted => ?_, fun docId hlisted => ?_, ?_⟩
  · by_cases hfound : docId ∈ (found rows docIds).map Prod.fst
    · have hnot : docId ∉ missing rows docIds := fun h =>
        absurd hfound (by simpa using (List.mem_filter.mp h).2)
      obtain ⟨e, he, rfl⟩ := List.mem_map.mp hfound
      rw [hnewOut _ hnot, hold e he, hrow e he]
    · have hdoc : docId ∈ missing rows docIds :=
        List.mem_filter.mpr ⟨List.mem_dedup.mpr hlisted, by simpa using hfound⟩
      exact (hnew docId hdoc).trans (by rw [(hmissing docId hdoc).2.1])
  · have hnot : docId ∉ missing rows docIds := fun h => hlisted (hmissing docId h).1
    have hfound : docId ∉ (found rows docIds).map Prod.fst := fun h =>
      hlisted (mem_keys_found.mp h).1
    rw [hnewOut _ hnot, holdOut _ hfound]
  · rw [hnewCount, holdCount, Nat.zero_add, ← keys_perm.countP_eq, List.countP_append,
      List.countP_map]
    congr 1
    · refine List.countP_congr fun e he => ?_
      simp only [Function.comp_apply, hrow e he]
    · refine List.countP_congr fun docId hdoc => ?_
      rw [(hmissing docId hdoc).2.1]

end Whole

/-- When the operations are carried through for one document. -/
def CarriedThrough (b : Batch) : Option Meta → Prop
  | some m =>
      (b.written m = true → b.result m ≠ Dict.empty → ¬ Same (b.stored true (b.result m)) m) ∧
        (m = Dict.empty → b.result m ≠ Dict.empty)
  | none =>
      b.fresh = Dict.empty ∨ UpToSplit b.str (b.result Dict.empty) (b.stored false b.fresh)

section Alike

variable {row : Option Meta}

theorem result_of_fresh (h : b.fresh = Dict.empty) : b.result Dict.empty = Dict.empty := by
  have hdeletes : ∀ l : List Delete, l.foldl (applyDelete b.str) (Dict.empty, false) =
      (Dict.empty, false) := by
    intro l
    induction l with
    | nil => rfl
    | cons d l ih =>
      have hstep : applyDelete b.str (Dict.empty, false) d = (Dict.empty, false) := by
        unfold applyDelete
        split <;> rfl
      rw [List.foldl_cons, hstep, ih]
  have hresult : b.result Dict.empty = (applyDeletes b.str b.deletes b.fresh).1 := rfl
  rw [hresult, h, applyDeletes, hdeletes]

theorem not_written_of_empty (h : b.result Dict.empty = Dict.empty) :
    b.written Dict.empty = false := by
  cases hw : b.written Dict.empty with
  | false => rfl
  | true =>
    have hne := not_same_of_written hw
    rw [h] at hne
    exact absurd hne (by simp [metaEq, Dict.empty, Value.pyEq, Value.pyEqDict])

theorem treats_iff (b : Batch) (row : Option Meta) :
    b.Treats row (b.outcome row).1 ↔
      match row with
      | some m => m = Dict.empty → b.result m ≠ Dict.empty
      | none => b.fresh = Dict.empty ∨
          UpToSplit b.str (b.result Dict.empty) (b.stored false b.fresh) := by
  cases row with
  | some m =>
    cases hw : b.written m with
    | true =>
      have hne : m = Dict.empty → b.result m ≠ Dict.empty := by
        rintro rfl hempty
        rw [not_written_of_empty hempty] at hw
        cases hw
      refine iff_of_true ?_ hne
      rw [outcome, if_pos hw]
      by_cases hempty : b.result m = Dict.empty
      · rw [if_pos (by rw [hempty]; rfl)]
        exact ⟨.inl (.inl hempty), fun _ => rfl⟩
      · have hentries : (b.result m).entries.isEmpty = false := by
          simpa [← eq_empty_iff] using hempty
        rw [if_neg (by simp [hentries])]
        exact ⟨upToSplit_stored true _, fun h => absurd h hempty⟩
    | false =>
      have hsame := same_of_not_written hw
      rw [outcome, if_neg (by simp [hw])]
      constructor
      · rintro ⟨-, hnone⟩ - hempty
        cases hnone hempty
      · intro hne
        refine ⟨.inl hsame, fun hempty => ?_⟩
        have hm : m = Dict.empty := same_empty_left.mp ((show b.result m = Dict.empty from
          hempty) ▸ hsame)
        exact absurd hempty (hne hm)
  | none =>
    by_cases hfresh : b.fresh = Dict.empty
    · refine iff_of_true ?_ (.inl hfresh)
      rw [outcome, if_pos (by rw [hfresh]; rfl)]
      exact ⟨.inl (.inl (result_of_fresh hfresh)), fun _ => rfl⟩
    · have hentries : b.fresh.entries.isEmpty = false := by
        simpa [← eq_empty_iff] using hfresh
      rw [outcome, if_neg (by simp [hentries])]
      constructor
      · exact fun h => .inr h.1
      · rintro (h | h)
        · exact absurd h hfresh
        · refine ⟨h, fun hempty => ?_⟩
          have hstored : b.stored false b.fresh = Dict.empty :=
            (upToSplit_empty_left b.str).mp ((show b.result Dict.empty = Dict.empty from
              hempty) ▸ h)
          exact absurd (stored_eq_empty.mp hstored) hfresh

/-- A document whose metadata changes is counted. -/
theorem counted_of_changed (h : ¬ Same (metaOf (b.outcome row).1) (metaOf row)) :
    (b.outcome row).2 = true := by
  cases hcounted : (b.outcome row).2 with
  | true => rfl
  | false =>
    refine absurd (.inl ?_) h
    cases row with
    | some m =>
      rw [outcome] at hcounted ⊢
      split
      · rename_i hw
        rw [if_pos hw] at hcounted
        cases hcounted
      · rfl
    | none =>
      rw [outcome] at hcounted ⊢
      split
      · rfl
      · rename_i hne
        rw [if_neg hne] at hcounted
        cases hcounted

/-- A document is counted although its metadata does not change. -/
theorem changed_of_counted_iff (b : Batch) (row : Option Meta) :
    ((b.outcome row).2 = true → ¬ Same (metaOf (b.outcome row).1) (metaOf row)) ↔
      ∀ m, row = some m → b.written m = true → b.result m ≠ Dict.empty →
        ¬ Same (b.stored true (b.result m)) m := by
  cases row with
  | some m =>
    simp only [Option.some.injEq, forall_eq']
    cases hw : b.written m with
    | false => simp [outcome, hw]
    | true =>
      by_cases hempty : b.result m = Dict.empty
      · refine iff_of_true (fun _ => ?_) fun _ hne => absurd hempty hne
        rw [outcome, if_pos hw, if_pos (by rw [hempty]; rfl)]
        intro hsame
        have hm : m = Dict.empty := same_empty_left.mp hsame
        subst hm
        rw [not_written_of_empty hempty] at hw
        cases hw
      · have hentries : (b.result m).entries.isEmpty = false := by
          simpa [← eq_empty_iff] using hempty
        simp [outcome, hw, hentries, hempty, metaOf]
  | none =>
    refine iff_of_true (fun hcounted => ?_) (by simp)
    rw [outcome] at hcounted ⊢
    split
    · rename_i hfresh
      rw [if_pos hfresh] at hcounted
      cases hcounted
    · rename_i hfresh
      intro hsame
      have hstored : Same (b.stored false b.fresh) Dict.empty := hsame
      rw [stored_eq_empty.mp (same_empty_right.mp hstored)] at hfresh
      exact hfresh rfl

/-- Exactly when all documents are treated alike. -/
theorem treatsAlike_iff (b : Batch) (rows : Dict String Meta) (docIds : List String) :
    b.TreatsAlike rows docIds ↔ ∀ docId ∈ docIds, b.CarriedThrough (rows.get? docId) := by
  classical
  obtain ⟨hlisted, hother, hcount⟩ := batch_spec b rows docIds
  have htreats : (∀ docId ∈ docIds, b.Treats (rows.get? docId)
      ((b.batchUpdateMetadata rows docIds).1.get? docId)) ↔
      ∀ docId ∈ docIds, b.Treats (rows.get? docId) (b.outcome (rows.get? docId)).1 :=
    forall₂_congr fun docId hdoc => by rw [hlisted docId hdoc]
  have hnumber : (b.batchUpdateMetadata rows docIds).2 = (docIds.dedup.countP fun docId =>
      ¬ Same (metaOf ((b.batchUpdateMetadata rows docIds).1.get? docId))
        (metaOf (rows.get? docId))) ↔
      ∀ docId ∈ docIds, (b.outcome (rows.get? docId)).2 = true →
        ¬ Same (metaOf (b.outcome (rows.get? docId)).1) (metaOf (rows.get? docId)) := by
    have hchanged : (docIds.dedup.countP fun docId =>
        decide (¬ Same (metaOf ((b.batchUpdateMetadata rows docIds).1.get? docId))
          (metaOf (rows.get? docId)))) = docIds.dedup.countP fun docId =>
        decide (¬ Same (metaOf (b.outcome (rows.get? docId)).1) (metaOf (rows.get? docId))) :=
      List.countP_congr fun docId hdoc => by rw [hlisted docId (List.mem_dedup.mp hdoc)]
    rw [hcount, hchanged, countP_eq_countP_iff fun docId _ h =>
      counted_of_changed (of_decide_eq_true h)]
    simp only [List.mem_dedup, decide_eq_true_eq]
  have hdocs : b.TreatsAlike rows docIds ↔
      (∀ docId ∈ docIds, b.Treats (rows.get? docId) (b.outcome (rows.get? docId)).1) ∧
      ∀ docId ∈ docIds, (b.outcome (rows.get? docId)).2 = true →
        ¬ Same (metaOf (b.outcome (rows.get? docId)).1) (metaOf (rows.get? docId)) := by
    rw [← htreats, ← hnumber]
    exact ⟨fun h => ⟨h.1, h.2.2⟩, fun h => ⟨h.1, hother, h.2⟩⟩
  rw [hdocs, ← forall₂_and]
  refine forall₂_congr fun docId _ => ?_
  rw [treats_iff, changed_of_counted_iff]
  cases rows.get? docId with
  | some m =>
    simp only [CarriedThrough, Option.some.injEq, forall_eq']
    exact and_comm
  | none => simp [CarriedThrough]

end Alike

end Batch

/-- An update that sets an author, and a delete of authors. -/
def setAndDelete : Batch where
  infinity := false
  str := fun
    | .str s => s
    | _ => ""
  updates := [⟨"author", .str "A", .none⟩]
  deletes := [⟨"author", .none⟩]

/-- Of a document without a row the author is not deleted. -/
theorem not_treatsAlike_setAndDelete :
    ¬ setAndDelete.TreatsAlike Dict.empty ["doc"] := by
  intro h
  have hdoc := (h.1 "doc" List.mem_cons_self).2 rfl
  cases hdoc

end RagFlow.Files.Metadata
