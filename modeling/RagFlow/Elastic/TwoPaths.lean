/-
# Updates by id and by query

Both ways to update come down to operations on single fields. They leave a document alike if the
script runs, if what it writes is what is given, and if no field is named twice.
-/

import Mathlib.Data.List.Flatten
import RagFlow.Elastic.Update

namespace RagFlow.Elastic

open RagFlow.Math

section Operations

variable {J : Type*} {s : Source J} {j : String}

/-- An operation on one field. -/
abbrev FieldOp (J : Type*) := String × (Option (FieldData J) → Option (FieldData J))

def runOps (s : Source J) (ops : List (FieldOp J)) : Source J :=
  ops.foldl (fun s op => Function.update s op.1 (op.2 (s op.1))) s

theorem runOps_append (a b : List (FieldOp J)) : runOps s (a ++ b) = runOps (runOps s a) b :=
  List.foldl_append

theorem runOps_of_notMem {ops : List (FieldOp J)} (h : j ∉ ops.map Prod.fst) :
    runOps s ops j = s j := by
  induction ops generalizing s with
  | nil => rfl
  | cons op ops ih =>
      rw [List.map_cons, List.mem_cons, not_or] at h
      have hstep := ih (s := Function.update s op.1 (op.2 (s op.1))) h.2
      exact hstep.trans (Function.update_of_ne h.1 _ _)

theorem runOps_of_mem {ops : List (FieldOp J)} (hnodup : (ops.map Prod.fst).Nodup)
    {op : FieldOp J} (hop : op ∈ ops) : runOps s ops op.1 = op.2 (s op.1) := by
  induction ops generalizing s with
  | nil => exact absurd hop List.not_mem_nil
  | cons first ops ih =>
      rw [List.map_cons, List.nodup_cons] at hnodup
      rcases List.mem_cons.mp hop with rfl | hop
      · have hrest := runOps_of_notMem (s := Function.update s op.1 (op.2 (s op.1))) hnodup.1
        exact hrest.trans (Function.update_self _ _ _)
      · have hne : op.1 ≠ first.1 := fun h =>
          hnodup.1 (h ▸ List.mem_map_of_mem hop)
        have hrest := ih (s := Function.update s first.1 (first.2 (s first.1))) hnodup.2 hop
        refine hrest.trans ?_
        rw [Function.update_of_ne hne]

theorem runOps_congr {s' : Source J} (ops : List (FieldOp J)) (h : s j = s' j) :
    runOps s ops j = runOps s' ops j := by
  induction ops generalizing s s' with
  | nil => exact h
  | cons op ops ih =>
      refine ih ?_
      by_cases hj : j = op.1
      · subst hj
        simp [h]
      · simp [Function.update_of_ne hj, h]

section Entries

variable {α : Type*} {fields : α → List String} {ops : α → List (FieldOp J)} {l : List α}

theorem runOps_flatMap_of_notMem (hfields : ∀ a, (ops a).map Prod.fst ⊆ fields a)
    (hj : j ∉ l.flatMap fields) : runOps s (l.flatMap ops) j = s j := by
  refine runOps_of_notMem fun hmem => hj ?_
  obtain ⟨op, hop, rfl⟩ := List.mem_map.mp hmem
  obtain ⟨a, ha, hopa⟩ := List.mem_flatMap.mp hop
  exact List.mem_flatMap.mpr ⟨a, ha, hfields a (List.mem_map_of_mem hopa)⟩

/-- Of entries that name different fields only one has operations on a field. -/
theorem runOps_flatMap (hnodup : (l.flatMap fields).Nodup)
    (hfields : ∀ a, (ops a).map Prod.fst ⊆ fields a) {a : α} (ha : a ∈ l) (hj : j ∈ fields a) :
    runOps s (l.flatMap ops) j = runOps s (ops a) j := by
  obtain ⟨before, after, rfl⟩ := List.append_of_mem ha
  rw [List.flatMap_append, List.flatMap_cons, List.nodup_append, List.nodup_append] at hnodup
  obtain ⟨-, ⟨-, -, hafter⟩, hbefore⟩ := hnodup
  have hnotBefore : j ∉ before.flatMap fields := fun hmem =>
    hbefore j hmem j (List.mem_append_left _ hj) rfl
  have hnotAfter : j ∉ after.flatMap fields := fun hmem => hafter j hj j hmem rfl
  rw [List.flatMap_append, List.flatMap_cons, runOps_append, runOps_append,
    runOps_flatMap_of_notMem hfields hnotAfter]
  exact runOps_congr _ (runOps_flatMap_of_notMem hfields hnotBefore)

/-- Operations of entries that name different fields come to the same if those of each entry do on
its fields. -/
theorem runOps_flatMap_eq_iff {ops' : α → List (FieldOp J)} (hnodup : (l.flatMap fields).Nodup)
    (hfields : ∀ a, (ops a).map Prod.fst ⊆ fields a)
    (hfields' : ∀ a, (ops' a).map Prod.fst ⊆ fields a) :
    runOps s (l.flatMap ops) = runOps s (l.flatMap ops') ↔
      ∀ a ∈ l, ∀ j ∈ fields a, runOps s (ops a) j = runOps s (ops' a) j := by
  constructor
  · intro h a ha j hj
    rw [← runOps_flatMap hnodup hfields ha hj, h, runOps_flatMap hnodup hfields' ha hj]
  · intro h
    funext j
    by_cases hj : j ∈ l.flatMap fields
    · obtain ⟨a, ha, hja⟩ := List.mem_flatMap.mp hj
      rw [runOps_flatMap hnodup hfields ha hja, runOps_flatMap hnodup hfields' ha hja,
        h a ha j hja]
    · rw [runOps_flatMap_of_notMem hfields hj, runOps_flatMap_of_notMem hfields' hj]

/-- Two passes over entries that name different fields are one. -/
theorem runOps_flatMap_append {ops' : α → List (FieldOp J)} (hnodup : (l.flatMap fields).Nodup)
    (hfields : ∀ a, (ops a).map Prod.fst ⊆ fields a)
    (hfields' : ∀ a, (ops' a).map Prod.fst ⊆ fields a) :
    runOps (runOps s (l.flatMap ops)) (l.flatMap ops') =
      runOps s (l.flatMap fun a => ops a ++ ops' a) := by
  have hboth : ∀ a, (ops a ++ ops' a).map Prod.fst ⊆ fields a := by
    intro a
    rw [List.map_append]
    exact List.append_subset.mpr ⟨hfields a, hfields' a⟩
  funext j
  by_cases hj : j ∈ l.flatMap fields
  · obtain ⟨a, ha, hja⟩ := List.mem_flatMap.mp hj
    rw [runOps_flatMap hnodup hfields' ha hja,
      runOps_congr (ops' a) (runOps_flatMap hnodup hfields ha hja),
      runOps_flatMap hnodup hboth ha hja, runOps_append]
  · rw [runOps_flatMap_of_notMem hfields' hj, runOps_flatMap_of_notMem hfields hj,
      runOps_flatMap_of_notMem hboth hj]

end Entries

/-- Steps on different fields, each of which fails or not by what its field is, fail by what the
fields are at first. -/
theorem foldlM_eq_runOps {α : Type*} {run : Source J → α → Option (Source J)}
    {op : α → FieldOp J} {accepts : α → Option (FieldData J) → Bool}
    (hrun : ∀ s a, run s a = if accepts a (s (op a).1) then some (runOps s [op a]) else none)
    {l : List α} (hnodup : (l.map fun a => (op a).1).Nodup) :
    l.foldlM run s =
      if l.all fun a => accepts a (s (op a).1) then some (runOps s (l.map op)) else none := by
  induction l using List.reverseRecOn with
  | nil => rfl
  | append_singleton l a ih =>
      rw [List.map_append, List.nodup_append] at hnodup
      have hnot : (op a).1 ∉ (l.map op).map Prod.fst := by
        rw [List.map_map]
        intro hmem
        exact hnodup.2.2 _ hmem _ (List.mem_singleton.mpr rfl) rfl
      have hsame : runOps s (l.map op) (op a).1 = s (op a).1 := runOps_of_notMem hnot
      rw [List.foldlM_append, ih hnodup.1, List.all_append, List.map_append, runOps_append]
      cases l.all fun b => accepts b (s (op b).1) with
      | false => rfl
      | true => simp [hrun, hsame]

end Operations

section Paths

variable {J : Type*} {elements : Elements J} {s : Source J} {j : String} {new : List (Change J)}
  {c : Change J}

/-! ## Entries -/

/-- The fields an entry names. -/
def Change.fields : Change J → List String
  | set k _ => [k]
  | removeField field => [field]
  | removeValues items => items.map Prod.fst

/-- No field is named twice. -/
def Apart (new : List (Change J)) : Prop := (new.flatMap Change.fields).Nodup

/-- The text a script writes for a text or a list. -/
def asWritten (elements : Elements J) : NewData J → NewData J
  | .str s => .str (String.ofList (clean s.toList))
  | .list l => .str (elements.dumps l)
  | v => v

def Change.drops : Change J → List (FieldOp J)
  | removeField field => [(field, fun _ => none)]
  | _ => []

def Change.puts : Change J → List (FieldOp J)
  | set k v => if k = "id" then [] else [(k, fun _ => some (.data v))]
  | _ => []

def Change.clears : Change J → List (FieldOp J)
  | set k _ => if k ≠ "id" ∧ isFeas k then [(k, fun _ => none)] else []
  | _ => []

/-- What an update by id does before it removes values. -/
def Change.early (c : Change J) : List (FieldOp J) := c.clears ++ c.drops

theorem Change.clears_subset (c : Change J) : c.clears.map Prod.fst ⊆ c.fields := by
  cases c with
  | set k v =>
      simp only [clears, fields]
      split_ifs <;> simp
  | removeField field => simp [clears]
  | removeValues items => simp [clears]

theorem Change.drops_subset (c : Change J) : c.drops.map Prod.fst ⊆ c.fields := by
  cases c <;> simp [drops, fields]

theorem Change.takes_sublist (c : Change J) : (c.takes.map Prod.fst).Sublist c.fields := by
  cases c <;> simp [takes, fields]

theorem Change.puts_subset (c : Change J) : c.puts.map Prod.fst ⊆ c.fields := by
  cases c with
  | set k v =>
      simp only [puts, fields]
      split_ifs <;> simp
  | removeField field => simp [puts]
  | removeValues items => simp [puts]

theorem Change.early_subset (c : Change J) : c.early.map Prod.fst ⊆ c.fields := by
  cases c with
  | set k v => simpa [early, drops] using clears_subset (set k v)
  | removeField field => simp [early, drops, clears, fields]
  | removeValues items => simp [early, drops, clears]

theorem docPart_cons_set (k : String) (v : NewData J) (new : List (Change J)) :
    docPart (.set k v :: new) = if k = "id" then docPart new else (k, v) :: docPart new := by
  by_cases hid : k = "id" <;> simp [docPart, hid]

theorem foldl_clears (new : List (Change J)) (s : Source J) :
    ((docPart new).filter fun e => isFeas e.1).foldl (fun s e => s.erase e.1) s =
      runOps s (new.flatMap Change.clears) := by
  induction new generalizing s with
  | nil => rfl
  | cons c new ih =>
      cases c with
      | set k v =>
          rw [docPart_cons_set, List.flatMap_cons, runOps_append]
          by_cases hid : k = "id"
          · rw [if_pos hid, ih, Change.clears, if_neg fun h => h.1 hid]
            rfl
          · rw [if_neg hid, List.filter_cons, Change.clears]
            by_cases hfeas : isFeas k
            · rw [if_pos hfeas, if_pos ⟨hid, hfeas⟩]
              exact ih (s.erase k)
            · rw [if_neg hfeas, if_neg fun h => hfeas h.2]
              exact ih s
      | removeField field => exact ih s
      | removeValues items => exact ih s

theorem foldl_puts (new : List (Change J)) (s : Source J) :
    (docPart new).foldl (fun s e => s.put e.1 e.2) s = runOps s (new.flatMap Change.puts) := by
  induction new generalizing s with
  | nil => rfl
  | cons c new ih =>
      cases c with
      | set k v =>
          rw [docPart_cons_set, List.flatMap_cons, runOps_append, Change.puts]
          by_cases hid : k = "id"
          · rw [if_pos hid, if_pos hid]
            exact ih s
          · rw [if_neg hid, if_neg hid]
            exact ih (s.put k v)
      | removeField field => exact ih s
      | removeValues items => exact ih s

/-- Before it removes values, an update by id has changed named fields only. -/
theorem runOps_early (hapart : Apart new) :
    runOps (runOps s (new.flatMap Change.clears)) (new.flatMap Change.drops) =
      runOps s (new.flatMap Change.early) :=
  runOps_flatMap_append hapart Change.clears_subset Change.drops_subset

variable [DecidableEq J]

/-! ## Statements as operations -/

def Stmt.field : Stmt J → String
  | removeField field => field
  | removeValue field _ => field
  | setParam field _ => field
  | setLiteral field _ => field

/-- The list without an element. -/
def eraseIn (v : J) : Option (FieldData J) → Option (FieldData J)
  | some (.data (.list l)) => some (.data (.list (l.erase v)))
  | x => x

def Stmt.op : Stmt J → FieldOp J
  | removeField field => (field, fun _ => none)
  | removeValue field v => (field, eraseIn v)
  | setParam field t => (field, fun _ => some (.data (.str t)))
  | setLiteral field v => (field, fun _ => some (.data v))

/-- The statement finds what it removes. -/
def Stmt.finds : Stmt J → Option (FieldData J) → Bool
  | removeValue _ v, x =>
    match x with
    | some (.data (.list l)) => v ∈ l
    | _ => false
  | _, _ => true

theorem Stmt.op_fst (st : Stmt J) : st.op.1 = st.field := by
  cases st <;> rfl

theorem Stmt.run_eq (s : Source J) (st : Stmt J) :
    st.run s = if st.finds (s st.op.1) then some (runOps s [st.op]) else none := by
  cases st with
  | removeField field => rfl
  | removeValue field v =>
      cases hfield : s field with
      | none => simp [Stmt.run, Stmt.finds, Stmt.op, hfield]
      | some x =>
          cases x with
          | object x => simp [Stmt.run, Stmt.finds, Stmt.op, hfield]
          | data d =>
              cases d with
              | list l => simp [Stmt.run, Stmt.finds, Stmt.op, runOps, eraseIn, hfield, Source.put]
              | _ => simp [Stmt.run, Stmt.finds, Stmt.op, hfield]
  | setParam field t => rfl
  | setLiteral field v => rfl

/-- The guarded removal of a value goes through. -/
def guardAccepts (elements : Elements J) (item : String × J) : Option (FieldData J) → Bool
  | none => true
  | some (.data .null) => true
  | some (.data (.list _)) => true
  | some (.data (.str t)) => !elements.within item.2 t
  | some _ => false

theorem removeGuarded_eq (s : Source J) (item : String × J) :
    removeGuarded elements s item =
      if guardAccepts elements item (s item.1) then
        some (runOps s [(item.1, eraseIn item.2)])
      else none := by
  have hsame : eraseIn item.2 (s item.1) = s item.1 →
      runOps s [(item.1, eraseIn item.2)] = s := fun h => by
    simp [runOps, h]
  unfold removeGuarded
  split
  · rename_i h
    rw [hsame (by rw [h]; rfl)]
    simp [guardAccepts, h]
  · rename_i h
    rw [hsame (by rw [h]; rfl)]
    simp [guardAccepts, h]
  · rename_i l h
    simp [guardAccepts, runOps, eraseIn, h, Source.put]
  · rename_i t h
    rw [hsame (by rw [h]; rfl)]
    simp only [guardAccepts, h]
    cases elements.within item.2 t <;> rfl
  · rename_i x hnull hlist hstr h
    simp only [guardAccepts, h]
    rfl

/-! ## Entries as operations -/

/-- What an update by id makes of the fields of an entry. -/
def Change.byId (c : Change J) : List (FieldOp J) :=
  c.drops ++ (c.takes.map fun e => (e.1, eraseIn e.2)) ++ c.puts

/-- What a script makes of the fields of an entry. -/
def Change.byQuery (elements : Elements J) : Change J → List (FieldOp J)
  | set k v =>
    if v.falsy ∧ k ≠ "available_int" then []
    else [(k, fun _ => some (.data (asWritten elements v)))]
  | c => c.drops ++ c.takes.map fun e => (e.1, eraseIn e.2)

theorem Change.byId_subset (c : Change J) : c.byId.map Prod.fst ⊆ c.fields := by
  cases c with
  | set k v => simpa [byId, drops, takes] using puts_subset (set k v)
  | removeField field => simp [byId, drops, takes, puts, fields]
  | removeValues items => simp [byId, drops, takes, puts, fields, Function.comp_def]

theorem Change.byQuery_sublist (c : Change J) :
    ((c.byQuery elements).map Prod.fst).Sublist c.fields := by
  cases c with
  | set k v =>
      simp only [byQuery, fields]
      split_ifs <;> simp
  | removeField field => simp [byQuery, drops, takes, fields]
  | removeValues items => simp [byQuery, drops, takes, fields, Function.comp_def]

/-! ## The update by id -/

/-- The requests of an update by id, as operations. -/
theorem updateById_eq (new : List (Change J)) (s : Source J) :
    updateById elements s new =
      match (new.flatMap Change.takes).foldlM (removeGuarded elements)
        (runOps (runOps s (new.flatMap Change.clears)) (new.flatMap Change.drops)) with
      | none => runOps (runOps s (new.flatMap Change.clears)) (new.flatMap Change.drops)
      | some s => runOps s (new.flatMap Change.puts) := by
  have hdrops : ∀ s : Source J, new.foldl Source.drop s = runOps s (new.flatMap Change.drops) := by
    intro s
    rw [runOps, List.foldl_flatMap]
    congr 1
    funext s c
    cases c <;> rfl
  rw [updateById, foldl_clears, hdrops]
  cases (new.flatMap Change.takes).foldlM (removeGuarded elements)
      (runOps (runOps s (new.flatMap Change.clears)) (new.flatMap Change.drops)) with
  | none => rfl
  | some s => exact foldl_puts new s

/-- No value to remove stops the scripts of an update by id. -/
def Removable (elements : Elements J) (s : Source J) (new : List (Change J)) : Prop :=
  ∀ item ∈ new.flatMap Change.takes, guardAccepts elements item (s item.1) = true

theorem Change.takeOps_subset (c : Change J) :
    (c.takes.map fun e => (e.1, eraseIn e.2)).map Prod.fst ⊆ c.fields := by
  cases c <;> simp [takes, fields, Function.comp_def]

/-- The scripts that remove values, as operations. -/
theorem foldlM_removeGuarded (hapart : Apart new) :
    (new.flatMap Change.takes).foldlM (removeGuarded elements)
        (runOps s (new.flatMap Change.early)) =
      if (new.flatMap Change.takes).all fun e => guardAccepts elements e (s e.1) then
        some (runOps s (new.flatMap fun c => c.early ++ c.takes.map fun e => (e.1, eraseIn e.2)))
      else none := by
  have hnodup : ((new.flatMap Change.takes).map Prod.fst).Nodup := by
    rw [List.map_flatMap]
    exact hapart.sublist (List.Sublist.flatMap_right new fun c _ => c.takes_sublist)
  have hsame : ∀ e ∈ new.flatMap Change.takes, runOps s (new.flatMap Change.early) e.1 = s e.1 := by
    intro e he
    obtain ⟨c, hc, hec⟩ := List.mem_flatMap.mp he
    rw [runOps_flatMap hapart Change.early_subset hc
      (c.takes_sublist.subset (List.mem_map_of_mem hec))]
    cases c with
    | set k v => exact absurd hec List.not_mem_nil
    | removeField field => exact absurd hec List.not_mem_nil
    | removeValues items => rfl
  have hall : ((new.flatMap Change.takes).all fun e =>
      guardAccepts elements e (runOps s (new.flatMap Change.early) e.1)) =
        (new.flatMap Change.takes).all fun e => guardAccepts elements e (s e.1) := by
    rw [Bool.eq_iff_iff, List.all_eq_true, List.all_eq_true]
    exact forall₂_congr fun e he => by rw [hsame e he]
  have hrun : ∀ (s : Source J) (e : String × J), removeGuarded elements s e =
      if guardAccepts elements e (s (e.1, eraseIn e.2).1) then
        some (runOps s [(e.1, eraseIn e.2)])
      else none := removeGuarded_eq
  have hfold := foldlM_eq_runOps (s := runOps s (new.flatMap Change.early)) hrun hnodup
  rw [hfold, hall, List.map_flatMap,
    runOps_flatMap_append hapart Change.early_subset Change.takeOps_subset]

theorem updateById_of_removable (hapart : Apart new) (h : Removable elements s new) :
    updateById elements s new = runOps s (new.flatMap Change.byId) := by
  have hboth : ∀ c : Change J, (c.early ++ c.takes.map fun e => (e.1, eraseIn e.2)).map Prod.fst ⊆
      c.fields := by
    intro c
    rw [List.map_append]
    exact List.append_subset.mpr ⟨c.early_subset, c.takeOps_subset⟩
  have hall : ((new.flatMap Change.takes).all fun e => guardAccepts elements e (s e.1)) = true :=
    List.all_eq_true.mpr h
  rw [updateById_eq, runOps_early hapart, foldlM_removeGuarded hapart, if_pos hall]
  dsimp only
  rw [runOps_flatMap_append hapart hboth Change.puts_subset,
    runOps_flatMap_eq_iff hapart (fun c => ?_) Change.byId_subset]
  · intro c _ j hj
    cases c with
    | set k v =>
        obtain rfl := List.mem_singleton.mp hj
        by_cases hid : j = "id" <;> by_cases hfeas : isFeas j <;>
          simp [Change.early, Change.clears, Change.drops, Change.takes, Change.puts, Change.byId,
            runOps, hid, hfeas]
    | removeField field => rfl
    | removeValues items => rfl
  · rw [List.map_append]
    exact List.append_subset.mpr ⟨hboth c, c.puts_subset⟩

theorem updateById_of_not_removable (hapart : Apart new) (h : ¬ Removable elements s new) :
    updateById elements s new = runOps s (new.flatMap Change.early) := by
  have hall : ¬ ((new.flatMap Change.takes).all fun e => guardAccepts elements e (s e.1)) = true :=
    fun hall => h (List.all_eq_true.mp hall)
  rw [updateById_eq, runOps_early hapart, foldlM_removeGuarded hapart, if_neg hall]

/-! ## The update by query -/

/-- The script of a request compiles and finds what it removes. -/
def Runs (elements : Elements J) (s : Source J) (new : List (Change J)) : Prop :=
  ∃ parts, new.mapM (statements elements) = some parts ∧ compiles parts.flatten = true ∧
    ∀ st ∈ parts.flatten, st.finds (s st.field) = true

theorem map_op_of_statements {part : List (Stmt J)} (h : statements elements c = some part) :
    part.map Stmt.op = c.byQuery elements := by
  cases c with
  | set k v =>
      unfold statements at h
      unfold Change.byQuery
      dsimp only at h ⊢
      by_cases hskip : v.falsy ∧ k ≠ "available_int"
      · rw [if_pos hskip] at h ⊢
        cases h
        rfl
      · rw [if_neg hskip] at h ⊢
        cases v <;> cases h <;> rfl
  | removeField field =>
      cases h
      rfl
  | removeValues items =>
      cases h
      simp [Change.byQuery, Change.drops, Change.takes, Stmt.op]

theorem map_op_of_mapM {parts : List (List (Stmt J))}
    (h : new.mapM (statements elements) = some parts) :
    parts.flatten.map Stmt.op = new.flatMap (Change.byQuery elements) := by
  induction new generalizing parts with
  | nil =>
      cases h
      rfl
  | cons c new ih =>
      rw [List.mapM_cons] at h
      obtain ⟨part, hpart, h⟩ := Option.bind_eq_some_iff.mp h
      obtain ⟨rest, hrest, h⟩ := Option.bind_eq_some_iff.mp h
      cases h
      rw [List.flatten_cons, List.map_append, List.flatMap_cons, ih hrest,
        map_op_of_statements hpart]

/-- The script of an update by query, as operations. -/
theorem updateByQuery_eq (hapart : Apart new) [Decidable (Runs elements s new)] :
    updateByQuery elements s new =
      if Runs elements s new then runOps s (new.flatMap (Change.byQuery elements)) else s := by
  rw [updateByQuery]
  cases hparts : new.mapM (statements elements) with
  | none =>
      have hnot : ¬ Runs elements s new := by
        rintro ⟨parts, h, -⟩
        rw [hparts] at h
        cases h
      rw [if_neg hnot]
      rfl
  | some parts =>
      have hops := map_op_of_mapM hparts
      have hnodup : (parts.flatten.map fun st => st.op.1).Nodup := by
        have hkeys : (parts.flatten.map fun st => st.op.1) =
            (new.flatMap (Change.byQuery elements)).map Prod.fst := by
          rw [← hops, List.map_map]
          rfl
        rw [hkeys, List.map_flatMap]
        exact hapart.sublist (List.Sublist.flatMap_right new fun c _ => c.byQuery_sublist)
      have hruns : Runs elements s new ↔ compiles parts.flatten = true ∧
          (parts.flatten.all fun st => st.finds (s st.op.1)) = true := by
        simp only [Runs, hparts, Option.some.injEq, exists_eq_left', List.all_eq_true, Stmt.op_fst]
      rw [Option.map_some, Option.bind_some, foldlM_eq_runOps Stmt.run_eq hnodup, hops]
      by_cases hcompiles : compiles parts.flatten = true
      · rw [if_pos hcompiles]
        by_cases hfinds : (parts.flatten.all fun st => st.finds (s st.op.1)) = true
        · rw [if_pos hfinds, if_pos (hruns.mpr ⟨hcompiles, hfinds⟩)]
          rfl
        · rw [if_neg hfinds, if_neg fun h => hfinds (hruns.mp h).2]
          rfl
      · rw [if_neg hcompiles, if_neg fun h => hcompiles (hruns.mp h).1]
        rfl

omit [DecidableEq J] in
theorem subset_of_mapM {parts : List (List (Stmt J))} {part : List (Stmt J)}
    (h : new.mapM (statements elements) = some parts) (hc : c ∈ new)
    (hpart : statements elements c = some part) : part ⊆ parts.flatten := by
  induction new generalizing parts with
  | nil => exact absurd hc List.not_mem_nil
  | cons first new ih =>
      rw [List.mapM_cons] at h
      obtain ⟨firstPart, hfirst, h⟩ := Option.bind_eq_some_iff.mp h
      obtain ⟨rest, hrest, h⟩ := Option.bind_eq_some_iff.mp h
      cases h
      rw [List.flatten_cons]
      rcases List.mem_cons.mp hc with rfl | hc
      · rw [hfirst] at hpart
        cases hpart
        exact List.subset_append_left _ _
      · exact List.subset_append_of_subset_right _ (ih hrest hc)

/-- A script that runs removes nothing that a guarded removal does not. -/
theorem removable_of_runs (h : Runs elements s new) : Removable elements s new := by
  obtain ⟨parts, hparts, -, hfinds⟩ := h
  intro e he
  obtain ⟨c, hc, hec⟩ := List.mem_flatMap.mp he
  cases c with
  | set k v => exact absurd hec List.not_mem_nil
  | removeField field => exact absurd hec List.not_mem_nil
  | removeValues items =>
      have hst : Stmt.removeValue e.1 e.2 ∈ parts.flatten :=
        subset_of_mapM hparts hc rfl (List.mem_map_of_mem hec)
      have hfind := hfinds _ hst
      simp only [Stmt.finds, Stmt.field] at hfind
      split at hfind
      · rename_i l hl
        rw [hl]
        rfl
      · exact absurd hfind Bool.false_ne_true

/-! ## When the two agree -/

/-- What the script writes for an entry is what is given, and what it leaves out is there. -/
def Change.Kept (elements : Elements J) (s : Source J) : Change J → Prop
  | set k v =>
    if v.falsy ∧ k ≠ "available_int" then k = "id" ∨ s k = some (.data v)
    else if k = "id" then s k = some (.data (asWritten elements v))
    else asWritten elements v = v
  | removeField _ => True
  | removeValues _ => True

/-- The document is already as the entry asks. -/
def Change.Idle (s : Source J) : Change J → Prop
  | set k v => k = "id" ∨ s k = some (.data v)
  | removeField field => s field = none
  | removeValues items => ∀ e ∈ items, ∀ l, s e.1 = some (.data (.list l)) → e.2 ∉ l

/-- There is nothing an update by id removes before it fails. -/
def Change.Unstarted (s : Source J) : Change J → Prop
  | set k _ => k ≠ "id" → isFeas k = true → s k = none
  | removeField field => s field = none
  | removeValues _ => True

/-- If the script runs, it writes what is given. If it does not run, there is nothing to do. -/
structure Agreeable (elements : Elements J) (s : Source J) (new : List (Change J)) : Prop where
  kept : Runs elements s new → ∀ c ∈ new, c.Kept elements s
  idle : ¬ Runs elements s new → Removable elements s new → ∀ c ∈ new, c.Idle s
  unstarted : ¬ Runs elements s new → ¬ Removable elements s new → ∀ c ∈ new, c.Unstarted s

namespace Change

theorem kept_iff : c.Kept elements s ↔
    ∀ j ∈ c.fields, runOps s c.byId j = runOps s (c.byQuery elements) j := by
  cases c with
  | set k v =>
      simp only [Change.fields, List.mem_singleton, forall_eq, Change.Kept, Change.byQuery,
        Change.byId, Change.drops, Change.takes, Change.puts]
      split_ifs with hskip hid hid <;> simp [runOps, hid, eq_comm]
  | removeField field => exact ⟨fun _ _ _ => rfl, fun _ => trivial⟩
  | removeValues items =>
      have hsame : (removeValues items).byId = (removeValues items).byQuery elements :=
        List.append_nil _
      exact ⟨fun _ _ _ => by rw [hsame], fun _ => trivial⟩

theorem eraseIn_eq_self_iff {v : J} {x : Option (FieldData J)} :
    eraseIn v x = x ↔ ∀ l, x = some (.data (.list l)) → v ∉ l := by
  unfold eraseIn
  split
  · simp [List.erase_eq_self_iff]
  · rename_i hlist
    exact ⟨fun _ l hl => absurd hl (hlist l), fun _ => rfl⟩

theorem idle_iff (hnodup : c.fields.Nodup) :
    c.Idle s ↔ ∀ j ∈ c.fields, runOps s c.byId j = s j := by
  cases c with
  | set k v =>
      simp only [fields, List.mem_singleton, forall_eq, Idle, byId, drops, takes, puts]
      split_ifs with hid <;> simp [runOps, hid, eq_comm]
  | removeField field => simp [fields, Idle, byId, drops, takes, puts, runOps, eq_comm]
  | removeValues items =>
      have hkeys : ((items.map fun e => (e.1, eraseIn e.2)).map Prod.fst).Nodup := by
        rw [List.map_map]
        exact hnodup
      have hvalue : ∀ e ∈ items,
          runOps s (removeValues items).byId e.1 = eraseIn e.2 (s e.1) := by
        intro e he
        have hbyId : (removeValues items).byId = items.map fun e => (e.1, eraseIn e.2) :=
          List.append_nil _
        rw [hbyId]
        exact runOps_of_mem hkeys (List.mem_map_of_mem (f := fun e => (e.1, eraseIn e.2)) he)
      simp only [fields, List.forall_mem_map]
      exact forall₂_congr fun e he => by rw [hvalue e he, eraseIn_eq_self_iff]

omit [DecidableEq J] in
theorem unstarted_iff : c.Unstarted s ↔ ∀ j ∈ c.fields, runOps s c.early j = s j := by
  cases c with
  | set k v =>
      simp only [fields, List.mem_singleton, forall_eq, Unstarted, early, clears, drops]
      split_ifs with h
      · simp [runOps, h.1, h.2, eq_comm]
      · exact ⟨fun _ => rfl, fun _ hid hfeas => absurd ⟨hid, hfeas⟩ h⟩
  | removeField field => simp [fields, Unstarted, early, clears, drops, runOps, eq_comm]
  | removeValues items => exact ⟨fun _ _ _ => rfl, fun _ => trivial⟩

end Change

/-- For one document, both ways to update come to the same exactly if the request is agreeable. -/
theorem updateById_eq_updateByQuery_iff (hapart : Apart new) :
    updateById elements s new = updateByQuery elements s new ↔ Agreeable elements s new := by
  classical
  have hnothing : s = runOps s (new.flatMap fun _ => []) := by
    rw [List.flatMap_eq_nil_iff.mpr fun _ _ => rfl]
    rfl
  have hnone : ∀ c : Change J, ([] : List (FieldOp J)).map Prod.fst ⊆ c.fields := fun _ =>
    List.nil_subset _
  rw [updateByQuery_eq hapart]
  by_cases hruns : Runs elements s new
  · have hremovable : Removable elements s new := removable_of_runs hruns
    rw [if_pos hruns, updateById_of_removable hapart hremovable,
      runOps_flatMap_eq_iff hapart Change.byId_subset fun c => c.byQuery_sublist.subset]
    simp only [← Change.kept_iff]
    exact ⟨fun h => ⟨fun _ => h, fun hnot => absurd hruns hnot, fun hnot => absurd hruns hnot⟩,
      fun h => h.kept hruns⟩
  · rw [if_neg hruns]
    by_cases hremovable : Removable elements s new
    · have hidle : updateById elements s new = s ↔ ∀ c ∈ new, c.Idle s := by
        rw [updateById_of_removable hapart hremovable]
        nth_rewrite 2 [hnothing]
        rw [runOps_flatMap_eq_iff hapart Change.byId_subset hnone]
        exact forall₂_congr fun c hc =>
          (Change.idle_iff ((List.nodup_flatMap.mp hapart).1 c hc)).symm
      rw [hidle]
      exact ⟨fun h => ⟨fun hyes => absurd hyes hruns, fun _ _ => h,
        fun _ hnot => absurd hremovable hnot⟩, fun h => h.idle hruns hremovable⟩
    · have hunstarted : updateById elements s new = s ↔ ∀ c ∈ new, c.Unstarted s := by
        rw [updateById_of_not_removable hapart hremovable]
        nth_rewrite 2 [hnothing]
        rw [runOps_flatMap_eq_iff hapart Change.early_subset hnone]
        exact forall₂_congr fun c _ => Change.unstarted_iff.symm
      rw [hunstarted]
      exact ⟨fun h => ⟨fun hyes => absurd hyes hruns, fun _ hyes => absurd hyes hremovable,
        fun _ _ => h⟩, fun h => h.unstarted hruns hremovable⟩

/-! ## Updates of an index -/

/-- A condition on the id alone, as a text or as a list. -/
def idCondition (v : FieldValue) : Condition where
  entries := [("id", v)]
  nodup := List.nodup_singleton _

variable {docs : List (Doc J)} {x kb : String}

theorem update_byId :
    update elements docs (idCondition (.one (.str x))) new kb = docs.map fun d =>
      if d.id = x then { d with source := updateById elements d.source new } else d := rfl

/-- The query of the id in a list matches the documents with the id in the dataset. -/
theorem update_byQuery
    (hinserted : ∀ d ∈ docs, d.source "id" = some (.data (.str d.id)))
    (hkb : ∀ d ∈ docs, d.id = x → (d.source "kb_id").any (FieldData.hasTerm elements (.str kb))) :
    update elements docs (idCondition (.many [.str x])) new kb = docs.map fun d =>
      if d.id = x then { d with source := updateByQuery elements d.source new } else d := by
  have hentries : ((idCondition (.many [.str x])).set "kb_id" (.one (.str kb))).entries =
      [("id", .many [.str x]), ("kb_id", .one (.str kb))] := rfl
  have hid : updateClause "id" (.many [.str x]) = some [.terms "id" [.str x]] := rfl
  obtain ⟨clauses, hclauses, hmatch⟩ : ∃ clauses, updateClause "kb_id" (.one (.str kb)) =
      some clauses ∧ ∀ d ∈ docs, d.id = x → clauses.all (Clause.matches (docIndex elements) d) := by
    by_cases hempty : kb = ""
    · exact ⟨[], by rw [updateClause, hempty]; rfl, fun _ _ _ => rfl⟩
    · have hfalsy : (FieldValue.one (.str kb)).falsy = false := by
        simpa [FieldValue.falsy] using hempty
      refine ⟨[.term "kb_id" (.str kb)], by rw [updateClause, hfalsy]; rfl, fun d hd hdx => ?_⟩
      simpa [Clause.matches, docIndex] using hkb d hd hdx
  have hquery : updateQuery (idCondition (.many [.str x])) kb =
      some { filter := .terms "id" [.str x] :: clauses, must := [], mustNot := [] } := by
    rw [updateQuery, hentries, List.mapM_cons, hid, List.mapM_cons, hclauses]
    simp
  have hget : (idCondition (.many [.str x])).get? "id" = some (.many [.str x]) := rfl
  rw [update, hget, hquery]
  refine List.map_congr_left fun d hd => ?_
  have hterm : (docIndex elements).term d "id" (.str x) = decide (d.id = x) := by
    simp [docIndex, hinserted d hd, FieldData.hasTerm, eq_comm]
  by_cases hdx : d.id = x
  · have hyes : BoolQuery.matches (docIndex elements)
        { filter := .terms "id" [.str x] :: clauses, must := [], mustNot := [] } d = true := by
      simpa [BoolQuery.matches, Clause.matches, hterm, hdx] using hmatch d hd hdx
    rw [if_pos hyes, if_pos hdx]
  · have hno : ¬ BoolQuery.matches (docIndex elements)
        { filter := .terms "id" [.str x] :: clauses, must := [], mustNot := [] } d = true := by
      simp [BoolQuery.matches, Clause.matches, hterm, hdx]
    rw [if_neg hno, if_neg hdx]

/-- Updates of a document by id and by query come to the same exactly if the request is agreeable,
where no field is named twice. Other documents do not change. -/
theorem updates_agree_iff (elements : Elements J) (docs : List (Doc J)) (x kb : String)
    (new : List (Change J))
    (hinserted : ∀ d ∈ docs, d.source "id" = some (.data (.str d.id)))
    (hkb : ∀ d ∈ docs, d.id = x → (d.source "kb_id").any (FieldData.hasTerm elements (.str kb))) :
    (Apart new →
      (update elements docs (idCondition (.one (.str x))) new kb =
          update elements docs (idCondition (.many [.str x])) new kb ↔
        ∀ d ∈ docs, d.id = x → Agreeable elements d.source new)) ∧
      ∀ v, v = .one (.str x) ∨ v = .many [.str x] →
        ∃ f : Source J → Source J, update elements docs (idCondition v) new kb = docs.map fun d =>
          if d.id = x then { d with source := f d.source } else d := by
  rw [update_byQuery hinserted hkb, update_byId]
  refine ⟨fun hapart => ?_, ?_⟩
  · rw [List.map_inj_left]
    refine forall₂_congr fun d _ => ?_
    by_cases hdx : d.id = x
    · rw [if_pos hdx, if_pos hdx, ← updateById_eq_updateByQuery_iff hapart]
      simp [hdx]
    · rw [if_neg hdx, if_neg hdx]
      exact ⟨fun _ h => absurd h hdx, fun _ => rfl⟩
  · rintro v (rfl | rfl)
    · exact ⟨fun s => updateById elements s new, update_byId⟩
    · exact ⟨fun s => updateByQuery elements s new, update_byQuery hinserted hkb⟩

end Paths

/-- Lists of texts. -/
def textElements : Elements String where
  term := .str
  within v t := decide (v.toList <:+: t.toList)
  dumps l := "[" ++ ", ".intercalate (l.map fun s => "\"" ++ s ++ "\"") ++ "]"

/-- A chunk of a dataset. -/
def textDoc : Doc String where
  id := "c1"
  source k :=
    if k = "id" then some (.data (.str "c1"))
    else if k = "kb_id" then some (.data (.str "kb"))
    else none

theorem updates_agree_textDoc :
    update textElements [textDoc] (idCondition (.one (.str "c1")))
        [.set "content_with_weight" (.str "does not")] "kb" =
      update textElements [textDoc] (idCondition (.many [.str "c1"]))
        [.set "content_with_weight" (.str "does not")] "kb" := by
  have hdocs : ∀ {P : Doc String → Prop}, P textDoc → ∀ d ∈ [textDoc], P d := by
    rintro P h d hd
    rwa [List.mem_singleton.mp hd]
  refine ((updates_agree_iff textElements [textDoc] "c1" "kb"
    [.set "content_with_weight" (.str "does not")] (hdocs rfl) (hdocs fun _ => by decide)).1
      (List.nodup_singleton _)).mpr (hdocs fun _ => ?_)
  have hruns : Runs textElements textDoc.source [.set "content_with_weight" (.str "does not")] :=
    ⟨[[.setParam "content_with_weight" "does not"]], by decide +kernel, by decide, by decide⟩
  refine ⟨fun _ c hc => ?_, fun hnot => absurd hruns hnot, fun hnot => absurd hruns hnot⟩
  rw [List.mem_singleton.mp hc, Change.Kept, if_neg (by decide), if_neg (by decide)]
  decide +kernel

/-- An apostrophe is kept by an update of the id and lost by an update of a list of ids. -/
theorem updates_differ_textDoc :
    update textElements [textDoc] (idCondition (.one (.str "c1")))
        [.set "content_with_weight" (.str "doesn't")] "kb" ≠
      update textElements [textDoc] (idCondition (.many [.str "c1"]))
        [.set "content_with_weight" (.str "doesn't")] "kb" := by
  intro h
  have hfield := congrArg (List.map fun d => d.source "content_with_weight") h
  revert hfield
  decide +kernel

end RagFlow.Elastic
