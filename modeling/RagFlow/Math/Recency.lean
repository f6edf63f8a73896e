/-
# Keeping what was used last

Entries with different keys, the one used last in front, and no more of them than the capacity. A
key that is found or stored moves to the front, and a new one pushes out the entry at the end.
Keys are only compared, so under a renaming that keeps them apart nothing changes.
-/

import Mathlib

namespace RagFlow.Math

universe u v w

variable {κ : Type u} {ι : Type w} {β : Type v} {capacity : ℕ}

structure Recency (κ : Type u) (β : Type v) (capacity : ℕ) where
  entries : List (κ × β)
  nodup : (entries.map Prod.fst).Nodup
  length_le : entries.length ≤ capacity

/-- What a cache can be asked for. -/
inductive Use (κ : Type u) (β : Type v)
  | get (k : κ)
  | put (k : κ) (v : β)
  | remove (k : κ)
  | clear

/-- The keys that a call names. -/
def Use.keys : Use κ β → List κ
  | get k => [k]
  | put k _ => [k]
  | remove k => [k]
  | clear => []

def Use.rename (f : κ → ι) : Use κ β → Use ι β
  | get k => .get (f k)
  | put k v => .put (f k) v
  | remove k => .remove (f k)
  | clear => .clear

/-- The entries with the other keys. -/
def without [DecidableEq κ] (k : κ) (es : List (κ × β)) : List (κ × β) :=
  es.filter fun e => e.1 ≠ k

section Without

variable [DecidableEq κ] {k : κ} {es : List (κ × β)}

theorem keys_without_sublist : ((without k es).map Prod.fst).Sublist (es.map Prod.fst) :=
  List.filter_sublist.map _

theorem length_without_le : (without k es).length ≤ es.length := List.length_filter_le _ _

theorem notMem_keys_without : k ∉ (without k es).map Prod.fst := by
  simp [without]

theorem nodup_cons_without (h : (es.map Prod.fst).Nodup) (v : β) :
    (((k, v) :: without k es).map Prod.fst).Nodup := by
  rw [List.map_cons, List.nodup_cons]
  exact ⟨notMem_keys_without, h.sublist keys_without_sublist⟩

theorem without_eq_self (h : k ∉ es.map Prod.fst) : without k es = es := by
  apply List.filter_eq_self.mpr
  intro e he
  simpa using fun heq : e.1 = k => h (heq ▸ List.mem_map_of_mem he)

theorem length_without_lt (h : k ∈ es.map Prod.fst) : (without k es).length < es.length := by
  obtain ⟨e, he, rfl⟩ := List.mem_map.mp h
  exact List.length_filter_lt_length_iff_exists.mpr ⟨e, he, by simp⟩

end Without

namespace Recency

def empty : Recency κ β capacity where
  entries := []
  nodup := List.nodup_nil
  length_le := Nat.zero_le _

variable [DecidableEq κ] [DecidableEq ι]

/-- The value of a key that is kept; the key has been used then. -/
def get (m : Recency κ β capacity) (k : κ) : Option β × Recency κ β capacity :=
  match h : m.entries.lookup k with
  | none => (none, m)
  | some v => (some v, {
      entries := (k, v) :: without k m.entries
      nodup := nodup_cons_without m.nodup v
      length_le := by
        have hmem : k ∈ m.entries.map Prod.fst := by
          obtain ⟨before, after, hes, -⟩ := List.lookup_eq_some_iff.mp h
          simp [hes]
        exact (Nat.succ_le_of_lt (length_without_lt hmem)).trans m.length_le })

/-- The key is used with a new value, and what no longer fits at the end is dropped. -/
def put (m : Recency κ β capacity) (k : κ) (v : β) : Recency κ β capacity where
  entries := ((k, v) :: without k m.entries).take capacity
  nodup := by
    rw [List.map_take]
    exact (nodup_cons_without m.nodup v).sublist (List.take_sublist _ _)
  length_le := List.length_take_le _ _

def remove (m : Recency κ β capacity) (k : κ) : Recency κ β capacity where
  entries := without k m.entries
  nodup := m.nodup.sublist keys_without_sublist
  length_le := length_without_le.trans m.length_le

/-- One call: its answer and the cache after it. -/
def step (m : Recency κ β capacity) : Use κ β → Option β × Recency κ β capacity
  | .get k => m.get k
  | .put k v => (none, m.put k v)
  | .remove k => (none, m.remove k)
  | .clear => (none, empty)

/-- The answers to a sequence of calls and the cache after them. -/
def run (m : Recency κ β capacity) : List (Use κ β) → List (Option β) × Recency κ β capacity
  | [] => ([], m)
  | c :: calls =>
    let (answer, m) := m.step c
    let (answers, m) := m.run calls
    (answer :: answers, m)

theorem get_of_lookup {m : Recency κ β capacity} {k : κ} {v : β} (h : m.entries.lookup k = some v) :
    (m.get k).1 = some v ∧ (m.get k).2.entries = (k, v) :: without k m.entries := by
  unfold get
  split
  · simp_all
  · rename_i w hw
    obtain rfl := Option.some.inj (hw.symm.trans h)
    exact ⟨rfl, rfl⟩

theorem get_of_lookup_none {m : Recency κ β capacity} {k : κ} (h : m.entries.lookup k = none) :
    m.get k = (none, m) := by
  unfold get
  split
  · rfl
  · simp_all

theorem entries_put (m : Recency κ β capacity) (k : κ) (v : β) :
    (m.put k v).entries = ((k, v) :: without k m.entries).take capacity := rfl

theorem entries_remove (m : Recency κ β capacity) (k : κ) :
    (m.remove k).entries = without k m.entries := rfl

theorem put_of_mem {m : Recency κ β capacity} {k : κ} (h : k ∈ m.entries.map Prod.fst) (v : β) :
    (m.put k v).entries = (k, v) :: without k m.entries := by
  apply List.take_of_length_le
  exact (Nat.succ_le_of_lt (length_without_lt h)).trans m.length_le

theorem put_of_notMem {m : Recency κ β capacity} {k : κ} (h : k ∉ m.entries.map Prod.fst) (v : β) :
    (m.put k v).entries = ((k, v) :: m.entries).take capacity := by
  rw [entries_put, without_eq_self h]

/-- In a new cache, what is put is found under its own key only. -/
theorem answers_put_get (hcapacity : 1 ≤ capacity) (k j : κ) (v : β) :
    ((empty : Recency κ β capacity).run [.put k v, .get j]).1 =
      [none, if j = k then some v else none] := by
  have hput : ((empty : Recency κ β capacity).put k v).entries = [(k, v)] := by
    rw [entries_put]
    exact List.take_of_length_le hcapacity
  have hlookup : ((empty : Recency κ β capacity).put k v).entries.lookup j =
      if j = k then some v else none := by
    rw [hput, List.lookup_cons]
    by_cases h : j = k
    · simp [h]
    · rw [beq_false_of_ne h, if_neg h]
      rfl
  change [none, ((empty : Recency κ β capacity).put k v |>.get j).1] = _
  split_ifs at hlookup ⊢ with h
  · rw [(get_of_lookup hlookup).1]
  · rw [get_of_lookup_none hlookup]

/-! ## Renaming -/

/-- The entries are those of `m` under the renaming. -/
def RenamedBy (f : κ → ι) (m : Recency κ β capacity) (m' : Recency ι β capacity) : Prop :=
  m'.entries = m.entries.map (Prod.map f id)

section Rename

variable {f : κ → ι} {S : Set κ} (hinj : S.InjOn f)

include hinj

omit [DecidableEq κ] [DecidableEq ι] in
theorem rename_eq_iff {k j : κ} (hk : k ∈ S) (hj : j ∈ S) : f k = f j ↔ k = j :=
  ⟨fun h => hinj hk hj h, congrArg f⟩

theorem lookup_rename {es : List (κ × β)} (hes : ∀ k ∈ es.map Prod.fst, k ∈ S) {k : κ}
    (hk : k ∈ S) : (es.map (Prod.map f id)).lookup (f k) = es.lookup k := by
  induction es with
  | nil => rfl
  | cons e es ih =>
      rw [List.map_cons, List.forall_mem_cons] at hes
      have hkey : (f k == f e.1) = (k == e.1) := by
        rw [Bool.eq_iff_iff, beq_iff_eq, beq_iff_eq]
        exact rename_eq_iff hinj hk hes.1
      rw [List.map_cons, List.lookup_cons, Prod.map_fst, hkey, List.lookup_cons, ih hes.2]
      rfl

theorem without_rename {es : List (κ × β)} (hes : ∀ k ∈ es.map Prod.fst, k ∈ S) {k : κ}
    (hk : k ∈ S) :
    without (f k) (es.map (Prod.map f id)) = (without k es).map (Prod.map f id) := by
  rw [without, without, List.filter_map]
  congr 1
  apply List.filter_congr
  intro e he
  have hkey := rename_eq_iff hinj (hes e.1 (List.mem_map_of_mem he)) hk
  simp [hkey]

/-- A call keeps two caches alike and answers both the same. -/
theorem RenamedBy.step {m : Recency κ β capacity} {m' : Recency ι β capacity}
    (h : RenamedBy f m m') (hm : ∀ k ∈ m.entries.map Prod.fst, k ∈ S) {c : Use κ β}
    (hc : ∀ k ∈ c.keys, k ∈ S) :
    (m'.step (c.rename f)).1 = (m.step c).1 ∧
      RenamedBy f (m.step c).2 (m'.step (c.rename f)).2 ∧
      ∀ k ∈ (m.step c).2.entries.map Prod.fst, k ∈ S := by
  have hwithout : ∀ k, ∀ j ∈ (without k m.entries).map Prod.fst, j ∈ S := fun k j hj =>
    hm j (keys_without_sublist.subset hj)
  cases c with
  | get k =>
      have hk : k ∈ S := hc k (List.mem_singleton_self k)
      have hlookup : m'.entries.lookup (f k) = m.entries.lookup k := by
        rw [h]
        exact lookup_rename hinj hm hk
      cases hfound : m.entries.lookup k with
      | none =>
          rw [Use.rename, Recency.step, Recency.step, get_of_lookup_none hfound,
            get_of_lookup_none (hlookup.trans hfound)]
          exact ⟨rfl, h, hm⟩
      | some v =>
          obtain ⟨hanswer, hentries⟩ := get_of_lookup hfound
          obtain ⟨hanswer', hentries'⟩ := get_of_lookup (hlookup.trans hfound)
          refine ⟨hanswer'.trans hanswer.symm, ?_, ?_⟩
          · change (m'.get (f k)).2.entries = ((m.get k).2.entries).map _
            rw [hentries, hentries', h, without_rename hinj hm hk]
            rfl
          · change ∀ j ∈ ((m.get k).2.entries).map Prod.fst, j ∈ S
            rw [hentries, List.map_cons, List.forall_mem_cons]
            exact ⟨hk, hwithout k⟩
  | put k v =>
      have hk : k ∈ S := hc k (List.mem_singleton_self k)
      refine ⟨rfl, ?_, ?_⟩
      · change (m'.put (f k) v).entries = (m.put k v).entries.map _
        rw [entries_put, entries_put, h, without_rename hinj hm hk, List.map_take]
        rfl
      · intro j hj
        have hj' : j ∈ ((k, v) :: without k m.entries).map Prod.fst :=
          ((List.take_sublist _ _).map _).subset hj
        rcases List.mem_cons.mp hj' with rfl | hj'
        · exact hk
        · exact hwithout k j hj'
  | remove k =>
      refine ⟨rfl, ?_, hwithout k⟩
      change (m'.remove (f k)).entries = (m.remove k).entries.map _
      rw [entries_remove, entries_remove, h,
        without_rename hinj hm (hc k (List.mem_singleton_self k))]
  | clear => exact ⟨rfl, rfl, by simp [Recency.step, empty]⟩

/-- A renaming that keeps the keys of the calls apart does not show in the answers. -/
theorem RenamedBy.run {m : Recency κ β capacity} {m' : Recency ι β capacity}
    (h : RenamedBy f m m') (hm : ∀ k ∈ m.entries.map Prod.fst, k ∈ S) {calls : List (Use κ β)}
    (hcalls : ∀ c ∈ calls, ∀ k ∈ c.keys, k ∈ S) :
    (m'.run (calls.map (Use.rename f))).1 = (m.run calls).1 ∧
      RenamedBy f (m.run calls).2 (m'.run (calls.map (Use.rename f))).2 := by
  induction calls generalizing m m' with
  | nil => exact ⟨rfl, h⟩
  | cons c calls ih =>
      rw [List.forall_mem_cons] at hcalls
      obtain ⟨hanswer, hstep, hkeys⟩ := h.step hinj hm hcalls.1
      obtain ⟨hanswers, hrun⟩ := ih hstep hkeys hcalls.2
      refine ⟨?_, hrun⟩
      rw [List.map_cons, Recency.run, Recency.run]
      exact congrArg₂ List.cons hanswer hanswers

end Rename

end Recency

end RagFlow.Math
