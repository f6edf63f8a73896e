/-
# The cache of query embeddings

The map leads from a flattened key to an element of the list, which holds the key and the vector.
Under the flattened keys this is the cache that keeps what was used last. Whether it is one under
pairs of a question and a model depends on the keys alone: two pairs that are flattened to one key
share an entry.
-/

import RagFlow.Math.Dict
import RagFlow.Math.Recency

namespace RagFlow.Retrieval

open RagFlow.Math

-- The numbers of a vector are stored and returned only.
variable {R : Type}

/-! ## The code -/

structure Entry (R : Type) where
  key : String
  value : List R
  deriving DecidableEq

/-- A pointer to an element of the list is its place among all the elements ever made. -/
structure EmbeddingLRU (R : Type) where
  capacity : ℕ
  cache : Dict String ℕ
  elements : List (Entry R)
  list : List ℕ

/-- The fields of a call that say which embedding is meant. -/
abbrev EmbeddingKey := String × String

def buildKey (question embeddingID : String) : String := question ++ "::" ++ embeddingID

namespace EmbeddingLRU

def new (capacity : ℕ) : EmbeddingLRU R where
  capacity := capacity
  cache := Dict.empty
  elements := []
  list := []

/-- The entry of an element. -/
def entry (lru : EmbeddingLRU R) (elem : ℕ) : Entry R := lru.elements.getD elem ⟨"", []⟩

def MoveToFront (elem : ℕ) (list : List ℕ) : List ℕ :=
  if elem ∈ list then elem :: list.erase elem else list

def Get (lru : EmbeddingLRU R) (question embeddingID : String) :
    Option (List R) × EmbeddingLRU R :=
  match lru.cache.get? (buildKey question embeddingID) with
  | some elem => (some (lru.entry elem).value, { lru with list := MoveToFront elem lru.list })
  | none => (none, lru)

def evictOldest (lru : EmbeddingLRU R) : EmbeddingLRU R :=
  match lru.list.getLast? with
  | some elem => { lru with
      list := lru.list.erase elem
      cache := lru.cache.erase (lru.entry elem).key }
  | none => lru

def Put (lru : EmbeddingLRU R) (question embeddingID : String) (embedding : List R) :
    EmbeddingLRU R :=
  match lru.cache.get? (buildKey question embeddingID) with
  | some elem => { lru with
      list := MoveToFront elem lru.list
      elements := lru.elements.modify elem fun ent => { ent with value := embedding } }
  | none =>
    let elem := lru.elements.length
    let lru := { lru with
      elements := lru.elements ++ [⟨buildKey question embeddingID, embedding⟩]
      list := elem :: lru.list
      cache := lru.cache.set (buildKey question embeddingID) elem }
    if lru.capacity < lru.list.length then lru.evictOldest else lru

def Remove (lru : EmbeddingLRU R) (question embeddingID : String) : EmbeddingLRU R :=
  match lru.cache.get? (buildKey question embeddingID) with
  | some elem => { lru with
      list := lru.list.erase elem
      cache := lru.cache.erase (buildKey question embeddingID) }
  | none => lru

def Clear (lru : EmbeddingLRU R) : EmbeddingLRU R := { lru with cache := Dict.empty, list := [] }

def Len (lru : EmbeddingLRU R) : ℕ := lru.list.length

def call (lru : EmbeddingLRU R) : Use EmbeddingKey (List R) → Option (List R) × EmbeddingLRU R
  | .get (question, embeddingID) => lru.Get question embeddingID
  | .put (question, embeddingID) embedding => (none, lru.Put question embeddingID embedding)
  | .remove (question, embeddingID) => (none, lru.Remove question embeddingID)
  | .clear => (none, lru.Clear)

def run (lru : EmbeddingLRU R) :
    List (Use EmbeddingKey (List R)) → List (Option (List R)) × EmbeddingLRU R
  | [] => ([], lru)
  | c :: calls =>
    let (answer, lru) := lru.call c
    let (answers, lru) := lru.run calls
    (answer :: answers, lru)

/-! ## Map and list -/

/-- What an element holds. -/
def held (lru : EmbeddingLRU R) (elem : ℕ) : String × List R :=
  ((lru.entry elem).key, (lru.entry elem).value)

/-- What is kept, in the order of the list. -/
def kept (lru : EmbeddingLRU R) : List (String × List R) := lru.list.map lru.held

/-- The map leads to the elements of the list, by their keys. -/
structure SameEntries (lru : EmbeddingLRU R) : Prop where
  nodup : lru.list.Nodup
  made : ∀ elem ∈ lru.list, elem < lru.elements.length
  cache : ∀ key elem, lru.cache.get? key = some elem ↔
    elem ∈ lru.list ∧ (lru.entry elem).key = key

/-- The cache under flattened keys that `lru` is. -/
structure Keeps (lru : EmbeddingLRU R) {capacity : ℕ} (m : Recency String (List R) capacity) :
    Prop where
  same : lru.SameEntries
  capacity : lru.capacity = capacity
  entries : lru.kept = m.entries

section Same

variable {lru : EmbeddingLRU R} {key : String} {elem : ℕ}

theorem SameEntries.mem (h : lru.SameEntries) (hget : lru.cache.get? key = some elem) :
    elem ∈ lru.list := ((h.cache key elem).mp hget).1

theorem SameEntries.key_eq (h : lru.SameEntries) (hget : lru.cache.get? key = some elem) :
    (lru.entry elem).key = key := ((h.cache key elem).mp hget).2

/-- Elements of the list with one key are one element. -/
theorem SameEntries.key_inj (h : lru.SameEntries) (helem : elem ∈ lru.list) {other : ℕ}
    (hother : other ∈ lru.list) (heq : (lru.entry other).key = (lru.entry elem).key) :
    other = elem := by
  have hget := (h.cache _ _).mpr ⟨helem, rfl⟩
  have hget' := (h.cache _ _).mpr ⟨hother, heq⟩
  exact Option.some.inj (hget'.symm.trans hget)

/-- Without the key of an element, the others are kept. -/
theorem SameEntries.without (h : lru.SameEntries) (helem : elem ∈ lru.list) :
    without (lru.entry elem).key lru.kept = (lru.list.erase elem).map lru.held := by
  rw [RagFlow.Math.without, kept, List.filter_map, h.nodup.erase_eq_filter]
  congr 1
  apply List.filter_congr
  intro other hother
  have hiff : (lru.entry other).key = (lru.entry elem).key ↔ other = elem :=
    ⟨h.key_inj helem hother, fun heq => by rw [heq]⟩
  rw [Bool.eq_iff_iff]
  simp [held, hiff]

/-- An element is taken out of the list, and its key out of the map. -/
theorem SameEntries.erase (h : lru.SameEntries) (helem : elem ∈ lru.list) :
    { lru with
      list := lru.list.erase elem
      cache := lru.cache.erase (lru.entry elem).key }.SameEntries where
  nodup := h.nodup.erase elem
  made other hother := h.made other (List.mem_of_mem_erase hother)
  cache key other := by
    change (lru.cache.erase _).get? key = some other ↔
      other ∈ lru.list.erase elem ∧ (lru.entry other).key = key
    rw [Dict.get?_erase, h.nodup.mem_erase_iff]
    split_ifs with hkey
    · refine iff_of_false not_false ?_
      rintro ⟨⟨hne, hother⟩, heq⟩
      exact hne (h.key_inj helem hother (heq.trans hkey))
    · rw [h.cache, and_assoc]
      refine (and_iff_right_of_imp ?_).symm
      rintro ⟨-, heq⟩ rfl
      exact hkey heq.symm

theorem moveToFront_of_mem {list : List ℕ} (h : elem ∈ list) :
    MoveToFront elem list = elem :: list.erase elem := if_pos h

/-- An element that is used moves to the front; its vector may change. -/
theorem SameEntries.touch (h : lru.SameEntries) (helem : elem ∈ lru.list)
    {lru' : EmbeddingLRU R} (hcache : lru'.cache = lru.cache)
    (hlist : lru'.list = MoveToFront elem lru.list)
    (hlength : lru'.elements.length = lru.elements.length)
    (hkey : ∀ other, (lru'.entry other).key = (lru.entry other).key) : lru'.SameEntries := by
  have hperm : lru'.list.Perm lru.list := by
    rw [hlist, moveToFront_of_mem helem]
    exact (List.perm_cons_erase helem).symm
  refine ⟨hperm.nodup_iff.mpr h.nodup, fun other hother => ?_, fun key other => ?_⟩
  · rw [hlength]
    exact h.made other (hperm.subset hother)
  · rw [hcache, h.cache, hperm.mem_iff, hkey]

end Same

/-! ## One call -/

section Call

variable {lru : EmbeddingLRU R} {capacity : ℕ} {m : Recency String (List R) capacity}
  {question embeddingID : String}

/-- The map finds what is kept. -/
theorem Keeps.lookup (h : lru.Keeps m) (key : String) :
    m.entries.lookup key = (lru.cache.get? key).map fun elem => (lru.entry elem).value := by
  let d : Dict String (List R) := ⟨m.entries, m.nodup⟩
  cases hget : lru.cache.get? key with
  | some elem =>
      apply (Dict.get?_eq_some_iff (d := d)).mpr
      change (key, (lru.entry elem).value) ∈ m.entries
      rw [← h.entries, ← h.same.key_eq hget]
      exact List.mem_map_of_mem (h.same.mem hget)
  | none =>
      apply Option.eq_none_iff_forall_ne_some.mpr
      intro v hv
      have hmem : (key, v) ∈ m.entries := (Dict.get?_eq_some_iff (d := d)).mp hv
      rw [← h.entries] at hmem
      obtain ⟨elem, helem, heq⟩ := List.mem_map.mp hmem
      have hsome := (h.same.cache key elem).mpr ⟨helem, (Prod.mk.inj heq).1⟩
      exact absurd (hget.symm.trans hsome) nofun

theorem Keeps.mem_keys (h : lru.Keeps m) {key : String} {elem : ℕ}
    (hget : lru.cache.get? key = some elem) : key ∈ m.entries.map Prod.fst := by
  rw [← h.entries, ← h.same.key_eq hget]
  exact List.mem_map_of_mem (List.mem_map_of_mem (h.same.mem hget))

theorem Keeps.notMem_keys (h : lru.Keeps m) {key : String} (hget : lru.cache.get? key = none) :
    key ∉ m.entries.map Prod.fst := by
  rw [← h.entries, kept, List.map_map]
  intro hmem
  obtain ⟨elem, helem, heq⟩ := List.mem_map.mp hmem
  exact absurd (hget.symm.trans ((h.same.cache key elem).mpr ⟨helem, heq⟩)) nofun

theorem Keeps.Get (h : lru.Keeps m) :
    (lru.Get question embeddingID).1 = (m.get (buildKey question embeddingID)).1 ∧
      (lru.Get question embeddingID).2.Keeps (m.get (buildKey question embeddingID)).2 := by
  have hlookup := h.lookup (buildKey question embeddingID)
  unfold EmbeddingLRU.Get
  cases hget : lru.cache.get? (buildKey question embeddingID) with
  | none =>
      rw [hget] at hlookup
      rw [Recency.get_of_lookup_none hlookup]
      exact ⟨rfl, h⟩
  | some elem =>
      rw [hget] at hlookup
      obtain ⟨hanswer, hentries⟩ := Recency.get_of_lookup hlookup
      have helem := h.same.mem hget
      refine ⟨hanswer.symm, h.same.touch helem rfl rfl rfl fun _ => rfl, h.capacity, ?_⟩
      rw [hentries, ← h.entries, ← h.same.key_eq hget, h.same.without helem]
      change (MoveToFront elem lru.list).map lru.held = _
      rw [moveToFront_of_mem helem]
      rfl

theorem Keeps.Remove (h : lru.Keeps m) :
    (lru.Remove question embeddingID).Keeps (m.remove (buildKey question embeddingID)) := by
  unfold EmbeddingLRU.Remove
  cases hget : lru.cache.get? (buildKey question embeddingID) with
  | none =>
      refine ⟨h.same, h.capacity, ?_⟩
      rw [Recency.entries_remove, without_eq_self (h.notMem_keys hget)]
      exact h.entries
  | some elem =>
      have helem := h.same.mem hget
      rw [← h.same.key_eq hget]
      refine ⟨h.same.erase helem, h.capacity, ?_⟩
      rw [Recency.entries_remove, ← h.entries, h.same.without helem]
      rfl

theorem Keeps.Clear (h : lru.Keeps m) : lru.Clear.Keeps (Recency.empty : Recency _ _ capacity) where
  same := ⟨List.nodup_nil, nofun, fun _ _ => iff_of_false nofun fun hmem => nomatch hmem.1⟩
  capacity := h.capacity
  entries := rfl

/-- The vector of an element is replaced. -/
theorem entry_modify {elem : ℕ} (helem : elem < lru.elements.length) (embedding : List R)
    (list : List ℕ) (other : ℕ) :
    { lru with
        list := list
        elements := lru.elements.modify elem fun ent =>
          { ent with value := embedding } }.entry other =
      if other = elem then { lru.entry elem with value := embedding } else lru.entry other := by
  rw [entry, List.getD_eq_getElem?_getD, List.getElem?_modify]
  split_ifs with heq heq' heq'
  · subst heq
    simp [entry, helem]
  · exact absurd heq.symm heq'
  · exact absurd heq'.symm heq
  · simp [entry, List.getD_eq_getElem?_getD]

/-- A known key moves to the front with the new vector. -/
theorem Keeps.Put_known (h : lru.Keeps m) {elem : ℕ}
    (hget : lru.cache.get? (buildKey question embeddingID) = some elem) (embedding : List R) :
    (lru.Put question embeddingID embedding).Keeps
      (m.put (buildKey question embeddingID) embedding) := by
  have helem := h.same.mem hget
  have hentry := entry_modify (h.same.made elem helem) embedding (MoveToFront elem lru.list)
  unfold EmbeddingLRU.Put
  rw [hget]
  refine ⟨h.same.touch helem rfl rfl (by simp) fun other => ?_, h.capacity, ?_⟩
  · rw [hentry]
    split_ifs with heq
    · rw [heq]
    · rfl
  · rw [Recency.put_of_mem (h.mem_keys hget), ← h.entries, ← h.same.key_eq hget,
      h.same.without helem, kept]
    change (MoveToFront elem lru.list).map _ = _
    rw [moveToFront_of_mem helem, List.map_cons]
    congr 1
    · rw [held, hentry, if_pos rfl]
    · apply List.map_congr_left
      intro other hother
      have hne := (h.same.nodup.mem_erase_iff.mp hother).1
      rw [held, hentry, if_neg hne, held]

/-- The cache with a new element in front. -/
def added (lru : EmbeddingLRU R) (key : String) (embedding : List R) : EmbeddingLRU R :=
  { lru with
    elements := lru.elements ++ [⟨key, embedding⟩]
    list := lru.elements.length :: lru.list
    cache := lru.cache.set key lru.elements.length }

theorem entry_added_new (key : String) (embedding : List R) :
    (lru.added key embedding).entry lru.elements.length = ⟨key, embedding⟩ := by
  rw [entry, added, List.getD_append_right _ _ _ _ le_rfl, Nat.sub_self]
  rfl

theorem entry_added (key : String) (embedding : List R) {elem : ℕ}
    (h : elem < lru.elements.length) : (lru.added key embedding).entry elem = lru.entry elem :=
  List.getD_append _ _ _ _ h

theorem SameEntries.added (h : lru.SameEntries) {key : String} (hget : lru.cache.get? key = none)
    (embedding : List R) : (lru.added key embedding).SameEntries := by
  have hnew : lru.elements.length ∉ lru.list := fun hmem => Nat.lt_irrefl _ (h.made _ hmem)
  refine ⟨List.nodup_cons.mpr ⟨hnew, h.nodup⟩, ?_, fun key' elem => ?_⟩
  · intro elem helem
    have hlength : (lru.added key embedding).elements.length = lru.elements.length + 1 := by
      simp [EmbeddingLRU.added]
    rw [hlength]
    rcases List.mem_cons.mp helem with rfl | helem
    · exact Nat.lt_succ_self _
    · exact Nat.lt_succ_of_lt (h.made elem helem)
  · change (lru.cache.set key _).get? key' = some elem ↔ elem ∈ _ :: lru.list ∧ _
    rw [Dict.get?_set, List.mem_cons]
    by_cases hnewElem : elem = lru.elements.length
    · subst hnewElem
      rw [entry_added_new]
      by_cases hkey : key' = key
      · simp [hkey]
      · rw [if_neg hkey]
        exact iff_of_false (fun heq => hnew (h.mem heq)) fun hand => hkey hand.2.symm
    · rw [or_iff_right hnewElem]
      have hold : elem ∈ lru.list →
          ((lru.added key embedding).entry elem).key = (lru.entry elem).key := fun helem => by
        rw [entry_added _ _ (h.made elem helem)]
      by_cases hkey : key' = key
      · rw [if_pos hkey]
        refine iff_of_false (fun heq => hnewElem (Option.some.inj heq).symm) fun hand => ?_
        have hsome := (h.cache key elem).mpr ⟨hand.1, (hold hand.1).symm.trans (hand.2.trans hkey)⟩
        exact absurd (hget.symm.trans hsome) nofun
      · rw [if_neg hkey, h.cache]
        exact and_congr_right fun helem => by rw [hold helem]

theorem SameEntries.evictOldest (h : lru.SameEntries) :
    lru.evictOldest.SameEntries ∧ lru.evictOldest.capacity = lru.capacity ∧
      lru.evictOldest.kept = lru.kept.dropLast := by
  unfold EmbeddingLRU.evictOldest
  cases hlast : lru.list.getLast? with
  | none =>
      rw [List.getLast?_eq_none_iff] at hlast
      exact ⟨h, rfl, by simp [kept, hlast]⟩
  | some elem =>
      have hlist := List.dropLast_append_getLast? elem hlast
      refine ⟨h.erase (List.mem_of_getLast? hlast), rfl, ?_⟩
      have hnot : elem ∉ lru.list.dropLast := by
        have hnodup := h.nodup
        rw [← hlist, List.nodup_append] at hnodup
        exact fun hmem => hnodup.2.2 elem hmem elem (List.mem_singleton_self elem) rfl
      have herase : lru.list.erase elem = lru.list.dropLast := by
        conv_lhs => rw [← hlist]
        rw [List.erase_append_right _ hnot, List.erase_cons_head, List.append_nil]
      change (lru.list.erase elem).map lru.held = _
      rw [herase, kept, List.map_dropLast]

/-- A new key comes to the front, and the last one goes if there are too many. -/
theorem Keeps.Put_new (h : lru.Keeps m)
    (hget : lru.cache.get? (buildKey question embeddingID) = none) (embedding : List R) :
    (lru.Put question embeddingID embedding).Keeps
      (m.put (buildKey question embeddingID) embedding) := by
  have hsame := h.same.added hget embedding
  have hkept : (lru.added (buildKey question embeddingID) embedding).kept =
      (buildKey question embeddingID, embedding) :: m.entries := by
    rw [← h.entries, kept, kept, added, List.map_cons]
    congr 1
    · exact congrArg (fun ent : Entry R => (ent.key, ent.value)) (entry_added_new _ _)
    · apply List.map_congr_left
      intro elem helem
      exact congrArg (fun ent : Entry R => (ent.key, ent.value))
        (entry_added _ _ (h.same.made elem helem))
  have hlength : (lru.added (buildKey question embeddingID) embedding).list.length =
      m.entries.length + 1 := by
    have := congrArg List.length hkept
    rwa [kept, List.length_map, List.length_cons] at this
  have hput : lru.Put question embeddingID embedding =
      if lru.capacity < (lru.added (buildKey question embeddingID) embedding).list.length then
        (lru.added (buildKey question embeddingID) embedding).evictOldest
      else lru.added (buildKey question embeddingID) embedding := by
    rw [EmbeddingLRU.Put, hget]
    rfl
  rw [hput, hlength, h.capacity]
  split_ifs with hfull
  · -- All places are taken, so the last of the entries goes.
    have hle := m.length_le
    obtain ⟨hevicted, hcapacity, hdrop⟩ := hsame.evictOldest
    refine ⟨hevicted, hcapacity.trans h.capacity, ?_⟩
    rw [hdrop, hkept, Recency.put_of_notMem (h.notMem_keys hget), List.dropLast_eq_take,
      List.length_cons]
    congr 1
    omega
  · refine ⟨hsame, h.capacity, ?_⟩
    rw [hkept, Recency.put_of_notMem (h.notMem_keys hget), List.take_of_length_le]
    rw [List.length_cons]
    omega

theorem Keeps.Put (h : lru.Keeps m) (embedding : List R) :
    (lru.Put question embeddingID embedding).Keeps
      (m.put (buildKey question embeddingID) embedding) := by
  cases hget : lru.cache.get? (buildKey question embeddingID) with
  | none => exact h.Put_new hget embedding
  | some elem => exact h.Put_known hget embedding

end Call

/-! ## Runs -/

/-- The pair as a key of the map. -/
def flatten (pair : EmbeddingKey) : String := buildKey pair.1 pair.2

/-- One call does under pairs what it does under the flattened keys. -/
theorem Keeps.call {lru : EmbeddingLRU R} {capacity : ℕ} {m : Recency String (List R) capacity}
    (h : lru.Keeps m) (c : Use EmbeddingKey (List R)) :
    (lru.call c).1 = (m.step (c.rename flatten)).1 ∧
      (lru.call c).2.Keeps (m.step (c.rename flatten)).2 := by
  cases c with
  | get pair => exact h.Get
  | put pair embedding => exact ⟨rfl, h.Put embedding⟩
  | remove pair => exact ⟨rfl, h.Remove⟩
  | clear => exact ⟨rfl, h.Clear⟩

theorem Keeps.run {lru : EmbeddingLRU R} {capacity : ℕ} {m : Recency String (List R) capacity}
    (h : lru.Keeps m) (calls : List (Use EmbeddingKey (List R))) :
    (lru.run calls).1 = (m.run (calls.map (Use.rename flatten))).1 ∧
      (lru.run calls).2.Keeps (m.run (calls.map (Use.rename flatten))).2 := by
  induction calls generalizing lru m with
  | nil => exact ⟨rfl, h⟩
  | cons c calls ih =>
      obtain ⟨hanswer, hcall⟩ := h.call c
      obtain ⟨hanswers, hrun⟩ := ih hcall
      exact ⟨congrArg₂ List.cons hanswer hanswers, hrun⟩

theorem keeps_new (capacity : ℕ) :
    (new capacity : EmbeddingLRU R).Keeps (Recency.empty : Recency _ _ capacity) where
  same := ⟨List.nodup_nil, nofun, fun _ _ => iff_of_false nofun fun hmem => nomatch hmem.1⟩
  capacity := rfl
  entries := rfl

/-- A run from the new cache answers like the cache on pairs and ends with its entries, which are
no more than the capacity, the same in the map and in the list. -/
structure ActsAsLru (capacity : ℕ) (calls : List (Use EmbeddingKey (List R))) : Prop where
  answers : ((new capacity).run calls).1 =
    ((Recency.empty : Recency EmbeddingKey (List R) capacity).run calls).1
  entries : ((new capacity).run calls).2.kept =
    ((Recency.empty : Recency EmbeddingKey (List R) capacity).run calls).2.entries.map
      (Prod.map flatten id)
  size : ((new capacity).run calls).2.Len ≤ capacity
  same : ((new capacity).run calls).2.SameEntries

/-- What is put for one pair is answered for each pair with the same flattened key. -/
theorem answers_put_get {capacity : ℕ} (hcapacity : 1 ≤ capacity) (pair other : EmbeddingKey)
    (embedding : List R) : ((new capacity).run [.put pair embedding, .get other]).1 =
      [none, if flatten other = flatten pair then some embedding else none] :=
  ((keeps_new capacity).run _).1.trans (Recency.answers_put_get hcapacity _ _ _)

/-- Over pairs that are flattened to different keys, and over no others, every run is one of the
cache on pairs. -/
theorem actsAsLru_iff {capacity : ℕ} (hcapacity : 1 ≤ capacity) (pairs : Set EmbeddingKey) :
    (∀ calls : List (Use EmbeddingKey (List R)), (∀ c ∈ calls, ∀ pair ∈ c.keys, pair ∈ pairs) →
      ActsAsLru capacity calls) ↔ pairs.InjOn flatten := by
  refine ⟨fun h pair hpair other hother heq => ?_, fun hinj calls hcalls => ?_⟩
  · -- What is put for one pair is not answered for the other.
    by_contra hne
    have hcalls : ∀ c ∈ [.put pair [], .get other], ∀ p ∈ (c : Use EmbeddingKey (List R)).keys,
        p ∈ pairs := by
      intro c hc p hp
      rcases List.mem_pair.mp hc with rfl | rfl
      · exact List.mem_singleton.mp hp ▸ hpair
      · exact List.mem_singleton.mp hp ▸ hother
    have hanswers := (h _ hcalls).answers
    rw [answers_put_get hcapacity, Recency.answers_put_get hcapacity, if_pos heq.symm,
      if_neg (Ne.symm hne)] at hanswers
    exact absurd hanswers (by simp)
  · obtain ⟨hanswers, hkeeps⟩ := (keeps_new (R := R) capacity).run calls
    have hrenamed : Recency.RenamedBy flatten
        (Recency.empty : Recency EmbeddingKey (List R) capacity)
        (Recency.empty : Recency String (List R) capacity) := rfl
    obtain ⟨hpairs, hentries⟩ := hrenamed.run hinj nofun hcalls
    refine ⟨hanswers.trans hpairs, hkeeps.entries.trans hentries, ?_, hkeeps.same⟩
    have hlength := congrArg List.length hkeeps.entries
    rw [kept, List.length_map] at hlength
    exact hlength.trans_le (Recency.length_le _)

/-- Questions to one model are kept apart. -/
theorem actsAsLru_oneModel :
    ActsAsLru 1 [.put ("a", "bge") [1, 2], .put ("a::b", "bge") [3], .get ("a", "bge")] := by
  refine (actsAsLru_iff le_rfl {("a", "bge"), ("a::b", "bge")}).mpr ?_ _ ?_
  · rintro pair (rfl | rfl) other (rfl | rfl) heq
    · rfl
    · exact absurd heq (by decide)
    · exact absurd heq (by decide)
    · rfl
  · intro c hc pair hpair
    simp only [List.mem_cons, List.not_mem_nil, or_false] at hc
    rcases hc with rfl | rfl | rfl
    · exact .inl (List.mem_singleton.mp hpair)
    · exact .inr (List.mem_singleton.mp hpair)
    · exact .inl (List.mem_singleton.mp hpair)

/-- The separator in a question moves the border between question and model. -/
theorem not_actsAsLru :
    ¬ ActsAsLru 1 [.put ("a::b", "c") [1, 2], .get ("a", "b::c")] := by
  intro h
  have hanswers := h.answers
  rw [answers_put_get le_rfl, Recency.answers_put_get le_rfl, if_pos (by decide),
    if_neg (by decide)] at hanswers
  exact absurd hanswers (by decide)

end EmbeddingLRU

end RagFlow.Retrieval
