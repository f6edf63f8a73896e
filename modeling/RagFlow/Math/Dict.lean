/-
# Dictionaries in insertion order

A dictionary is a list of entries with pairwise different keys: a new key goes to the
end and a known key keeps its place. Everything is characterised by what is looked
up, which includes merging one dictionary into another where a key that both have is
combined by a function that may fail.
-/

import RagFlow.Math.Except
import Mathlib.Data.List.Nodup

namespace RagFlow.Math

universe u v w

structure Dict (κ : Type u) (β : Type v) where
  entries : List (κ × β)
  nodup : (entries.map Prod.fst).Nodup

namespace Dict

variable {κ : Type u} {β γ : Type v}

def empty : Dict κ β := { entries := [], nodup := List.nodup_nil }

def keys (d : Dict κ β) : List κ := d.entries.map Prod.fst

theorem mem_keys_iff_exists {d : Dict κ β} {k : κ} : k ∈ d.keys ↔ ∃ v, (k, v) ∈ d.entries := by
  simp [keys]

/-- A key has one value. -/
theorem value_unique (d : Dict κ β) {k : κ} {v w : β} (hv : (k, v) ∈ d.entries)
    (hw : (k, w) ∈ d.entries) : v = w := by
  have hentry : (k, v) = (k, w) := List.inj_on_of_nodup_map d.nodup hv hw rfl
  exact (Prod.mk.inj hentry).2

variable [DecidableEq κ]

/-! ## Lookup -/

def get? (d : Dict κ β) (k : κ) : Option β := d.entries.lookup k

instance : Membership κ (Dict κ β) where
  mem d k := k ∈ d.keys

instance (d : Dict κ β) (k : κ) : Decidable (k ∈ d) :=
  inferInstanceAs (Decidable (k ∈ d.keys))

omit [DecidableEq κ] in
theorem mem_iff {d : Dict κ β} {k : κ} : k ∈ d ↔ k ∈ d.keys := Iff.rfl

theorem get?_eq_some_iff {d : Dict κ β} {k : κ} {v : β} :
    d.get? k = some v ↔ (k, v) ∈ d.entries := by
  constructor
  · intro h
    obtain ⟨before, after, hsplit, _⟩ := List.lookup_eq_some_iff.mp h
    simp [hsplit]
  · intro h
    cases hget : d.get? k with
    | none =>
        have hdiff := List.lookup_eq_none_iff.mp hget (k, v) h
        simp at hdiff
    | some w =>
        obtain ⟨before, after, hsplit, _⟩ := List.lookup_eq_some_iff.mp hget
        rw [d.value_unique h (w := w) (by simp [hsplit])]

theorem mem_iff_isSome {d : Dict κ β} {k : κ} : k ∈ d ↔ (d.get? k).isSome := by
  rw [mem_iff, mem_keys_iff_exists, Option.isSome_iff_exists]
  exact exists_congr fun v => get?_eq_some_iff.symm

theorem mem_of_get? {d : Dict κ β} {k : κ} {v : β} (h : d.get? k = some v) : k ∈ d := by
  rw [mem_iff_isSome, h]
  rfl

/-- A dictionary is read off its entries: the rule by which the operations are proved. -/
theorem get?_eq_of_entries {d : Dict κ β} {k : κ} {x : Option β}
    (h : ∀ v, (k, v) ∈ d.entries ↔ x = some v) : d.get? k = x := by
  apply Option.ext
  intro v
  rw [get?_eq_some_iff, h]

/-! ## Assignment -/

/-- Assign a value: in place if the key is known, else at the end. -/
def set (d : Dict κ β) (k : κ) (v : β) : Dict κ β where
  entries := if k ∈ d then d.entries.map fun e => if e.1 = k then (k, v) else e
    else d.entries ++ [(k, v)]
  nodup := by
    split_ifs with h
    · have hkeys : (d.entries.map fun e => if e.1 = k then (k, v) else e).map Prod.fst
          = d.entries.map Prod.fst := by
        rw [List.map_map]
        apply List.map_congr_left
        intro e _
        by_cases he : e.1 = k <;> simp [he]
      exact hkeys ▸ d.nodup
    · rw [List.map_append, List.map_singleton]
      exact List.nodup_append.mpr ⟨d.nodup, List.nodup_singleton k, by
        intro a ha b hb heq
        rw [heq, List.mem_singleton.mp hb] at ha
        exact h ha⟩

theorem mem_entries_set {d : Dict κ β} {k j : κ} {v w : β} :
    (j, w) ∈ (d.set k v).entries ↔ if j = k then v = w else (j, w) ∈ d.entries := by
  by_cases hk : k ∈ d
  · obtain ⟨old, hold⟩ := mem_keys_iff_exists.mp hk
    simp only [set, if_pos hk, List.mem_map]
    constructor
    · rintro ⟨e, he, heq⟩
      by_cases hek : e.1 = k
      · rw [if_pos hek] at heq
        obtain ⟨rfl, rfl⟩ := Prod.mk.inj heq
        simp
      · rw [if_neg hek] at heq
        subst heq
        rw [if_neg hek]
        exact he
    · intro h
      by_cases hj : j = k
      · rw [if_pos hj] at h
        exact ⟨(k, old), hold, by simp [hj, h]⟩
      · rw [if_neg hj] at h
        exact ⟨(j, w), h, by simp [hj]⟩
  · simp only [set, if_neg hk, List.mem_append, List.mem_singleton, Prod.mk.injEq]
    by_cases hj : j = k
    · have hnone : (j, w) ∉ d.entries := by
        intro h
        exact hk (mem_keys_iff_exists.mpr ⟨w, hj ▸ h⟩)
      simp [hj, hj ▸ hnone, eq_comm]
    · simp [hj]

theorem get?_set (d : Dict κ β) (k j : κ) (v : β) :
    (d.set k v).get? j = if j = k then some v else d.get? j := by
  apply get?_eq_of_entries
  intro w
  rw [mem_entries_set]
  split_ifs
  · simp
  · exact get?_eq_some_iff.symm

@[simp]
theorem get?_set_self (d : Dict κ β) (k : κ) (v : β) : (d.set k v).get? k = some v := by
  rw [get?_set, if_pos rfl]

theorem get?_set_ne {j k : κ} (h : j ≠ k) (d : Dict κ β) (v : β) :
    (d.set k v).get? j = d.get? j := by
  rw [get?_set, if_neg h]

theorem mem_set {d : Dict κ β} {k j : κ} {v : β} : j ∈ d.set k v ↔ j = k ∨ j ∈ d := by
  rw [mem_iff_isSome, mem_iff_isSome, get?_set]
  by_cases h : j = k <;> simp [h]

/-! ## Filling

A dictionary is filled from a list by assigning to the key of each element what is computed for
it, where the computation may fail.
-/

section Fill

universe x

variable {α : Type x} {key : α → κ} {f : α → Option β} {l : List α} {d r : Dict κ β}

def fill (key : α → κ) (f : α → Option β) (l : List α) (d : Dict κ β) : Option (Dict κ β) :=
  l.foldlM (fun d a => (f a).map (d.set (key a))) d

theorem isSome_fill (h : ∀ a ∈ l, (f a).isSome) : (fill key f l d).isSome := by
  unfold fill
  induction l generalizing d with
  | nil => rfl
  | cons a l ih =>
      obtain ⟨v, hv⟩ := Option.isSome_iff_exists.mp (h a List.mem_cons_self)
      rw [List.foldlM_cons, hv]
      exact ih fun b hb => h b (List.mem_cons_of_mem a hb)

/-- Where the keys are different, each key has what was computed for its element. -/
theorem get?_fill (hl : (l.map key).Nodup) (h : fill key f l d = some r) (k : κ) (v : β) :
    r.get? k = some v ↔
      (∃ a ∈ l, key a = k ∧ f a = some v) ∨ k ∉ l.map key ∧ d.get? k = some v := by
  unfold fill at h
  induction l generalizing d with
  | nil =>
      obtain rfl := Option.some.inj h
      simp
  | cons a l ih =>
      rw [List.foldlM_cons] at h
      cases ha : f a with
      | none => simp [ha] at h
      | some w =>
          rw [ha] at h
          rw [List.map_cons, List.nodup_cons] at hl
          rw [ih hl.2 h, get?_set, List.exists_mem_cons_iff, List.map_cons, List.mem_cons, ha]
          by_cases hk : k = key a
          · have hnot : ¬ ∃ b ∈ l, key b = k ∧ f b = some v := by
              rintro ⟨b, hb, hkey, -⟩
              exact hl.1 (hk ▸ hkey ▸ List.mem_map_of_mem hb)
            rw [or_iff_right hnot, or_iff_left hnot, if_pos hk]
            simp [hl.1, hk]
          · have hka : key a ≠ k := fun heq => hk heq.symm
            simp [hk, hka]

end Fill

/-! ## Selection and mapping -/

def filter (p : κ → β → Bool) (d : Dict κ β) : Dict κ β where
  entries := d.entries.filter fun e => p e.1 e.2
  nodup := d.nodup.sublist (List.filter_sublist.map _)

theorem get?_filter (p : κ → β → Bool) (d : Dict κ β) (k : κ) :
    (d.filter p).get? k = (d.get? k).filter (p k) := by
  apply get?_eq_of_entries
  intro v
  rw [filter, List.mem_filter, Option.filter_eq_some_iff, get?_eq_some_iff]

/-- The dictionary without a key. -/
def erase (d : Dict κ β) (k : κ) : Dict κ β := d.filter fun j _ => j ≠ k

theorem get?_erase (d : Dict κ β) (k j : κ) :
    (d.erase k).get? j = if j = k then none else d.get? j := by
  rw [erase, get?_filter]
  cases d.get? j with
  | none => simp
  | some v => by_cases h : j = k <;> simp [Option.filter, h]

def mapValues (f : κ → β → γ) (d : Dict κ β) : Dict κ γ where
  entries := d.entries.map fun e => (e.1, f e.1 e.2)
  nodup := by
    rw [List.map_map]
    exact d.nodup

@[simp]
theorem get?_mapValues (f : κ → β → γ) (d : Dict κ β) (k : κ) :
    (d.mapValues f).get? k = (d.get? k).map (f k) := by
  apply get?_eq_of_entries
  intro v
  simp only [mapValues, List.mem_map, Option.map_eq_some_iff, get?_eq_some_iff, Prod.mk.injEq]
  constructor
  · rintro ⟨e, he, rfl, rfl⟩
    exact ⟨e.2, he, rfl⟩
  · rintro ⟨a, ha, rfl⟩
    exact ⟨(k, a), ha, rfl, rfl⟩

@[simp]
theorem mem_mapValues {f : κ → β → γ} {d : Dict κ β} {k : κ} : k ∈ d.mapValues f ↔ k ∈ d := by
  rw [mem_iff_isSome, mem_iff_isSome, get?_mapValues, Option.isSome_map]

/-! ## Merging -/

section Merge

variable {ε : Type w} {f : β → β → Except ε β}

/-- Merge one entry: a new key is added, a known one gets the combined value. -/
def mergeEntry (f : β → β → Except ε β) (d : Dict κ β) (e : κ × β) : Except ε (Dict κ β) :=
  match d.get? e.1 with
  | none => .ok (d.set e.1 e.2)
  | some old => (f old e.2).map (d.set e.1)

/-- Merge the entries of `e` into `d`, one after the other. -/
def merge (f : β → β → Except ε β) (d e : Dict κ β) : Except ε (Dict κ β) :=
  e.entries.foldlM (mergeEntry f) d

/-- The value that merging leaves for a key with the values `x` and `y`, where the
result `none` says that there is neither. -/
def mergedValue (f : β → β → Except ε β) : Option β → Option β → Except ε (Option β)
  | x, none => .ok x
  | none, some new => .ok (some new)
  | some old, some new => (f old new).map some

theorem mergeEntry_get? {d r : Dict κ β} {e : κ × β} (h : mergeEntry f d e = .ok r) (k : κ) :
    if k = e.1 then mergedValue f (d.get? k) (some e.2) = .ok (r.get? k)
    else r.get? k = d.get? k := by
  by_cases hk : k = e.1
  · rw [if_pos hk, hk]
    cases hold : d.get? e.1 with
    | none =>
        obtain rfl : d.set e.1 e.2 = r := by simpa [mergeEntry, hold] using h
        simp [mergedValue]
    | some old =>
        obtain ⟨v, hv, rfl⟩ := map_eq_ok.mp (by simpa [mergeEntry, hold] using h)
        simp [mergedValue, hv, Except.map]
  · rw [if_neg hk]
    cases hold : d.get? e.1 with
    | none =>
        obtain rfl : d.set e.1 e.2 = r := by simpa [mergeEntry, hold] using h
        exact get?_set_ne hk d e.2
    | some old =>
        obtain ⟨v, _, rfl⟩ := map_eq_ok.mp (by simpa [mergeEntry, hold] using h)
        exact get?_set_ne hk d v

/-- Every key is merged on its own, whatever the order of the entries. -/
theorem merge_get? {d e r : Dict κ β} (h : merge f d e = .ok r) (k : κ) :
    mergedValue f (d.get? k) (e.get? k) = .ok (r.get? k) := by
  -- What was merged of the key before and after each entry.
  let P (done : List (κ × β)) (r : Dict κ β) : Prop :=
    mergedValue f (d.get? k) (done.lookup k) = .ok (r.get? k)
  show P e.entries r
  apply foldlM_induction h
  · rfl
  · intro done a u v hinit ih hv
    have hstep := mergeEntry_get? hv k
    by_cases hk : k = a.1
    · have hfresh : done.lookup k = none := by
        rw [List.lookup_eq_none_iff]
        intro b hb
        have hnodup := e.nodup.sublist (hinit.sublist.map Prod.fst)
        rw [List.map_append, List.nodup_append] at hnodup
        have hne := hnodup.2.2 b.1 (List.mem_map_of_mem hb) a.1 (by simp)
        simpa [hk] using hne.symm
      have hold : d.get? k = u.get? k := by
        have hP : mergedValue f (d.get? k) (done.lookup k) = .ok (u.get? k) := ih
        rw [hfresh] at hP
        simpa [mergedValue] using hP
      rw [if_pos hk, ← hold] at hstep
      show mergedValue f (d.get? k) ((done ++ [a]).lookup k) = .ok (v.get? k)
      have hhit : [a].lookup k = some a.2 := by
        rw [hk]
        exact List.lookup_cons_self
      rw [List.lookup_append, hfresh, Option.none_or, hhit]
      exact hstep
    · rw [if_neg hk] at hstep
      show mergedValue f (d.get? k) ((done ++ [a]).lookup k) = .ok (v.get? k)
      have hmiss : [a].lookup k = none := by simpa [List.lookup_eq_none_iff] using hk
      rw [List.lookup_append, hmiss, Option.or_none, hstep]
      exact ih

/-- Merging succeeds where the values of a key that is on both sides can be combined. -/
theorem exists_mergeEntries {l : List (κ × β)} (hl : (l.map Prod.fst).Nodup) {d : Dict κ β}
    (h : ∀ a ∈ l, ∀ v, d.get? a.1 = some v → ∃ x, f v a.2 = .ok x) :
    ∃ r, l.foldlM (mergeEntry f) d = .ok r := by
  induction l generalizing d with
  | nil => exact ⟨d, rfl⟩
  | cons a l ih =>
      rw [List.map_cons, List.nodup_cons] at hl
      have hfirst : ∃ u, mergeEntry f d a = .ok u := by
        cases hold : d.get? a.1 with
        | none => exact ⟨_, by rw [mergeEntry, hold]⟩
        | some v =>
            obtain ⟨x, hx⟩ := h a List.mem_cons_self v hold
            refine ⟨d.set a.1 x, ?_⟩
            rw [mergeEntry, hold]
            show (f v a.2).map (d.set a.1) = _
            rw [hx]
            rfl
      obtain ⟨u, hu⟩ := hfirst
      have hrest : ∀ b ∈ l, ∀ v, u.get? b.1 = some v → ∃ x, f v b.2 = .ok x := by
        intro b hb v hv
        have hne : b.1 ≠ a.1 := by
          intro heq
          exact hl.1 (heq ▸ List.mem_map_of_mem hb)
        have hsame := mergeEntry_get? hu b.1
        rw [if_neg hne] at hsame
        exact h b (List.mem_cons_of_mem a hb) v (hsame.symm.trans hv)
      obtain ⟨r, hr⟩ := ih hl.2 hrest
      exact ⟨r, by rw [List.foldlM_cons, hu]; exact hr⟩

theorem exists_merge {d e : Dict κ β} (h : ∀ k v w, d.get? k = some v → e.get? k = some w →
    ∃ x, f v w = .ok x) : ∃ r, merge f d e = .ok r := by
  apply exists_mergeEntries e.nodup
  intro a ha v hv
  exact h a.1 v a.2 hv (get?_eq_some_iff.mpr ha)

theorem mem_merge {d e r : Dict κ β} (h : merge f d e = .ok r) {k : κ} :
    k ∈ r ↔ k ∈ d ∨ k ∈ e := by
  have hk := merge_get? h k
  rw [mem_iff_isSome, mem_iff_isSome, mem_iff_isSome]
  cases hd : d.get? k with
  | none =>
      cases he : e.get? k with
      | none =>
          have hr : none = r.get? k := by simpa [hd, he, mergedValue] using hk
          simp [← hr]
      | some v =>
          have hr : some v = r.get? k := by simpa [hd, he, mergedValue] using hk
          simp [← hr]
  | some w =>
      cases he : e.get? k with
      | none =>
          have hr : some w = r.get? k := by simpa [hd, he, mergedValue] using hk
          simp [← hr]
      | some v =>
          rw [hd, he] at hk
          obtain ⟨x, _, hx⟩ := map_eq_ok.mp hk
          simp [← hx]

/-! ## What several dictionaries have of a key -/

variable {P : β → List β → Prop} {d e r : Dict κ β} {ds : List (Dict κ β)} {k : κ}

/-- The values of a key, in the order of the dictionaries. -/
def valuesAt (ds : List (Dict κ β)) (k : κ) : List β := ds.filterMap fun d => d.get? k

/-- A dictionary has the keys of some others, and under each a value that `P` relates to the
values that these have. -/
def Gathers (P : β → List β → Prop) (d : Dict κ β) (ds : List (Dict κ β)) : Prop :=
  ∀ k, d.get? k = none ∧ valuesAt ds k = [] ∨
    ∃ v, d.get? k = some v ∧ valuesAt ds k ≠ [] ∧ P v (valuesAt ds k)

theorem valuesAt_concat : valuesAt (ds ++ [d]) k = valuesAt ds k ++ (d.get? k).toList := by
  rw [valuesAt, List.filterMap_append, ← valuesAt]
  cases hd : d.get? k <;> simp [hd]

theorem mem_iff_valuesAt : (∃ d ∈ ds, k ∈ d) ↔ valuesAt ds k ≠ [] := by
  rw [valuesAt, Ne, List.filterMap_eq_nil_iff]
  simp only [mem_iff_isSome, not_forall, Option.isSome_iff_ne_none, exists_prop, ne_eq]

theorem Gathers.mem_iff (h : Gathers P d ds) : k ∈ d ↔ ∃ e ∈ ds, k ∈ e := by
  rw [mem_iff_valuesAt, mem_iff_isSome]
  rcases h k with ⟨hd, hvalues⟩ | ⟨v, hd, hvalues, -⟩
  · simp [hd, hvalues]
  · simp [hd, hvalues]

theorem Gathers.of_get? (h : Gathers P d ds) {v : β} (hv : d.get? k = some v) :
    P v (valuesAt ds k) := by
  rcases h k with ⟨hd, -⟩ | ⟨w, hd, -, hP⟩
  · rw [hd] at hv
    cases hv
  · obtain rfl := Option.some.inj (hd.symm.trans hv)
    exact hP

theorem Gathers.mapValues {g : κ → β → β} (h : Gathers P d ds)
    (hg : ∀ k v parts, P v parts → P (g k v) parts) : Gathers P (d.mapValues g) ds := by
  intro k
  rw [get?_mapValues]
  rcases h k with ⟨hd, hvalues⟩ | ⟨v, hd, hvalues, hP⟩
  · exact .inl ⟨by rw [hd]; rfl, hvalues⟩
  · exact .inr ⟨g k v, by rw [hd]; rfl, hvalues, hg k v _ hP⟩

/-- Merging one more dictionary gathers its values too. -/
theorem Gathers.merge (h : Gathers P d ds) (hr : Dict.merge f d e = .ok r)
    (hnew : ∀ k w, e.get? k = some w → P w [w])
    (hstep : ∀ k v w x parts, P v parts → e.get? k = some w → f v w = .ok x → P x (parts ++ [w])) :
    Gathers P r (ds ++ [e]) := by
  intro k
  have hmerged := merge_get? hr k
  rw [valuesAt_concat]
  rcases h k with ⟨hd, hvalues⟩ | ⟨v, hd, hvalues, hP⟩
  · rw [hd] at hmerged
    rw [hvalues, List.nil_append]
    cases he : e.get? k with
    | none =>
        rw [he] at hmerged
        exact .inl ⟨(Except.ok.inj hmerged).symm, rfl⟩
    | some w =>
        rw [he] at hmerged
        exact .inr ⟨w, (Except.ok.inj hmerged).symm, List.cons_ne_nil w [], hnew k w he⟩
  · rw [hd] at hmerged
    cases he : e.get? k with
    | none =>
        rw [he] at hmerged
        rw [Option.toList_none, List.append_nil]
        exact .inr ⟨v, (Except.ok.inj hmerged).symm, hvalues, hP⟩
    | some w =>
        rw [he] at hmerged
        obtain ⟨x, hx, hrx⟩ := map_eq_ok.mp hmerged
        refine .inr ⟨x, hrx.symm, by simp, ?_⟩
        exact hstep k v w x _ hP he hx

end Merge

end Dict

end RagFlow.Math
