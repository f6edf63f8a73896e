/-
# Entries of a dictionary as a list

A key is looked up at its first entry, and a value is put there or, for a new key, at the end.
-/

import Mathlib

namespace RagFlow.Math

universe u v

variable {κ : Type u} {β : Type v} [DecidableEq κ]

@[grind =] def look (k : κ) : List (κ × β) → Option β
  | [] => none
  | e :: es => if e.1 = k then some e.2 else look k es

@[grind =] def put (k : κ) (v : β) : List (κ × β) → List (κ × β)
  | [] => [(k, v)]
  | e :: es => if e.1 = k then (k, v) :: es else e :: put k v es

/-- The value at a key is replaced. -/
def mapAt (f : β → β) (k : κ) (es : List (κ × β)) : List (κ × β) :=
  match look k es with
  | some v => put k (f v) es
  | none => es

/-- The value at a key is replaced, which may fail. -/
def mapAtM (f : β → Option β) (k : κ) (es : List (κ × β)) : Option (List (κ × β)) :=
  match look k es with
  | some v => (f v).map fun v => put k v es
  | none => some es

/-- The values at several keys are replaced, one after the other. -/
def mapAll (fs : List (κ × (β → β))) (es : List (κ × β)) : List (κ × β) :=
  fs.foldl (fun es f => mapAt f.2 f.1 es) es

def mapAllM (fs : List (κ × (β → Option β))) (es : List (κ × β)) : Option (List (κ × β)) :=
  fs.foldlM (fun es f => mapAtM f.2 f.1 es) es

section Assoc

variable {k j : κ} {v w : β} {es : List (κ × β)}

@[simp]
theorem look_put_self : look k (put k v es) = some v := by
  induction es with
  | nil => exact if_pos rfl
  | cons e es ih =>
      by_cases h : e.1 = k
      · rw [put, if_pos h, look, if_pos rfl]
      · rw [put, if_neg h, look, if_neg h, ih]

theorem look_put_ne (h : j ≠ k) : look j (put k v es) = look j es := by
  induction es with
  | nil => exact if_neg (Ne.symm h)
  | cons e es ih =>
      by_cases he : e.1 = k
      · rw [put, if_pos he, look, if_neg (Ne.symm h), look, if_neg fun hj => h (hj.symm.trans he)]
      · rw [put, if_neg he, look, look, ih]

/-- Putting back what is there changes nothing. -/
theorem put_of_look (h : look k es = some v) : put k v es = es := by
  induction es with
  | nil => cases h
  | cons e es ih =>
      by_cases he : e.1 = k
      · rw [look, if_pos he, Option.some.injEq] at h
        rw [put, if_pos he, ← he, ← h]
      · rw [look, if_neg he] at h
        rw [put, if_neg he, ih h]

theorem look_eq_lookup (k : κ) (es : List (κ × β)) : look k es = es.lookup k := by
  induction es with
  | nil => rfl
  | cons e es ih =>
      by_cases he : e.1 = k
      · rw [look, if_pos he, List.lookup, beq_iff_eq.mpr he.symm]
      · rw [look, if_neg he, List.lookup, beq_eq_false_iff_ne.mpr (Ne.symm he), ih]

theorem look_map {γ : Type v} (f : β → γ) (es : List (κ × β)) :
    look k (es.map fun e => (e.1, f e.2)) = (look k es).map f := by
  induction es with
  | nil => rfl
  | cons e es ih =>
      rw [List.map_cons, look, look, ih]
      split <;> rfl

theorem mem_of_look (h : look k es = some v) : (k, v) ∈ es := by
  induction es with
  | nil => cases h
  | cons e es ih =>
      by_cases he : e.1 = k
      · rw [look, if_pos he, Option.some.injEq] at h
        exact List.mem_cons.mpr (.inl (by rw [← he, ← h]))
      · rw [look, if_neg he] at h
        exact List.mem_cons_of_mem e (ih h)

theorem look_of_mem (hes : (es.map Prod.fst).Nodup) (h : (k, v) ∈ es) : look k es = some v := by
  induction es with
  | nil => cases h
  | cons e es ih =>
      rw [List.map_cons, List.nodup_cons] at hes
      rcases List.mem_cons.mp h with rfl | h
      · rw [look, if_pos rfl]
      · have hne : e.1 ≠ k := fun he => hes.1 (he ▸ List.mem_map.mpr ⟨(k, v), h, rfl⟩)
        rw [look, if_neg hne, ih hes.2 h]

theorem look_append (es fs : List (κ × β)) : look k (es ++ fs) = (look k es).or (look k fs) := by
  induction es with
  | nil => rfl
  | cons e es ih =>
      rw [List.cons_append, look, look, ih]
      split <;> rfl

/-- Of entries put one after the other, the last one with a key counts. -/
theorem look_foldl_put (k : κ) (es done : List (κ × β)) :
    look k (es.foldl (fun d e => put e.1 e.2 d) done) =
      (look k es.reverse).or (look k done) := by
  induction es generalizing done with
  | nil => rfl
  | cons e es ih =>
      rw [List.foldl_cons, ih, List.reverse_cons, look_append, Option.or_assoc]
      congr 1
      by_cases he : e.1 = k
      · rw [look, if_pos he, ← he, look_put_self, Option.some_or]
      · rw [look, if_neg he, look_put_ne (Ne.symm he), look, Option.none_or]

/-- Putting entries with new keys one after the other appends them. -/
theorem foldl_put (done es : List (κ × β)) (h : ((done ++ es).map Prod.fst).Nodup) :
    es.foldl (fun d e => put e.1 e.2 d) done = done ++ es := by
  have hnew : ∀ (d : List (κ × β)) (e : κ × β), e.1 ∉ d.map Prod.fst →
      put e.1 e.2 d = d ++ [e] := by
    intro d e
    induction d with
    | nil => intro _; rfl
    | cons x d ih =>
        intro hd
        rw [List.map_cons, List.mem_cons, not_or] at hd
        rw [put, if_neg fun hx => hd.1 hx.symm, ih hd.2, List.cons_append]
  induction es generalizing done with
  | nil => rw [List.foldl_nil, List.append_nil]
  | cons e es ih =>
      have hkey : e.1 ∉ done.map Prod.fst := by
        rw [List.map_append, List.map_cons] at h
        exact fun hmem => (List.nodup_append.mp h).2.2 _ hmem _ List.mem_cons_self rfl
      rw [List.foldl_cons, hnew done e hkey, ih (done ++ [e]) (by simpa using h),
        List.append_assoc, List.singleton_append]

/-! ## Values at a key -/

@[simp]
theorem look_mapAt_self {f : β → β} : look k (mapAt f k es) = (look k es).map f := by
  rw [mapAt]
  cases h : look k es with
  | none => exact h
  | some v => exact look_put_self

theorem look_mapAt_ne {f : β → β} (h : j ≠ k) : look j (mapAt f k es) = look j es := by
  rw [mapAt]
  cases look k es with
  | none => rfl
  | some v => exact look_put_ne h

theorem mapAt_eq_self {f : β → β} (h : ∀ v, look k es = some v → f v = v) :
    mapAt f k es = es := by
  rw [mapAt]
  cases hlook : look k es with
  | none => rfl
  | some v => exact (congrArg (put k · es) (h v hlook)).trans (put_of_look hlook)

theorem mapAtM_eq_self {f : β → Option β} (h : ∀ v, look k es = some v → f v = some v) :
    mapAtM f k es = some es := by
  rw [mapAtM]
  cases hlook : look k es with
  | none => rfl
  | some v =>
      dsimp only
      rw [h v hlook, Option.map_some, put_of_look hlook]

theorem isSome_mapAtM {f : β → Option β} :
    (mapAtM f k es).isSome ↔ ∀ v, look k es = some v → (f v).isSome := by
  rw [mapAtM]
  cases look k es with
  | none => simp
  | some v => simp

/-- What a replacement that succeeds leaves at the key and at the others. -/
theorem look_of_mapAtM {f : β → Option β} {es' : List (κ × β)} (h : mapAtM f k es = some es') :
    (look k es).bind f = look k es' ∧ ∀ i, i ≠ k → look i es' = look i es := by
  rw [mapAtM] at h
  cases hlook : look k es with
  | none =>
      rw [hlook, Option.some.injEq] at h
      subst h
      exact ⟨hlook.symm, fun _ _ => rfl⟩
  | some v =>
      rw [hlook] at h
      dsimp only at h
      cases hf : f v with
      | none =>
          rw [hf] at h
          cases h
      | some v' =>
          rw [hf, Option.map_some, Option.some.injEq] at h
          subst h
          exact ⟨hf.trans look_put_self.symm, fun i hi => look_put_ne hi⟩

/-! ## Values at several keys -/

theorem look_mapAll_of_not_mem {fs : List (κ × (β → β))} (h : k ∉ fs.map Prod.fst) :
    look k (mapAll fs es) = look k es := by
  induction fs generalizing es with
  | nil => rfl
  | cons f fs ih =>
      rw [List.map_cons, List.mem_cons, not_or] at h
      exact (ih h.2).trans (look_mapAt_ne h.1)

theorem look_mapAll {fs : List (κ × (β → β))} {f : β → β} (hfs : (fs.map Prod.fst).Nodup)
    (hf : (k, f) ∈ fs) : look k (mapAll fs es) = (look k es).map f := by
  induction fs generalizing es with
  | nil => cases hf
  | cons g fs ih =>
      obtain ⟨hg, hfs⟩ := List.nodup_cons.mp hfs
      rcases List.mem_cons.mp hf with rfl | hf
      · exact (look_mapAll_of_not_mem hg).trans look_mapAt_self
      · have hne : k ≠ g.1 := fun h => hg (h ▸ List.mem_map_of_mem (f := Prod.fst) hf)
        exact (ih hfs hf).trans (congrArg (Option.map f) (look_mapAt_ne hne))

theorem mapAll_eq_self {fs : List (κ × (β → β))}
    (h : ∀ f ∈ fs, ∀ v, look f.1 es = some v → f.2 v = v) : mapAll fs es = es := by
  induction fs with
  | nil => rfl
  | cons f fs ih =>
      have hhead : mapAt f.2 f.1 es = es := mapAt_eq_self (h f List.mem_cons_self)
      rw [mapAll, List.foldl_cons, hhead]
      exact ih fun g hg => h g (List.mem_cons_of_mem f hg)

/-- Replacing once more changes nothing if it does not at each key. -/
theorem mapAll_mapAll {fs gs : List (κ × (β → β))} (hfs : (fs.map Prod.fst).Nodup)
    (h : List.Forall₂ (fun f g => f.1 = g.1 ∧ ∀ v, g.2 (f.2 v) = f.2 v) fs gs) :
    mapAll gs (mapAll fs es) = mapAll fs es := by
  refine mapAll_eq_self fun g hg v hv => ?_
  obtain ⟨f, hf, hkey, hsame⟩ : ∃ f ∈ fs, f.1 = g.1 ∧ ∀ v, g.2 (f.2 v) = f.2 v := by
    clear hv hfs
    induction h with
    | nil => cases hg
    | @cons f' g' fs' gs' hhead _ ih =>
        rcases List.mem_cons.mp hg with rfl | hg
        · exact ⟨f', List.mem_cons_self, hhead⟩
        · obtain ⟨f, hf, hboth⟩ := ih hg
          exact ⟨f, List.mem_cons_of_mem f' hf, hboth⟩
  rw [← hkey, look_mapAll hfs hf, Option.map_eq_some_iff] at hv
  obtain ⟨w, _, rfl⟩ := hv
  exact hsame w

theorem mapAllM_eq_self {fs : List (κ × (β → Option β))}
    (h : ∀ f ∈ fs, ∀ v, look f.1 es = some v → f.2 v = some v) : mapAllM fs es = some es := by
  induction fs with
  | nil => rfl
  | cons f fs ih =>
      have hhead : mapAtM f.2 f.1 es = some es := mapAtM_eq_self (h f List.mem_cons_self)
      rw [mapAllM, List.foldlM_cons, hhead]
      exact ih fun g hg => h g (List.mem_cons_of_mem f hg)

theorem look_of_mapAllM {fs : List (κ × (β → Option β))} {es' : List (κ × β)}
    (hfs : (fs.map Prod.fst).Nodup) (h : mapAllM fs es = some es') :
    (∀ f ∈ fs, (look f.1 es).bind f.2 = look f.1 es') ∧
      ∀ i, i ∉ fs.map Prod.fst → look i es' = look i es := by
  induction fs generalizing es with
  | nil =>
      cases h
      exact ⟨fun f hf => absurd hf List.not_mem_nil, fun _ _ => rfl⟩
  | cons g fs ih =>
      obtain ⟨hg, hfs⟩ := List.nodup_cons.mp hfs
      rw [mapAllM, List.foldlM_cons] at h
      obtain ⟨mid, hmid, hrest⟩ := Option.bind_eq_some_iff.mp h
      obtain ⟨hself, hothers⟩ := look_of_mapAtM hmid
      obtain ⟨hall, hkept⟩ := ih hfs hrest
      refine ⟨fun f hf => ?_, fun i hi => ?_⟩
      · rcases List.mem_cons.mp hf with rfl | hf
        · exact hself.trans (hkept _ hg).symm
        · have hne : f.1 ≠ g.1 := fun heq => hg (heq ▸ List.mem_map_of_mem hf)
          rw [← hothers _ hne]
          exact hall f hf
      · rw [List.map_cons, List.mem_cons, not_or] at hi
        exact (hkept i hi.2).trans (hothers i hi.1)

theorem isSome_mapAllM {fs : List (κ × (β → Option β))} (hfs : (fs.map Prod.fst).Nodup) :
    (mapAllM fs es).isSome ↔ ∀ f ∈ fs, ∀ v, look f.1 es = some v → (f.2 v).isSome := by
  induction fs generalizing es with
  | nil => simp [mapAllM]
  | cons g fs ih =>
      obtain ⟨hg, hfs⟩ := List.nodup_cons.mp hfs
      rw [List.forall_mem_cons, ← isSome_mapAtM, mapAllM, List.foldlM_cons]
      cases hmid : mapAtM g.2 g.1 es with
      | none => simp
      | some mid =>
          obtain ⟨_, hothers⟩ := look_of_mapAtM hmid
          rw [Option.isSome_some, and_iff_right rfl]
          refine (@ih mid hfs).trans (forall₂_congr fun f hf => ?_)
          have hne : f.1 ≠ g.1 := fun heq => hg (heq ▸ List.mem_map_of_mem hf)
          rw [hothers _ hne]

end Assoc

end RagFlow.Math
