/-
# Groups that absorb their neighbours

The entries of a dictionary of lists are walked from the last to the first, and an entry is
absorbed by the one in front of it when the two belong together. What is left are the runs of
entries of which each belongs to the one in front of it. No member is lost, and none by putting
one in front of a group.
-/

import Mathlib.Data.List.SplitBy
import RagFlow.Math.Groups
import RagFlow.Math.Partition

namespace RagFlow.Math

universe u v

/-! ## Runs of neighbours -/

section Runs

variable {α : Type u} {r : α → α → Bool} {a b : α} {l : List α}

theorem exists_splitBy_cons (r : α → α → Bool) (a : α) (l : List α) :
    ∃ run runs, (a :: l).splitBy r = (a :: run) :: runs := by
  have hhead := List.head_head_splitBy r (List.cons_ne_nil a l)
  cases hsplit : (a :: l).splitBy r with
  | nil => exact absurd hsplit (List.splitBy_ne_nil.mpr (List.cons_ne_nil a l))
  | cons first runs =>
    simp only [hsplit, List.head_cons] at hhead
    have hfirst : first ≠ [] :=
      List.ne_nil_of_mem_splitBy (r := r) (l := a :: l) (hsplit ▸ List.mem_cons_self)
    exact ⟨first.tail, runs, by rw [← hhead, List.cons_head_tail]⟩

/-- The head of a list goes to the first run or is one of its own. -/
theorem splitBy_cons_cons {run : List α} {runs : List (List α)}
    (h : (b :: l).splitBy r = (b :: run) :: runs) :
    (a :: b :: l).splitBy r =
      if r a b then (a :: b :: run) :: runs else [a] :: (b :: run) :: runs := by
  obtain ⟨hflat, hne, hchain, hends⟩ := List.splitBy_eq_iff.mp h
  rw [List.flatten_cons] at hflat
  have hne' : [] ∉ runs := fun hmem => hne (List.mem_cons_of_mem _ hmem)
  split
  · rename_i hab
    refine List.splitBy_eq_iff.mpr ⟨?_, ?_, ?_, ?_⟩
    · rw [List.flatten_cons, List.cons_append, ← hflat]
    · rintro (_ | ⟨_, hmem⟩)
      exact hne' hmem
    · intro run' hrun'
      rcases List.mem_cons.mp hrun' with rfl | hrun'
      · exact List.isChain_cons_cons.mpr ⟨hab, hchain _ List.mem_cons_self⟩
      · exact hchain _ (List.mem_cons_of_mem _ hrun')
    · cases runs with
      | nil => exact .singleton _
      | cons next runs =>
        obtain ⟨⟨_, hb, hlast⟩, hrest⟩ := List.isChain_cons_cons.mp hends
        refine List.isChain_cons_cons.mpr ⟨⟨List.cons_ne_nil _ _, hb, ?_⟩, hrest⟩
        rwa [List.getLast_cons (List.cons_ne_nil b run)]
  · rename_i hab
    refine List.splitBy_eq_iff.mpr ⟨?_, ?_, ?_, ?_⟩
    · rw [List.flatten_cons, List.flatten_cons, ← hflat, List.singleton_append]
    · rintro (_ | ⟨_, hmem⟩)
      exact hne hmem
    · intro run' hrun'
      rcases List.mem_cons.mp hrun' with rfl | hrun'
      · exact .singleton _
      · exact hchain _ hrun'
    · exact List.isChain_cons_cons.mpr
        ⟨⟨List.cons_ne_nil _ _, List.cons_ne_nil _ _, by simpa using hab⟩, hends⟩

/-- A relation holds within all runs if it holds wherever a run goes on. -/
theorem forall_isChain_splitBy {q : α → α → Prop} :
    (∀ run ∈ l.splitBy r, run.IsChain q) ↔ l.IsChain fun a b => r a b = true → q a b := by
  have hwithin : ∀ run ∈ l.splitBy r,
      (run.IsChain q ↔ run.IsChain fun a b => r a b = true → q a b) := by
    intro run hrun
    have hr := List.isChain_of_mem_splitBy hrun
    constructor
    · exact fun h => h.imp fun a b hab _ => hab
    · rw [List.isChain_iff_forall_rel_of_append_cons_cons] at hr ⊢
      exact fun h => List.isChain_iff_forall_rel_of_append_cons_cons.mpr
        fun a b l₁ l₂ heq => h heq (hr heq)
  have hends : (l.splitBy r).IsChain fun run run' =>
      ∀ x ∈ run.getLast?, ∀ y ∈ run'.head?, r x y = true → q x y := by
    refine (List.isChain_getLast_head_splitBy r l).imp ?_
    rintro run run' ⟨hne, hne', hfalse⟩ x hx y hy hxy
    rw [← List.getLast_of_mem_getLast? hx, ← List.head_of_mem_head? hy, hfalse] at hxy
    cases hxy
  have hflat := List.isChain_flatten (R := fun a b => r a b = true → q a b)
    (List.nil_notMem_splitBy r l)
  rw [List.flatten_splitBy] at hflat
  rw [hflat]
  exact ⟨fun h => ⟨fun run hrun => (hwithin run hrun).mp (h run hrun), hends⟩,
    fun h run hrun => (hwithin run hrun).mpr (h.1 run hrun)⟩

/-- Two steps that take each entry to one in its place. -/
theorem forall₂_trans {α γ δ : Type*} {R : α → γ → Prop} {S : γ → δ → Prop} {T : α → δ → Prop}
    {l : List α} {m : List γ} {n : List δ} (h : List.Forall₂ R l m) (h' : List.Forall₂ S m n)
    (hT : ∀ a b c, R a b → S b c → T a c) : List.Forall₂ T l n := by
  induction h generalizing n with
  | nil =>
    cases h'
    exact .nil
  | cons hR _ ih =>
    cases h' with
    | cons hS hrest => exact .cons (hT _ _ _ hR hS) (ih hrest)

end Runs

/-! ## Absorbing -/

variable {κ : Type u} {β : Type v} [DecidableEq κ]

/-- The members of all groups. -/
def Dict.members (d : Dict κ (List β)) : List β := d.entries.flatMap Prod.snd

omit [DecidableEq κ] in
theorem entries_nodup (d : Dict κ (List β)) : d.entries.Nodup := d.nodup.of_map _

/-- The list of a key is appended to that of another, and the key is deleted. -/
def Dict.absorb (d : Dict κ (List β)) (k₀ k : κ) : Dict κ (List β) :=
  (d.set k₀ ((d.get? k₀).getD [] ++ (d.get? k).getD [])).erase k

/-- From the last entry of a list of entries on. -/
def absorbBack (joins : κ × List β → κ × List β → Bool) :
    List (κ × List β) → Dict κ (List β) → Dict κ (List β)
  | e₀ :: e :: rest, d =>
      let d := absorbBack joins (e :: rest) d
      if joins e₀ e then d.absorb e₀.1 e.1 else d
  | _, d => d

/-- A run of entries as one, under the key of the first. -/
def joined : List (κ × List β) → Option (κ × List β)
  | [] => none
  | e :: run => some (e.1, (e :: run).flatMap Prod.snd)

theorem entries_absorb {d : Dict κ (List β)} {k₀ k : κ} {xs ys : List β}
    {rest : List (κ × List β)} (h : d.entries.Perm ((k₀, xs) :: (k, ys) :: rest)) :
    (d.absorb k₀ k).entries.Perm ((k₀, xs ++ ys) :: rest) := by
  have hkeys := (h.map Prod.fst).nodup_iff.mp d.nodup
  simp only [List.map_cons, List.nodup_cons, List.mem_cons, not_or] at hkeys
  obtain ⟨⟨hne, hk₀⟩, hk, hrest⟩ := hkeys
  have hx : d.get? k₀ = some xs := Dict.get?_eq_some_iff.mpr (h.mem_iff.mpr (by simp))
  have hy : d.get? k = some ys := Dict.get?_eq_some_iff.mpr (h.mem_iff.mpr (by simp))
  have hnodup : ((k₀, xs ++ ys) :: rest).Nodup :=
    List.nodup_cons.mpr ⟨fun hmem => hk₀ (List.mem_map_of_mem (f := Prod.fst) hmem),
      hrest.of_map _⟩
  refine (List.perm_ext_iff_of_nodup (entries_nodup _) hnodup).mpr ?_
  rintro ⟨j, zs⟩
  rw [Dict.absorb, hx, hy, ← Dict.get?_eq_some_iff, Dict.get?_erase, Dict.get?_set]
  have hin : ∀ {j zs}, (j, zs) ∈ rest → j ∈ rest.map Prod.fst := fun hmem =>
    List.mem_map_of_mem (f := Prod.fst) hmem
  by_cases hjk : j = k
  · subst hjk
    simp only [if_true, reduceCtorEq, List.mem_cons, Prod.mk.injEq, false_iff, not_or]
    exact ⟨fun h => hne h.1.symm, fun hmem => hk (hin hmem)⟩
  · by_cases hj : j = k₀
    · subst hj
      simp only [if_neg hjk, if_true, Option.some.injEq, Option.getD_some, List.mem_cons,
        Prod.mk.injEq, true_and]
      exact ⟨fun h => .inl h.symm, fun h => (h.resolve_right fun hmem => hk₀ (hin hmem)).symm⟩
    · rw [if_neg hjk, if_neg hj, Dict.get?_eq_some_iff, h.mem_iff]
      simp [hj, hjk]

/-- What is left when entries have absorbed their neighbours are the runs. -/
theorem entries_absorbBack (joins : κ × List β → κ × List β → Bool) (front : List (κ × List β))
    {l : List (κ × List β)} {d : Dict κ (List β)} (h : d.entries.Perm (front ++ l)) :
    (absorbBack joins l d).entries.Perm (front ++ (l.splitBy joins).filterMap joined) := by
  induction l generalizing front with
  | nil => simpa [absorbBack] using h
  | cons e₀ l ih =>
    cases l with
    | nil =>
      have hsingle : [e₀].splitBy joins = [[e₀]] := rfl
      simpa [absorbBack, hsingle, joined] using h
    | cons e l =>
      obtain ⟨run, runs, hruns⟩ := exists_splitBy_cons joins e l
      have hback := ih (front ++ [e₀]) (by simpa using h)
      rw [hruns] at hback
      rw [absorbBack, splitBy_cons_cons hruns]
      split
      · have hfront : (absorbBack joins (e :: l) d).entries.Perm ((e₀.1, e₀.2) ::
            (e.1, (e :: run).flatMap Prod.snd) :: (front ++ runs.filterMap joined)) := by
          refine hback.trans ?_
          simp only [List.filterMap_cons, joined, List.append_assoc, List.singleton_append]
          exact List.perm_middle.trans (List.perm_middle.cons _)
        refine (entries_absorb hfront).trans ?_
        simp only [List.filterMap_cons, joined, List.flatMap_cons]
        exact List.perm_middle.symm
      · simpa [joined] using hback

omit [DecidableEq κ] in
theorem flatMap_joined (runs : List (List (κ × List β))) :
    (runs.filterMap joined).flatMap Prod.snd = runs.flatten.flatMap Prod.snd := by
  induction runs with
  | nil => rfl
  | cons run runs ih =>
    cases run with
    | nil => exact ih
    | cons e run => simp [joined, ih]

theorem members_absorbBack (joins : κ × List β → κ × List β → Bool) {l : List (κ × List β)}
    {d : Dict κ (List β)} (h : d.entries.Perm l) :
    (absorbBack joins l d).members.Perm d.members := by
  have hruns := (entries_absorbBack joins [] h).flatMap_right Prod.snd
  rw [List.nil_append, flatMap_joined, List.flatten_splitBy] at hruns
  exact hruns.trans (h.flatMap_right Prod.snd).symm

/-! ## Groups of a key -/

section Grouped

variable {f : β → κ} {l : List β}

theorem get?_groupBy (f : β → κ) (l : List β) (k : κ) :
    (groupByKey (l.map fun b => (f b, b))).get? k =
      if k ∈ l.map f then some (l.filter fun b => f b = k) else none := by
  have hsnd : Prod.snd ∘ (fun b => (f b, b)) = (id : β → β) := rfl
  rw [get?_groupByKey, List.map_map, List.filter_map, List.map_map, hsnd, List.map_id]
  rfl

/-- A group is what has its key, and is not empty. -/
theorem mem_groupBy {e : κ × List β}
    (he : e ∈ (groupByKey (l.map fun b => (f b, b))).entries) :
    e.2 = l.filter (fun b => f b = e.1) ∧ e.2 ≠ [] := by
  have hget := Dict.get?_eq_some_iff.mpr he
  rw [get?_groupBy] at hget
  split_ifs at hget with hk
  obtain ⟨b, hb, hfb⟩ := List.mem_map.mp hk
  rw [← Option.some.inj hget]
  exact ⟨rfl, List.ne_nil_of_mem (List.mem_filter.mpr ⟨hb, by simpa using hfb⟩)⟩

theorem members_groupBy (f : β → κ) (l : List β) :
    (groupByKey (l.map fun b => (f b, b))).members.Perm l := by
  classical
  let d := groupByKey (l.map fun b => (f b, b))
  have hmembers : d.members = d.keys.flatMap fun k => l.filter fun b => f b = k := by
    rw [Dict.members, Dict.keys, List.flatMap_map]
    exact List.flatMap_congr fun e he => (mem_groupBy he).1
  have hkeys : ∀ b ∈ l, f b ∈ d.keys := by
    intro b hb
    rw [← Dict.mem_iff, Dict.mem_iff_isSome, get?_groupBy, if_pos (List.mem_map_of_mem hb)]
    rfl
  exact hmembers ▸ flatMap_filter_perm d.nodup hkeys

/-- A list of groups is known by its members. -/
theorem eq_of_flatMap_groupBy {run run' : List (κ × List β)}
    (hrun : ∀ e ∈ run, e ∈ (groupByKey (l.map fun b => (f b, b))).entries)
    (hrun' : ∀ e ∈ run', e ∈ (groupByKey (l.map fun b => (f b, b))).entries)
    (h : run.flatMap Prod.snd = run'.flatMap Prod.snd) : run = run' := by
  have hhead : ∀ e ∈ (groupByKey (l.map fun b => (f b, b))).entries,
      ∃ b bs, e.2 = b :: bs ∧ f b = e.1 := by
    intro e he
    obtain ⟨hgroup, hne⟩ := mem_groupBy he
    obtain ⟨b, bs, hbs⟩ := List.exists_cons_of_ne_nil hne
    have hb : b ∈ e.2 := hbs ▸ List.mem_cons_self
    rw [hgroup] at hb
    exact ⟨b, bs, hbs, by simpa using (List.mem_filter.mp hb).2⟩
  induction run generalizing run' with
  | nil =>
    cases run' with
    | nil => rfl
    | cons e' run' =>
      obtain ⟨b, bs, hbs, -⟩ := hhead e' (hrun' e' List.mem_cons_self)
      simp [hbs] at h
  | cons e run ih =>
    obtain ⟨b, bs, hbs, hkey⟩ := hhead e (hrun e List.mem_cons_self)
    cases run' with
    | nil => simp [hbs] at h
    | cons e' run' =>
      obtain ⟨b', bs', hbs', hkey'⟩ := hhead e' (hrun' e' List.mem_cons_self)
      simp only [List.flatMap_cons] at h
      have hb : b = b' := by
        rw [hbs, hbs'] at h
        exact (List.cons.inj h).1
      have hfst : e.1 = e'.1 := by rw [← hkey, ← hkey', hb]
      have he : e = e' := by
        refine Prod.ext hfst (Dict.value_unique _ (hrun e List.mem_cons_self) ?_)
        exact hfst ▸ hrun' e' List.mem_cons_self
      subst he
      rw [ih (fun x hx => hrun x (List.mem_cons_of_mem _ hx))
        (fun x hx => hrun' x (List.mem_cons_of_mem _ hx)) (List.append_cancel_left h)]

end Grouped

/-! ## In front of a group -/

section Prepend

variable {d : Dict κ (List β)} {k : κ}

/-- Puts a member in front of the list of a key. -/
def Dict.prepend (d : Dict κ (List β)) (k : κ) (b : β) : Dict κ (List β) :=
  d.set k (b :: (d.get? k).getD [])

theorem entries_prepend (hk : k ∈ d) (b : β) :
    (d.prepend k b).entries =
      d.entries.map fun e => if e.1 = k then (e.1, b :: e.2) else e := by
  rw [Dict.prepend, Dict.set]
  simp only [if_pos hk]
  refine List.map_congr_left fun e he => ?_
  by_cases hek : e.1 = k
  · have hget : d.get? k = some e.2 := Dict.get?_eq_some_iff.mpr (hek ▸ he)
    rw [if_pos hek, if_pos hek, hget, hek]
    rfl
  · rw [if_neg hek, if_neg hek]

theorem members_prepend (hk : k ∈ d) (b : β) :
    (d.prepend k b).members.Perm (b :: d.members) := by
  obtain ⟨v, hv⟩ := Dict.mem_keys_iff_exists.mp hk
  obtain ⟨before, after, hsplit⟩ := List.append_of_mem hv
  have hnodup := d.nodup
  rw [hsplit, List.map_append, List.map_cons] at hnodup
  have hkeys : k ∉ (before ++ after).map Prod.fst := by
    rw [List.map_append]
    exact (List.nodup_middle.mp hnodup).notMem
  have hrest : ∀ e ∈ before ++ after, (if e.1 = k then (e.1, b :: e.2) else e) = e := by
    refine fun e he => if_neg fun hek => hkeys ?_
    exact hek ▸ List.mem_map_of_mem he
  have hbefore := List.map_congr_left fun e he => hrest e (List.mem_append_left _ he)
  have hafter := List.map_congr_left fun e he => hrest e (List.mem_append_right _ he)
  rw [Dict.members, entries_prepend hk, Dict.members, hsplit, List.map_append, List.map_cons,
    hbefore, hafter, if_pos rfl, List.map_id', List.map_id']
  simp only [List.flatMap_append, List.flatMap_cons, List.cons_append]
  exact List.perm_middle

end Prepend

end RagFlow.Math
