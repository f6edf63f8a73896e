/-
# Groups by a key

Pairs are gathered in a dictionary that lists, for each key, what came with it. If each element
comes with one key, then steps for one group after the other do for an element what the step of
its own group does.
-/

import RagFlow.Math.Dict

namespace RagFlow.Math

universe u v

variable {κ : Type u} {β : Type v} [DecidableEq κ]

/-- Adds to the list of a key, which is empty at first. -/
def Dict.gather (d : Dict κ (List β)) (e : κ × β) : Dict κ (List β) :=
  d.set e.1 ((d.get? e.1).getD [] ++ [e.2])

def groupByKey (l : List (κ × β)) : Dict κ (List β) := l.foldl Dict.gather Dict.empty

section Groups

variable {l : List (κ × β)} {k : κ} {xs : List β}

theorem groupByKey_append_singleton (l : List (κ × β)) (e : κ × β) :
    groupByKey (l ++ [e]) = (groupByKey l).gather e := by
  rw [groupByKey, List.foldl_append]
  rfl

/-- A key has a group if it comes at all, and then what came with it. -/
theorem get?_groupByKey (l : List (κ × β)) (k : κ) :
    (groupByKey l).get? k =
      if k ∈ l.map Prod.fst then some ((l.filter fun e => e.1 = k).map Prod.snd) else none := by
  induction l using List.reverseRecOn with
  | nil => rfl
  | append_singleton l e ih =>
      rw [groupByKey_append_singleton, Dict.gather, Dict.get?_set, List.map_append,
        List.filter_append, List.map_append]
      by_cases hk : k = e.1
      · subst hk
        have hlast : ([e].filter fun x => x.1 = e.1) = [e] := by simp
        have hin : e.1 ∈ l.map Prod.fst ++ [e].map Prod.fst :=
          List.mem_append_right _ (List.mem_singleton.mpr rfl)
        rw [if_pos rfl, if_pos hin, hlast, ih]
        by_cases hmem : e.1 ∈ l.map Prod.fst
        · rw [if_pos hmem]
          rfl
        · have hnone : (l.filter fun x => x.1 = e.1) = [] := by
            rw [List.filter_eq_nil_iff]
            intro x hx hxe
            exact hmem (List.mem_map.mpr ⟨x, hx, by simpa using hxe⟩)
          rw [if_neg hmem, hnone]
          rfl
      · have hlast : ([e].filter fun x => x.1 = k) = [] := by
          simp [Ne.symm hk]
        have hmem : k ∈ l.map Prod.fst ++ [e].map Prod.fst ↔ k ∈ l.map Prod.fst := by
          simp [hk]
        rw [if_neg hk, ih, hlast, List.map_nil, List.append_nil]
        simp only [hmem]

/-- The entries of the groups hold the pairs. -/
theorem mem_group_iff {x : β} (h : (k, xs) ∈ (groupByKey l).entries) : x ∈ xs ↔ (k, x) ∈ l := by
  have hget := Dict.get?_eq_some_iff.mpr h
  rw [get?_groupByKey] at hget
  split_ifs at hget with hk
  rw [← Option.some.inj hget]
  simp

theorem exists_group {x : β} (h : (k, x) ∈ l) :
    ∃ xs, (k, xs) ∈ (groupByKey l).entries ∧ x ∈ xs := by
  have hk : k ∈ l.map Prod.fst := List.mem_map_of_mem (f := Prod.fst) h
  have hget : (groupByKey l).get? k = some ((l.filter fun e => e.1 = k).map Prod.snd) := by
    rw [get?_groupByKey, if_pos hk]
  have hentry := Dict.get?_eq_some_iff.mp hget
  exact ⟨_, hentry, (mem_group_iff hentry).mpr h⟩

end Groups

section Steps

variable {σ ε : Type*} {P : σ → Prop} {l : List ε}

/-- Steps that leave alone what satisfies an invariant. -/
theorem foldl_eq_self (step : σ → ε → σ) (h : ∀ e ∈ l, ∀ s, P s → step s e = s) {s : σ} (hs : P s) :
    l.foldl step s = s := by
  induction l with
  | nil => rfl
  | cons e l ih =>
      rw [List.foldl_cons, h e List.mem_cons_self s hs]
      exact ih fun e' he' => h e' (List.mem_cons_of_mem e he')

/-- Of different steps only one acts. -/
theorem foldl_eq_step (step : σ → ε → σ) (hnodup : l.Nodup) {e : ε} (he : e ∈ l)
    (hP : ∀ s, P s → P (step s e))
    (h : ∀ e' ∈ l, e' ≠ e → ∀ s, P s → step s e' = s) {s : σ} (hs : P s) :
    l.foldl step s = step s e := by
  obtain ⟨before, after, rfl⟩ := List.append_of_mem he
  rw [List.nodup_append, List.nodup_cons] at hnodup
  obtain ⟨-, ⟨hafter, -⟩, hbefore⟩ := hnodup
  have hfirst : before.foldl step s = s := by
    refine foldl_eq_self (P := P) step (fun e' he' => h e' (List.mem_append_left _ he') ?_) hs
    exact fun heq => hbefore e' he' e List.mem_cons_self heq
  rw [List.foldl_append, hfirst, List.foldl_cons]
  refine foldl_eq_self (P := P) step (fun e' he' => ?_) (hP s hs)
  refine h e' (List.mem_append_right _ (List.mem_cons_of_mem e he')) fun heq => ?_
  exact hafter (heq ▸ he')

/-- One map after the other is one map of what comes of an element. -/
theorem foldl_map_eq_map {f : ε → σ → σ} (l : List ε) (xs : List σ) :
    l.foldl (fun xs e => xs.map (f e)) xs = xs.map fun x => l.foldl (fun x e => f e x) x := by
  induction l generalizing xs with
  | nil => simp
  | cons e l ih =>
      rw [List.foldl_cons, ih, List.map_map]
      rfl

end Steps

end RagFlow.Math

/-! ## Steps under keys of their own

A loop of which each step writes under a key of its own, and reads nothing else, does to each
key what the step of that key does. What is counted on the way is compared with what is counted
afterwards. -/

namespace RagFlow.Math

variable {κ : Type*} {β : Type*} {ε : Type*} [DecidableEq κ]

/-- Steps of which each writes under a key of its own, and reads nothing else. -/
theorem foldl_own_keys (step : Dict κ β × ℕ → ε → Dict κ β × ℕ) (key : ε → κ)
    (f : ε → Option β) (counted : ε → Bool) (rows : Dict κ β) (l : List ε)
    (hnodup : (l.map key).Nodup)
    (hstep : ∀ s, ∀ e ∈ l, s.1.get? (key e) = rows.get? (key e) →
      (∀ k, (step s e).1.get? k = if k = key e then f e else s.1.get? k) ∧
        (step s e).2 = s.2 + if counted e then 1 else 0)
    {s : Dict κ β × ℕ} (hs : ∀ e ∈ l, s.1.get? (key e) = rows.get? (key e)) :
    (∀ e ∈ l, (l.foldl step s).1.get? (key e) = f e) ∧
      (∀ k, k ∉ l.map key → (l.foldl step s).1.get? k = s.1.get? k) ∧
      (l.foldl step s).2 = s.2 + l.countP counted := by
  induction l generalizing s with
  | nil => exact ⟨by simp, fun _ _ => rfl, by simp⟩
  | cons e l ih =>
    obtain ⟨hkey, hnodup⟩ := List.nodup_cons.mp hnodup
    obtain ⟨hget, hcount⟩ := hstep s e List.mem_cons_self (hs e List.mem_cons_self)
    have hne : ∀ e' ∈ l, key e' ≠ key e := fun e' he' heq =>
      hkey (heq ▸ List.mem_map_of_mem he')
    obtain ⟨hin, hout, hsum⟩ := ih hnodup (fun s e' he' => hstep s e' (List.mem_cons_of_mem _ he'))
      (s := step s e) fun e' he' => by
        rw [hget, if_neg (hne e' he')]
        exact hs e' (List.mem_cons_of_mem _ he')
    rw [List.foldl_cons]
    refine ⟨?_, ?_, ?_⟩
    · intro e' he'
      rcases List.mem_cons.mp he' with rfl | he'
      · rw [hout _ hkey, hget, if_pos rfl]
      · exact hin e' he'
    · intro k hk
      rw [List.map_cons, List.mem_cons, not_or] at hk
      rw [hout k hk.2, hget, if_neg hk.1]
    · rw [hsum, hcount, List.countP_cons]
      omega

theorem countP_eq_countP_iff {α : Type*} {p q : α → Bool} {l : List α}
    (h : ∀ a ∈ l, q a = true → p a = true) :
    l.countP p = l.countP q ↔ ∀ a ∈ l, p a = true → q a = true := by
  induction l with
  | nil => simp
  | cons a l ih =>
    have ih := ih fun b hb => h b (List.mem_cons_of_mem _ hb)
    have hle : l.countP q ≤ l.countP p :=
      List.countP_mono_left fun b hb => h b (List.mem_cons_of_mem _ hb)
    have ha := h a List.mem_cons_self
    rw [List.forall_mem_cons, ← ih, List.countP_cons, List.countP_cons]
    cases hp : p a with
    | false =>
      have hq : q a = false := by
        cases hq : q a with
        | false => rfl
        | true => exact absurd (ha hq) (by simp [hp])
      simp [hq]
    | true =>
      cases hq : q a with
      | true => simp
      | false =>
        simp only [if_true, Bool.false_eq_true, if_false, forall_const, false_and, iff_false]
        omega

end RagFlow.Math
