/-
# Computations that may fail

Inversion of a successful bind and map, and the induction rules for a fold
through a list: one for pure steps and one for steps that may fail. Both keep
track of the part of the list already processed.
-/

import Mathlib.Data.List.Forall2
import Mathlib.Data.List.Infix

namespace RagFlow.Math

universe u v w

variable {ε : Type u} {α β : Type v}

theorem bind_eq_ok {x : Except ε α} {f : α → Except ε β} {b : β} :
    (x >>= f) = .ok b ↔ ∃ a, x = .ok a ∧ f a = .ok b := by
  cases x with
  | error e => simp [bind, Except.bind]
  | ok a => simp [bind, Except.bind]

/-- An error that neither part of a computation raises is not raised by the whole. -/
theorem bind_ne_error {x : Except ε α} {f : α → Except ε β} {e : ε} (hx : x ≠ .error e)
    (hf : ∀ a, x = .ok a → f a ≠ .error e) : x >>= f ≠ .error e := by
  cases x with
  | error e' => exact fun h => hx (congrArg Except.error (Except.error.inj h))
  | ok a => exact hf a rfl

theorem map_eq_ok {γ : Type w} {x : Except ε α} {f : α → γ} {b : γ} :
    x.map f = .ok b ↔ ∃ a, x = .ok a ∧ f a = b := by
  cases x with
  | error e => simp [Except.map]
  | ok a => simp [Except.map]

theorem exists_of_isSome {x : Except ε α} (h : x.toOption.isSome = true) : ∃ a, x = .ok a := by
  cases x with
  | ok a => exact ⟨a, rfl⟩
  | error e => cases h

@[simp]
theorem pure_eq_ok {a b : α} : (pure a : Except ε α) = .ok b ↔ a = b := by
  simp [pure, Except.pure]

theorem mapM_ne_error {f : α → Except ε β} {l : List α} {e : ε} (h : ∀ a, f a ≠ .error e) :
    l.mapM f ≠ .error e := by
  induction l with
  | nil => exact nofun
  | cons a l ih =>
      rw [List.mapM_cons]
      exact bind_ne_error (h a) fun b _ => bind_ne_error ih fun bs _ => nofun

/-- Where a function is run over a whole list, it succeeds on every member. -/
theorem exists_ok_of_mapM {f : α → Except ε β} {l : List α} {bs : List β}
    (h : l.mapM f = .ok bs) {a : α} (ha : a ∈ l) : ∃ b, f a = .ok b := by
  induction l generalizing bs with
  | nil => exact absurd ha List.not_mem_nil
  | cons c l ih =>
      rw [List.mapM_cons] at h
      obtain ⟨b, hb, h⟩ := bind_eq_ok.mp h
      obtain ⟨rest, hrest, -⟩ := bind_eq_ok.mp h
      rcases List.mem_cons.mp ha with rfl | ha
      · exact ⟨b, hb⟩
      · exact ih hrest ha

/-- Where a function succeeds on every member, it can be run over the whole list. -/
theorem exists_mapM_ok {f : α → Except ε β} {l : List α} (h : ∀ a ∈ l, ∃ b, f a = .ok b) :
    ∃ bs, l.mapM f = .ok bs ∧ ∀ b, b ∈ bs ↔ ∃ a ∈ l, f a = .ok b := by
  induction l with
  | nil => exact ⟨[], rfl, by simp⟩
  | cons c l ih =>
      obtain ⟨b, hb⟩ := h c List.mem_cons_self
      obtain ⟨rest, hrest, hmem⟩ := ih fun a ha => h a (List.mem_cons_of_mem c ha)
      refine ⟨b :: rest, ?_, fun b' => ?_⟩
      · rw [List.mapM_cons, hb, hrest]
        rfl
      · simp [hmem, hb, eq_comm]

/-- A view of the results is a view of the list that a function is run over. -/
theorem filterMap_of_mapM {γ : Type w} {f : α → Except ε β} {p : β → Option γ} {q : α → Option γ}
    {l : List α} {bs : List β} (h : l.mapM f = .ok bs) (hpq : ∀ a b, f a = .ok b → p b = q a) :
    bs.filterMap p = l.filterMap q := by
  induction l generalizing bs with
  | nil =>
      rw [← pure_eq_ok.mp h]
      rfl
  | cons c l ih =>
      rw [List.mapM_cons] at h
      obtain ⟨b, hb, h⟩ := bind_eq_ok.mp h
      obtain ⟨rest, hrest, h⟩ := bind_eq_ok.mp h
      rw [← pure_eq_ok.mp h, List.filterMap_cons, List.filterMap_cons, hpq c b hb, ih hrest]

/-- Where success has a view as an option, running a function over a whole list succeeds with
the results that the view has. -/
theorem mapM_eq_ok {f : α → Except ε β} {q : α → Option β}
    (hfq : ∀ a b, f a = .ok b ↔ q a = some b) {l : List α} {bs : List β} :
    l.mapM f = .ok bs ↔ l.map q = bs.map some := by
  induction l generalizing bs with
  | nil =>
      rw [List.mapM_nil, pure_eq_ok]
      cases bs with
      | nil => simp
      | cons b bs => simp
  | cons a l ih =>
      rw [List.mapM_cons, List.map_cons]
      constructor
      · intro h
        obtain ⟨b, hb, h⟩ := bind_eq_ok.mp h
        obtain ⟨rest, hrest, h⟩ := bind_eq_ok.mp h
        rw [← pure_eq_ok.mp h, List.map_cons, (hfq a b).mp hb, ih.mp hrest]
      · intro h
        cases bs with
        | nil => simp at h
        | cons b bs =>
            obtain ⟨hb, hrest⟩ := List.cons.inj h
            exact bind_eq_ok.mpr ⟨b, (hfq a b).mpr hb, bind_eq_ok.mpr ⟨bs, ih.mpr hrest, rfl⟩⟩

/-- A property that depends on the processed part of the list and is kept by
every step holds after a fold. -/
theorem foldl_induction {σ : Type v} {α : Type w} {f : σ → α → σ} {s : σ} {l : List α}
    {P : List α → σ → Prop} (start : P [] s)
    (keep : ∀ done a u, done ++ [a] <+: l → P done u → P (done ++ [a]) (f u a)) :
    P l (l.foldl f s) := by
  induction l using List.reverseRecOn with
  | nil => exact start
  | append_singleton l a ih =>
      rw [List.foldl_append]
      refine keep l a _ List.prefix_rfl (ih ?_)
      intro done b u hinit
      exact keep done b u (hinit.trans (List.prefix_append l [a]))

/-- The same for a fold whose steps may fail, when it succeeds. -/
theorem foldlM_induction {σ : Type v} {α : Type w} {f : σ → α → Except ε σ} {s t : σ}
    {l : List α} {P : List α → σ → Prop} (h : l.foldlM f s = .ok t) (start : P [] s)
    (keep : ∀ done a u v, done ++ [a] <+: l → P done u → f u a = .ok v →
      P (done ++ [a]) v) :
    P l t := by
  induction l using List.reverseRecOn generalizing t with
  | nil =>
      obtain rfl : s = t := by simpa using h
      exact start
  | append_singleton l a ih =>
      rw [List.foldlM_append] at h
      obtain ⟨u, hu, ha⟩ := bind_eq_ok.mp h
      have ha : f u a = .ok t := by simpa using ha
      refine keep l a u t List.prefix_rfl (ih hu ?_) ha
      intro done b u v hinit
      exact keep done b u v (hinit.trans (List.prefix_append l [a]))

/-- A fold succeeds where every step succeeds and keeps what the next one needs. -/
theorem exists_foldlM_ok {σ : Type v} {α : Type w} {f : σ → α → Except ε σ} {s : σ} {l : List α}
    {P : List α → σ → Prop} (start : P [] s)
    (keep : ∀ done a u, done ++ [a] <+: l → P done u → ∃ v, f u a = .ok v ∧ P (done ++ [a]) v) :
    ∃ t, l.foldlM f s = .ok t ∧ P l t := by
  induction l using List.reverseRecOn with
  | nil => exact ⟨s, rfl, start⟩
  | append_singleton l a ih =>
      obtain ⟨u, hu, hP⟩ := ih fun done b u hinit =>
        keep done b u (hinit.trans (List.prefix_append l [a]))
      obtain ⟨v, hv, hP'⟩ := keep l a u List.prefix_rfl hP
      refine ⟨v, ?_, hP'⟩
      rw [List.foldlM_append]
      exact bind_eq_ok.mpr ⟨u, hu, by simpa using hv⟩

/-! ## Results without a reason for their failure -/

section Forall₂

variable {γ : Type w} {R S : γ → α → Prop} {l : List γ} {as : List α}

theorem exists_of_forall₂ (h : List.Forall₂ R l as) {a : α} (ha : a ∈ as) : ∃ c ∈ l, R c a := by
  induction h with
  | nil => cases ha
  | @cons c b l bs hcb _ ih =>
      rcases List.mem_cons.mp ha with rfl | ha
      · exact ⟨c, List.mem_cons_self, hcb⟩
      · obtain ⟨c', hc', hR⟩ := ih ha
        exact ⟨c', List.mem_cons_of_mem c hc', hR⟩

theorem exists_of_forall₂_left (h : List.Forall₂ R l as) (h' : List.Forall₂ S l as) {c : γ}
    (hc : c ∈ l) : ∃ a ∈ as, R c a ∧ S c a := by
  induction h with
  | nil => cases hc
  | @cons d b l bs hdb _ ih =>
      obtain ⟨hS, hrest⟩ := List.forall₂_cons.mp h'
      rcases List.mem_cons.mp hc with rfl | hc
      · exact ⟨b, List.mem_cons_self, hdb, hS⟩
      · obtain ⟨a, ha, hboth⟩ := ih hrest hc
        exact ⟨a, List.mem_cons_of_mem b ha, hboth⟩

theorem exists_forall₂ (h : ∀ c ∈ l, ∃ a, R c a) : ∃ as, List.Forall₂ R l as := by
  induction l with
  | nil => exact ⟨[], .nil⟩
  | cons c l ih =>
      obtain ⟨as, has⟩ := ih fun x hx => h x (List.mem_cons_of_mem c hx)
      obtain ⟨a, ha⟩ := h c List.mem_cons_self
      exact ⟨a :: as, .cons ha has⟩

theorem forall₂_imp_of_mem (h : List.Forall₂ R l as) (himp : ∀ c ∈ l, ∀ a, R c a → S c a) :
    List.Forall₂ S l as := by
  induction h with
  | nil => exact .nil
  | @cons c a l as hca _ ih =>
      exact .cons (himp c List.mem_cons_self a hca)
        (ih fun x hx => himp x (List.mem_cons_of_mem c hx))

end Forall₂

section Option

variable {γ : Type w} {f : γ → Option α} {l : List γ}

theorem isSome_mapM : (l.mapM f).isSome ↔ ∀ c ∈ l, (f c).isSome := by
  induction l with
  | nil => simp
  | cons c l ih =>
      rw [List.mapM_cons, List.forall_mem_cons, ← ih]
      cases f c <;> cases l.mapM f <;> simp

theorem mapM_congr {f' : γ → Option α} (h : ∀ c ∈ l, f c = f' c) : l.mapM f = l.mapM f' := by
  induction l with
  | nil => rfl
  | cons c l ih =>
      rw [List.mapM_cons, List.mapM_cons, h c List.mem_cons_self,
        ih fun a ha => h a (List.mem_cons_of_mem c ha)]

theorem mapM_eq_map {g : γ → α} (h : ∀ c ∈ l, f c = some (g c)) :
    l.mapM f = some (l.map g) := by
  induction l with
  | nil => rfl
  | cons c l ih =>
      rw [List.mapM_cons, h c List.mem_cons_self, ih fun a ha => h a (List.mem_cons_of_mem c ha)]
      rfl

theorem mapM_eq_some_iff {as : List α} :
    l.mapM f = some as ↔ List.Forall₂ (fun c a => f c = some a) l as := by
  induction l generalizing as with
  | nil =>
      rw [List.mapM_nil, List.forall₂_nil_left_iff]
      exact ⟨fun h => (Option.some.inj h).symm, fun h => congrArg some h.symm⟩
  | cons c l ih =>
      rw [List.mapM_cons, List.forall₂_cons_left_iff]
      constructor
      · intro h
        obtain ⟨a, ha, hrest⟩ := Option.bind_eq_some_iff.mp h
        obtain ⟨as', has', hcons⟩ := Option.bind_eq_some_iff.mp hrest
        exact ⟨a, as', ha, ih.mp has', (Option.some.inj hcons).symm⟩
      · rintro ⟨a, as', ha, has', rfl⟩
        rw [ha, ih.mpr has']
        rfl

variable {σ : Type v} {step : σ → γ → Option σ} {s t : σ}

/-- A fold succeeds where every step succeeds and keeps what the next one needs. -/
theorem exists_foldlM_some {P : List γ → σ → Prop} (start : P [] s)
    (keep : ∀ done a u, done ++ [a] <+: l → P done u →
      ∃ u', step u a = some u' ∧ P (done ++ [a]) u') :
    ∃ t, l.foldlM step s = some t ∧ P l t := by
  induction l using List.reverseRecOn with
  | nil => exact ⟨s, rfl, start⟩
  | append_singleton l a ih =>
      obtain ⟨u, hu, hP⟩ := ih fun done b u hinit =>
        keep done b u (hinit.trans (List.prefix_append l [a]))
      obtain ⟨u', hu', hP'⟩ := keep l a u List.prefix_rfl hP
      refine ⟨u', ?_, hP'⟩
      rw [List.foldlM_append, hu]
      simpa using hu'

/-- Where a fold succeeds, each of its steps did. -/
theorem exists_step_of_foldlM (h : l.foldlM step s = some t) {a : γ} (ha : a ∈ l) :
    ∃ u u', step u a = some u' := by
  induction l generalizing s with
  | nil => exact absurd ha List.not_mem_nil
  | cons b l ih =>
      rw [List.foldlM_cons, Option.bind_eq_bind, Option.bind_eq_some_iff] at h
      obtain ⟨u, hu, hrest⟩ := h
      rcases List.mem_cons.mp ha with rfl | ha
      · exact ⟨s, u, hu⟩
      · exact ih hrest ha

end Option

end RagFlow.Math

/-! ## Computations that may stop

A computation on a state goes on with a new state, or it stops for a reason and leaves
behind the state it has reached. What it leaves is described by two conditions, one for
each case, and the rules below follow the computation: sequencing, and a fold through a
list. -/

namespace RagFlow.Math

universe u v w

variable {ε : Type u} {σ : Type u} {α : Type w}

/-- `P` holds where the computation goes on, `Q` of the state that is left where it has
stopped. -/
def Leaves (P Q : σ → Prop) : Except (ε × σ) σ → Prop
  | .ok s => P s
  | .error e => Q e.2

/-- The state at the end. -/
def left : Except (ε × σ) σ → σ
  | .ok s => s
  | .error e => e.2

namespace Leaves

variable {P P' Q Q' R : σ → Prop} {x : Except (ε × σ) σ}

theorem of_ok {s : σ} (h : Leaves P Q x) (hs : x = .ok s) : P s := by
  rw [hs] at h
  exact h

theorem at_left (h : Leaves P P x) : P (left x) := by
  cases x with
  | ok s => exact h
  | error e => exact h

theorem mono (h : Leaves P Q x) (hP : ∀ s, P s → P' s) (hQ : ∀ s, Q s → Q' s) :
    Leaves P' Q' x := by
  cases x with
  | ok s => exact hP s h
  | error e => exact hQ e.2 h

theorem bind {f : σ → Except (ε × σ) σ} (h : Leaves R Q x) (hf : ∀ s, R s → Leaves P Q (f s)) :
    Leaves P Q (x >>= f) := by
  cases x with
  | ok s => exact hf s h
  | error e => exact h

/-- A fold keeps what every turn keeps, and leaves what every turn leaves on stopping. -/
theorem foldlM {f : σ → α → Except (ε × σ) σ} {s : σ} {l : List α} {P : List α → σ → Prop}
    (start : P [] s)
    (keep : ∀ done a u, done ++ [a] <+: l → P done u → Leaves (P (done ++ [a])) Q (f u a)) :
    Leaves (P l) Q (l.foldlM f s) := by
  induction l using List.reverseRecOn with
  | nil => exact start
  | append_singleton l a ih =>
      have hinit : Leaves (P l) Q (l.foldlM f s) := by
        apply ih
        intro done b u hdone
        exact keep done b u (hdone.trans (List.prefix_append l [a]))
      rw [List.foldlM_append]
      apply hinit.bind
      intro u hu
      rw [List.foldlM_cons]
      apply (keep l a u List.prefix_rfl hu).bind
      intro t ht
      exact ht

end Leaves

end RagFlow.Math
