/-
# Sub-trees

A child relation, the elements below a given one, and sets that contain with an element
every element it is below: the form a tree keeps while whole sub-trees are taken out of it.
-/

import Mathlib.Data.Set.Basic
import Mathlib.Logic.Relation

namespace RagFlow.Math

universe u

variable {α : Type u} {child : α → α → Prop} {S : Set α} {r f p : α}

/-- `r` is `f`, or a child of what is below `f`. -/
def Below (child : α → α → Prop) (r f : α) : Prop :=
  Relation.ReflTransGen child r f

/-- A set with every element above one of its own. -/
def Rooted (child : α → α → Prop) (S : Set α) : Prop :=
  ∀ r ∈ S, ∀ p, child r p → p ∈ S

/-- What is left when the sub-tree of `f` is taken out. -/
def withoutBelow (child : α → α → Prop) (S : Set α) (f : α) : Set α :=
  {r | r ∈ S ∧ ¬ Below child r f}

theorem Below.refl (f : α) : Below child f f :=
  Relation.ReflTransGen.refl

theorem below_iff : Below child r f ↔ f = r ∨ ∃ c, Below child r c ∧ child c f :=
  Relation.ReflTransGen.cases_tail_iff child r f

/-- An element without children is alone in its sub-tree. -/
theorem below_iff_eq (h : ∀ c, ¬ child c f) : Below child r f ↔ r = f := by
  rw [below_iff]
  constructor
  · rintro (rfl | ⟨c, -, hc⟩)
    · rfl
    · exact absurd hc (h c)
  · exact fun heq => .inl heq.symm

theorem Rooted.mem_of_below (h : Rooted child S) (hr : r ∈ S) (hb : Below child r f) :
    f ∈ S := by
  induction hb with
  | refl => exact hr
  | tail _ hc ih => exact h _ ih _ hc

/-- Taking out a sub-tree leaves a rooted set. -/
theorem Rooted.withoutBelow (h : Rooted child S) (f : α) :
    Rooted child (withoutBelow child S f) := by
  rintro r ⟨hr, hb⟩ p hp
  refine ⟨h r hr p hp, fun hpf => hb ?_⟩
  exact Relation.ReflTransGen.head hp hpf

/-- What is left when the sub-trees of all of `fs` are taken out, one after the other. -/
theorem mem_foldl_withoutBelow (fs : List α) :
    r ∈ fs.foldl (Math.withoutBelow child) S ↔ r ∈ S ∧ ∀ f ∈ fs, ¬ Below child r f := by
  induction fs generalizing S with
  | nil => simp
  | cons f fs ih =>
    rw [List.foldl_cons, ih]
    simp [Math.withoutBelow, and_assoc]

/-- To take out a sub-tree is to take out the sub-trees of the children and then the
element itself. -/
theorem Rooted.mem_withoutBelow_iff (h : Rooted child S) {cs : List α}
    (hcs : ∀ c, c ∈ cs ↔ c ∈ S ∧ child c f) :
    r ∈ Math.withoutBelow child S f ↔
      r ∈ cs.foldl (Math.withoutBelow child) S ∧ r ≠ f := by
  rw [mem_foldl_withoutBelow]
  constructor
  · rintro ⟨hr, hb⟩
    refine ⟨⟨hr, fun c hc hrc => hb ?_⟩, ?_⟩
    · exact Relation.ReflTransGen.tail hrc ((hcs c).mp hc).2
    · rintro rfl
      exact hb (.refl r)
  · rintro ⟨⟨hr, hall⟩, hne⟩
    refine ⟨hr, fun hb => ?_⟩
    rcases below_iff.mp hb with heq | ⟨c, hrc, hc⟩
    · exact hne heq.symm
    · exact hall c ((hcs c).mpr ⟨h.mem_of_below hr hrc, hc⟩) hrc

end RagFlow.Math
