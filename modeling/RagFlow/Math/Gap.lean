/-
# The first gap

In a sorted list, each element may be followed by its successor. The first one that is not is found
by looking at pairs of neighbours. It is first where it occurs again, where something lies before
its successor, or where it is its own successor.
-/

import Mathlib.Data.List.Count
import Mathlib.Data.List.Perm.Basic
import Mathlib.Order.Lattice

namespace RagFlow.Math

universe u

variable {α : Type u} [LinearOrder α] (f : α → α) {l xs ys : List α} {a b x : α}

/-- Occurs once, and the next one is the successor. -/
structure Followed (xs : List α) (x : α) : Prop where
  once : xs.count x = 1
  mem : f x ∈ xs
  lt : x < f x
  least : ∀ y ∈ xs, x < y → f x ≤ y

/-- The first element that is not followed. -/
structure FirstGap (xs : List α) (x : α) : Prop where
  mem : x ∈ xs
  gap : ¬ Followed f xs x
  first : ∀ y ∈ xs, y < x → Followed f xs y

def firstGap : List α → Option α
  | [] => none
  | [x] => some x
  | x :: y :: rest => if f x = y then firstGap (y :: rest) else some x

variable {f}

theorem Followed.perm (h : xs.Perm ys) (hx : Followed f xs x) : Followed f ys x where
  once := (h.count_eq x).symm.trans hx.once
  mem := h.mem_iff.1 hx.mem
  lt := hx.lt
  least y hy := hx.least y (h.mem_iff.2 hy)

theorem FirstGap.perm (h : xs.Perm ys) (hx : FirstGap f xs x) : FirstGap f ys x where
  mem := h.mem_iff.1 hx.mem
  gap hfollowed := hx.gap (hfollowed.perm h.symm)
  first y hy hlt := (hx.first y (h.mem_iff.2 hy) hlt).perm h

theorem FirstGap.unique {x' : α} (hx : FirstGap f xs x) (hx' : FirstGap f xs x') : x = x' := by
  rcases lt_trichotomy x x' with hlt | heq | hgt
  · exact absurd (hx'.first x hx.mem hlt) hx.gap
  · exact heq
  · exact absurd (hx.first x' hx'.mem hgt) hx'.gap

/-- An element below all others does not matter to them. -/
theorem followed_cons_iff (h : ∀ y ∈ l, a < y) (hx : x ∈ l) :
    Followed f (a :: l) x ↔ Followed f l x := by
  have hne : x ≠ a := (h x hx).ne'
  refine ⟨fun hf => ⟨?_, ?_, hf.lt, fun y hy => hf.least y (List.mem_cons_of_mem a hy)⟩,
    fun hf => ⟨?_, List.mem_cons_of_mem a hf.mem, hf.lt, fun y hy hlt => ?_⟩⟩
  · have honce := hf.once
    rwa [List.count_cons_of_ne hne.symm] at honce
  · rcases List.mem_cons.1 hf.mem with heq | hmem
    · exact absurd ((h x hx).trans hf.lt) (heq ▸ lt_irrefl _)
    · exact hmem
  · rw [List.count_cons_of_ne hne.symm, hf.once]
  · rcases List.mem_cons.1 hy with rfl | hy
    · exact absurd (h x hx) hlt.not_gt
    · exact hf.least y hy hlt

/-- What stands in front and is smaller changes the first gap only if it is one. -/
theorem FirstGap.cons (hlt : ∀ y ∈ l, a < y) (ha : Followed f (a :: l) a)
    (h : FirstGap f l x) : FirstGap f (a :: l) x where
  mem := List.mem_cons_of_mem a h.mem
  gap hf := h.gap ((followed_cons_iff hlt h.mem).1 hf)
  first y hy hyx := by
    rcases List.mem_cons.1 hy with rfl | hy
    · exact ha
    · exact (followed_cons_iff hlt hy).2 (h.first y hy hyx)

theorem firstGap_spec (hsorted : l.Pairwise (· ≤ ·)) (hfound : firstGap f l = some x) :
    FirstGap f l x := by
  induction l with
  | nil => cases hfound
  | cons a rest ih =>
      obtain ⟨hle, hrest⟩ := List.pairwise_cons.1 hsorted
      have hnone : ∀ y ∈ a :: rest, ¬ y < a := fun y hy =>
        (List.mem_cons.1 hy).elim (fun heq => heq ▸ lt_irrefl _) fun hy => (hle y hy).not_gt
      cases rest with
      | nil =>
          obtain rfl := Option.some.inj hfound
          refine ⟨List.mem_singleton_self a, fun hf => ?_, fun y hy hlt => absurd hlt (hnone y hy)⟩
          exact hf.lt.ne' (List.mem_singleton.1 hf.mem)
      | cons b rest =>
          have hb : ∀ y ∈ b :: rest, b ≤ y := fun y hy =>
            (List.mem_cons.1 hy).elim (fun heq => heq.ge) fun hy =>
              (List.pairwise_cons.1 hrest).1 y hy
          rw [firstGap] at hfound
          split_ifs at hfound with hnext
          · have hgap := ih hrest hfound
            rcases (hle b List.mem_cons_self).lt_or_eq with hlt | heq
            · have hbelow : ∀ y ∈ b :: rest, a < y := fun y hy => hlt.trans_le (hb y hy)
              have ha : Followed f (a :: b :: rest) a := by
                refine ⟨?_, by simp [hnext], hnext ▸ hlt, fun y hy hay => ?_⟩
                · rw [List.count_cons_self, List.count_eq_zero.2 fun h => (hbelow a h).ne rfl]
                · rcases List.mem_cons.1 hy with rfl | hy
                  · exact absurd hay (lt_irrefl _)
                  · exact hnext ▸ hb y hy
              exact hgap.cons hbelow ha
            -- then `a` is its own successor, and the search ends at the last copy of it
            · have hx : x = a := by
                by_contra hne
                have hxb : b ≤ x := hb x hgap.mem
                have hfollowed := hgap.first b List.mem_cons_self
                  (lt_of_le_of_ne hxb (heq ▸ Ne.symm hne))
                exact hfollowed.lt.ne (by rw [← heq, hnext, heq])
              rw [hx]
              refine ⟨List.mem_cons_self, fun hf => ?_, fun y hy hlt => absurd hlt (hnone y hy)⟩
              exact hf.lt.ne (heq.trans hnext.symm)
          · obtain rfl := Option.some.inj hfound
            refine ⟨List.mem_cons_self, fun hf => hnext ?_, fun y hy hlt => absurd hlt (hnone y hy)⟩
            have hne : a ≠ b := by
              rintro rfl
              have honce := hf.once
              simp at honce
            have hlt := lt_of_le_of_ne (hle b List.mem_cons_self) hne
            refine le_antisymm (hf.least b (by simp) hlt) (hb _ ?_)
            exact (List.mem_cons.1 hf.mem).resolve_left hf.lt.ne'

theorem exists_firstGap (hne : l ≠ []) : ∃ x, firstGap f l = some x := by
  induction l with
  | nil => exact absurd rfl hne
  | cons a rest ih =>
      cases rest with
      | nil => exact ⟨a, rfl⟩
      | cons b rest =>
          rw [firstGap]
          split_ifs
          · exact ih (List.cons_ne_nil _ _)
          · exact ⟨a, rfl⟩

/-- Where the successor is in the list, the gap is of one of three kinds. -/
theorem not_followed_iff (hle : ∀ x, x ≤ f x) (hx : x ∈ xs) (hmem : f x ∈ xs) :
    ¬ Followed f xs x ↔ 1 < xs.count x ∨ (∃ y ∈ xs, x < y ∧ y < f x) ∨ f x = x := by
  have hpos : 0 < xs.count x := List.count_pos_iff.2 hx
  refine ⟨fun hgap => ?_, fun h hf => ?_⟩
  · by_contra hnone
    push Not at hnone
    obtain ⟨hcount, hbetween, hne⟩ := hnone
    exact hgap ⟨by omega, hmem, lt_of_le_of_ne (hle x) hne.symm, hbetween⟩
  · rcases h with hcount | ⟨y, hy, hlt, hylt⟩ | heq
    · exact Nat.ne_of_gt hcount hf.once
    · exact hylt.not_ge (hf.least y hy hlt)
    · exact hf.lt.ne heq.symm

end RagFlow.Math
