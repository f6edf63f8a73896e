/-
# Appending unless already last

`push` adds an element at the end of a list unless it is the last element
already, and `pushAll` does so for one element after the other. Only the last
position is compared, so repeats further back survive; what is certain is that
nothing else enters the list and that every pushed element is found either
among the new entries or at the end of the old list.
-/

import Mathlib.Data.List.Nodup

namespace RagFlow.Math

variable {α : Type*} [DecidableEq α]

/-- Append `a` unless it is the last element. -/
def push (l : List α) (a : α) : List α :=
  if l.getLast? = some a then l else l ++ [a]

/-- Push the elements of a list in order. -/
def pushAll (l as : List α) : List α := as.foldl push l

/-- What `pushAll` put behind the old list. -/
def pushed (l as : List α) : List α := (pushAll l as).drop l.length

@[simp]
theorem pushAll_nil (l : List α) : pushAll l [] = l := rfl

@[simp]
theorem pushAll_cons (l : List α) (a : α) (as : List α) :
    pushAll l (a :: as) = pushAll (push l a) as := rfl

theorem pushAll_append (l as bs : List α) :
    pushAll l (as ++ bs) = pushAll (pushAll l as) bs :=
  List.foldl_append

theorem push_of_last {l : List α} {a : α} (h : l.getLast? = some a) : push l a = l :=
  if_pos h

theorem push_of_not_last {l : List α} {a : α} (h : l.getLast? ≠ some a) :
    push l a = l ++ [a] :=
  if_neg h

theorem prefix_push (l : List α) (a : α) : l <+: push l a := by
  by_cases h : l.getLast? = some a
  · exact (push_of_last h).symm ▸ List.prefix_rfl
  · rw [push_of_not_last h]
    exact List.prefix_append l [a]

theorem prefix_pushAll (l as : List α) : l <+: pushAll l as := by
  induction as generalizing l with
  | nil => exact List.prefix_rfl
  | cons a as ih => exact (prefix_push l a).trans (ih (push l a))

theorem append_pushed (l as : List α) : l ++ pushed l as = pushAll l as := by
  obtain ⟨rest, hrest⟩ := prefix_pushAll l as
  rw [pushed, ← hrest, List.drop_left]

@[simp]
theorem pushed_nil (l : List α) : pushed l [] = [] := by
  simp [pushed]

/-- One more push in front either adds its element or finds it last already. -/
theorem pushed_cons (l : List α) (a : α) (as : List α) :
    pushed l (a :: as) =
      if l.getLast? = some a then pushed l as else a :: pushed (l ++ [a]) as := by
  apply (List.append_right_inj l).mp
  rw [append_pushed, pushAll_cons]
  by_cases h : l.getLast? = some a
  · rw [push_of_last h, if_pos h, append_pushed]
  · rw [push_of_not_last h, if_neg h, ← append_pushed, List.append_assoc]
    rfl

/-- One more push at the end. -/
theorem pushed_append_singleton (l as : List α) (a : α) :
    pushed l (as ++ [a]) =
      if (pushAll l as).getLast? = some a then pushed l as else pushed l as ++ [a] := by
  apply (List.append_right_inj l).mp
  rw [append_pushed, pushAll_append, pushAll_cons, pushAll_nil]
  by_cases h : (pushAll l as).getLast? = some a
  · rw [push_of_last h, if_pos h, append_pushed]
  · rw [push_of_not_last h, if_neg h, ← List.append_assoc, append_pushed]

/-- Only pushed elements are added. -/
theorem mem_of_mem_pushed {l as : List α} {a : α} (h : a ∈ pushed l as) : a ∈ as := by
  induction as generalizing l with
  | nil => simp at h
  | cons b as ih =>
      rw [pushed_cons] at h
      split_ifs at h
      · exact List.mem_cons_of_mem _ (ih h)
      · rcases List.mem_cons.mp h with rfl | h
        · exact List.mem_cons_self
        · exact List.mem_cons_of_mem _ (ih h)

theorem filter_pushed_eq_nil {p : α → Bool} {l as : List α} (h : as.filter p = []) :
    (pushed l as).filter p = [] := by
  rw [List.filter_eq_nil_iff] at h ⊢
  exact fun a ha => h a (mem_of_mem_pushed ha)

/-- The only element of a kind is pushed, unless it was the last element. -/
theorem filter_pushed_eq_singleton {p : α → Bool} {l as : List α} {a : α}
    (h : as.filter p = [a]) (hlast : l.getLast? ≠ some a) :
    (pushed l as).filter p = [a] := by
  induction as generalizing l with
  | nil => cases h
  | cons b as ih =>
      rw [pushed_cons]
      by_cases hb : p b
      · rw [List.filter_cons_of_pos hb] at h
        obtain ⟨rfl, hnil⟩ := List.cons_eq_cons.mp h
        rw [if_neg hlast, List.filter_cons_of_pos hb, filter_pushed_eq_nil hnil]
      · rw [List.filter_cons_of_neg hb] at h
        have hpa : p a = true := by
          have hmem : a ∈ as.filter p := h ▸ List.mem_singleton_self a
          exact (List.mem_filter.mp hmem).2
        by_cases hbl : l.getLast? = some b
        · rw [if_pos hbl]
          exact ih h hlast
        · rw [if_neg hbl, List.filter_cons_of_neg hb]
          apply ih h
          intro heq
          have hba : b = a := by simpa using heq
          exact hb (hba ▸ hpa)

/-- A pushed element is a new entry, or it was the last element before. -/
theorem mem_pushed_or_last {l as : List α} {a : α} (h : a ∈ as) :
    a ∈ pushed l as ∨ l.getLast? = some a := by
  induction as generalizing l with
  | nil => simp at h
  | cons b as ih =>
      rw [pushed_cons]
      by_cases hlast : l.getLast? = some b
      · rw [if_pos hlast]
        rcases List.mem_cons.mp h with rfl | h
        · exact .inr hlast
        · exact ih h
      · rw [if_neg hlast]
        rcases List.mem_cons.mp h with rfl | h
        · exact .inl List.mem_cons_self
        · rcases ih (l := l ++ [b]) h with hmem | hend
          · exact .inl (List.mem_cons_of_mem _ hmem)
          · obtain rfl : b = a := by simpa using hend
            exact .inl List.mem_cons_self

/-- A statement about all splittings of a list, extended by one element. -/
theorem forall_split_snoc {β : Type*} {P : List β → β → Prop} {l : List β} {b : β} :
    (∀ pre c post, l ++ [b] = pre ++ c :: post → P pre c) ↔
      (∀ pre c post, l = pre ++ c :: post → P pre c) ∧ P l b := by
  constructor
  · intro h
    refine ⟨fun pre c post hl => h pre c (post ++ [b]) (by simp [hl]), h l b [] rfl⟩
  · rintro ⟨hl, hb⟩ pre c post heq
    rcases List.eq_nil_or_concat post with rfl | ⟨post, b', rfl⟩
    · obtain ⟨rfl, h⟩ := List.append_inj' heq rfl
      obtain rfl : b = c := by simpa using h
      exact hb
    · have heq : l ++ [b] = (pre ++ c :: post) ++ [b'] := by simpa using heq
      obtain ⟨h, _⟩ := List.append_inj' heq rfl
      exact hl pre c post h

end RagFlow.Math
