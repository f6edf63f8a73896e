/-
# Sentences for a context

`re.split` with the stops captured, and the loops that take sentences from one end of a text until
there are enough. Three functions of `rag/nlp` contain them in four copies: those that walk down a
text read the pieces from the front, those that walk up read them from behind. What is taken is an
end of the text in each case, and it is empty for the empty text only.
-/

import RagFlow.Math.Split
import RagFlow.Chunking.Text

namespace RagFlow.Chunking

open RagFlow.Math

/-! ## The source -/

/-- `[。!?？；！\n]|\. ` at the head of a text. -/
def stopLength : Text → ℕ
  | '.' :: ' ' :: _ => 2
  | c :: _ => if c ∈ ['。', '!', '?', '？', '；', '！', '\n'] then 1 else 0
  | [] => 0

/-- `re.split(r"([。!?？；！\n]|\. )", cnt)`. -/
def splitStops (cnt : Text) : List Text := splitMatches stopLength cnt

/-- The sentences with the stops behind them. -/
def withStops : List Text → List Text
  | [] => []
  | [t] => [t]
  | t :: stop :: txts => (t ++ stop) :: withStops txts

/-- The pieces of a reversed split, each with the stop that stood before it. -/
def withStopsBefore : List Text → List Text
  | [] => []
  | [t] => [t]
  | t :: stop :: txts => (stop ++ t) :: withStopsBefore txts

/-- Pieces are put behind `acc` until it is enough. -/
def takeDown (enough : Text → Bool) : List Text → Text → Text
  | [], acc => acc
  | s :: sents, acc => if enough (acc ++ s) then acc ++ s else takeDown enough sents (acc ++ s)

/-- Pieces are put before `acc` until it is enough. -/
def takeUp (enough : Text → Bool) : List Text → Text → Text
  | [], acc => acc
  | s :: sents, acc => if enough (s ++ acc) then s ++ acc else takeUp enough sents (s ++ acc)

/-! ## What is taken -/

section Taken

variable {enough : Text → Bool} {txts : List Text} {acc cnt : Text}

theorem flatten_splitStops (cnt : Text) : (splitStops cnt).flatten = cnt :=
  flatten_splitMatches stopLength cnt

theorem flatten_withStops (txts : List Text) : (withStops txts).flatten = txts.flatten := by
  induction txts using withStops.induct with
  | case1 => rfl
  | case2 t => rfl
  | case3 t stop txts ih => rw [withStops, List.flatten_cons, ih]; simp

/-- What is taken from the front is a beginning of the pieces. -/
theorem exists_takeDown (enough : Text → Bool) (sents : List Text) (acc : Text) :
    ∃ t, t <+: sents.flatten ∧ takeDown enough sents acc = acc ++ t := by
  induction sents generalizing acc with
  | nil => exact ⟨[], List.prefix_rfl, (List.append_nil acc).symm⟩
  | cons s sents ih =>
      rw [takeDown]
      split
      · exact ⟨s, List.prefix_append s _, rfl⟩
      · obtain ⟨t, ht, heq⟩ := ih (acc ++ s)
        refine ⟨s ++ t, (List.prefix_append_right_inj s).mpr ht, ?_⟩
        rw [heq, List.append_assoc]

/-- What is taken from behind is an end of the pieces. -/
theorem exists_takeUp (enough : Text → Bool) (sents : List Text) (acc : Text) :
    ∃ t, t <:+ sents.reverse.flatten ∧ takeUp enough sents acc = t ++ acc := by
  induction sents generalizing acc with
  | nil => exact ⟨[], List.suffix_rfl, rfl⟩
  | cons s sents ih =>
      rw [takeUp, List.reverse_cons, List.flatten_append, List.flatten_singleton]
      split
      · exact ⟨s, List.suffix_append _ s, rfl⟩
      · obtain ⟨t, ht, heq⟩ := ih (s ++ acc)
        obtain ⟨u, hu⟩ := ht
        refine ⟨t ++ s, ⟨u, by rw [← List.append_assoc, hu]⟩, ?_⟩
        rw [heq, List.append_assoc]

/-- Where there is a stop the first sentence is not empty. -/
theorem withStops_of_alternating (h : Alternating txts) :
    ∃ s sents, withStops txts = s :: sents ∧ (s = [] → txts.flatten = []) := by
  cases h with
  | last t => exact ⟨t, [], rfl, fun ht => by rw [ht]; rfl⟩
  | cons t hsep _ =>
      refine ⟨_, _, rfl, fun hnil => ?_⟩
      exact absurd (List.append_eq_nil_iff.mp hnil).2 hsep

theorem withStopsBefore_of_alternating (h : Alternating txts) :
    ∃ s sents, withStopsBefore txts = s :: sents ∧ (s = [] → txts.flatten = []) := by
  cases h with
  | last t => exact ⟨t, [], rfl, fun ht => by rw [ht]; rfl⟩
  | cons t hsep _ =>
      refine ⟨_, _, rfl, fun hnil => ?_⟩
      exact absurd (List.append_eq_nil_iff.mp hnil).1 hsep

theorem eq_nil_of_takeDown_cons {s : Text} {sents : List Text}
    (h : takeDown enough (s :: sents) acc = []) : acc = [] ∧ s = [] := by
  obtain ⟨t, -, heq⟩ := exists_takeDown enough sents (acc ++ s)
  rw [takeDown, heq] at h
  have hnil : acc ++ s = [] := by
    split at h
    · exact h
    · exact (List.append_eq_nil_iff.mp h).1
  exact List.append_eq_nil_iff.mp hnil

theorem eq_nil_of_takeUp_cons {s : Text} {sents : List Text}
    (h : takeUp enough (s :: sents) acc = []) : acc = [] ∧ s = [] := by
  obtain ⟨t, -, heq⟩ := exists_takeUp enough sents (s ++ acc)
  rw [takeUp, heq] at h
  have hnil : s ++ acc = [] := by
    split at h
    · exact h
    · exact (List.append_eq_nil_iff.mp h).2
  exact (List.append_eq_nil_iff.mp hnil).symm

/-- Something is taken from every text but the empty one. -/
theorem takeDown_eq_nil_iff :
    takeDown enough (withStops (splitStops cnt)) acc = [] ↔ acc = [] ∧ cnt = [] := by
  constructor
  · intro h
    obtain ⟨s, sents, hsents, hflat⟩ :=
      withStops_of_alternating (alternating_splitMatches stopLength cnt)
    rw [splitStops, hsents] at h
    obtain ⟨hacc, hs⟩ := eq_nil_of_takeDown_cons h
    exact ⟨hacc, (flatten_splitStops cnt).symm.trans (hflat hs)⟩
  · rintro ⟨rfl, rfl⟩
    change (if enough [] then [] else []) = []
    exact ite_self _

theorem takeUp_eq_nil_iff :
    takeUp enough (withStopsBefore (splitStops cnt).reverse) acc = [] ↔ acc = [] ∧ cnt = [] := by
  constructor
  · intro h
    obtain ⟨s, sents, hsents, hflat⟩ :=
      withStopsBefore_of_alternating (alternating_splitMatches stopLength cnt).reverse
    rw [splitStops, hsents] at h
    obtain ⟨hacc, hs⟩ := eq_nil_of_takeUp_cons h
    have hcnt : (splitStops cnt).flatten = [] := List.flatten_eq_nil_iff.mpr fun t ht =>
      List.flatten_eq_nil_iff.mp (hflat hs) t (List.mem_reverse.mpr ht)
    exact ⟨hacc, (flatten_splitStops cnt).symm.trans hcnt⟩
  · rintro ⟨rfl, rfl⟩
    change (if enough [] then [] else []) = []
    exact ite_self _

end Taken

end RagFlow.Chunking
