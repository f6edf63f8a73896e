/-
# Texts without their delimiters

A text split at delimiters, with every delimiter kept behind the piece before it, gives back the
same text once the delimiters are deleted from each piece: none occurs before the one at the end. A
delimiter at the front of the text or right behind another one has no piece to go with.
-/

import Mathlib
import RagFlow.Math.Separator
import RagFlow.Chunking.Headings

namespace RagFlow.Chunking

open RagFlow.Math
open RagFlow.Query (strip)
open RagFlow.Ingestion (isSpace)

/-! ## Deleting matches -/

/-- Matches lie within the text and depend on nothing behind them. -/
structure LocalMatch (m : Text → ℕ) : Prop where
  le_length : ∀ t, m t ≤ t.length
  none_of_append : ∀ u v, m (u ++ v) = 0 → m u = 0
  whole_of_append : ∀ u v, m (u ++ v) = u.length → m u = u.length

section Delete

variable {m : Text → ℕ} {skip : ℕ} {cur t u v : Text} {ps : List Text}

theorem deleteFrom_of_no_match {c : Char} (h : m (c :: t) = 0) :
    deleteFrom m 0 (c :: t) = c :: deleteFrom m 0 t := by
  simp [deleteFrom, h]

theorem deleteFrom_of_match {c : Char} {n : ℕ} (h : m (c :: t) = n + 1) :
    deleteFrom m 0 (c :: t) = deleteFrom m n t := by
  simp [deleteFrom, h]

theorem deleteFrom_eq_drop (skip : ℕ) (t : Text) :
    deleteFrom m skip t = deleteFrom m 0 (t.drop skip) := by
  induction t generalizing skip with
  | nil => rw [List.drop_nil]; cases skip <;> rfl
  | cons c t ih =>
      cases skip with
      | zero => rfl
      | succ skip => rw [deleteFrom, ih, List.drop_succ_cons]

/-- What is left are the stretches between the matches. -/
theorem deleteFrom_eq_stretches (m : Text → ℕ) (skip : ℕ) (cur t : Text) :
    cur ++ deleteFrom m skip t = (stretches (splitFrom m skip cur t)).flatten := by
  induction t generalizing skip cur with
  | nil => cases skip <;> simp [deleteFrom, splitFrom, stretches]
  | cons c t ih =>
      cases skip with
      | succ skip => rw [deleteFrom, splitFrom, ih]
      | zero =>
          cases hm : m (c :: t) with
          | zero =>
              rw [deleteFrom_of_no_match hm, splitFrom_of_no_match hm, ← ih, List.append_assoc]
              rfl
          | succ n =>
              obtain ⟨p, ps, hps⟩ := List.exists_cons_of_ne_nil (splitFrom_ne_nil m n [] t)
              have hrest := ih n []
              rw [deleteFrom_of_match hm, splitFrom_of_match hm]
              rw [hps] at hrest ⊢
              rw [stretches, List.flatten_cons, ← hrest, List.nil_append]

/-- No match begins in the first part. -/
theorem deleteFrom_append (h : ∀ s, s <:+ u → s ≠ [] → m (s ++ v) = 0) :
    deleteFrom m 0 (u ++ v) = u ++ deleteFrom m 0 v := by
  induction u with
  | nil => rfl
  | cons c u ih =>
      have hhead : m (c :: (u ++ v)) = 0 := h (c :: u) List.suffix_rfl (List.cons_ne_nil c u)
      rw [List.cons_append, deleteFrom_of_no_match hhead, List.cons_append]
      exact congrArg (c :: ·) (ih fun s hs => h s (hs.trans (List.suffix_cons c u)))

theorem deleteFrom_sublist (m : Text → ℕ) (skip : ℕ) (t : Text) :
    (deleteFrom m skip t).Sublist t := by
  induction t generalizing skip with
  | nil => cases skip <;> exact List.Sublist.refl []
  | cons c t ih =>
      cases skip with
      | succ skip => exact (ih skip).cons c
      | zero =>
          cases hm : m (c :: t) with
          | zero => exact deleteFrom_of_no_match hm ▸ (ih 0).cons_cons c
          | succ n => exact deleteFrom_of_match hm ▸ (ih n).cons c

theorem deleteFrom_whole (hm : m t = t.length) : deleteFrom m 0 t = [] := by
  cases t with
  | nil => rfl
  | cons c t =>
      rw [deleteFrom_of_match (hm.trans List.length_cons), deleteFrom_eq_drop, List.drop_length]
      rfl

/-- Pieces that are left when the match behind each is deleted from the two together. -/
inductive Deletes (m : Text → ℕ) : List Text → Prop
  | last (t : Text) (h : deleteFrom m 0 t = t) : Deletes m [t]
  | cons (t sep : Text) {ps : List Text} (h : deleteFrom m 0 (t ++ sep) = t)
      (hrest : Deletes m ps) : Deletes m (t :: sep :: ps)

/-- Of a split, since no match begins in the piece that is being collected. -/
theorem deletes_splitFrom (hm : LocalMatch m)
    (hcur : ∀ s, s <:+ cur → s ≠ [] → m (s ++ t.drop skip) = 0) :
    Deletes m (splitFrom m skip cur t) := by
  induction t generalizing skip cur with
  | nil =>
      have hnone := deleteFrom_append hcur
      rw [List.drop_nil, List.append_nil] at hnone
      exact .last cur (hnone.trans (List.append_nil cur))
  | cons c t ih =>
      cases skip with
      | succ skip => exact ih hcur
      | zero =>
          cases hhead : m (c :: t) with
          | zero =>
              rw [splitFrom_of_no_match hhead]
              refine ih fun s hs hne => ?_
              obtain ⟨s', rfl, hs'⟩ : ∃ s', s = s' ++ [c] ∧ s' <:+ cur := by
                rcases List.suffix_concat_iff.mp hs with rfl | ⟨s', rfl, hs'⟩
                · exact absurd rfl hne
                · exact ⟨s', rfl, hs'⟩
              rw [List.append_assoc]
              by_cases hnil : s' = []
              · rw [hnil]
                exact hhead
              · exact hcur s' hs' hnil
          | succ n =>
              have hsplit : (c :: t).take (n + 1) ++ (c :: t).drop (n + 1) = c :: t :=
                List.take_append_drop _ _
              have hlength : ((c :: t).take (n + 1)).length = n + 1 := by
                rw [List.length_take, min_eq_left]
                exact hhead ▸ hm.le_length (c :: t)
              have hsep : m ((c :: t).take (n + 1)) = ((c :: t).take (n + 1)).length := by
                refine hm.whole_of_append _ ((c :: t).drop (n + 1)) ?_
                rw [hsplit, hhead, hlength]
              rw [splitFrom_of_match hhead]
              refine .cons _ _ ?_ (ih ?_)
              · rw [deleteFrom_append, deleteFrom_whole hsep, List.append_nil]
                intro s hs hne
                refine hm.none_of_append _ ((c :: t).drop (n + 1)) ?_
                rw [List.append_assoc, hsplit]
                exact hcur s hs hne
              · exact fun s hs hne => absurd (List.suffix_nil.mp hs) hne

end Delete

/-! ## Delimiters -/

/-- A text without its delimiters and without white space. -/
def bare (delims : List Text) (t : Text) : Text :=
  (deleteFrom (delimiterLength delims) 0 t).filter fun c => !isSpace c

/-- The pieces of a split, each with the delimiter behind it, but no delimiter alone and nothing
blank. -/
@[grind =] def keepDelimiters : List Text → List Text
  | [] => []
  | [t] => if strip t = [] then [] else [t]
  | t :: sep :: rest =>
      if t = [] then keepDelimiters rest
      else if strip (t ++ sep) = [] then keepDelimiters rest
      else (t ++ sep) :: keepDelimiters rest

section Delimiters

variable {delims : List Text} {t : Text}

/-- The longest delimiter at the head of a text, if there is one. -/
theorem delimiterLength_spec (delims : List Text) (t : Text) :
    (delimiterLength delims t = 0 ∨
        ∃ d ∈ delims, d <+: t ∧ d.length = delimiterLength delims t) ∧
      ∀ d ∈ delims, d <+: t → d.length ≤ delimiterLength delims t := by
  have hsorted : (delims.dedup.mergeSort fun a b => b.length ≤ a.length).Pairwise fun a b =>
      decide (b.length ≤ a.length) = true :=
    List.pairwise_mergeSort (fun a b c hab hbc => by simp only [decide_eq_true_iff] at *; omega)
      (fun a b => by simp only [Bool.or_eq_true, decide_eq_true_iff]; omega) delims.dedup
  have hmem : ∀ d, d ∈ delims.dedup.mergeSort (fun a b => b.length ≤ a.length) ↔ d ∈ delims :=
    fun d => List.mem_mergeSort.trans List.mem_dedup
  rw [delimiterLength]
  generalize delims.dedup.mergeSort (fun a b => b.length ≤ a.length) = sorted at hsorted hmem ⊢
  cases hfind : sorted.find? fun d => d.isPrefixOf t with
  | none =>
      refine ⟨.inl (by simp), fun d hd hpre => ?_⟩
      have hno := List.find?_eq_none.mp hfind d ((hmem d).mpr hd)
      exact absurd (List.isPrefixOf_iff_prefix.mpr hpre) hno
  | some first =>
      obtain ⟨hpre, before, after, rfl, hbefore⟩ := List.find?_eq_some_iff_append.mp hfind
      refine ⟨.inr ⟨first, (hmem first).mp (by simp), List.isPrefixOf_iff_prefix.mp hpre, by simp⟩,
        fun d hd hdpre => ?_⟩
      simp only [Option.map_some, Option.getD_some]
      rcases List.mem_append.mp ((hmem d).mpr hd) with hd | hd
      · have hno := hbefore d hd
        rw [List.isPrefixOf_iff_prefix.mpr hdpre] at hno
        exact absurd hno (by decide)
      · rcases List.mem_cons.mp hd with rfl | hd
        · exact le_rfl
        · have hle := (List.pairwise_cons.mp (List.pairwise_append.mp hsorted).2.1).1 d hd
          exact of_decide_eq_true hle

theorem localMatch_delimiterLength (delims : List Text) : LocalMatch (delimiterLength delims) := by
  have hle : ∀ t, delimiterLength delims t ≤ t.length := by
    intro t
    rcases (delimiterLength_spec delims t).1 with h | ⟨d, -, hd, h⟩
    · omega
    · exact h ▸ hd.length_le
  refine ⟨hle, fun u v h => ?_, fun u v h => ?_⟩
  · rcases (delimiterLength_spec delims u).1 with hu | ⟨d, hmem, hd, hu⟩
    · exact hu
    · have hlonger := (delimiterLength_spec delims (u ++ v)).2 d hmem
        (hd.trans (List.prefix_append u v))
      omega
  · rcases (delimiterLength_spec delims (u ++ v)).1 with hz | ⟨d, hmem, hd, huv⟩
    · have hu := hle u
      omega
    · have heq : d = u := by
        refine (List.prefix_of_prefix_length_le hd (List.prefix_append u v) ?_).eq_of_length ?_
          <;> omega
      have hge := (delimiterLength_spec delims u).2 d hmem (heq ▸ List.prefix_rfl)
      have hu := hle u
      omega

theorem filter_of_strip_eq_nil (h : strip t = []) : (t.filter fun c => !isSpace c) = [] := by
  refine List.filter_eq_nil_iff.mpr fun c hc hnot => ?_
  rw [Bool.not_eq_true'] at hnot
  have hmem := (mem_strip_iff hnot).mpr hc
  rw [h] at hmem
  exact absurd hmem List.not_mem_nil

/-- Without delimiters nothing is deleted but white space. -/
theorem bare_nil (t : Text) : bare [] t = t.filter fun c => !isSpace c := by
  have hzero : ∀ s : Text, delimiterLength [] s = 0 := fun s => by
    rcases (delimiterLength_spec [] s).1 with h | ⟨d, hd, -⟩
    · exact h
    · exact absurd hd List.not_mem_nil
  have hself := deleteFrom_append (m := delimiterLength []) (u := t) (v := []) fun s _ _ => hzero _
  rw [List.append_nil] at hself
  rw [bare, hself]
  exact congrArg _ (List.append_nil t)

theorem bare_eq_nil_of_strip (h : strip t = []) : bare delims t = [] := by
  have hsub := (deleteFrom_sublist (delimiterLength delims) 0 t).filter fun c => !isSpace c
  rw [filter_of_strip_eq_nil h] at hsub
  exact List.sublist_nil.mp hsub

theorem flatMap_bare_keepDelimiters {ps : List Text}
    (h : Deletes (delimiterLength delims) ps) :
    (keepDelimiters ps).flatMap (bare delims) =
      (stretches ps).flatten.filter fun c => !isSpace c := by
  induction h with
  | last t h =>
      rw [keepDelimiters, stretches, List.flatten_singleton]
      split
      · next hblank => exact (filter_of_strip_eq_nil hblank).symm
      · rw [List.flatMap_singleton, bare, h]
  | cons t sep h hrest ih =>
      rw [keepDelimiters, stretches, List.flatten_cons, List.filter_append, ← ih]
      by_cases hnil : t = []
      · rw [if_pos hnil, hnil, List.filter_nil, List.nil_append]
      · rw [if_neg hnil]
        split
        · next hblank =>
            have hboth := filter_of_strip_eq_nil hblank
            rw [List.filter_append] at hboth
            rw [(List.append_eq_nil_iff.mp hboth).1, List.nil_append]
        · rw [List.flatMap_cons, bare, h]

/-- The pieces keep the text but for delimiters and white space. -/
theorem flatMap_bare_split (delims : List Text) (t : Text) :
    (keepDelimiters (splitMatches (delimiterLength delims) t)).flatMap (bare delims) =
      bare delims t := by
  have hdeletes : Deletes (delimiterLength delims) (splitMatches (delimiterLength delims) t) :=
    deletes_splitFrom (localMatch_delimiterLength delims) fun s hs hne =>
      absurd (List.suffix_nil.mp hs) hne
  rw [flatMap_bare_keepDelimiters hdeletes, bare, splitMatches, ← deleteFrom_eq_stretches]
  rfl

end Delimiters

end RagFlow.Chunking
