/-
# Longest matches of the dictionary

The trie that `Load` builds has each word of a dictionary, in lower case, and each word reversed
after a mark. Both greedy loops extend while some key goes on, which takes them past every word at
their place, and then go back to the longest one.
-/

import RagFlow.Analyzer.Conservation
import RagFlow.Math.LongestMatch
import Mathlib

namespace RagFlow.Analyzer

open RagFlow.Math

/-! ## Dictionaries -/

/-- A line of the dictionary in lower case: its frequency is the rounded logarithm of a positive
count over `DENOMINATOR`, and its part of speech an index. -/
structure DictLine where
  word : Text
  freq : ℤ
  posIdx : ℤ
  lower : key word = word
  freq_ge : -13 ≤ freq

/-- What `Load` adds for a line, but for the word reversed. -/
def DictLine.entry (w : DictLine) : Text × Value := (w.word, encode w.freq w.posIdx)

def Load (dict : List DictLine) : Dict Text Value := loadTrie (dict.map DictLine.entry)

/-- The lines of the dictionary have the text in lower case. -/
def IsWord (dict : List DictLine) (t : Text) : Prop := ∃ w ∈ dict, w.word = key t

/-! ### Keys -/

theorem key_ne_rKey (t w : Text) : key t ≠ rKey w := by
  intro h
  cases t with
  | nil => exact List.cons_ne_nil _ _ h.symm
  | cons c t =>
      have hc : c.toLower = 'D' := (List.cons.inj h).1
      have hupper : c.toLower.isUpper = false := Char.isUpper_toLower_eq_false c
      rw [hc] at hupper
      exact absurd hupper (by decide)

theorem key_isPrefix {u t : Text} (h : u <+: t) : key u <+: key t := h.map _

/-- What a text ends with starts its reversed key. -/
theorem rKey_isPrefix {u t : Text} (h : u <:+ t) : rKey u <+: rKey t :=
  (List.prefix_append_right_inj _).mpr ((List.reverse_prefix.mpr h).map _)

/-- A word in lower case has the reversed key of each text that it is the key of. -/
theorem rKey_eq {w t : Text} (hlower : key w = w) (h : w = key t) : rKey w = rKey t := by
  have hreverse : ∀ u : Text, toLowerString u.reverse = (key u).reverse := fun u =>
    List.map_reverse
  rw [rKey, rKey, hreverse, hreverse, hlower, h]

/-! ### Entries -/

/-- No entry of a line is the value that `Get` has for none. -/
theorem encode_ne_miss {freq : ℤ} (idx : ℤ) (h : -13 ≤ freq) : encode freq idx ≠ -1 := by
  intro hmiss
  by_cases hneg : freq < 0
  · -- The frequency leaves bit 22 free.
    have hbit : (encode freq idx).getLsbD 22 = true := by rw [hmiss]; decide
    rw [encode, if_pos hneg] at hbit
    simp only [BitVec.getLsbD_or, BitVec.getLsbD_shiftLeft] at hbit
    interval_cases freq <;> simp at hbit
  · have hbit : (encode freq idx).getLsbD 23 = true := by rw [hmiss]; decide
    rw [encode, if_neg hneg] at hbit
    simp at hbit

/-- What `Load` does with one line. -/
def addWord (trie : Dict Text Value) (w : Text × Value) : Dict Text Value :=
  (trie.set w.1 w.2).set (rKey w.1) (encode 1 0)

theorem loadTrie_concat (words : List (Text × Value)) (w : Text × Value) :
    loadTrie (words ++ [w]) = addWord (loadTrie words) w :=
  List.foldl_concat ..

theorem mem_loadTrie {words : List (Text × Value)} {k : Text} :
    k ∈ loadTrie words ↔ ∃ w ∈ words, k = w.1 ∨ k = rKey w.1 := by
  induction words using List.reverseRecOn with
  | nil =>
      refine iff_of_false ?_ (by simp)
      exact List.not_mem_nil
  | append_singleton words w ih =>
      rw [loadTrie_concat, addWord, Dict.mem_set, Dict.mem_set, ih]
      simp only [List.mem_append, List.mem_singleton, or_and_right, exists_or, exists_eq_left]
      rw [← or_assoc, or_comm, or_comm (a := k = rKey w.1)]

/-- The trie has the values of the lines, and the one of the reversed words. -/
theorem get?_loadTrie {words : List (Text × Value)} {k : Text} {v : Value}
    (h : (loadTrie words).get? k = some v) : v = encode 1 0 ∨ ∃ w ∈ words, v = w.2 := by
  induction words using List.reverseRecOn generalizing v with
  | nil => cases h
  | append_singleton words w ih =>
      rw [loadTrie_concat, addWord, Dict.get?_set, Dict.get?_set] at h
      split_ifs at h
      · exact .inl (Option.some.inj h).symm
      · exact .inr ⟨w, by simp, (Option.some.inj h).symm⟩
      · rcases ih h with hmark | ⟨w', hw', hv⟩
        · exact .inl hmark
        · exact .inr ⟨w', List.mem_append_left _ hw', hv⟩

section Loaded

variable (dict : List DictLine) (tables : Tables) (hload : tables.trie = Load dict)

include hload

/-- `Get` tells the words. -/
theorem get_ne_miss_iff (t : Text) : tables.get (key t) ≠ -1 ↔ IsWord dict t := by
  have hmem : key t ∈ tables.trie ↔ IsWord dict t := by
    rw [hload, Load, mem_loadTrie]
    simp only [List.mem_map, exists_exists_and_eq_and]
    refine exists_congr fun w => and_congr_right fun _ => ?_
    rw [or_iff_left (key_ne_rKey t _)]
    exact eq_comm
  rw [← hmem, Dict.mem_iff_isSome, Tables.get]
  cases hget : tables.trie.get? (key t) with
  | none => simp
  | some v =>
      rw [hload] at hget
      refine iff_of_true ?_ rfl
      rcases get?_loadTrie hget with rfl | ⟨w, hw, rfl⟩
      · decide
      · obtain ⟨line, -, rfl⟩ := List.mem_map.mp hw
        exact encode_ne_miss _ line.freq_ge

theorem hasKeysWithPrefix_of_mem {k k' : Text} (h : k <+: k') (hmem : k' ∈ Load dict) :
    tables.hasKeysWithPrefix k = true := by
  rw [← hload, Dict.mem_iff, Dict.mem_keys_iff_exists] at hmem
  obtain ⟨v, hv⟩ := hmem
  exact List.any_eq_true.mpr ⟨(k', v), hv, List.isPrefixOf_iff_prefix.mpr h⟩

/-- Some key starts with what a word starts with. -/
theorem hasKeysWithPrefix_key {u t : Text} (h : u <+: t) (ht : IsWord dict t) :
    tables.hasKeysWithPrefix (key u) = true := by
  obtain ⟨w, hw, heq⟩ := ht
  apply hasKeysWithPrefix_of_mem dict tables hload (key_isPrefix h)
  exact mem_loadTrie.mpr ⟨w.entry, List.mem_map_of_mem hw, .inl heq.symm⟩

/-- Some reversed key starts with what a word ends with, reversed. -/
theorem hasKeysWithPrefix_rKey {u t : Text} (h : u <:+ t) (ht : IsWord dict t) :
    tables.hasKeysWithPrefix (rKey u) = true := by
  obtain ⟨w, hw, heq⟩ := ht
  apply hasKeysWithPrefix_of_mem dict tables hload (rKey_isPrefix h)
  exact mem_loadTrie.mpr ⟨w.entry, List.mem_map_of_mem hw, .inr (rKey_eq w.lower heq).symm⟩

end Loaded

/-! ## Slices -/

section Slices

variable {line : Text} {s e m : ℕ}

theorem length_substr (he : e ≤ line.length) : (UTF8Substr line s (e - s)).length = e - s := by
  rw [UTF8Substr, List.length_take, List.length_drop]
  omega

theorem substr_eq_drop : UTF8Substr line s (e - s) = (line.take e).drop s :=
  List.drop_take.symm

theorem substr_isPrefix (hm : m ≤ e) : UTF8Substr line s (m - s) <+: UTF8Substr line s (e - s) :=
  List.take_prefix_take_left (Nat.sub_le_sub_right hm s)

theorem substr_isSuffix (hm : s ≤ m) : UTF8Substr line m (e - m) <:+ UTF8Substr line s (e - s) := by
  rw [substr_eq_drop, substr_eq_drop]
  exact List.drop_suffix_drop_left _ hm

/-- What a line goes on with from `s` is a slice. -/
theorem eq_substr_of_isPrefix {u : Text} (h : u <+: line.drop s) :
    u = UTF8Substr line s (s + u.length - s) := by
  rw [Nat.add_sub_cancel_left]
  exact List.prefix_iff_eq_take.mp h

/-- What a line ends with at `e` is a slice. -/
theorem eq_substr_of_isSuffix (he : e ≤ line.length) {u : Text} (h : u <:+ line.take e) :
    u = UTF8Substr line (e - u.length) (e - (e - u.length)) := by
  rw [substr_eq_drop]
  have hu := List.suffix_iff_eq_drop.mp h
  rwa [List.length_take, Nat.min_eq_left he] at hu

end Slices

/-! ## The loops -/

section Loops

variable (dict : List DictLine) (tables : Tables) (hload : tables.trie = Load dict) (line : Text)
  {s e m : ℕ}

include hload in
/-- The first loop of `MaxForward` passes the ends of all words. -/
theorem le_extendRight_of_isWord (he : e ≤ m) (hm : m ≤ line.length)
    (hword : IsWord dict (UTF8Substr line s (m - s))) : m ≤ extendRight tables line s e := by
  induction e using extendRight.induct tables line s with
  | case1 e hlong ih =>
      rw [extendRight, if_pos hlong]
      rcases he.eq_or_lt with rfl | hlt
      · exact (Nat.le_succ _).trans (le_extendRight tables line s _)
      · exact ih hlt
  | case2 e hlong =>
      rw [extendRight, if_neg hlong]
      by_contra hlt
      have hslice : UTF8Substr line s (e - s) <+: UTF8Substr line s (m - s) := substr_isPrefix he
      have hgoes := hasKeysWithPrefix_key dict tables hload hslice hword
      have hlast : e < line.length := by omega
      exact hlong ⟨hlast, hgoes⟩

/-- The second loop of `MaxForward` stops at a word or at one character, and skips no word. -/
theorem shrinkRight_spec (h : s < e) :
    (tables.get (key (UTF8Substr line s (shrinkRight tables line s e - s))) ≠ -1 ∨
      shrinkRight tables line s e = s + 1) ∧
    ∀ m, shrinkRight tables line s e < m → m ≤ e →
      tables.get (key (UTF8Substr line s (m - s))) = -1 := by
  induction e with
  | zero => omega
  | succ e ih =>
      rw [shrinkRight]
      split_ifs with hshort
      · obtain ⟨hstop, hskipped⟩ := ih hshort.1
        refine ⟨hstop, fun m hlt hle => ?_⟩
        rcases hle.eq_or_lt with rfl | hle
        · exact hshort.2
        · exact hskipped m hlt (Nat.le_of_lt_succ hle)
      · refine ⟨?_, fun m hlt hle => absurd hle (Nat.not_le.mpr hlt)⟩
        by_contra hneither
        rw [not_or, not_not] at hneither
        exact hshort ⟨by omega, hneither.1⟩

include hload in
/-- The token of `MaxForward` at `s` is the longest match there. -/
theorem longestMatch_right (hs : s < line.length) :
    LongestMatch (IsWord dict) (· <+: line.drop s) (UTF8Substr line s
      (shrinkRight tables line s (extendRight tables line s (s + 1)) - s)) := by
  have hext : s < extendRight tables line s (s + 1) := le_extendRight tables line s (s + 1)
  have hend : shrinkRight tables line s (extendRight tables line s (s + 1)) ≤ line.length :=
    (shrinkRight_le tables line s _).trans (extendRight_le tables line hs)
  have hpos := lt_shrinkRight tables line hext
  obtain ⟨hstop, hskipped⟩ := shrinkRight_spec tables line hext
  generalize hlast : shrinkRight tables line s (extendRight tables line s (s + 1)) = last at *
  have hlength := length_substr (s := s) hend
  have hstarts : UTF8Substr line s (last - s) <+: line.drop s := List.take_prefix _ _
  apply LongestMatch.of_scan (C := (· <+: line.drop s)) hstarts (substr_ne_nil hpos hend)
  · rcases hstop with hword | hone
    · exact .inl ((get_ne_miss_iff dict tables hload _).mp hword)
    · right
      omega
  · intro u hu hlonger hword
    have hslice := eq_substr_of_isPrefix hu
    have hfits := hu.length_le
    rw [List.length_drop] at hfits
    rw [hslice] at hword
    have hle := le_extendRight_of_isWord dict tables hload line (e := s + 1) (by omega)
      (by omega) hword
    exact (get_ne_miss_iff dict tables hload _).mpr hword (hskipped _ (by omega) hle)
  · intro u hu hsame
    exact (List.prefix_of_prefix_length_le hu hstarts hsame.le).eq_of_length hsame

include hload in
/-- The first loop of `MaxBackward` passes the starts of all words. -/
theorem extendLeft_le_of_isWord (hs : m ≤ s)
    (hword : IsWord dict (UTF8Substr line m (e - m))) : extendLeft tables line e s ≤ m := by
  induction s with
  | zero =>
      rw [extendLeft]
      exact Nat.zero_le m
  | succ s ih =>
      rw [extendLeft]
      split_ifs with hlong
      · rcases hs.eq_or_lt with rfl | hlt
        · exact (extendLeft_le tables line e s).trans (Nat.le_succ s)
        · exact ih (Nat.le_of_lt_succ hlt)
      · exact absurd (hasKeysWithPrefix_rKey dict tables hload (substr_isSuffix hs) hword) hlong

/-- The second loop of `MaxBackward` stops at a word or at one character, and skips no word. -/
theorem shrinkLeft_spec (h : s < e) :
    (tables.get (key (UTF8Substr line (shrinkLeft tables line e s)
        (e - shrinkLeft tables line e s))) ≠ -1 ∨ shrinkLeft tables line e s + 1 = e) ∧
    ∀ m, s ≤ m → m < shrinkLeft tables line e s →
      tables.get (key (UTF8Substr line m (e - m))) = -1 := by
  induction s using shrinkLeft.induct tables line e with
  | case1 s hlong ih =>
      obtain ⟨hstop, hskipped⟩ := ih hlong.1
      rw [shrinkLeft, if_pos hlong]
      refine ⟨hstop, fun m hle hlt => ?_⟩
      rcases hle.eq_or_lt with rfl | hle
      · exact hlong.2
      · exact hskipped m hle hlt
  | case2 s hlong =>
      rw [shrinkLeft, if_neg hlong]
      refine ⟨?_, fun m hle hlt => absurd hlt (Nat.not_lt.mpr hle)⟩
      by_contra hneither
      rw [not_or, not_not] at hneither
      exact hlong ⟨by omega, hneither.1⟩

include hload in
/-- The token of `MaxBackward` before `e` is the longest match there. -/
theorem longestMatch_left (hpos : 0 < e) (he : e ≤ line.length) :
    LongestMatch (IsWord dict) (· <:+ line.take e) (UTF8Substr line
      (shrinkLeft tables line e (extendLeft tables line e (e - 1)))
      (e - shrinkLeft tables line e (extendLeft tables line e (e - 1)))) := by
  have hext : extendLeft tables line e (e - 1) < e :=
    (extendLeft_le tables line e (e - 1)).trans_lt (Nat.sub_lt hpos Nat.one_pos)
  have hlt := shrinkLeft_lt tables line hext
  obtain ⟨hstop, hskipped⟩ := shrinkLeft_spec tables line hext
  generalize hfirst : shrinkLeft tables line e (extendLeft tables line e (e - 1)) = first at *
  have hlength := length_substr (s := first) he
  have hends : UTF8Substr line first (e - first) <:+ line.take e := by
    rw [substr_eq_drop]
    exact List.drop_suffix _ _
  apply LongestMatch.of_scan (C := (· <:+ line.take e)) hends (substr_ne_nil hlt he)
  · rcases hstop with hword | hone
    · exact .inl ((get_ne_miss_iff dict tables hload _).mp hword)
    · right
      omega
  · intro u hu hlonger hword
    have hslice := eq_substr_of_isSuffix he hu
    have hfits := hu.length_le
    rw [List.length_take] at hfits
    rw [hslice] at hword
    have hle := extendLeft_le_of_isWord dict tables hload line (s := e - 1) (by omega) hword
    exact (get_ne_miss_iff dict tables hload _).mpr hword (hskipped _ hle (by omega))
  · intro u hu hsame
    exact (List.suffix_of_suffix_length_le hu hends hsame.le).eq_of_length hsame

include hload in
theorem forwardFrom_cuts (s : ℕ) :
    CutsForward (IsWord dict) ((forwardFrom tables line s).map Prod.fst) := by
  induction s using forwardFrom.induct tables line with
  | case1 s h hlt hle last ih =>
      have hrest := forwardFrom_isSegmentation tables line s
      rw [forwardFrom, dif_pos h, List.map_cons, greedyToken_fst] at hrest ⊢
      apply ih.cons
      rw [hrest.flatten]
      exact longestMatch_right dict tables hload line h
  | case2 s h =>
      rw [forwardFrom, dif_neg h]
      exact cutsForward_nil

include hload in
theorem backwardFrom_cuts (e : ℕ) (he : e ≤ line.length) :
    CutsBackward (IsWord dict) ((backwardFrom tables line e).reverse.map Prod.fst) := by
  induction e using backwardFrom.induct tables line with
  | case1 e h hlt first ih =>
      have hrest := backwardFrom_isSegmentation tables line e he
      rw [backwardFrom, dif_pos h, List.reverse_cons, List.map_append, List.map_singleton,
        greedyToken_fst] at hrest ⊢
      apply (ih (hlt.le.trans he)).concat
      rw [hrest.flatten]
      exact longestMatch_left dict tables hload line h he
  | case2 e h =>
      rw [backwardFrom, dif_neg h]
      exact cutsBackward_nil

end Loops

/-- With the trie of a dictionary, both greedy segmentations make up the line. `MaxForward` cuts
the longest word at each place, and `MaxBackward` the longest word that ends there; both cut one
character where there is none. -/
theorem greedy_longestMatch (dict : List DictLine) (double : ℚ → ℚ) (line : Text) :
    let tables : Tables := { trie := Load dict, double }
    (maxForward tables line).flatten = line ∧
      CutsForward (IsWord dict) (maxForward tables line) ∧
      (maxBackward tables line).flatten = line ∧
      CutsBackward (IsWord dict) (maxBackward tables line) := by
  intro tables
  refine ⟨(maxForward_isSegmentation tables line).flatten, ?_,
    (maxBackward_isSegmentation tables line).flatten, ?_⟩
  · exact forwardFrom_cuts dict tables rfl line 0
  · exact backwardFrom_cuts dict tables rfl line line.length le_rfl

end RagFlow.Analyzer
