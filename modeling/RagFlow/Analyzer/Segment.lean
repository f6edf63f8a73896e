/-
# Segmentation

`MaxForward` and `MaxBackward` cut a text greedily from either end, and `TokenizeInner` walks both
segmentations in step. Where they differ, the text between is cut again by `DFS`, which tries the
words of the dictionary up to a depth.
-/

import RagFlow.Analyzer.Trie

namespace RagFlow.Analyzer

variable (tables : Tables)

/-! ## The greedy segmentations -/

/-- A token with its entry, or with zero. -/
def greedyToken (t : Text) : Text × Value :=
  let v := tables.get (key t)
  if v ≠ -1 then (t, v) else (t, 0)

section Greedy

variable (line : Text)

/-- The first loop of `MaxForward`: while some key starts with the characters from `s` to `e`. -/
def extendRight (s e : ℕ) : ℕ :=
  if e < UTF8Length line ∧ tables.hasKeysWithPrefix (key (UTF8Substr line s (e - s))) then
    extendRight s (e + 1)
  else e
termination_by line.length - e
decreasing_by simp only [UTF8Length] at *; omega

/-- The second loop of `MaxForward`: back to a word, or to one character. -/
def shrinkRight (s : ℕ) : ℕ → ℕ
  | 0 => 0
  | e + 1 =>
    if s < e ∧ tables.get (key (UTF8Substr line s (e + 1 - s))) = -1 then shrinkRight s e
    else e + 1

theorem lt_shrinkRight {s e : ℕ} (h : s < e) : s < shrinkRight tables line s e := by
  induction e with
  | zero => omega
  | succ e ih =>
      rw [shrinkRight]
      split_ifs with hshort
      · exact ih hshort.1
      · exact h

theorem shrinkRight_le (s e : ℕ) : shrinkRight tables line s e ≤ e := by
  induction e with
  | zero => rw [shrinkRight]
  | succ e ih =>
      rw [shrinkRight]
      split_ifs
      · omega
      · exact le_rfl

theorem le_extendRight (s e : ℕ) : e ≤ extendRight tables line s e := by
  induction e using extendRight.induct tables line s with
  | case1 e h ih =>
      rw [extendRight, if_pos h]
      omega
  | case2 e h =>
      rw [extendRight, if_neg h]

theorem extendRight_le {s e : ℕ} (h : e ≤ line.length) :
    extendRight tables line s e ≤ line.length := by
  induction e using extendRight.induct tables line s with
  | case1 e hlong ih =>
      rw [extendRight, if_pos hlong]
      exact ih hlong.1
  | case2 e hlong =>
      rw [extendRight, if_neg hlong]
      exact h

/-- The loop of `MaxForward` from `s` on. -/
def forwardFrom (s : ℕ) : List (Text × Value) :=
  if h : s < UTF8Length line then
    have := lt_shrinkRight tables line
      (Nat.lt_of_lt_of_le (Nat.lt_succ_self s) (le_extendRight tables line s (s + 1)))
    have := (shrinkRight_le tables line s (extendRight tables line s (s + 1))).trans
      (extendRight_le tables line h)
    let e := shrinkRight tables line s (extendRight tables line s (s + 1))
    greedyToken tables (UTF8Substr line s (e - s)) :: forwardFrom e
  else []
termination_by line.length - s
decreasing_by simp only [UTF8Length] at h; omega

def maxForward : List Text := (forwardFrom tables line 0).map Prod.fst

/-- The first loop of `MaxBackward`: while some key starts with the characters from `s` to `e` in
reverse. -/
def extendLeft (e : ℕ) : ℕ → ℕ
  | 0 => 0
  | s + 1 =>
    if tables.hasKeysWithPrefix (rKey (UTF8Substr line (s + 1) (e - (s + 1)))) then extendLeft e s
    else s + 1

/-- The second loop of `MaxBackward`. -/
def shrinkLeft (e s : ℕ) : ℕ :=
  if s + 1 < e ∧ tables.get (key (UTF8Substr line s (e - s))) = -1 then shrinkLeft e (s + 1) else s
termination_by e - s
decreasing_by omega

theorem extendLeft_le (e s : ℕ) : extendLeft tables line e s ≤ s := by
  induction s with
  | zero => rw [extendLeft]
  | succ s ih =>
      rw [extendLeft]
      split_ifs
      · omega
      · exact le_rfl

theorem shrinkLeft_lt {e s : ℕ} (h : s < e) : shrinkLeft tables line e s < e := by
  induction s using shrinkLeft.induct tables line e with
  | case1 s hlong ih =>
      rw [shrinkLeft, if_pos hlong]
      exact ih hlong.1
  | case2 s hlong =>
      rw [shrinkLeft, if_neg hlong]
      exact h

/-- The loop of `MaxBackward`, whose `s` is before `e`. -/
def backwardFrom (e : ℕ) : List (Text × Value) :=
  if h : 0 < e then
    have := shrinkLeft_lt tables line
      (Nat.lt_of_le_of_lt (extendLeft_le tables line e (e - 1)) (Nat.sub_lt h Nat.one_pos))
    let s := shrinkLeft tables line e (extendLeft tables line e (e - 1))
    greedyToken tables (UTF8Substr line s (e - s)) :: backwardFrom s
  else []
termination_by e

def maxBackward : List Text :=
  ((backwardFrom tables line (UTF8Length line)).reverse).map Prod.fst

end Greedy

/-! ## The search -/

def MAX_DFS_DEPTH : ℕ := 10

/-- What a search has found: all segmentations, or else the best one and its score. -/
structure Found where
  tokenList : List (List (Text × Value))
  bestTokens : List Text
  maxScore : Option ℚ

/-- The variables that a search starts with. -/
def Found.start : Found := { tokenList := [], bestTokens := [], maxScore := none }

/-- Record a segmentation. No number is greater than one that is none. -/
def record (memoAll : Bool) (preTokens : List (Text × Value)) (found : Found) : Found :=
  if memoAll then { found with tokenList := found.tokenList ++ [preTokens] }
  else
    match score tables preTokens with
    | none => found
    | some currentScore =>
      if ∀ best ∈ found.maxScore, best < currentScore then
        { found with bestTokens := preTokens.map Prod.fst, maxScore := some currentScore }
      else found

section Search

variable (chars : Text)

/-- Where the words from `s` start to be tried. -/
def firstEnd (s : ℕ) (preTokens : List (Text × Value)) : ℕ :=
  let pruned := if s + 2 ≤ UTF8Length chars ∧
      tables.hasKeysWithPrefix (key (UTF8Substr chars s 1)) ∧
      ¬ tables.hasKeysWithPrefix (key (UTF8Substr chars s 2)) then s + 2 else s + 1
  match preTokens.reverse with
  | last :: before :: first :: _ =>
    if UTF8Length last.1 = 1 ∧ UTF8Length before.1 = 1 ∧ UTF8Length first.1 = 1 ∧
        tables.hasKeysWithPrefix (key (last.1 ++ UTF8Substr chars s 1)) then s + 2 else pruned
  | _ => pruned

/-- The words that are tried from `s` on, with their ends; the loop breaks where no key goes on. -/
def tried (s : ℕ) (preTokens : List (Text × Value)) : List (ℕ × Text × Value) :=
  let S := firstEnd tables chars s preTokens
  ((List.range' S (UTF8Length chars + 1 - S)).takeWhile fun e =>
      e ≤ s + 1 || tables.hasKeysWithPrefix (key (UTF8Substr chars s (e - s)))).filterMap fun e =>
    let t := UTF8Substr chars s (e - s)
    let v := tables.get (key t)
    if v ≠ -1 then some (e, t, v) else none

/-- The character that is taken where no word is. -/
def singleToken (s : ℕ) : Text × Value :=
  let t := UTF8Substr chars s 1
  let v := tables.get (key t)
  if v ≠ -1 then (t, v) else (t, encode (-12) 0)

/-- `DFS` with the levels that are left to it, `MAX_DFS_DEPTH + 1 - depth`. It returns how far it
came. -/
def dfs (memoAll : Bool) : ℕ → ℕ → List (Text × Value) → Found → ℕ × Found
  | 0, s, preTokens, found =>
    let len := UTF8Length chars
    (len, if s < len then
        record tables memoAll (preTokens ++ [(UTF8Substr chars s (len - s), encode (-12) 0)]) found
      else found)
  | levels + 1, s, preTokens, found =>
    if UTF8Length chars ≤ s then (s, record tables memoAll preTokens found)
    else
      let deepest := (tried tables chars s preTokens).foldl (fun (res, found) (e, t, v) =>
        let child := dfs memoAll levels e (preTokens ++ [(t, v)]) found
        (max res child.1, child.2)) (s, found)
      if s < deepest.1 then deepest
      else dfs memoAll levels (s + 1) (preTokens ++ [singleToken tables chars s]) deepest.2

end Search

/-! ## Both segmentations in step -/

/-- The result of `TokenizeInner`, and the searches that it made with what they found. -/
structure Inner where
  res : List Text
  searches : List (Text × List Text)

/-- Search a text from its start, and append the best segmentation. -/
def Inner.search (out : Inner) (strForDfs : Text) : Inner :=
  let best := (dfs tables strForDfs false (MAX_DFS_DEPTH + 1) 0 [] .start).2.bestTokens
  { res := out.res ++ [[' '].intercalate best]
    searches := out.searches ++ [(strForDfs, best)] }

def Inner.push (out : Inner) (token : Text) : Inner := { out with res := out.res ++ [token] }

section Walk

variable (tks1 tks : List Text)

/-- The loop that counts equal tokens. -/
def countSame (i j same : ℕ) : ℕ :=
  if i + same < tks1.length ∧ j + same < tks.length ∧ tks1[i + same]? = tks[j + same]? then
    countSame i j (same + 1)
  else same
termination_by tks.length - same
decreasing_by omega

/-- The loop over both segmentations; `i₀` and `j₀` are where the tokens begin that have not been
appended yet. -/
def walk (i j i₀ j₀ : ℕ) (out : Inner) : Option (ℕ × ℕ × Inner) :=
  if i < tks1.length ∧ j < tks.length then do
    let tk1 ← join tks1 i₀ i []
    let tk ← join tks j₀ j []
    if tk1 ≠ tk then
      if byteSize tk < byteSize tk1 then walk i (j + 1) i₀ j₀ out
      else walk (i + 1) j i₀ j₀ out
    else if tks1[i]? ≠ tks[j]? then walk (i + 1) (j + 1) i₀ j₀ out
    else do
      let same := countSame tks1 tks i j 1
      let token ← join tks j (j + same) [' ']
      walk (i + same + 1) (j + same + 1) (i + same) (j + same)
        ((out.search tables tk).push token)
  else some (i₀, j₀, out)
termination_by (tks1.length - i) + (tks.length - j)
decreasing_by all_goals omega

end Walk

/-- `TokenizeInner`; there is no result if a segmentation is read past its end. -/
def tokenizeInner (L : Text) : Option Inner := do
  let tks := maxForward tables L
  let tks1 := maxBackward tables L
  let same := countSame tks1 tks 0 0 0
  let token ← join tks 0 same [' ']
  let out : Inner := { res := if 0 < same then [token] else [], searches := [] }
  let (i₀, j₀, out) ← walk tables tks1 tks (same + 1) (same + 1) same same out
  if i₀ < tks1.length then do
    let strForDfs ← join tks j₀ tks.length []
    some (out.search tables strForDfs)
  else some out

end RagFlow.Analyzer
