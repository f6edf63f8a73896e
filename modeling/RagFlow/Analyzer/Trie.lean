/-
# The dictionary of the analyzer

Strings are sequences of Unicode characters, as well-formed UTF-8 has them, and their size is
their number of bytes. The trie holds the words of a dictionary with their encoded frequencies,
and the words reversed.
-/

import RagFlow.Math.Dict
import Mathlib.Algebra.Field.Rat

namespace RagFlow.Analyzer

open RagFlow.Math

/-- A `std::string`. -/
abbrev Text := List Char

/-- What the trie stores for a word, an `int32_t`. -/
abbrev Value := BitVec 32

/-! ## Strings -/

/-- `std::string::size`. -/
def byteSize (s : Text) : ℕ := (s.map Char.utf8Size).sum

def UTF8Length (s : Text) : ℕ := s.length

def UTF8Substr (s : Text) (start len : ℕ) : Text := (s.drop start).take len

/-- `ToLowerString`, which changes ASCII letters only. -/
def toLowerString (s : Text) : Text := s.map Char.toLower

/-- `Join`: the tokens from `start` to before `stop`, which are read without a check. -/
def join (tokens : List Text) (start stop : ℕ) (delim : Text) : Option Text :=
  if start < stop ∧ tokens.length < stop then none
  else some (delim.intercalate ((tokens.take stop).drop start))

/-! ## Encoded frequencies -/

def encode (freq idx : ℤ) : Value :=
  (if freq < 0 then BitVec.ofInt 32 (-freq) ||| 1#32 <<< 23
    else BitVec.ofInt 32 freq &&& 0x7FFFFF#32) ||| BitVec.ofInt 32 idx <<< 24

def decodeFreq (value : Value) : ℤ :=
  let v1 := value &&& 0xFFFFFF#32
  if v1 &&& 1#32 <<< 23 ≠ 0 then -((v1 &&& 0x7FFFFF#32).toNat : ℤ) else v1.toNat

/-! ## The trie -/

/-- The trie, and the rounding of numbers to doubles. -/
structure Tables where
  trie : Dict Text Value
  double : ℚ → ℚ

/-- `Key`. -/
def key (line : Text) : Text := toLowerString line

/-- `RKey`: the characters in reverse, after a mark that no lower-case key starts with. -/
def rKey (line : Text) : Text := ['D', 'D'] ++ toLowerString line.reverse

/-- The trie that `Load` builds from the words of a dictionary. -/
def loadTrie (words : List (Text × Value)) : Dict Text Value :=
  words.foldl (fun trie w => (trie.set w.1 w.2).set (rKey w.1) (encode 1 0)) .empty

namespace Tables

variable (tables : Tables)

/-- `DartsTrie::Get`, with -1 for no entry. -/
def get (k : Text) : Value := (tables.trie.get? k).getD (-1)

def hasKeysWithPrefix (k : Text) : Bool := tables.trie.entries.any fun e => k.isPrefixOf e.1

end Tables

/-- The score of tokens: few of them, few short ones, and frequent ones. Without tokens it is no
number. -/
def score (tables : Tables) (tokenFreqs : List (Text × Value)) : Option ℚ :=
  let B : ℚ := 30
  let F : ℤ := (tokenFreqs.map fun tf => decodeFreq tf.2).sum
  let L : ℕ := tokenFreqs.countP fun tf => 2 ≤ UTF8Length tf.1
  if tokenFreqs = [] then none
  else
    let size : ℚ := tokenFreqs.length
    some (tables.double (tables.double (tables.double (B / size) + tables.double (L / size)) + F))

end RagFlow.Analyzer
