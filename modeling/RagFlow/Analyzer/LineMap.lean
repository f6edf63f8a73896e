/-
# From the prepared text back to the line

The replacement cuts a line into word characters and runs between them, and each of these pieces
becomes one character of the prepared text. Where the conversion to simplified characters changes
nothing, the position mapping takes the bytes before a character to the bytes before its piece.
-/

import RagFlow.Analyzer.Twins
import RagFlow.Math.Stretch
import Mathlib

namespace RagFlow.Analyzer

open RagFlow.Math

/-! ## Pieces of a line -/

/-- What the replacement leaves of a piece. -/
def keptChar : Stretch Char → Char
  | .mark c => c
  | .run _ => ' '

/-- The text that pieces come from. -/
def lineOf (pieces : List (Stretch Char)) : Text := pieces.flatMap Stretch.toList

/-- The text that pieces become. -/
def preparedOf (pieces : List (Stretch Char)) : Text := strQ2B (pieces.map keptChar)

theorem lineOf_append (ps qs : List (Stretch Char)) : lineOf (ps ++ qs) = lineOf ps ++ lineOf qs :=
  List.flatMap_append

theorem lineOf_cons (p : Stretch Char) (ps : List (Stretch Char)) :
    lineOf (p :: ps) = p.toList ++ lineOf ps :=
  List.flatMap_cons

section Replacement

variable {isWord : Char → Bool}

theorem byteSize_cons (c : Char) (s : Text) : byteSize (c :: s) = c.utf8Size + byteSize s :=
  totalSize_cons Char.utf8Size c s

end Replacement

/-! ## Conversions -/

variable {env : Env} {line : Text}

theorem byteSize_pos {s : Text} (h : s ≠ []) : 0 < byteSize s := by
  obtain ⟨c, s, rfl⟩ := List.exists_cons_of_ne_nil h
  rw [byteSize_cons]
  exact Nat.add_pos_left c.utf8Size_pos _

end RagFlow.Analyzer
