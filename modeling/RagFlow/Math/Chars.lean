/-
# Statements about the characters of a text

What is said of all characters of a text, or of one of them, is decided by going through the text,
also where an instance is at hand that goes through all characters there are. The same holds for a
character that may be there or not.
-/

import Mathlib.Data.List.Basic

namespace RagFlow.Math

variable (p : Char → Prop) [DecidablePred p] (t : List Char)

instance (priority := high) decidableForallMem : Decidable (∀ c ∈ t, p c) :=
  List.decidableBAll p t

instance (priority := high) decidableExistsMem : Decidable (∃ c ∈ t, p c) :=
  List.decidableBEx p t

instance (priority := high) decidableForallMemOption (c : Option Char) :
    Decidable (∀ d ∈ c, p d) := Option.decidableForallMem c

/-- Two texts are compared character by character. -/
instance (priority := high) lawfulBEqText : LawfulBEq (List Char) := inferInstance

end RagFlow.Math
