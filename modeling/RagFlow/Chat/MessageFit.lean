/-
# Messages that fit into a context window

Messages are sent as they are if they have few enough tokens, else only the system messages
and the last one, and if that is still too much, one of these is cut. What is left over for
it is computed from the last message alone, also when the last message is the one to be cut.
-/

import RagFlow.Math.Double
import Mathlib.Algebra.BigOperators.Group.List.Basic

namespace RagFlow.Chat

open RagFlow.Math

universe u v

/-- An encoder of texts; `encode` is `none` where it raises. -/
structure Encoder (C : Type u) (T : Type v) where
  encode : C → Option (List T)
  decode : List T → C

/-- A message with a role. -/
structure Message (C : Type u) where
  role : String
  content : C

variable {C : Type u} {T : Type v} (enc : Encoder C T)

/-- `num_tokens_from_string` -/
def numTokens (text : C) : ℕ :=
  match enc.encode text with
  | some tokens => tokens.length
  | none => 0

/-- The total of `count`. -/
def count (msg : List (Message C)) : ℕ := (msg.map fun m => numTokens enc m.content).sum

def isSystem (m : Message C) : Bool := m.role = "system"

/-- `tokens[: k]` -/
def sliceTo (tokens : List T) (k : ℤ) : List T :=
  tokens.take (if 0 ≤ k then k else tokens.length + k).toNat

/-- `encoder.decode(encoder.encode(text)[: k])` -/
def cutTo (text : C) (k : ℤ) : Option C :=
  (enc.encode text).map fun tokens => enc.decode (sliceTo tokens k)

/-- `ll / (ll + ll2) > 0.8`, as numbers of double precision. -/
def Outweighs (ll ll2 : ℕ) : Prop :=
  binary64.nearest (4 / 5) < binary64.nearest ((ll : ℚ) / ((ll + ll2 : ℕ) : ℚ))

instance (ll ll2 : ℕ) : Decidable (Outweighs ll ll2) := by
  unfold Outweighs
  infer_instance

/-- The last stage of `message_fit_in`; `none` is an exception. -/
def cutMessages (msg : List (Message C)) (maxLength : ℤ) : Option (ℤ × List (Message C)) :=
  match msg.head?, msg.getLast? with
  | some first, some last =>
      let ll := numTokens enc first.content
      let ll2 := numTokens enc last.content
      if ll + ll2 = 0 then none
      else if Outweighs ll ll2 then
        (cutTo enc first.content (maxLength - ll2)).map fun m =>
          (maxLength, { first with content := m } :: msg.tail)
      else
        (cutTo enc last.content (maxLength - ll2)).map fun m =>
          (maxLength, msg.dropLast ++ [{ last with content := m }])
  | _, _ => none

/-- `message_fit_in`; `none` is an exception. -/
def messageFitIn (msg : List (Message C)) (maxLength : ℤ) : Option (ℤ × List (Message C)) :=
  if (count enc msg : ℤ) < maxLength then some (count enc msg, msg)
  else
    let kept := msg.filter isSystem ++ if 1 < msg.length then msg.getLast?.toList else []
    if (count enc kept : ℤ) < maxLength then some (count enc kept, kept)
    else cutMessages enc kept maxLength

/-! ### What is promised -/

/-- A message as it was, or with the first tokens of its content. -/
def Kept (m m' : Message C) : Prop :=
  m' = m ∨ m'.role = m.role ∧ ∃ tokens k, enc.encode m.content = some tokens ∧
    m'.content = enc.decode (tokens.take k)

/-- The messages fit, and those that are wanted are there in order, each as it was or cut; they
are cut only if they do not fit together. -/
structure FitsIn (wanted : List (Message C)) (maxLength : ℤ) (result : ℤ × List (Message C)) :
    Prop where
  fits : (count enc result.2 : ℤ) ≤ maxLength
  le_count : (count enc result.2 : ℤ) ≤ result.1
  kept : ∃ kept, List.Sublist kept result.2 ∧ List.Forall₂ (Kept enc) wanted kept
  uncut : (count enc wanted : ℤ) ≤ maxLength → List.Sublist wanted result.2

/-- What is documented of an encoder, and that a text that is cut to its first tokens has at
most so many. -/
structure Encoder.Additive : Prop where
  decode_encode : ∀ text tokens, enc.encode text = some tokens → enc.decode tokens = text
  numTokens_take : ∀ text tokens k, enc.encode text = some tokens →
    numTokens enc (enc.decode (tokens.take k)) ≤ k

/-- A text that is cut to its first tokens has just these. -/
def Encoder.Exact : Prop :=
  ∀ text tokens k, enc.encode text = some tokens →
    numTokens enc (enc.decode (tokens.take k)) = min k tokens.length

/-- When the last stage makes system messages with these counts and a last message with `ll2`
tokens fit. -/
def CutFits (counts : List ℕ) (ll2 : ℕ) (maxLength : ℤ) : Prop :=
  let ll := counts.headD ll2
  ll + ll2 ≠ 0 ∧
    if Outweighs ll ll2 then
      -- the first message is cut to what the last one leaves over: nothing else may be there
      (ll2 : ℤ) ≤ maxLength ∧ ((counts.sum + ll2 : ℤ) = maxLength ∨ counts.sum = ll)
    else
      -- the last message is cut to what it leaves over itself, or at the limit if it is longer
      2 * (ll2 : ℤ) ≤ maxLength ∧ (counts.sum + ll2 : ℤ) = maxLength ∨
        maxLength < 2 * ll2 ∧ maxLength < counts.sum + ll2 ∧
          counts.sum ≤ if (ll2 : ℤ) ≤ maxLength then ll2 else 0

/-- When the messages fit. -/
def Fitting (msg : List (Message C)) (last : Message C) (maxLength : ℤ) : Prop :=
  (count enc msg : ℤ) < maxLength ∨
    1 < msg.length ∧
      ((count enc (msg.filter isSystem ++ [last]) : ℤ) < maxLength ∨
        CutFits ((msg.filter isSystem).map fun m => numTokens enc m.content)
          (numTokens enc last.content) maxLength)

/-! ### The ratio -/

theorem not_outweighs_zero (ll2 : ℕ) : ¬ Outweighs 0 ll2 := by
  have hnonneg : (0 : ℚ) ≤ binary64.nearest (4 / 5) := Format.nearest_nonneg (by norm_num)
  have hzero : binary64.nearest 0 = 0 :=
    le_antisymm (Format.nearest_nonpos le_rfl) (Format.nearest_nonneg le_rfl)
  simpa [Outweighs, hzero] using hnonneg

theorem outweighs_zero_right {ll : ℕ} (h : 0 < ll) : Outweighs ll 0 := by
  have hratio : (ll : ℚ) / ((ll + 0 : ℕ) : ℚ) = 1 := by
    rw [Nat.add_zero]
    exact div_self (by exact_mod_cast h.ne')
  have hone : binary64.nearest 1 = 1 :=
    Format.nearest_of_on ⟨1, 0, by decide, by norm_num [binary64], by norm_num⟩
  have hbelow : binary64.nearest (7 / 8) = 7 / 8 :=
    Format.nearest_of_on ⟨7, -3, by decide, by norm_num [binary64], by norm_num⟩
  unfold Outweighs
  calc
    binary64.nearest (4 / 5) ≤ binary64.nearest (7 / 8) := Format.nearest_mono (by norm_num)
    _ = 7 / 8 := hbelow
    _ < 1 := by norm_num
    _ = binary64.nearest ((ll : ℚ) / ((ll + 0 : ℕ) : ℚ)) := by rw [hratio, hone]

theorem not_outweighs_self (ll : ℕ) : ¬ Outweighs ll ll := by
  rcases Nat.eq_zero_or_pos ll with rfl | hpos
  · exact not_outweighs_zero 0
  · have hne : (ll : ℚ) ≠ 0 := by exact_mod_cast hpos.ne'
    have hratio : (ll : ℚ) / ((ll + ll : ℕ) : ℚ) = 1 / 2 := by
      rw [Nat.cast_add]
      field_simp
      norm_num
    unfold Outweighs
    rw [hratio, not_lt]
    exact Format.nearest_mono (by norm_num)

/-! ### Cutting -/

variable {enc} {msg systems : List (Message C)} {first last : Message C} {maxLength : ℤ}
  {tokens : List T} {text : C} {k : ℤ}

@[simp]
theorem count_cons (m : Message C) (msg : List (Message C)) :
    count enc (m :: msg) = numTokens enc m.content + count enc msg := by
  simp [count]

@[simp]
theorem count_append (msg msg' : List (Message C)) :
    count enc (msg ++ msg') = count enc msg + count enc msg' := by
  simp [count]

@[simp]
theorem count_nil : count enc ([] : List (Message C)) = 0 := rfl

/-- Where there are tokens, there is no exception. -/
theorem exists_encode (h : 0 < numTokens enc text) : ∃ tokens, enc.encode text = some tokens ∧
    tokens.length = numTokens enc text := by
  unfold numTokens at *
  cases hencode : enc.encode text with
  | none => simp [hencode] at h
  | some tokens => exact ⟨tokens, rfl, by simp⟩

theorem cutTo_eq (h : enc.encode text = some tokens) :
    cutTo enc text k = some (enc.decode (sliceTo tokens k)) := by
  simp [cutTo, h]

theorem sliceTo_of_nonneg (h : 0 ≤ k) : sliceTo tokens k = tokens.take k.toNat := by
  simp [sliceTo, h]

theorem sliceTo_of_neg (h : k < 0) : sliceTo tokens k = tokens.take (tokens.length + k).toNat := by
  simp [sliceTo, not_le.mpr h]

theorem sliceTo_of_length_le (h : (tokens.length : ℤ) ≤ k) : sliceTo tokens k = tokens := by
  rw [sliceTo_of_nonneg (by omega)]
  exact List.take_of_length_le (by omega)

theorem kept_self (m : Message C) : Kept enc m m := .inl rfl

theorem kept_slice {m : Message C} (h : enc.encode m.content = some tokens) (k : ℤ) :
    Kept enc m { m with content := enc.decode (sliceTo tokens k) } :=
  .inr ⟨rfl, tokens, _, h, rfl⟩

theorem forall₂_kept_self (msg : List (Message C)) : List.Forall₂ (Kept enc) msg msg :=
  List.forall₂_same.mpr fun m _ => kept_self m

/-- The last stage, where the last message is known. -/
theorem cutMessages_concat (systems : List (Message C)) (last : Message C) (maxLength : ℤ) :
    cutMessages enc (systems ++ [last]) maxLength =
      if numTokens enc ((systems ++ [last]).headD last).content +
          numTokens enc last.content = 0 then none
      else if Outweighs (numTokens enc ((systems ++ [last]).headD last).content)
          (numTokens enc last.content) then
        (cutTo enc ((systems ++ [last]).headD last).content
          (maxLength - numTokens enc last.content)).map fun m =>
            (maxLength, { (systems ++ [last]).headD last with content := m } ::
              (systems ++ [last]).tail)
      else
        (cutTo enc last.content (maxLength - numTokens enc last.content)).map fun m =>
          (maxLength, systems ++ [{ last with content := m }]) := by
  have hlast : (systems ++ [last]).getLast? = some last := List.getLast?_concat
  have hhead : (systems ++ [last]).head? = some ((systems ++ [last]).headD last) := by
    cases systems <;> rfl
  rw [cutMessages, hhead, hlast, List.dropLast_concat]

/-- The first message is cut. -/
theorem cutMessages_first {s : Message C} (hencode : enc.encode s.content = some tokens)
    (houtweighs : Outweighs (numTokens enc s.content) (numTokens enc last.content)) :
    cutMessages enc (s :: systems ++ [last]) maxLength =
      some (maxLength,
        { s with content := enc.decode (sliceTo tokens (maxLength - numTokens enc last.content)) }
          :: (systems ++ [last])) := by
  have hne : numTokens enc s.content + numTokens enc last.content ≠ 0 := by
    intro hzero
    rw [(Nat.add_eq_zero_iff.mp hzero).1] at houtweighs
    exact not_outweighs_zero _ houtweighs
  rw [cutMessages_concat, List.cons_append, List.headD_cons, if_neg hne, if_pos houtweighs,
    cutTo_eq hencode]
  rfl

/-- The last message is cut. -/
theorem cutMessages_last (hencode : enc.encode last.content = some tokens)
    (hne : numTokens enc ((systems ++ [last]).headD last).content +
      numTokens enc last.content ≠ 0)
    (houtweighs : ¬ Outweighs (numTokens enc ((systems ++ [last]).headD last).content)
      (numTokens enc last.content)) :
    cutMessages enc (systems ++ [last]) maxLength =
      some (maxLength, systems ++ [{ last with
        content := enc.decode (sliceTo tokens (maxLength - numTokens enc last.content)) }]) := by
  rw [cutMessages_concat, if_neg hne, if_neg houtweighs, cutTo_eq hencode]
  rfl

/-! ### When the messages fit -/

theorem fitsIn_of_sublist {wanted result : List (Message C)} {c : ℤ}
    (hsub : List.Sublist wanted result) (hfits : (count enc result : ℤ) ≤ maxLength)
    (hle : (count enc result : ℤ) ≤ c) : FitsIn enc wanted maxLength (c, result) :=
  ⟨hfits, hle, ⟨wanted, hsub, forall₂_kept_self wanted⟩, fun _ => hsub⟩

/-- What is cut fits if the limit is what it was cut for. -/
theorem fitsIn_of_forall₂ {wanted result : List (Message C)}
    (hkept : List.Forall₂ (Kept enc) wanted result) (hfits : (count enc result : ℤ) ≤ maxLength)
    (hover : maxLength < count enc wanted) : FitsIn enc wanted maxLength (maxLength, result) :=
  ⟨hfits, hfits, ⟨result, .refl result, hkept⟩, fun hle => absurd hle (not_le.mpr hover)⟩

theorem headD_map_numTokens (systems : List (Message C)) (last : Message C) :
    (systems.map fun m => numTokens enc m.content).headD (numTokens enc last.content) =
      numTokens enc ((systems ++ [last]).headD last).content := by
  cases systems <;> rfl

theorem exists_cutMessages (hadd : enc.Additive) (hpos : 0 < maxLength)
    (hover : maxLength ≤ count enc (systems ++ [last]))
    (h : CutFits (systems.map fun m => numTokens enc m.content) (numTokens enc last.content)
      maxLength) :
    ∃ result, cutMessages enc (systems ++ [last]) maxLength = some result ∧
      FitsIn enc (systems ++ [last]) maxLength result := by
  obtain ⟨hne, hcut⟩ := h
  rw [headD_map_numTokens] at hne hcut
  change _ + _ ≠ 0 at hne
  rw [count_append, count_cons, count_nil] at hover
  have hcount : (systems.map fun m => numTokens enc m.content).sum = count enc systems := rfl
  rw [hcount] at hcut
  split at hcut
  · -- the first message is cut; it is not the last one
    rename_i houtweighs
    cases systems with
    | nil => exact absurd houtweighs (not_outweighs_self _)
    | cons s systems =>
        simp only [List.cons_append, List.headD_cons] at hne houtweighs hcut
        rw [count_cons] at hcut hover
        have hpos : 0 < numTokens enc s.content := by
          rw [Nat.pos_iff_ne_zero]
          intro hzero
          rw [hzero] at houtweighs
          exact not_outweighs_zero _ houtweighs
        obtain ⟨tokens, hencode, hlength⟩ := exists_encode hpos
        refine ⟨_, cutMessages_first hencode houtweighs, ?_⟩
        by_cases hexact : (numTokens enc s.content : ℤ) ≤
            maxLength - numTokens enc last.content
        · rw [sliceTo_of_length_le (by omega), hadd.decode_encode _ _ hencode]
          refine fitsIn_of_sublist (.refl _) ?_ ?_ <;>
            simp only [count_cons, count_append, count_nil] <;> omega
        · have htake := hadd.numTokens_take _ _
            (maxLength - numTokens enc last.content).toNat hencode
          have hslice : sliceTo tokens (maxLength - numTokens enc last.content) =
              tokens.take (maxLength - numTokens enc last.content).toNat :=
            sliceTo_of_nonneg (by omega)
          refine fitsIn_of_forall₂ (.cons (kept_slice hencode _) (forall₂_kept_self _)) ?_ ?_
          · simp only [count_cons, count_append, count_nil, hslice]
            omega
          · simp only [List.cons_append, count_cons, count_append, count_nil]
            omega
  · rename_i houtweighs
    have hpos : 0 < numTokens enc last.content := by
      rw [Nat.pos_iff_ne_zero]
      intro hzero
      rw [hzero] at hne houtweighs
      exact houtweighs (outweighs_zero_right (by omega))
    obtain ⟨tokens, hencode, hlength⟩ := exists_encode hpos
    refine ⟨_, cutMessages_last hencode hne houtweighs, ?_⟩
    rcases hcut with ⟨hhalf, hexact⟩ | ⟨hhalf, hlarge, hothers⟩
    · rw [sliceTo_of_length_le (by omega), hadd.decode_encode _ _ hencode]
      refine fitsIn_of_sublist (.refl _) ?_ ?_ <;>
        simp only [count_cons, count_append, count_nil] <;> omega
    · have hkept : List.Forall₂ (Kept enc) (systems ++ [last]) (systems ++
          [{ last with
            content := enc.decode (sliceTo tokens (maxLength - numTokens enc last.content)) }]) :=
        List.rel_append (forall₂_kept_self systems) (.cons (kept_slice hencode _) .nil)
      refine fitsIn_of_forall₂ hkept ?_ ?_
      · simp only [count_cons, count_append, count_nil]
        by_cases hle : (numTokens enc last.content : ℤ) ≤ maxLength
        · have htake := hadd.numTokens_take _ _
            (maxLength - numTokens enc last.content).toNat hencode
          rw [sliceTo_of_nonneg (by omega)]
          rw [if_pos hle] at hothers
          omega
        · -- a negative index leaves the tokens up to the limit
          have htake := hadd.numTokens_take _ _
            (tokens.length + (maxLength - numTokens enc last.content)).toNat hencode
          rw [sliceTo_of_neg (by omega)]
          rw [if_neg hle] at hothers
          omega
      · rw [count_append, count_cons, count_nil]
        omega

/-- Where cutting leaves just the tokens it should, nothing else makes the messages fit. -/
theorem cutFits_of_fitsIn (hexact : enc.Exact) (hpos : 0 < maxLength)
    (hover : maxLength ≤ count enc (systems ++ [last])) {result : ℤ × List (Message C)}
    (hresult : cutMessages enc (systems ++ [last]) maxLength = some result)
    (h : FitsIn enc (systems ++ [last]) maxLength result) :
    CutFits (systems.map fun m => numTokens enc m.content) (numTokens enc last.content)
      maxLength := by
  have hne : numTokens enc ((systems ++ [last]).headD last).content +
      numTokens enc last.content ≠ 0 := by
    intro hzero
    rw [cutMessages_concat, if_pos hzero] at hresult
    cases hresult
  have hcount : (systems.map fun m => numTokens enc m.content).sum = count enc systems := rfl
  rw [count_append, count_cons, count_nil] at hover
  unfold CutFits
  rw [headD_map_numTokens, hcount]
  refine ⟨hne, ?_⟩
  split
  · rename_i houtweighs
    cases systems with
    | nil => exact absurd houtweighs (not_outweighs_self _)
    | cons s systems =>
        simp only [List.cons_append, List.headD_cons] at hne houtweighs
        have hpos : 0 < numTokens enc s.content := by
          rw [Nat.pos_iff_ne_zero]
          intro hzero
          rw [hzero] at houtweighs
          exact not_outweighs_zero _ houtweighs
        obtain ⟨tokens, hencode, hlength⟩ := exists_encode hpos
        have hcut := Option.some.inj ((cutMessages_first hencode houtweighs).symm.trans hresult)
        subst hcut
        have hfits := h.fits
        simp only [count_cons, count_append, count_nil] at hfits hover
        rw [count_cons]
        have hle : (numTokens enc last.content : ℤ) ≤ maxLength := by omega
        have hnum := hexact _ _ (maxLength - numTokens enc last.content).toNat hencode
        rw [sliceTo_of_nonneg (by omega), hnum] at hfits
        simp only [List.cons_append, List.headD_cons]
        omega
  · rename_i houtweighs
    have hpos : 0 < numTokens enc last.content := by
      rw [Nat.pos_iff_ne_zero]
      intro hzero
      rw [hzero] at hne houtweighs
      exact houtweighs (outweighs_zero_right (by omega))
    obtain ⟨tokens, hencode, hlength⟩ := exists_encode hpos
    have hcut := Option.some.inj ((cutMessages_last hencode hne houtweighs).symm.trans hresult)
    subst hcut
    have hfits := h.fits
    simp only [count_cons, count_append, count_nil] at hfits
    by_cases hle : (numTokens enc last.content : ℤ) ≤ maxLength
    · have hnum := hexact _ _ (maxLength - numTokens enc last.content).toNat hencode
      rw [sliceTo_of_nonneg (by omega), hnum] at hfits
      rw [if_pos hle]
      by_cases hhalf : 2 * (numTokens enc last.content : ℤ) ≤ maxLength
      · left
        omega
      · right
        refine ⟨by omega, ?_, by omega⟩
        -- if all fitted, the last message would not be cut
        by_contra hall
        have hsub := h.uncut (by
          rw [count_append, count_cons, count_nil]
          omega)
        have heq := hsub.eq_of_length (by simp)
        have hlast := List.append_cancel_left heq
        have hcontent := congrArg (count enc) hlast
        simp only [count_cons, count_nil] at hcontent
        rw [sliceTo_of_nonneg (by omega), hnum] at hcontent
        omega
    · have hnum := hexact _ _
        (tokens.length + (maxLength - numTokens enc last.content)).toNat hencode
      rw [sliceTo_of_neg (by omega), hnum] at hfits
      rw [if_neg hle]
      right
      omega

theorem sublist_of_last (hlast : msg.getLast? = some last) (huser : isSystem last = false) :
    List.Sublist (msg.filter isSystem ++ [last]) msg := by
  obtain ⟨init, rfl⟩ := List.getLast?_eq_some_iff.mp hlast
  have hfilter : (init ++ [last]).filter isSystem = init.filter isSystem := by simp [huser]
  rw [hfilter]
  exact List.filter_sublist.append (.refl _)

/-- If there is too much, and more than the last message, the others that are not system
messages go. -/
theorem messageFitIn_of_many (hall : ¬ (count enc msg : ℤ) < maxLength)
    (hlength : 1 < msg.length) (hlast : msg.getLast? = some last) :
    messageFitIn enc msg maxLength =
      if (count enc (msg.filter isSystem ++ [last]) : ℤ) < maxLength then
        some ((count enc (msg.filter isSystem ++ [last]) : ℤ), msg.filter isSystem ++ [last])
      else cutMessages enc (msg.filter isSystem ++ [last]) maxLength := by
  unfold messageFitIn
  rw [if_neg hall, if_pos hlength, hlast, Option.toList_some]

/-- A single message that does not fit is dropped. -/
theorem messageFitIn_of_one (hpos : 0 < maxLength) (huser : isSystem last = false)
    (hall : ¬ (count enc [last] : ℤ) < maxLength) :
    messageFitIn enc [last] maxLength = some (0, []) := by
  unfold messageFitIn
  rw [if_neg hall]
  simp [huser, hpos]

theorem not_fitsIn_nil {m : Message C} {wanted : List (Message C)} {c : ℤ} :
    ¬ FitsIn enc (m :: wanted) maxLength (c, []) := by
  intro h
  obtain ⟨kept, hkept, hforall⟩ := h.kept
  rw [List.sublist_nil.mp hkept] at hforall
  cases hforall

/-- A list of messages is made to fit if the condition on its counts holds, and with an encoder
that cuts exactly, only then. -/
theorem messageFitIn_fits_iff (hadd : enc.Additive) (hpos : 0 < maxLength)
    (hlast : msg.getLast? = some last) (huser : last.role = "user") :
    (Fitting enc msg last maxLength → ∃ result, messageFitIn enc msg maxLength = some result ∧
      FitsIn enc (msg.filter isSystem ++ [last]) maxLength result) ∧
    (enc.Exact → (∃ result, messageFitIn enc msg maxLength = some result ∧
      FitsIn enc (msg.filter isSystem ++ [last]) maxLength result) →
        Fitting enc msg last maxLength) := by
  have hsystem : isSystem last = false := by simp [isSystem, huser]
  have hsub := sublist_of_last hlast hsystem
  by_cases hall : (count enc msg : ℤ) < maxLength
  · have hresult : messageFitIn enc msg maxLength = some ((count enc msg : ℤ), msg) := if_pos hall
    rw [hresult]
    exact ⟨fun _ => ⟨_, rfl, fitsIn_of_sublist hsub hall.le le_rfl⟩, fun _ _ => .inl hall⟩
  · by_cases hlength : 1 < msg.length
    · have hfitting : Fitting enc msg last maxLength ↔
          (count enc (msg.filter isSystem ++ [last]) : ℤ) < maxLength ∨
            CutFits ((msg.filter isSystem).map fun m => numTokens enc m.content)
              (numTokens enc last.content) maxLength := by
        simp only [Fitting, hall, hlength, false_or, true_and]
      rw [hfitting, messageFitIn_of_many hall hlength hlast]
      by_cases hkept : (count enc (msg.filter isSystem ++ [last]) : ℤ) < maxLength
      · rw [if_pos hkept]
        exact ⟨fun _ => ⟨_, rfl, fitsIn_of_sublist (.refl _) hkept.le le_rfl⟩,
          fun _ _ => .inl hkept⟩
      · rw [if_neg hkept]
        refine ⟨fun hcut => ?_, ?_⟩
        · exact exists_cutMessages hadd hpos (not_lt.mp hkept) (hcut.resolve_left hkept)
        · rintro hexact ⟨result, hresult, hfits⟩
          exact .inr (cutFits_of_fitsIn hexact hpos (not_lt.mp hkept) hresult hfits)
    · have hone : msg = [last] := by
        obtain ⟨init, rfl⟩ := List.getLast?_eq_some_iff.mp hlast
        rw [List.length_append, List.length_singleton] at hlength
        rw [List.eq_nil_of_length_eq_zero (by omega : init.length = 0), List.nil_append]
      subst hone
      have hnil : [last].filter isSystem = [] := by simp [hsystem]
      rw [messageFitIn_of_one hpos hsystem hall, hnil, List.nil_append]
      refine ⟨fun hfitting => ?_, ?_⟩
      · exact absurd (hfitting.resolve_left hall).1 hlength
      · rintro - ⟨result, hresult, hfits⟩
        obtain rfl := Option.some.inj hresult
        exact absurd hfits not_fitsIn_nil

/-! ### An encoder of lists -/

/-- Lists as texts, with their elements as tokens. -/
def listEncoder : Encoder (List ℕ) ℕ where
  encode := some
  decode := id

theorem listEncoder_additive : listEncoder.Additive where
  decode_encode := by
    rintro text tokens ⟨⟩
    rfl
  numTokens_take := by
    rintro text tokens k ⟨⟩
    exact List.length_take_le k text

/-- A system message of six tokens and a question of one, for eight. -/
theorem messageFitIn_listEncoder :
    (Fitting listEncoder [⟨"system", [1, 2, 3, 4, 5, 6]⟩, ⟨"user", [7]⟩] ⟨"user", [7]⟩ 8 →
      ∃ result, messageFitIn listEncoder [⟨"system", [1, 2, 3, 4, 5, 6]⟩, ⟨"user", [7]⟩] 8 =
          some result ∧
        FitsIn listEncoder ([⟨"system", [1, 2, 3, 4, 5, 6]⟩, ⟨"user", [7]⟩].filter isSystem ++
          [⟨"user", [7]⟩]) 8 result) ∧
    (listEncoder.Exact →
      (∃ result, messageFitIn listEncoder [⟨"system", [1, 2, 3, 4, 5, 6]⟩, ⟨"user", [7]⟩] 8 =
          some result ∧
        FitsIn listEncoder ([⟨"system", [1, 2, 3, 4, 5, 6]⟩, ⟨"user", [7]⟩].filter isSystem ++
          [⟨"user", [7]⟩]) 8 result) →
      Fitting listEncoder [⟨"system", [1, 2, 3, 4, 5, 6]⟩, ⟨"user", [7]⟩] ⟨"user", [7]⟩ 8) :=
  messageFitIn_fits_iff listEncoder_additive (by decide) rfl rfl

/-- A single question of five tokens is not cut to four: it is gone. -/
theorem messageFitIn_single :
    messageFitIn listEncoder [⟨"user", [1, 2, 3, 4, 5]⟩] 4 = some (0, []) ∧
      ¬ ∃ result, messageFitIn listEncoder [⟨"user", [1, 2, 3, 4, 5]⟩] 4 = some result ∧
        FitsIn listEncoder [⟨"user", [1, 2, 3, 4, 5]⟩] 4 result := by
  have hresult : messageFitIn listEncoder [⟨"user", [1, 2, 3, 4, 5]⟩] 4 = some (0, []) := rfl
  refine ⟨hresult, ?_⟩
  rintro ⟨result, hsome, hfits⟩
  obtain rfl := Option.some.inj (hresult.symm.trans hsome)
  exact not_fitsIn_nil hfits

end RagFlow.Chat
