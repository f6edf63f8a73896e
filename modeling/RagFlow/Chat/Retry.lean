/-
# A reply over several attempts

The pieces of a reply are handed on while they come. An attempt that fails with an error that may
pass is followed by another one, which starts the reply again from its beginning.
-/

import RagFlow.Chunking.Text
import RagFlow.Math.Join
import Mathlib

namespace RagFlow.Chat

open RagFlow.Math
open RagFlow.Chunking (Text)

/-! ## Errors -/

inductive LLMErrorCode where
  | rateLimit | authentication | invalidRequest | server | timeout | connection | model
  | contentFilter | quota | maxRetries | generic
deriving DecidableEq

def LLMErrorCode.value : LLMErrorCode → String
  | rateLimit => "RATE_LIMIT_EXCEEDED"
  | authentication => "AUTH_ERROR"
  | invalidRequest => "INVALID_REQUEST"
  | server => "SERVER_ERROR"
  | timeout => "TIMEOUT"
  | connection => "CONNECTION_ERROR"
  | model => "MODEL_ERROR"
  | contentFilter => "CONTENT_FILTERED"
  | quota => "QUOTA_EXCEEDED"
  | maxRetries => "MAX_RETRIES_EXCEEDED"
  | generic => "GENERIC_ERROR"

def keywordsMapping : List (List String × LLMErrorCode) :=
  [(["quota", "capacity", "credit", "billing", "balance", "欠费"], .quota),
    (["rate limit", "429", "tpm limit", "too many requests", "requests per minute"], .rateLimit),
    (["auth", "key", "apikey", "401", "forbidden", "permission"], .authentication),
    (["invalid", "bad request", "400", "format", "malformed", "parameter"], .invalidRequest),
    (["server", "503", "502", "504", "500", "unavailable"], .server),
    (["timeout", "timed out"], .timeout),
    (["connect", "network", "unreachable", "dns"], .connection),
    (["filter", "content", "policy", "blocked", "safety", "inappropriate"], .contentFilter),
    (["model", "not found", "does not exist", "not available"], .model),
    (["max rounds"], .model)]

-- `str.lower` of the host.
variable (lower : Text → Text)

/-- The code of the first keyword that the text of the error has. -/
def classifyError (error : Text) : LLMErrorCode :=
  match keywordsMapping.find? fun m => m.1.any fun word => word.toList <:+: lower error with
  | some m => m.2
  | none => .generic

def retryableErrors : List LLMErrorCode := [.rateLimit, .server]

def shouldRetry (errorCode : LLMErrorCode) : Bool := errorCode ∈ retryableErrors

def errorPrefix : Text := "**ERROR**".toList

/-- The code that an error of an attempt is given. -/
def errorCode (maxRetries : ℕ) (e : Text) (attempt : ℕ) : LLMErrorCode :=
  if attempt = maxRetries then .maxRetries else classifyError lower e

def errorText (code : LLMErrorCode) (e : Text) : Text :=
  errorPrefix ++ ": ".toList ++ code.value.toList ++ " - ".toList ++ e

/-- Nothing, after a pause, if there is to be another attempt. -/
def exceptionsAsync (maxRetries : ℕ) (e : Text) (attempt : ℕ) : Option Text :=
  if shouldRetry (errorCode lower maxRetries e attempt) then none
  else some (errorText (errorCode lower maxRetries e attempt) e)

/-! ## The stream -/

/-- What a request brings: the pieces with their numbers of tokens, and then an error if it does
not complete. -/
structure Attempt where
  deltas : List (Text × ℕ)
  error : Option Text

/-- What the caller receives. -/
inductive Yield where
  | text (t : Text)
  | tokens (n : ℕ)
deriving DecidableEq

def Yield.text? : Yield → Option Text
  | text t => some t
  | tokens _ => none

/-- The attempts from one on, of which so many are left. -/
def attemptsFrom (maxRetries : ℕ) (attempts : ℕ → Attempt) : ℕ → ℕ → ℕ → List Yield
  | 0, _, _ => []
  | left + 1, attempt, totalTokens =>
    let deltas := (attempts attempt).deltas
    let totalTokens := totalTokens + (deltas.map Prod.snd).sum
    deltas.map (fun d => .text d.1) ++
      match (attempts attempt).error with
      | none => [.tokens totalTokens]
      | some e => match exceptionsAsync lower maxRetries e attempt with
        | none => attemptsFrom maxRetries attempts left (attempt + 1) totalTokens
        | some e => [.text e, .tokens totalTokens]

/-- `async_chat_streamly`, where the `n`-th request would bring `attempts n`. -/
def chatStreamly (maxRetries : ℕ) (attempts : ℕ → Attempt) : List Yield :=
  attemptsFrom lower maxRetries attempts (maxRetries + 1) 0 0

/-- The texts among what the caller receives. -/
def texts (yields : List Yield) : List Text := yields.filterMap Yield.text?

/-! ## Attempts -/

/-- The pieces of an attempt. -/
def Attempt.pieces (a : Attempt) : List Text := a.deltas.map Prod.fst

/-- The attempt fails and is followed by another one. -/
def Retried (maxRetries : ℕ) (attempts : ℕ → Attempt) (n : ℕ) : Prop :=
  ∃ e, (attempts n).error = some e ∧ exceptionsAsync lower maxRetries e n = none

/-- The attempt is made. -/
def Made (maxRetries : ℕ) (attempts : ℕ → Attempt) (n : ℕ) : Prop :=
  ∀ k < n, Retried lower maxRetries attempts k

/-- The attempt is made and completes. -/
def Completes (maxRetries : ℕ) (attempts : ℕ → Attempt) (n : ℕ) : Prop :=
  Made lower maxRetries attempts n ∧ (attempts n).error = none

/-- The texts that the caller receives are the pieces of the attempt that completes or, if none
does, the pieces of one attempt and an error text. -/
structure DeliversOnce (maxRetries : ℕ) (attempts : ℕ → Attempt) : Prop where
  completed : ∀ n, Completes lower maxRetries attempts n →
    texts (chatStreamly lower maxRetries attempts) = (attempts n).pieces
  failed : (¬ ∃ n, Completes lower maxRetries attempts n) →
    ∃ n code e, Made lower maxRetries attempts n ∧
      texts (chatStreamly lower maxRetries attempts) = (attempts n).pieces ++ [errorText code e]

/-- No attempt before the one that completes brings a piece; if none completes, only one of those
that are made does. -/
structure NoneInterrupted (maxRetries : ℕ) (attempts : ℕ → Attempt) : Prop where
  completed : ∀ n, Completes lower maxRetries attempts n → ∀ k < n, (attempts k).deltas = []
  failed : (¬ ∃ n, Completes lower maxRetries attempts n) →
    ∀ j k, Made lower maxRetries attempts j → Made lower maxRetries attempts k →
      (attempts j).deltas ≠ [] → (attempts k).deltas ≠ [] → j = k

/-- What the last attempt adds to its pieces. -/
def closing (maxRetries : ℕ) (attempts : ℕ → Attempt) (n : ℕ) : List Text :=
  match (attempts n).error with
  | none => []
  | some e => [errorText (errorCode lower maxRetries e n) e]

section Run

variable {lower} {maxRetries : ℕ} {attempts : ℕ → Attempt}

theorem Retried.lt {n : ℕ} (h : Retried lower maxRetries attempts n) (hle : n ≤ maxRetries) :
    n < maxRetries := by
  obtain ⟨e, -, hretry⟩ := h
  refine lt_of_le_of_ne hle fun heq => ?_
  rw [exceptionsAsync, errorCode, if_pos heq] at hretry
  cases hretry

theorem texts_deltas (deltas : List (Text × ℕ)) :
    texts (deltas.map fun d => .text d.1) = deltas.map Prod.fst := by
  rw [texts, List.filterMap_map]
  exact List.filterMap_eq_map ▸ rfl

theorem texts_append (ys zs : List Yield) : texts (ys ++ zs) = texts ys ++ texts zs :=
  List.filterMap_append

/-- An attempt that is not retried is the last. -/
theorem texts_stop {attempt : ℕ} (hstop : ¬ Retried lower maxRetries attempts attempt)
    (left totalTokens : ℕ) :
    texts (attemptsFrom lower maxRetries attempts (left + 1) attempt totalTokens) =
      (attempts attempt).pieces ++ closing lower maxRetries attempts attempt := by
  rw [attemptsFrom, texts_append, texts_deltas, closing]
  cases hend : (attempts attempt).error with
  | none => rfl
  | some e =>
      have hno : shouldRetry (errorCode lower maxRetries e attempt) = false := by
        by_contra hyes
        exact hstop ⟨e, hend, if_pos (by simpa using hyes)⟩
      simp only [exceptionsAsync, hno]
      rfl

theorem texts_retry {attempt : ℕ} (hretried : Retried lower maxRetries attempts attempt)
    (left totalTokens : ℕ) :
    ∃ total, texts (attemptsFrom lower maxRetries attempts (left + 1) attempt totalTokens) =
      (attempts attempt).pieces ++
        texts (attemptsFrom lower maxRetries attempts left (attempt + 1) total) := by
  obtain ⟨e, hend, hretry⟩ := hretried
  refine ⟨totalTokens + ((attempts attempt).deltas.map Prod.snd).sum, ?_⟩
  rw [attemptsFrom, texts_append, texts_deltas, hend]
  simp only [hretry]
  rfl

/-- The attempts end with one that is not retried; the caller receives the pieces of all of
them. -/
theorem texts_attemptsFrom (left attempt totalTokens : ℕ) (hleft : attempt + left = maxRetries) :
    ∃ n ≥ attempt, (∀ k, attempt ≤ k → k < n → Retried lower maxRetries attempts k) ∧
      ¬ Retried lower maxRetries attempts n ∧
      texts (attemptsFrom lower maxRetries attempts (left + 1) attempt totalTokens) =
        (List.range' attempt (n + 1 - attempt)).flatMap (fun k => (attempts k).pieces) ++
          closing lower maxRetries attempts n := by
  induction left generalizing attempt totalTokens with
  | zero =>
      have hstop : ¬ Retried lower maxRetries attempts attempt := fun hretried =>
        absurd (hretried.lt hleft.le) (Nat.not_lt.mpr hleft.ge)
      refine ⟨attempt, le_rfl, fun k hle hlt => absurd hlt (Nat.not_lt.mpr hle), hstop, ?_⟩
      rw [texts_stop hstop, Nat.add_sub_cancel_left, List.range'_one, List.flatMap_singleton]
  | succ left ih =>
      by_cases hretried : Retried lower maxRetries attempts attempt
      · obtain ⟨total, htexts⟩ := texts_retry hretried (left + 1) totalTokens
        obtain ⟨n, hn, hbefore, hstop, hrest⟩ := ih (attempt + 1) total (by omega)
        refine ⟨n, by omega, fun k hle hlt => ?_, hstop, ?_⟩
        · rcases Nat.eq_or_lt_of_le hle with rfl | hle
          · exact hretried
          · exact hbefore k hle hlt
        · have hrange : n + 1 - attempt = n + 1 - (attempt + 1) + 1 := by omega
          rw [htexts, hrest, hrange, List.range'_succ, List.flatMap_cons, List.append_assoc]
      · refine ⟨attempt, le_rfl, fun k hle hlt => absurd hlt (Nat.not_lt.mpr hle), hretried, ?_⟩
        rw [texts_stop hretried, Nat.add_sub_cancel_left, List.range'_one,
          List.flatMap_singleton]

/-- The last attempt, with what the caller receives. -/
theorem exists_last (lower : Text → Text) (maxRetries : ℕ) (attempts : ℕ → Attempt) :
    ∃ n, (∀ k, Made lower maxRetries attempts k ↔ k ≤ n) ∧
      texts (chatStreamly lower maxRetries attempts) =
        (List.range (n + 1)).flatMap (fun k => (attempts k).pieces) ++
          closing lower maxRetries attempts n := by
  obtain ⟨n, -, hbefore, hstop, htexts⟩ :=
    @texts_attemptsFrom lower maxRetries attempts maxRetries 0 0 (Nat.zero_add _)
  refine ⟨n, fun k => ⟨fun hmade => ?_, fun hle j hj => hbefore j (Nat.zero_le j) (by omega)⟩, ?_⟩
  · by_contra hlt
    exact hstop (hmade n (by omega))
  · rw [List.range_eq_range']
    exact htexts

theorem Attempt.pieces_eq_nil {a : Attempt} : a.pieces = [] ↔ a.deltas = [] :=
  List.map_eq_nil_iff

theorem Retried.not_completes {n : ℕ} (h : Retried lower maxRetries attempts n) :
    ¬ Completes lower maxRetries attempts n := by
  obtain ⟨e, herror, -⟩ := h
  exact fun hn => absurd (herror.symm.trans hn.2) nofun

/-- The last attempt completes, and it is the only one to do so. -/
theorem completes_iff {n : ℕ} (hmade : ∀ k, Made lower maxRetries attempts k ↔ k ≤ n)
    (hend : (attempts n).error = none) (k : ℕ) :
    Completes lower maxRetries attempts k ↔ k = n := by
  refine ⟨fun hk => le_antisymm ((hmade k).mp hk.1) (Nat.le_of_not_lt fun hlt => ?_), ?_⟩
  · exact ((hmade n).mpr le_rfl k hlt).not_completes hk
  · rintro rfl
    exact ⟨(hmade k).mpr le_rfl, hend⟩

theorem not_exists_completes {n : ℕ} (hmade : ∀ k, Made lower maxRetries attempts k ↔ k ≤ n)
    {e : Text} (hend : (attempts n).error = some e) :
    ¬ ∃ k, Completes lower maxRetries attempts k := by
  rintro ⟨k, hk⟩
  rcases Nat.lt_or_eq_of_le ((hmade k).mp hk.1) with hlt | rfl
  · exact ((hmade n).mpr le_rfl k hlt).not_completes hk
  · exact absurd (hend.symm.trans hk.2) nofun

theorem deliversOnce_iff_of_completes {n : ℕ}
    (hmade : ∀ k, Made lower maxRetries attempts k ↔ k ≤ n)
    (htexts : texts (chatStreamly lower maxRetries attempts) =
      (List.range (n + 1)).flatMap fun k => (attempts k).pieces)
    (hend : (attempts n).error = none) :
    DeliversOnce lower maxRetries attempts ↔ NoneInterrupted lower maxRetries attempts := by
  have hlast := completes_iff hmade hend
  have hiff := flatMap_range_eq_iff (fun k => (attempts k).pieces) (le_refl n)
  rw [← htexts] at hiff
  constructor
  · refine fun h => ⟨fun k hk j hj => ?_, fun hnone => absurd ⟨n, (hlast n).mpr rfl⟩ hnone⟩
    obtain rfl := (hlast k).mp hk
    exact Attempt.pieces_eq_nil.mp (hiff.mp (h.completed k hk) j hj.le hj.ne)
  · refine fun h => ⟨fun k hk => ?_, fun hnone => absurd ⟨n, (hlast n).mpr rfl⟩ hnone⟩
    obtain rfl := (hlast k).mp hk
    exact hiff.mpr fun j hj hne => Attempt.pieces_eq_nil.mpr (h.completed k hk j (by omega))

/-- If only one attempt of those that are made may bring pieces, the others bring none. -/
theorem NoneInterrupted.exists_only {n : ℕ} (h : NoneInterrupted lower maxRetries attempts)
    (hmade : ∀ k, Made lower maxRetries attempts k ↔ k ≤ n)
    (hnone : ¬ ∃ k, Completes lower maxRetries attempts k) :
    ∃ i ≤ n, ∀ k ≤ n, k ≠ i → (attempts k).pieces = [] := by
  by_cases hsome : ∃ i ≤ n, (attempts i).deltas ≠ []
  · obtain ⟨i, hi, hne⟩ := hsome
    refine ⟨i, hi, fun k hk hki => Attempt.pieces_eq_nil.mpr ?_⟩
    by_contra hkne
    exact hki (h.failed hnone k i ((hmade k).mpr hk) ((hmade i).mpr hi) hkne hne)
  · refine ⟨0, Nat.zero_le n, fun k hk _ => Attempt.pieces_eq_nil.mpr ?_⟩
    by_contra hkne
    exact hsome ⟨k, hk, hkne⟩

theorem deliversOnce_iff_of_error {n : ℕ}
    (hmade : ∀ k, Made lower maxRetries attempts k ↔ k ≤ n) {e : Text} {code : LLMErrorCode}
    (htexts : texts (chatStreamly lower maxRetries attempts) =
      (List.range (n + 1)).flatMap (fun k => (attempts k).pieces) ++ [errorText code e])
    (hend : (attempts n).error = some e) :
    DeliversOnce lower maxRetries attempts ↔ NoneInterrupted lower maxRetries attempts := by
  have hnone := not_exists_completes hmade hend
  constructor
  · intro h
    obtain ⟨i, code, e', hi, heq⟩ := h.failed hnone
    rw [htexts] at heq
    have hone := (flatMap_range_eq_iff _ ((hmade i).mp hi)).mp (List.append_inj_left' heq rfl)
    refine ⟨fun k hk => absurd ⟨k, hk⟩ hnone, fun _ j k hj hk hjne hkne => ?_⟩
    have hat : ∀ k, Made lower maxRetries attempts k → (attempts k).deltas ≠ [] → k = i :=
      fun k hk hne => by
        by_contra hki
        exact hne (Attempt.pieces_eq_nil.mp (hone k ((hmade k).mp hk) hki))
    rw [hat j hj hjne, hat k hk hkne]
  · intro h
    refine ⟨fun k hk => absurd ⟨k, hk⟩ hnone, fun _ => ?_⟩
    obtain ⟨i, hi, hrest⟩ := h.exists_only hmade hnone
    refine ⟨i, code, e, (hmade i).mpr hi, ?_⟩
    rw [htexts, (flatMap_range_eq_iff _ hi).mpr hrest]

end Run

/-- The reply is delivered once just when no attempt is interrupted after its first piece and
followed by one that brings pieces or completes. -/
theorem deliversOnce_iff (maxRetries : ℕ) (attempts : ℕ → Attempt) :
    DeliversOnce lower maxRetries attempts ↔ NoneInterrupted lower maxRetries attempts := by
  obtain ⟨n, hmade, htexts⟩ := exists_last lower maxRetries attempts
  rw [closing] at htexts
  cases hend : (attempts n).error with
  | none =>
      rw [hend, List.append_nil] at htexts
      exact deliversOnce_iff_of_completes hmade htexts hend
  | some e =>
      rw [hend] at htexts
      exact deliversOnce_iff_of_error hmade htexts hend

/-- The server fails after the first piece, and the reply starts again. -/
def interrupted : ℕ → Attempt
  | 0 => ⟨[("Hel".toList, 1)], some "503 server error".toList⟩
  | _ => ⟨[("Hello".toList, 1)], none⟩

theorem not_deliversOnce : ¬ DeliversOnce id 5 interrupted := by
  intro h
  have hmade : Completes id 5 interrupted 1 := by
    refine ⟨fun k hk => ?_, rfl⟩
    obtain rfl := Nat.lt_one_iff.mp hk
    exact ⟨_, rfl, by decide⟩
  exact absurd (h.completed 1 hmade) (by decide)

end RagFlow.Chat
