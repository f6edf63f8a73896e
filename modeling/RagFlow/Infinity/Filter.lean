/-
# The filter means the condition

Each text that is written for an entry of a condition is one factor for the store: its tokens
are a comparison, a group of comparisons or a negation, which no token around it can break up.
-/

import Mathlib
import RagFlow.Infinity.Condition
import RagFlow.Math.Separator

namespace RagFlow.Infinity

open RagFlow.Sql

section Texts

variable {ρ : Type*} {e : Engine ρ} {rules : FieldRules} {columns : List Column} {k : Text}
  {x : Item} {l : List Item} {text : Text} {p : ρ → Bool}

/-- A text that is read as one factor. -/
structure Means (e : Engine ρ) (text : Text) (p : ρ → Bool) (quoted : List Text) : Prop where
  intro ::
  exists_piece : ∃ piece, infinityDialect.tokens text = some piece ∧ IsFactor piece ∧
    factor (comparison e) (condition (comparison e)) piece = some p ∧ literals piece = quoted

/-! ## Constants -/

def Item.piece : Item → List Token
  | .str s => [.quoted '\'' s]
  | .int (.ofNat n) => [.word (Nat.toDigits 10 n)]
  | .int (.negSucc n) => [.sign '-', .word (Nat.toDigits 10 (n + 1))]

theorem isWord_of_mem_toDigits {n : ℕ} {c : Char} (h : c ∈ Nat.toDigits 10 n) :
    infinityDialect.isWord c = true := by
  have hdigit : c.isDigit = true := Nat.isDigit_of_mem_toDigits (by decide) (by decide) h
  simp [infinityDialect, Char.isAlphanum, hdigit]

theorem number_toDigits (n : ℕ) : number (Nat.toDigits 10 n) = some n := by
  have hall : (!(Nat.toDigits 10 n).isEmpty && (Nat.toDigits 10 n).all Char.isDigit) = true := by
    rw [Bool.and_eq_true, List.all_eq_true]
    exact ⟨by simp, fun c hc => Nat.isDigit_of_mem_toDigits (by decide) (by decide) hc⟩
  rw [number, if_pos hall, Nat.ofDigitChars_ten_toDigits]

theorem tokens_inList (x : Item) : infinityDialect.tokens x.inList = some x.piece := by
  cases x with
  | str s => exact tokens_quoted (d := infinityDialect) (q := '\'') (by decide) s
  | int n =>
      cases n with
      | ofNat n =>
          exact tokens_word (w := Nat.toDigits 10 n) (by simp) fun c hc => isWord_of_mem_toDigits hc
      | negSucc n =>
          have hdigits : infinityDialect.tokens (Nat.toDigits 10 (n + 1)) =
              some [.word (Nat.toDigits 10 (n + 1))] :=
            tokens_word (by simp) fun c hc => isWord_of_mem_toDigits hc
          rw [Item.inList, intText, tokens_cons_sign (by decide) (by decide), hdigits]
          rfl

theorem constant_piece (x : Item) : constant x.piece = some x := by
  cases x with
  | str s => rfl
  | int n =>
      cases n with
      | ofNat n =>
          rw [Item.piece, constant, number_toDigits]
          rfl
      | negSucc n =>
          rw [Item.piece, constant, number_toDigits]
          rfl

theorem toLower_of_isDigit {c : Char} (h : c.isDigit = true) : c.toLower = c := by
  have hupper : ¬ (c.val ≥ 'A'.val ∧ c.val ≤ 'Z'.val) := by
    simp only [Char.isDigit, Bool.and_eq_true, decide_eq_true_eq] at h
    intro hu
    have hnine := UInt32.le_iff_toNat_le.mp h.2
    have hletter := UInt32.le_iff_toNat_le.mp hu.1
    have : '9'.val.toNat = 57 := rfl
    have : 'A'.val.toNat = 65 := rfl
    omega
  rw [Char.toLower, dif_neg hupper]

/-- A numeral is no word of the language. -/
theorem keyword_toDigits {word : String} (hword : ∀ c ∈ word.toList, c.isDigit = false) (n : ℕ) :
    keyword word (.word (Nat.toDigits 10 n)) = false := by
  rw [keyword, decide_eq_false_iff_not]
  intro heq
  obtain ⟨c, hc⟩ := List.exists_mem_of_ne_nil (Nat.toDigits 10 n) (by simp)
  have hdigit : c.isDigit = true := Nat.isDigit_of_mem_toDigits (by decide) (by decide) hc
  have hmem : c.toLower ∈ word.toList := heq ▸ List.mem_map_of_mem hc
  rw [toLower_of_isDigit hdigit] at hmem
  exact Bool.noConfusion (hdigit.symm.trans (hword c hmem))

theorem plain_toDigits (n : ℕ) : Plain (.word (Nat.toDigits 10 n)) :=
  ⟨keyword_toDigits (by decide) n, keyword_toDigits (by decide) n, by simp, by simp⟩

theorem plain_piece (x : Item) : ∀ t ∈ x.piece, Plain t := by
  intro t ht
  cases x with
  | str s =>
      obtain rfl := List.mem_singleton.mp ht
      exact ⟨rfl, rfl, by simp, by simp⟩
  | int n =>
      cases n with
      | ofNat n =>
          obtain rfl := List.mem_singleton.mp ht
          exact plain_toDigits n
      | negSucc n =>
          rcases List.mem_pair.mp ht with rfl | rfl
          · decide
          · exact plain_toDigits (n + 1)

theorem literals_piece (x : Item) :
    literals x.piece = (match x with | .str s => [s] | .int _ => []) := by
  cases x with
  | str s => rfl
  | int n => cases n <;> rfl

/-! ## Comparisons -/

theorem IsColumnName.number_eq (h : IsColumnName k) : number k = none := by
  cases k with
  | nil => exact absurd rfl h.ne_nil
  | cons c k =>
      have hc : c.isDigit = false := h.head c rfl
      simp [number, hc]

theorem IsColumnName.keyword_eq (h : IsColumnName k) {word : String}
    (hword : word ∈ ["and", "or", "not", "in"]) : keyword word (.word k) = false := by
  rw [keyword, decide_eq_false_iff_not]
  intro heq
  exact h.free (heq ▸ List.mem_map_of_mem hword)

theorem IsColumnName.plain (h : IsColumnName k) : Plain (.word k) :=
  ⟨h.keyword_eq (by decide), h.keyword_eq (by decide), by simp, by simp⟩

theorem comparison_call {w : Text} (hw : number w = none) {t : Token} (ht : t ≠ .sign '=')
    (ht' : t ≠ .sign '!') (value : List Token) :
    comparison e (.word w :: t :: value) =
      if keyword "in" t then
        (inner value).bind fun body =>
          ((splitTop (· = .sign ',') 0 body).mapM constant).map fun xs row =>
            xs.any (e.equals row w)
      else if w = "filter_fulltext".toList then (inner (t :: value)).bind (fulltextArguments e)
      else none := by
  rw [comparison, hw, if_neg (by simp)]
  · exact fun h => ht h
  · exact fun _ h _ => ht' h
  · exact fun _ h => ht (List.cons.inj h).1

theorem IsColumnName.tokens (h : IsColumnName k) : infinityDialect.tokens k = some [.word k] :=
  tokens_word h.ne_nil h.words

theorem means_equals (h : IsColumnName k) (x : Item) :
    Means e (k ++ '=' :: x.inList) (fun row => e.equals row k x)
      (match x with | .str s => [s] | .int _ => []) := by
  refine ⟨.word k :: .sign '=' :: x.piece, ?_, ?_, ?_, ?_⟩
  · rw [tokens_sign h.tokens (by decide) (by decide), tokens_inList]
    rfl
  · refine isFactor_of_plain fun t ht => ?_
    rcases List.mem_cons.mp ht with rfl | ht
    · exact h.plain
    · rcases List.mem_cons.mp ht with rfl | ht
      · decide
      · exact plain_piece x t ht
  · rw [factor_comparison (h.keyword_eq (by decide)) (by simp), comparison, h.number_eq,
      constant_piece]
    rfl
  · exact literals_piece x

/-! ## Lists of constants -/

theorem plain_intercalate {pieces : List (List Token)} {t : Token} (ht : Plain t)
    (h : ∀ piece ∈ pieces, ∀ u ∈ piece, Plain u) : ∀ u ∈ [t].intercalate pieces, Plain u := by
  induction pieces with
  | nil => exact fun u hu => absurd hu List.not_mem_nil
  | cons piece pieces ih =>
      have hrest := ih fun q hq => h q (List.mem_cons_of_mem piece hq)
      cases pieces with
      | nil =>
          rw [List.intercalate_singleton]
          exact h piece List.mem_cons_self
      | cons q qs =>
          rw [List.intercalate_cons_cons]
          intro u hu
          rcases List.mem_append.mp hu with hu | hu
          · rcases List.mem_append.mp hu with hu | hu
            · exact h piece List.mem_cons_self u hu
            · exact List.mem_singleton.mp hu ▸ ht
          · exact hrest u hu

theorem tokens_inLists (l : List Item) :
    infinityDialect.tokens ([',', ' '].intercalate (l.map Item.inList)) =
      some ([.sign ','].intercalate (l.map Item.piece)) := by
  induction l with
  | nil => rfl
  | cons x l ih =>
      cases l with
      | nil =>
          rw [List.map_singleton, List.map_singleton, List.intercalate_singleton,
            List.intercalate_singleton]
          exact tokens_inList x
      | cons y l =>
          rw [List.map_cons, List.map_cons, List.map_cons, List.map_cons,
            List.intercalate_cons_cons, List.intercalate_cons_cons]
          have happ : ∀ u v : Text, u ++ [',', ' '] ++ v = u ++ ',' :: ' ' :: v := by simp
          rw [List.map_cons, List.map_cons] at ih
          rw [happ, tokens_sign (tokens_inList x) (by decide) (by decide),
            tokens_cons_space (by decide) (by decide), ih]
          simp

theorem mapM_map_some {α β γ : Type*} {f : β → Option γ} {g : α → β} {g' : α → γ}
    (h : ∀ a, f (g a) = some (g' a)) (l : List α) : (l.map g).mapM f = some (l.map g') := by
  induction l with
  | nil => rfl
  | cons a l ih =>
      rw [List.map_cons, List.mapM_cons, h, ih]
      rfl

theorem literals_append (ts us : List Token) :
    literals (ts ++ us) = literals ts ++ literals us := List.filterMap_append

theorem literals_intercalate {t : Token} (ht : literals [t] = []) {pieces : List (List Token)} :
    literals ([t].intercalate pieces) = pieces.flatMap literals := by
  induction pieces with
  | nil => rfl
  | cons piece pieces ih =>
      cases pieces with
      | nil => simp
      | cons q qs =>
          rw [List.intercalate_cons_cons, literals_append, literals_append, ht, ih,
            List.append_nil]
          rfl

theorem literals_pieces (l : List Item) :
    literals ([.sign ','].intercalate (l.map Item.piece)) =
      l.filterMap fun x => match x with
        | .str s => some s
        | .int _ => none := by
  induction l with
  | nil => rfl
  | cons x l ih =>
      cases l with
      | nil =>
          rw [List.map_singleton, List.intercalate_singleton, literals_piece]
          cases x <;> rfl
      | cons y l =>
          rw [List.map_cons, List.map_cons, List.intercalate_cons_cons, literals_append,
            literals_append, literals_piece]
          rw [List.map_cons] at ih
          rw [ih]
          cases x <;> rfl

/-- The list of constants comes back from its tokens. -/
theorem constants_of_pieces (l : List Item) (hne : l ≠ []) :
    (splitTop (· = .sign ',') 0 ([.sign ','].intercalate (l.map Item.piece))).mapM constant =
      some l := by
  have hsplit : splitTop (fun t => decide (t = .sign ',')) 0
      ([.sign ','].intercalate (l.map Item.piece)) = l.map Item.piece :=
    splitTop_intercalate (by decide) (by simpa using hne) fun piece hpiece => by
      obtain ⟨x, -, rfl⟩ := List.mem_map.mp hpiece
      refine ⟨topFree_of_forall fun t ht => ?_, (balanced_of_plain (plain_piece x)).depth_eq⟩
      cases x with
      | str s =>
          obtain rfl := List.mem_singleton.mp ht
          simp
      | int n =>
          cases n with
          | ofNat n =>
              obtain rfl := List.mem_singleton.mp ht
              simp
          | negSucc n =>
              rcases List.mem_pair.mp ht with rfl | rfl
              · decide
              · simp
  rw [hsplit, mapM_map_some constant_piece, List.map_id']

theorem means_in (h : IsColumnName k) (l : List Item) (hne : l ≠ []) :
    Means e (k ++ " IN (".toList ++ ", ".toList.intercalate (l.map Item.inList) ++ ")".toList)
      (fun row => l.any (e.equals row k))
      (l.filterMap fun x => match x with
        | .str s => some s
        | .int _ => none) := by
  have hplain : ∀ t ∈ [Token.sign ','].intercalate (l.map Item.piece), Plain t :=
    plain_intercalate (by decide) fun piece hpiece => by
      obtain ⟨x, -, rfl⟩ := List.mem_map.mp hpiece
      exact plain_piece x
  have hbody := balanced_of_plain hplain
  refine ⟨[.word k, .word ['I', 'N']] ++
    .sign '(' :: ([.sign ','].intercalate (l.map Item.piece) ++ [.sign ')']), ?_, ?_, ?_, ?_⟩
  · have happ : k ++ " IN (".toList ++ ", ".toList.intercalate (l.map Item.inList) ++ ")".toList =
        k ++ ' ' :: (['I', 'N'] ++ ' ' :: '(' ::
          ([',', ' '].intercalate (l.map Item.inList) ++ ')' :: [])) := by
      simp
    rw [happ, tokens_between (by decide) (by simp) (by decide) h.tokens,
      tokens_cons_sign (by decide) (by decide),
      tokens_sign (tokens_inLists l) (by decide) (by decide)]
    rfl
  · refine (isFactor_of_plain fun t ht => ?_).append (isFactor_group hbody)
    rcases List.mem_pair.mp ht with rfl | rfl
    · exact h.plain
    · decide
  · rw [List.cons_append, factor_comparison (h.keyword_eq (by decide)) (by simp)]
    have hin : keyword "in" (.word ['I', 'N']) = true := by decide
    rw [List.singleton_append, comparison_call h.number_eq (by simp) (by simp), if_pos hin,
       hbody.inner_eq, Option.bind_some, constants_of_pieces l hne]
    rfl
  · have hcons : Token.sign '(' :: ([.sign ','].intercalate (l.map Item.piece) ++ [.sign ')']) =
        [.sign '('] ++ ([.sign ','].intercalate (l.map Item.piece) ++ [.sign ')']) := rfl
    rw [hcons, literals_append, literals_append, literals_append, literals_pieces]
    simp [literals]

/-! ## Searches in fields -/

/-- The tokens of a search. -/
def fulltextPiece (field : Text) (x : Item) : List Token :=
  .word "filter_fulltext".toList :: .sign '(' ::
    ([.quoted '\'' field, .sign ',', .quoted '\'' x.text] ++ [.sign ')'])

theorem escape_of_notMem {q : Char} {t : Text} (h : q ∉ t) : escape q t = t := by
  induction t with
  | nil => rfl
  | cons c t ih =>
      have hne : c ≠ q := fun heq => h (heq ▸ List.mem_cons_self)
      rw [escape, List.flatMap_cons, if_neg hne, ← escape,
        ih fun hmem => h (List.mem_cons_of_mem c hmem)]
      rfl

theorem filterFulltext_eq {field : Text} (hfield : quote field = '\'' :: (field ++ ['\'']))
    (x : Item) : filterFulltext field x =
      "filter_fulltext".toList ++ '(' :: (quote field ++ ',' :: ' ' ::
        (quote x.text ++ [')'])) := by
  have hopen : "filter_fulltext('".toList = "filter_fulltext".toList ++ ['(', '\''] := rfl
  have hcomma : "', ".toList = ['\'', ',', ' '] := rfl
  have hclose : ")".toList = [')'] := rfl
  unfold filterFulltext
  rw [hopen, hcomma, hclose, hfield]
  simp only [List.append_assoc, List.cons_append, List.nil_append]

theorem tokens_filterFulltext {field : Text} (h : '\'' ∉ field) (x : Item) :
    infinityDialect.tokens (filterFulltext field x) = some (fulltextPiece field x) := by
  have hfield : quote field = '\'' :: (field ++ ['\'']) := by
    rw [quote, escape_of_notMem h]
  have hquote : ∀ t : Text, infinityDialect.tokens (quote t) = some [.quoted '\'' t] := fun t =>
    tokens_quoted (d := infinityDialect) (q := '\'') (by decide) t
  have hname : infinityDialect.tokens "filter_fulltext".toList =
      some [.word "filter_fulltext".toList] :=
    tokens_word (by simp) (by decide +kernel)
  rw [filterFulltext_eq hfield, tokens_sign hname (by decide) (by decide),
    tokens_sign (hquote field) (by decide) (by decide), tokens_cons_space (by decide) (by decide),
    tokens_sign (hquote x.text) (by decide) (by decide)]
  rfl

theorem plain_arguments (field value : Text) :
    ∀ t ∈ [Token.quoted '\'' field, .sign ',', .quoted '\'' value], Plain t := by
  intro t ht
  simp only [List.mem_cons, List.not_mem_nil, or_false] at ht
  rcases ht with rfl | rfl | rfl
  · exact ⟨rfl, rfl, by simp, by simp⟩
  · decide
  · exact ⟨rfl, rfl, by simp, by simp⟩

theorem plain_filterFulltext : Plain (.word "filter_fulltext".toList) := by decide +kernel

theorem balanced_fulltextPiece (field : Text) (x : Item) : Balanced (fulltextPiece field x) :=
  .cons (by simp) (by simp) (.group (balanced_of_plain (plain_arguments field x.text)) .nil)

theorem isFactor_fulltextPiece (field : Text) (x : Item) : IsFactor (fulltextPiece field x) := by
  have hname : IsFactor [Token.word "filter_fulltext".toList] := isFactor_of_plain fun t ht =>
    List.mem_singleton.mp ht ▸ plain_filterFulltext
  exact hname.append (isFactor_group (balanced_of_plain (plain_arguments field x.text)))

theorem factor_fulltextPiece (field : Text) (x : Item) {sub : List Token → Option (ρ → Bool)} :
    factor (comparison e) sub (fulltextPiece field x) =
      some fun row => e.fulltext row field x.text := by
  have hnot : keyword "not" (.word "filter_fulltext".toList) = false := by decide +kernel
  have hnumber : number "filter_fulltext".toList = none := by decide +kernel
  have hin : keyword "in" (.sign '(') = false := rfl
  have hinner := (balanced_of_plain (plain_arguments field x.text)).inner_eq
  rw [fulltextPiece, factor_comparison hnot (by simp),
    comparison_call hnumber (by simp) (by simp), hin, if_neg Bool.false_ne_true, if_pos rfl, hinner]
  rfl

theorem means_fulltext {field : Text} (h : '\'' ∉ field) (x : Item) :
    Means e (filterFulltext field x) (fun row => e.fulltext row field x.text) [field, x.text] :=
  ⟨fulltextPiece field x, tokens_filterFulltext h x, isFactor_fulltextPiece field x,
    factor_fulltextPiece field x, rfl⟩

/-- One of several searches. -/
theorem means_fulltexts {field : Text} (h : '\'' ∉ field) (l : List Item) (hne : l ≠ []) :
    Means e ("(".toList ++ " or ".toList.intercalate (l.map (filterFulltext field)) ++ ")".toList)
      (fun row => l.any fun x => e.fulltext row field x.text)
      (l.flatMap fun x => [field, x.text]) := by
  have hor : keyword "or" (.word ['o', 'r']) = true := by decide
  have htokens : infinityDialect.tokens (" or ".toList.intercalate (l.map (filterFulltext field))) =
      some ([.word ['o', 'r']].intercalate (l.map (fulltextPiece field))) := by
    have hsep : " or ".toList = ' ' :: (['o', 'r'] ++ [' ']) := rfl
    rw [hsep]
    refine tokens_intercalate (by decide) (by simp) (by decide) ?_
    rw [List.forall₂_map_left_iff, List.forall₂_map_right_iff]
    exact List.forall₂_same.mpr fun x _ => tokens_filterFulltext h x
  have hbalanced : Balanced ([Token.word ['o', 'r']].intercalate (l.map (fulltextPiece field))) :=
    balanced_intercalate (by simp) (by simp) fun piece hpiece => by
      obtain ⟨x, -, rfl⟩ := List.mem_map.mp hpiece
      exact balanced_fulltextPiece field x
  have hfactors : (l.map (fulltextPiece field)).mapM
      (factor (comparison e) (condition (comparison e))) =
        some (l.map fun x row => e.fulltext row field x.text) :=
    mapM_map_some (fun x => factor_fulltextPiece field x) l
  have hisFactor : ∀ piece ∈ l.map (fulltextPiece field), IsFactor piece := by
    intro piece hpiece
    obtain ⟨x, -, rfl⟩ := List.mem_map.mp hpiece
    exact isFactor_fulltextPiece field x
  have hcondition := condition_intercalate_or hor (by simpa using hne) hisFactor hfactors
  refine ⟨.sign '(' ::
      ([.word ['o', 'r']].intercalate (l.map (fulltextPiece field)) ++ [.sign ')']), ?_,
    isFactor_group hbalanced, ?_, ?_⟩
  · have happ : "(".toList ++ " or ".toList.intercalate (l.map (filterFulltext field)) ++
        ")".toList = '(' :: (" or ".toList.intercalate (l.map (filterFulltext field)) ++
          ')' :: []) := rfl
    rw [happ, tokens_cons_sign (by decide) (by decide),
      tokens_sign htokens (by decide) (by decide)]
    rfl
  · rw [factor_group hbalanced, hcondition]
    congr 1
    funext row
    rw [List.any_map]
    rfl
  · have hcons : ∀ ts : List Token, literals (.sign '(' :: (ts ++ [.sign ')'])) = literals ts := by
      intro ts
      have hparts : Token.sign '(' :: (ts ++ [.sign ')']) =
          [.sign '('] ++ (ts ++ [.sign ')']) := rfl
      rw [hparts, literals_append, literals_append]
      simp [literals]
    rw [hcons, literals_intercalate rfl, List.flatMap_map]
    rfl

/-- A column that has its default. -/
theorem means_default (h : IsColumnName k) {default : Text} (hdefault : '\'' ∉ default) :
    Means e ("NOT (".toList ++ (" ".toList ++ k ++ "!='".toList ++ default ++ "' ".toList) ++
        ")".toList)
      (fun row => e.equals row k (.str default)) [default] := by
  have hplain : ∀ t ∈ [Token.word k, .sign '!', .sign '=', .quoted '\'' default], Plain t := by
    intro t ht
    simp only [List.mem_cons, List.not_mem_nil, or_false] at ht
    rcases ht with rfl | rfl | rfl | rfl
    · exact h.plain
    · decide
    · decide
    · exact ⟨rfl, rfl, by simp, by simp⟩
  have hbody := balanced_of_plain hplain
  have hnot : keyword "not" (.word ['N', 'O', 'T']) = true := by decide
  have hquote : infinityDialect.tokens (quote default) = some [.quoted '\'' default] :=
    tokens_quoted (d := infinityDialect) (q := '\'') (by decide) default
  have hword : infinityDialect.tokens ['N', 'O', 'T'] = some [.word ['N', 'O', 'T']] :=
    tokens_word (by simp) (by decide)
  refine ⟨.word ['N', 'O', 'T'] :: .sign '(' ::
    ([.word k, .sign '!', .sign '=', .quoted '\'' default] ++ [.sign ')']), ?_, ?_, ?_, rfl⟩
  · have happ : "NOT (".toList ++ (" ".toList ++ k ++ "!='".toList ++ default ++ "' ".toList) ++
        ")".toList = ['N', 'O', 'T'] ++ ' ' :: '(' :: ' ' :: (k ++ '!' :: '=' ::
          (quote default ++ ' ' :: [')'])) := by
      have hopen : "NOT (".toList = ['N', 'O', 'T', ' ', '('] := rfl
      have hne : "!='".toList = ['!', '=', '\''] := rfl
      have hclose : "' ".toList = ['\'', ' '] := rfl
      have hlast : ")".toList = [')'] := rfl
      have hfirst : " ".toList = [' '] := rfl
      have hdefault' : quote default = '\'' :: (default ++ ['\'']) := by
        rw [quote, escape_of_notMem hdefault]
      rw [hopen, hne, hclose, hlast, hfirst, hdefault']
      simp only [List.append_assoc, List.cons_append, List.nil_append]
    rw [happ, tokens_space hword (by decide) (by decide), tokens_cons_sign (by decide) (by decide),
      tokens_cons_space (by decide) (by decide), tokens_sign h.tokens (by decide) (by decide),
      tokens_cons_sign (by decide) (by decide), tokens_space hquote (by decide) (by decide),
      tokens_cons_sign (by decide) (by decide)]
    rfl
  · have hname : IsFactor [Token.word ['N', 'O', 'T']] := isFactor_of_plain fun t ht =>
      List.mem_singleton.mp ht ▸ by decide
    exact hname.append (isFactor_group hbody)
  · have hcomparison : comparison e [.word k, .sign '!', .sign '=', .quoted '\'' default] =
        some fun row => !e.equals row k (.str default) := by
      rw [comparison, h.number_eq]
      rfl
    have hfactor : factor (comparison e) (condition (comparison e))
        [.word k, .sign '!', .sign '=', .quoted '\'' default] =
          some fun row => !e.equals row k (.str default) := by
      rw [factor_comparison (h.keyword_eq (by decide)) (by simp), hcomparison]
    have hcondition : condition (comparison e)
        [.word k, .sign '!', .sign '=', .quoted '\'' default] =
          some fun row => !e.equals row k (.str default) :=
      condition_factor (isFactor_of_plain hplain) hfactor
    rw [factor_not hnot, factor_group hbody, hcondition]
    simp

/-! ## Conditions -/

/-- What the texts of an entry are read as. -/
def Entry.meanings (rules : FieldRules) (columns : List Column) (e : Engine ρ) :
    Entry → List ((ρ → Bool) × List Text)
  | .field k v =>
    let meaning : List ((ρ → Bool) × List Text) :=
      [(fun row => (Entry.field k v).holds rules columns e row,
        (Entry.field k v).quoted rules columns)]
    if k = "available_int".toList then
      if v = .one (.int 0) ∨ v = .one (.int 1) then meaning else []
    else if v.falsy then [] else meaning
  | .mustNot v =>
    (v.filter (·.1 = "exists".toList)).map fun item =>
      (fun row => (column columns item.2).any fun c => e.equals row item.2 (.str c.default),
        ((column columns item.2).map Column.default).toList)

theorem Means.congr {q : ρ → Bool} {quoted quoted' : List Text} (h : Means e text p quoted)
    (hp : ∀ row, p row = q row) (hquoted : quoted = quoted') : Means e text q quoted' := by
  obtain rfl : p = q := funext hp
  exact hquoted ▸ h

/-- The text for the value or the values of a column. -/
theorem means_field (rules : FieldRules) (columns : List Column) (e : Engine ρ) {v : FieldValue}
    (hname : IsColumnName k) (hexists : k ≠ "exists".toList)
    (hmust : k ≠ "must_not".toList) (havail : k ≠ "available_int".toList)
    (hfalsy : v.falsy = false) :
    ∃ text, entryText rules columns (.field k v) = some [text] ∧
      Means e text (fun row => (Entry.field k v).holds rules columns e row)
        ((Entry.field k v).quoted rules columns) := by
  have hquote : '\'' ∉ k := fun hmem => absurd (hname.words '\'' hmem) (by decide)
  rw [entryText.eq_def]
  dsimp only
  rw [if_neg havail, hfalsy, if_neg Bool.false_ne_true]
  have hholds : ∀ row, (Entry.field k v).holds rules columns e row =
      if rules.fieldKeyword k then
        v.items.any fun x => e.fulltext row (rules.convertMatchingField k) x.text
      else v.items.any (e.equals row k) := by
    intro row
    rw [Entry.holds, if_neg havail, hfalsy, if_neg Bool.false_ne_true]
  have hquoted : (Entry.field k v).quoted rules columns =
      if rules.fieldKeyword k then
        v.items.flatMap fun x => [rules.convertMatchingField k, x.text]
      else v.items.filterMap fun x => match x with
        | .str s => some s
        | .int _ => none := by
    rw [Entry.quoted, decide_eq_false havail, hfalsy, Bool.or_self]
    exact if_neg Bool.false_ne_true
  cases hkeyword : rules.fieldKeyword k with
  | true =>
      simp only [hkeyword, if_true] at hholds hquoted
      cases v with
      | one x =>
          refine ⟨_, rfl, (means_fulltext (rules.unquoted k hquote) x).congr (fun row => ?_) ?_⟩
          · rw [hholds]
            simp [FieldValue.items]
          · rw [hquoted]
            simp [FieldValue.items]
      | many l =>
          have hne : l ≠ [] := by
            rintro rfl
            cases hfalsy
          refine ⟨_, rfl,
            (means_fulltexts (rules.unquoted k hquote) l hne).congr (fun row => ?_) ?_⟩
          · rw [hholds]
            rfl
          · rw [hquoted]
            rfl
  | false =>
      simp only [hkeyword, Bool.false_eq_true, if_false] at hholds hquoted ⊢
      cases v with
      | one x =>
          have hx := means_equals (e := e) hname x
          cases x with
          | str s =>
              refine ⟨k ++ "=".toList ++ quote s, if_neg hmust, ?_⟩
              have htext : k ++ "=".toList ++ quote s = k ++ '=' :: quote s := by
                rw [List.append_assoc]
                rfl
              rw [htext]
              refine hx.congr (fun row => ?_) ?_
              · rw [hholds]
                simp [FieldValue.items]
              · rw [hquoted]
                rfl
          | int n =>
              refine ⟨k ++ "=".toList ++ intText n, (if_neg hmust).trans (if_neg hexists), ?_⟩
              have htext : k ++ "=".toList ++ intText n = k ++ '=' :: intText n := by
                rw [List.append_assoc]
                rfl
              rw [htext]
              refine hx.congr (fun row => ?_) ?_
              · rw [hholds]
                simp [FieldValue.items]
              · rw [hquoted]
                rfl
      | many l =>
          have hne : l ≠ [] := by
            rintro rfl
            cases hfalsy
          refine ⟨_, rfl, (means_in hname l hne).congr (fun row => ?_) ?_⟩
          · rw [hholds]
            rfl
          · rw [hquoted]
            rfl

/-- `available_int` is asked for 0 or for 1. -/
theorem means_available (rules : FieldRules) (columns : List Column) (e : Engine ρ) {n : ℤ}
    (hn : n = 0 ∨ n = 1) :
    ∃ text, entryText rules columns (.field "available_int".toList (.one (.int n))) = some [text] ∧
      Means e text
        (fun row => (Entry.field "available_int".toList (.one (.int n))).holds rules columns e row)
        ((Entry.field "available_int".toList (.one (.int n))).quoted rules columns) := by
  have hname : IsColumnName "available_int".toList :=
    ⟨by simp, by decide +kernel, by decide +kernel, by decide +kernel⟩
  have hx := means_equals (e := e) hname (.int n)
  refine ⟨"available_int".toList ++ '=' :: intText n, ?_, hx.congr (fun row => ?_) ?_⟩
  · rcases hn with rfl | rfl <;> rfl
  · rcases hn with rfl | rfl <;> simp [Entry.holds, FieldValue.items]
  · simp [Entry.quoted]

theorem entryText_means (rules : FieldRules) (e : Engine ρ) {entry : Entry}
    (h : entry.Admissible columns) :
    ∃ texts, entryText rules columns entry = some texts ∧
      List.Forall₂ (fun text (x : (ρ → Bool) × List Text) => Means e text x.1 x.2) texts
        (entry.meanings rules columns e) := by
  cases entry with
  | field k v =>
      obtain ⟨hname, hexists, hmust⟩ := h
      rw [Entry.meanings]
      by_cases havail : k = "available_int".toList
      · subst havail
        rw [if_pos rfl]
        by_cases hv : v = .one (.int 0) ∨ v = .one (.int 1)
        · obtain ⟨n, rfl, hn⟩ : ∃ n : ℤ, v = .one (.int n) ∧ (n = 0 ∨ n = 1) := by
            rcases hv with rfl | rfl
            · exact ⟨0, rfl, Or.inl rfl⟩
            · exact ⟨1, rfl, Or.inr rfl⟩
          obtain ⟨text, htext, hmeans⟩ := means_available rules columns e hn
          refine ⟨[text], htext, ?_⟩
          rw [if_pos hv]
          exact .cons hmeans .nil
        · obtain ⟨hzero, hone⟩ := not_or.mp hv
          refine ⟨[], ?_, ?_⟩
          · rw [entryText.eq_def]
            dsimp only
            rw [if_pos rfl, if_neg hzero, if_neg hone]
          · rw [if_neg hv]
            exact .nil
      · rw [if_neg havail]
        cases hfalsy : v.falsy with
        | true =>
            refine ⟨[], ?_, .nil⟩
            rw [entryText.eq_def]
            dsimp only
            rw [if_neg havail, hfalsy, if_pos rfl]
        | false =>
            obtain ⟨text, htext, hmeans⟩ :=
              means_field rules columns e hname hexists hmust havail hfalsy
            exact ⟨[text], htext, .cons hmeans .nil⟩
  | mustNot v =>
      rw [entryText, Entry.meanings]
      have hall : ∀ item ∈ v.filter (·.1 = "exists".toList), ∃ c, column columns item.2 = some c ∧
          IsColumnName item.2 ∧ '\'' ∉ c.default ∧
            "cha".toList.isPrefixOf (c.type.map Char.toLower) = false := fun item hitem =>
        h item (List.mem_of_mem_filter hitem) (by simpa using List.of_mem_filter hitem)
      generalize v.filter (·.1 = "exists".toList) = items at hall
      induction items with
      | nil => exact ⟨[], rfl, .nil⟩
      | cons item items ih =>
          obtain ⟨c, hc, hname, hdefault, htype⟩ := hall item List.mem_cons_self
          obtain ⟨texts, htexts, hmeans⟩ := ih fun x hx => hall x (List.mem_cons_of_mem item hx)
          have hfirst := means_default (e := e) hname hdefault
          refine ⟨_ :: texts, ?_, .cons (hfirst.congr (fun row => ?_) ?_) hmeans⟩
          · rw [List.mapM_cons, htexts, existsText, hc, Option.map_some, htype]
            rfl
          · dsimp only
            rw [hc]
            rfl
          · dsimp only
            rw [hc]
            rfl

/-- The meanings of an entry together are what it says. -/
theorem holds_eq_all (entry : Entry) (row : ρ) :
    (entry.meanings rules columns e).all (fun x => x.1 row) =
      entry.holds rules columns e row := by
  cases entry with
  | field k v =>
      rw [Entry.meanings]
      split_ifs with havail hv hfalsy
      · simp
      · obtain ⟨hzero, hone⟩ := not_or.mp hv
        rw [Entry.holds, if_pos havail]
        simp [hzero, hone]
      · rw [Entry.holds, if_neg havail, if_pos hfalsy]
        rfl
      · simp
  | mustNot v =>
      rw [Entry.meanings, Entry.holds, List.all_map]
      rfl

theorem quoted_eq_flatMap (entry : Entry) :
    (entry.meanings rules columns e).flatMap (fun x => x.2) = entry.quoted rules columns := by
  cases entry with
  | field k v =>
      rw [Entry.meanings]
      split_ifs with havail hv hfalsy
      · simp
      · rw [Entry.quoted, decide_eq_true havail, Bool.true_or, if_pos rfl]
        rfl
      · rw [Entry.quoted, hfalsy, Bool.or_true, if_pos rfl]
        rfl
      · simp
  | mustNot v =>
      rw [Entry.meanings, Entry.quoted, List.flatMap_map]

theorem factors_of_forall₂ {pieces : List (List Token)}
    {meanings : List ((ρ → Bool) × List Text)}
    (h : List.Forall₂ (fun piece (x : (ρ → Bool) × List Text) => IsFactor piece ∧
      factor (comparison e) (condition (comparison e)) piece = some x.1 ∧
        literals piece = x.2) pieces meanings) :
    (∀ piece ∈ pieces, IsFactor piece) ∧
      pieces.mapM (factor (comparison e) (condition (comparison e))) =
        some (meanings.map Prod.fst) ∧
      pieces.flatMap literals = meanings.flatMap fun x => x.2 := by
  induction h with
  | nil => exact ⟨fun piece hpiece => absurd hpiece List.not_mem_nil, rfl, rfl⟩
  | cons hfirst _ ih =>
      obtain ⟨hisFactor, hmapM, hliterals⟩ := ih
      refine ⟨fun piece hpiece => ?_, ?_, ?_⟩
      · rcases List.mem_cons.mp hpiece with rfl | hpiece
        · exact hfirst.1
        · exact hisFactor piece hpiece
      · rw [List.mapM_cons, hfirst.2.1, hmapM]
        rfl
      · rw [List.flatMap_cons, List.flatMap_cons, hfirst.2.2, hliterals]

/-- Texts that are factors are the factors of their conjunction. -/
theorem means_conjunction {texts : List Text} {meanings : List ((ρ → Bool) × List Text)}
    (h : List.Forall₂ (fun text (x : (ρ → Bool) × List Text) => Means e text x.1 x.2) texts
      meanings)
    (hne : texts ≠ []) :
    ∃ tokens, infinityDialect.tokens (" AND ".toList.intercalate texts) = some tokens ∧
      condition (comparison e) tokens = some (fun row => meanings.all fun x => x.1 row) ∧
      literals tokens = meanings.flatMap fun x => x.2 := by
  obtain ⟨pieces, hpieces, hfactors⟩ : ∃ pieces,
      List.Forall₂ (fun text piece => infinityDialect.tokens text = some piece) texts pieces ∧
      List.Forall₂ (fun piece (x : (ρ → Bool) × List Text) => IsFactor piece ∧
        factor (comparison e) (condition (comparison e)) piece = some x.1 ∧
          literals piece = x.2) pieces meanings := by
    clear hne
    induction h with
    | nil => exact ⟨[], .nil, .nil⟩
    | cons hfirst _ ih =>
        obtain ⟨pieces, htexts, hfactors⟩ := ih
        obtain ⟨piece, htokens, hpiece⟩ := hfirst.exists_piece
        exact ⟨piece :: pieces, .cons htokens htexts, .cons hpiece hfactors⟩
  have hsep : " AND ".toList = ' ' :: (['A', 'N', 'D'] ++ [' ']) := rfl
  have hand : keyword "and" (.word ['A', 'N', 'D']) = true := by decide
  obtain ⟨hisFactor, hmapM, hliterals⟩ := factors_of_forall₂ hfactors
  have hnePieces : pieces ≠ [] := by
    rintro rfl
    exact hne (List.forall₂_nil_right_iff.mp hpieces)
  refine ⟨[.word ['A', 'N', 'D']].intercalate pieces, ?_, ?_, ?_⟩
  · rw [hsep]
    exact tokens_intercalate (by decide) (by simp) (by decide) hpieces
  · rw [condition_intercalate_and hand hnePieces hisFactor hmapM]
    simp [List.all_map, Function.comp_def]
  · rw [literals_intercalate rfl, hliterals]

/-- Without a condition every row is selected. -/
theorem means_true : ∃ tokens, infinityDialect.tokens "1=1".toList = some tokens ∧
    condition (comparison e) tokens = some (fun _ => true) ∧ literals tokens = [] := by
  have hone : Plain (.word ['1']) := by decide
  have hplain : ∀ t ∈ [Token.word ['1'], .sign '=', .word ['1']], Plain t := by
    decide
  refine ⟨[.word ['1'], .sign '=', .word ['1']], by decide, ?_, rfl⟩
  refine condition_factor (isFactor_of_plain hplain) ?_
  have hnumber : number ['1'] = some 1 := by decide
  have hconstant : constant [.word ['1']] = some (.int 1) := by decide
  rw [factor_comparison (by decide) (by simp), comparison, hnumber, Option.isSome_some, if_pos rfl,
    hconstant]
  simp

/-- The filter is read as the condition: a row is selected if every entry holds of it, and each
string stands in one pair of quotes. -/
theorem filter_means_condition (rules : FieldRules) (columns : List Column) {ρ : Type*}
    (e : Engine ρ) (condition : List Entry) (h : ∀ entry ∈ condition, entry.Admissible columns) :
    ∃ text tokens p, equivalentConditionToStr rules columns condition = some text ∧
      infinityDialect.tokens text = some tokens ∧
      Sql.condition (comparison e) tokens = some p ∧
      (∀ row, p row = condition.all (Entry.holds rules columns e row)) ∧
      literals tokens = condition.flatMap (Entry.quoted rules columns) := by
  obtain ⟨texts, htexts, hmeans⟩ : ∃ texts, condition.mapM (entryText rules columns) = some texts ∧
      List.Forall₂ (fun text (x : (ρ → Bool) × List Text) => Means e text x.1 x.2) texts.flatten
        (condition.flatMap (Entry.meanings rules columns e)) := by
    induction condition with
    | nil => exact ⟨[], rfl, .nil⟩
    | cons entry condition ih =>
        obtain ⟨texts, htexts, hmeans⟩ := ih fun x hx => h x (List.mem_cons_of_mem entry hx)
        obtain ⟨first, hfirst, hfirstMeans⟩ :=
          entryText_means rules e (h entry List.mem_cons_self)
        refine ⟨first :: texts, ?_, ?_⟩
        · rw [List.mapM_cons, hfirst, htexts]
          rfl
        · rw [List.flatten_cons, List.flatMap_cons]
          exact List.rel_append hfirstMeans hmeans
  have hholds : ∀ row, (condition.flatMap (Entry.meanings rules columns e)).all (fun x => x.1 row) =
      condition.all (Entry.holds rules columns e row) := by
    intro row
    rw [List.all_flatMap]
    exact List.all_congr rfl fun entry => holds_eq_all entry row
  have hquoted : (condition.flatMap (Entry.meanings rules columns e)).flatMap (fun x => x.2) =
      condition.flatMap (Entry.quoted rules columns) := by
    rw [List.flatMap_assoc]
    exact List.flatMap_congr fun entry _ => quoted_eq_flatMap entry
  rw [equivalentConditionToStr, htexts, Option.map_some]
  by_cases hempty : texts.flatten = []
  · rw [hempty] at hmeans ⊢
    obtain ⟨tokens, htokens, hcondition, hliterals⟩ := means_true (e := e)
    have hnone := List.forall₂_nil_left_iff.mp hmeans
    refine ⟨_, tokens, _, rfl, htokens, hcondition, fun row => ?_, ?_⟩
    · rw [← hholds row, hnone]
      rfl
    · rw [hliterals, ← hquoted, hnone]
      rfl
  · obtain ⟨tokens, htokens, hcondition, hliterals⟩ := means_conjunction hmeans hempty
    refine ⟨_, tokens, _, rfl, ?_, hcondition, hholds, hliterals.trans hquoted⟩
    rw [if_neg (by simpa using hempty)]
    exact htokens

end Texts

/-! ## The connections of the repository -/

/-- `convert_matching_field`: a weight behind `^` stays. -/
def convertField (names : List (Text × Text)) (fieldWeightStr : Text) : Text :=
  match fieldWeightStr.splitOn '^' with
  | [] => []
  | field :: weight =>
    ['^'].intercalate (((names.find? (·.1 = field)).map Prod.snd).getD field :: weight)

theorem convertField_unquoted {names : List (Text × Text)}
    (hnames : ∀ name ∈ names, '\'' ∉ name.2) (k : Text) (hk : '\'' ∉ k) :
    '\'' ∉ convertField names k := by
  have hparts : ∀ w ∈ k.splitOn '^', '\'' ∉ w := by
    intro w hw hc
    have hmem := Math.mem_intercalate_of_mem ['^'] hw hc
    rw [List.intercalate_splitOn] at hmem
    exact hk hmem
  rw [convertField]
  cases hsplit : k.splitOn '^' with
  | nil => exact List.not_mem_nil
  | cons field weight =>
      rw [hsplit] at hparts
      intro hmem
      rcases Math.mem_of_mem_intercalate hmem with hc | ⟨w, hw, hc⟩
      · exact absurd hc (by decide)
      · rcases List.mem_cons.mp hw with rfl | hw
        · cases hfind : names.find? (·.1 = field) with
          | none =>
              rw [hfind] at hc
              exact hparts field List.mem_cons_self hc
          | some name =>
              rw [hfind] at hc
              exact hnames name (List.mem_of_find?_eq_some hfind) hc
        · exact hparts w (List.mem_cons_of_mem field hw) hc

/-- The fields of chunks. -/
def chunkRules : FieldRules where
  fieldKeyword k := k = "source_id".toList ||
    ("_kwd".toList.isSuffixOf k && k ∉ ["knowledge_graph_kwd".toList, "docnm_kwd".toList,
      "important_kwd".toList, "question_kwd".toList])
  convertMatchingField := convertField
    [("docnm_kwd".toList, "docnm@ft_docnm_rag_coarse".toList),
      ("title_tks".toList, "docnm@ft_docnm_rag_coarse".toList),
      ("title_sm_tks".toList, "docnm@ft_docnm_rag_fine".toList),
      ("important_kwd".toList, "important_keywords@ft_important_keywords_rag_coarse".toList),
      ("important_tks".toList, "important_keywords@ft_important_keywords_rag_fine".toList),
      ("question_kwd".toList, "questions@ft_questions_rag_coarse".toList),
      ("question_tks".toList, "questions@ft_questions_rag_fine".toList),
      ("content_with_weight".toList, "content@ft_content_rag_coarse".toList),
      ("content_ltks".toList, "content@ft_content_rag_coarse".toList),
      ("content_sm_ltks".toList, "content@ft_content_rag_fine".toList),
      ("authors_tks".toList, "authors@ft_authors_rag_coarse".toList),
      ("authors_sm_tks".toList, "authors@ft_authors_rag_fine".toList),
      ("tag_kwd".toList, "tag_kwd@ft_tag_kwd_whitespace__".toList)]
  must_not_plain := by decide +kernel
  unquoted := convertField_unquoted (by decide +kernel)

/-- The fields of messages. -/
def messageRules : FieldRules where
  fieldKeyword _ := false
  convertMatchingField := convertField [("content".toList, "content@ft_content_rag_fine".toList)]
  must_not_plain := rfl
  unquoted := convertField_unquoted (by decide +kernel)

/-- Rows that name the value of every column; a text is found in the field that equals it. -/
def rowEngine : Engine (Text → Item) where
  equals row c x := row c = x
  fulltext row field value := row field = .str value

/-- A text with a quote, a list, and a column that has its default. -/
def messageCondition : List Entry :=
  [.field "session_id".toList (.one (.str "it's".toList)),
    .field "message_id".toList (.many [.int (-5), .str "a' OR 1=1".toList]),
    .mustNot [("exists".toList, "forget_at_flt".toList)]]

def messageColumns : List Column :=
  [⟨"forget_at_flt".toList, "Double".toList, "0".toList⟩]

theorem filter_means_messageCondition :
    ∃ text tokens p, equivalentConditionToStr messageRules messageColumns messageCondition =
        some text ∧
      infinityDialect.tokens text = some tokens ∧
      Sql.condition (comparison rowEngine) tokens = some p ∧
      (∀ row, p row =
        messageCondition.all (Entry.holds messageRules messageColumns rowEngine row)) ∧
      literals tokens = messageCondition.flatMap (Entry.quoted messageRules messageColumns) := by
  refine filter_means_condition messageRules messageColumns rowEngine messageCondition ?_
  have hname : ∀ k ∈ ["session_id".toList, "message_id".toList, "forget_at_flt".toList],
      IsColumnName k := fun k hk => by
    have hall : ∀ k ∈ ["session_id".toList, "message_id".toList, "forget_at_flt".toList],
        k ≠ [] ∧ (∀ c ∈ k, infinityDialect.isWord c = true) ∧
          (∀ c ∈ k.head?, c.isDigit = false) ∧
          k.map Char.toLower ∉ ["and".toList, "or".toList, "not".toList, "in".toList] := by
      decide +kernel
    obtain ⟨hne, hwords, hhead, hfree⟩ := hall k hk
    exact ⟨hne, hwords, hhead, hfree⟩
  intro entry hentry
  simp only [messageCondition, List.mem_cons, List.not_mem_nil, or_false] at hentry
  rcases hentry with rfl | rfl | rfl
  · exact ⟨hname _ (by decide +kernel), by decide +kernel, by decide +kernel⟩
  · exact ⟨hname _ (by decide +kernel), by decide +kernel, by decide +kernel⟩
  · intro item hitem _
    obtain rfl := List.mem_singleton.mp hitem
    exact ⟨⟨"forget_at_flt".toList, "Double".toList, "0".toList⟩, by decide +kernel,
      hname _ (by decide +kernel), by decide +kernel, by decide +kernel⟩

/-- The empty text is no condition: a row with another text is selected. -/
theorem empty_text_selects_row :
    ∃ text tokens p, equivalentConditionToStr chunkRules []
        [.field "doc_id".toList (.one (.str []))] = some text ∧
      infinityDialect.tokens text = some tokens ∧
      Sql.condition (comparison rowEngine) tokens = some p ∧
      p (fun _ => .str ['a']) = true ∧
      rowEngine.equals (fun _ => .str ['a']) "doc_id".toList (.str []) = false := by
  obtain ⟨tokens, htokens, hcondition, -⟩ := means_true (e := rowEngine)
  exact ⟨"1=1".toList, tokens, _, by decide +kernel, htokens, hcondition, rfl, by decide⟩

end RagFlow.Infinity
