/-
# Position tags

A line of a page carries its place in a tag: the pages it is on, its left and right side, and
its top and bottom on the first and the last of them. The tag is read back to cut the line out
of the images of the pages. The writer subtracts the heights of the pages from the bottom, the
reader adds them again.

The sign of a number is written and read by no one: of the two patterns for a tag, only that of
the remover knows the minus.
-/

import RagFlow.Chunking.Delimiters
import RagFlow.Chunking.TableContext
import RagFlow.Math.Numeral
import RagFlow.Math.Rounding

namespace RagFlow.Vision

open RagFlow.Math
open RagFlow.Chunking (Text Pages extractPositions positionTag removeTag tagLength isTagChar)

/-! ## Writing -/

/-- The heights of the images of the loaded pages, with `zoom` pixels to a unit. -/
structure PageImages where
  heights : List ℕ
  zoom : ℕ
  zoom_pos : 0 < zoom

namespace PageImages

variable (pages : PageImages)

/-- `page_cum_height[k]`. -/
def cumHeight (k : ℕ) : ℚ := ((pages.heights.take k).map fun h : ℕ => (h : ℚ) / pages.zoom).sum

/-- The loop of `_line_tag` from a page on, with the heights of this page and of those behind
it: the pages of the line and its bottom on the last of them. -/
def spread : ℕ → ℚ → List ℕ → Option (List ℕ × ℚ)
  | _, _, [] => none
  | page, bott, height :: heights =>
      if (height : ℚ) < bott * pages.zoom then
        (spread (page + 1) (bott - height / pages.zoom) heights).map fun r => (page :: r.1, r.2)
      else some ([page], bott)

end PageImages

/-- A text box of a page; pages are counted from one, and `top` and `bottom` from the top of
the first page. -/
structure TextBox where
  pageNumber : ℕ
  x0 : ℚ
  x1 : ℚ
  top : ℚ
  bottom : ℚ

/-- `"{:.1f}"`. -/
def oneDecimal (q : ℚ) : Text :=
  let tenths := (halfEven (10 * |q|)).toNat
  (if q < 0 then ['-'] else []) ++ Nat.toDigits 10 (tenths / 10) ++
    '.' :: Nat.toDigits 10 (tenths % 10)

/-- The text of a tag. -/
def tagText (pns : List ℕ) (x0 x1 top bott : ℚ) : Text :=
  "@@".toList ++ ['-'].intercalate (pns.map (Nat.toDigits 10)) ++ '\t' :: oneDecimal x0 ++
    '\t' :: oneDecimal x1 ++ '\t' :: oneDecimal top ++ '\t' :: oneDecimal bott ++ "##".toList

/-- `_line_tag`. -/
def lineTag (pages : PageImages) (bx : TextBox) : Text :=
  let offset := pages.cumHeight (bx.pageNumber - 1)
  match pages.spread bx.pageNumber (bx.bottom - offset)
    (pages.heights.drop (bx.pageNumber - 1)) with
  | none => []
  | some (pns, bott) => tagText pns bx.x0 bx.x1 (bx.top - offset) bott

/-! ## Cutting out -/

/-- A rectangle of the image of a page, in pixels. -/
structure Crop where
  page : ℕ
  left : ℚ
  upper : ℚ
  right : ℚ
  lower : ℚ
  deriving DecidableEq

/-- `Image.crop` asks for this order. -/
def Crop.check (c : Crop) : Except String Crop :=
  if c.right < c.left then .error "Coordinate 'right' is less than 'left'"
  else if c.lower < c.upper then .error "Coordinate 'lower' is less than 'upper'"
  else .ok c

/-- A page, counted from zero on in the whole document, and a rectangle on it. -/
abbrev Position := ℤ × Chunking.Box ℚ

/-- `extract_positions`. -/
def positionsOf (text : Text) : Except String (List (Pages × Chunking.Box ℚ)) :=
  extractPositions Number.decimal text

section Cutting

variable (pages : PageImages)

/-- `0 <= pn < page_count` -/
def PageImages.Has (pn : ℤ) : Prop := 0 ≤ pn ∧ pn < pages.heights.length

instance (pn : ℤ) : Decidable (pages.Has pn) := inferInstanceAs (Decidable (_ ∧ _))

/-- The height of the image of a page, in pixels. -/
def PageImages.height (pn : ℤ) : ℚ := ((pages.heights[pn.toNat]?.getD 0 : ℕ) : ℚ)

/-- What is cut out of the pages behind the first; `bottom` is in pixels, from the top of the
page on. -/
def cropRest (left right : ℚ) : ℚ → List ℤ → Except String (List Crop × List Position)
  | _, [] => .ok ([], [])
  | bottom, pn :: pns =>
      if pages.Has pn then do
        let z : ℚ := pages.zoom
        let lower := min bottom (pages.height pn)
        let img ← Crop.check ⟨pn.toNat, left * z, 0, right * z, lower⟩
        let (imgs, positions) ← cropRest left right (bottom - pages.height pn) pns
        return (img :: imgs, (pn, ⟨left, right, 0, lower / z⟩) :: positions)
      else cropRest left right bottom pns

/-- One turn of the loop of `crop`. -/
def cropSegment (left right top bottom : ℚ) :
    List ℤ → Except String (List Crop × List Position)
  | [] => .error "IndexError"
  | pn :: pns => do
      let z : ℚ := pages.zoom
      let bottom := bottom * z +
        ((pns.filter fun p => pages.Has (p - 1)).map fun p => pages.height (p - 1)).sum
      if pages.Has pn then
        let lower := min bottom (pages.height pn)
        let img ← Crop.check ⟨pn.toNat, left * z, top * z, right * z, lower⟩
        let (imgs, positions) ← cropRest pages left right (bottom - pages.height pn) pns
        return (img :: imgs, (pn, ⟨left, right, top, lower / z⟩) :: positions)
      else return ([], [])

def pagesOf : Pages → List ℤ
  | .one page => [page]
  | .several pages => pages

/-- `filtered_poss`: the loaded pages of each position that has any. -/
def filteredPoss (poss : List (Pages × Chunking.Box ℚ)) : List (List ℤ × Chunking.Box ℚ) :=
  (poss.map fun p => ((pagesOf p.1).filter fun pn => pages.Has pn, p.2)).filter fun p => p.1 ≠ []

/-- `crop` with `need_position`, of which the picture is left out. A strip above the first
position and one below the last are cut out for the picture as well. -/
def crop (pageFrom : ℤ) (text : Text) : Except String (Option (List Position)) := do
  let poss ← positionsOf text
  let poss := filteredPoss pages poss
  match poss.head?, poss.getLast? with
  | some (firstPages, first), some (lastPages, last) =>
    let maxWidth := (poss.map fun p => p.2.right - p.2.left).foldl max 6
    let lastHeight := pages.height (lastPages.getLastD 0) / pages.zoom
    let above ← cropSegment pages first.left (first.left + maxWidth)
      (max 0 (first.top - 120)) (max (first.top - 6) 0) (firstPages.take 1)
    let inner ← poss.mapM fun p =>
      cropSegment pages p.2.left (max (p.2.left + 10) p.2.right) p.2.top p.2.bottom p.1
    let below ← cropSegment pages last.left (last.left + maxWidth)
      (min lastHeight (last.bottom + 6)) (min lastHeight (last.bottom + 120))
      [lastPages.getLastD 0]
    if above.1 ++ inner.flatMap (·.1) ++ below.1 = [] then return none
    else return some ((inner.flatMap (·.2)).map fun p => (p.1 + pageFrom, p.2))
  | _, _ => return none

end Cutting

/-! ## Numbers with one decimal -/

def IsTenths (q : ℚ) : Prop := ∃ n : ℤ, q = n / 10

theorem IsTenths.add {p q : ℚ} (hp : IsTenths p) (hq : IsTenths q) : IsTenths (p + q) := by
  obtain ⟨m, rfl⟩ := hp
  obtain ⟨n, rfl⟩ := hq
  exact ⟨m + n, by push_cast; ring⟩

theorem IsTenths.sub {p q : ℚ} (hp : IsTenths p) (hq : IsTenths q) : IsTenths (p - q) := by
  obtain ⟨m, rfl⟩ := hp
  obtain ⟨n, rfl⟩ := hq
  exact ⟨m - n, by push_cast; ring⟩

theorem IsTenths.sum {l : List ℚ} (h : ∀ q ∈ l, IsTenths q) : IsTenths l.sum := by
  induction l with
  | nil => exact ⟨0, by simp⟩
  | cons q l ih =>
    rw [List.sum_cons]
    exact (h q List.mem_cons_self).add (ih fun q hq => h q (List.mem_cons_of_mem _ hq))

variable {q x0 x1 top bott : ℚ}

theorem oneDecimal_of_nonneg (hq : 0 ≤ q) :
    oneDecimal q = Nat.toDigits 10 ((halfEven (10 * |q|)).toNat / 10) ++
      '.' :: Nat.toDigits 10 ((halfEven (10 * |q|)).toNat % 10) := by
  simp only [oneDecimal, if_neg (not_lt.mpr hq), List.nil_append]

theorem decimal_tenths (n : ℕ) :
    Number.decimal (Nat.toDigits 10 (n / 10) ++ '.' :: Nat.toDigits 10 (n % 10)) =
      some ((n : ℚ) / 10) := by
  have hlast : n % 10 < 10 := Nat.mod_lt n (by decide)
  have hread := Number.decimal_point (Nat.toDigits 10 (n / 10)) (Nat.toDigits 10 (n % 10)) []
    (e := 0) (by simp [Nat.toDigits_ne_nil]) ?_ (by simp) rfl
  · have hval : Nat.ofDigitChars 10 (Nat.toDigits 10 (n / 10) ++ Nat.toDigits 10 (n % 10)) 0 =
        n := by
      rw [Nat.ofDigitChars_append, Nat.ofDigitChars_ten_toDigits, Nat.toDigits_of_lt_base hlast,
        Nat.ofDigitChars_cons_digitChar_of_lt_ten hlast, Nat.ofDigitChars_nil]
      omega
    rw [List.append_nil, hval] at hread
    rw [hread, Nat.toDigits_of_lt_base hlast]
    norm_num [div_eq_mul_inv]
  · intro c hc
    rcases List.mem_append.mp hc with hc | hc
    · exact Nat.isDigit_of_mem_toDigits (by decide) (by decide) hc
    · exact Nat.isDigit_of_mem_toDigits (by decide) (by decide) hc

/-- A number that is not negative is read back, rounded to a decimal. -/
theorem decimal_oneDecimal_of_nonneg (hq : 0 ≤ q) :
    Number.decimal (oneDecimal q) = some (((halfEven (10 * |q|)).toNat : ℚ) / 10) := by
  rw [oneDecimal_of_nonneg hq, decimal_tenths]

/-- What is written is read back. -/
theorem decimal_oneDecimal (h : IsTenths q) (hq : 0 ≤ q) :
    Number.decimal (oneDecimal q) = some q := by
  obtain ⟨m, rfl⟩ := h
  have hten : 10 * |(m : ℚ) / 10| = (m : ℚ) := by
    rw [abs_of_nonneg hq]
    ring
  have hm : 0 ≤ m := by
    by_contra hneg
    have hlt : (m : ℚ) < 0 := by exact_mod_cast not_le.mp hneg
    linarith
  obtain ⟨n, rfl⟩ := Int.eq_ofNat_of_zero_le hm
  rw [decimal_oneDecimal_of_nonneg hq, hten, halfEven_intCast, Int.toNat_natCast,
    Int.cast_natCast]

theorem isTagChar_of_mem_oneDecimal {c : Char} (hc : c ∈ oneDecimal q) :
    isTagChar c = true ∧ c ≠ '\t' := by
  have hdigits : ∀ n : ℕ, ∀ c ∈ Nat.toDigits 10 n, isTagChar c = true ∧ c ≠ '\t' := by
    intro n c hc
    have hdigit : c.isDigit = true := Nat.isDigit_of_mem_toDigits (by decide) (by decide) hc
    refine ⟨by simp [isTagChar, hdigit], ?_⟩
    rintro rfl
    exact absurd hdigit (by decide)
  rw [oneDecimal, List.mem_append, List.mem_append, List.mem_cons] at hc
  rcases hc with (hc | hc) | rfl | hc
  · split_ifs at hc
    · obtain rfl := List.mem_singleton.mp hc
      decide
    · exact absurd hc List.not_mem_nil
  · exact hdigits _ c hc
  · decide
  · exact hdigits _ c hc

/-- Only a negative number has a sign. -/
theorem sign_mem_oneDecimal : '-' ∈ oneDecimal q ↔ q < 0 := by
  have hdigits : ∀ n : ℕ, '-' ∉ Nat.toDigits 10 n := fun n h =>
    absurd (Nat.isDigit_of_mem_toDigits (by decide) (by decide) h) (by decide)
  rw [oneDecimal, List.mem_append, List.mem_append, List.mem_cons]
  constructor
  · rintro ((h | h) | h | h)
    · by_contra hq
      rw [if_neg hq] at h
      exact absurd h List.not_mem_nil
    · exact absurd h (hdigits _)
    · exact absurd h (by decide)
    · exact absurd h (hdigits _)
  · intro hq
    rw [if_pos hq]
    exact .inl (.inl List.mem_cons_self)

/-! ## The text of a tag -/

/-- The pages of a tag. -/
def pnText (pns : List ℕ) : Text := ['-'].intercalate (pns.map (Nat.toDigits 10))

/-- The numbers of a tag. -/
def fields (x0 x1 top bott : ℚ) : List Text := [x0, x1, top, bott].map oneDecimal

def bodyText (x0 x1 top bott : ℚ) : Text := ['\t'].intercalate (fields x0 x1 top bott)

theorem mem_pnText {pns : List ℕ} {c : Char} (hc : c ∈ pnText pns) :
    c.isDigit = true ∨ c = '-' := by
  rcases mem_of_mem_intercalate hc with hc | ⟨t, ht, hc⟩
  · exact .inr (List.mem_singleton.mp hc)
  · obtain ⟨n, -, rfl⟩ := List.mem_map.mp ht
    exact .inl (Nat.isDigit_of_mem_toDigits (by decide) (by decide) hc)

theorem pnText_ne_nil {pns : List ℕ} (h : pns ≠ []) : pnText pns ≠ [] := by
  obtain ⟨n, pns, rfl⟩ := List.exists_cons_of_ne_nil h
  cases pns with
  | nil => simp [pnText, Nat.toDigits_ne_nil]
  | cons m pns => simp [pnText, List.intercalate_cons_cons]

section Tag

variable {pns : List ℕ} {body : Text}

/-- The two marks, the pages, a tab, a body and the two marks at the end. -/
def framed (pns : List ℕ) (body : Text) : Text :=
  '@' :: '@' :: (pnText pns ++ '\t' :: (body ++ ['#', '#']))

theorem positionTag_framed (pns : List ℕ) (rest : Text) :
    positionTag ('@' :: '@' :: (pnText pns ++ '\t' :: rest)) =
      let body := rest.takeWhile fun c => c.isDigit || c == '.' || c == '\t'
      if pnText pns ≠ [] ∧ body ≠ [] ∧ ['#', '#'] <+: rest.drop body.length then
        (pnText pns).length + body.length + 5
      else 0 := by
  have htake : (pnText pns ++ '\t' :: rest).takeWhile (fun c => c.isDigit || c == '-') =
      pnText pns := by
    rw [List.takeWhile_append_of_pos, List.takeWhile_cons_of_neg (by decide), List.append_nil]
    intro c hc
    rcases mem_pnText hc with h | rfl
    · simp [h]
    · rfl
  simp only [positionTag, htake, List.drop_left]

/-- The reader knows all characters of the remover but the sign. -/
theorem inBody_of_isTagChar {c : Char} (h : isTagChar c = true) (hne : c ≠ '-') :
    (c.isDigit || c == '.' || c == '\t') = true := by
  simp only [isTagChar, Bool.or_eq_true, beq_iff_eq] at h ⊢
  tauto

/-- Without a sign in it, the whole tag is a match. -/
theorem positionTag_eq_length (hpns : pns ≠ []) (hne : body ≠ [])
    (hbody : ∀ c ∈ body, isTagChar c = true) (hsign : '-' ∉ body) :
    positionTag (framed pns body) = (framed pns body).length := by
  have hchars : ∀ c ∈ body, (c.isDigit || c == '.' || c == '\t') = true := fun c hc =>
    inBody_of_isTagChar (hbody c hc) fun h => hsign (h ▸ hc)
  have htake : (body ++ ['#', '#']).takeWhile (fun c => c.isDigit || c == '.' || c == '\t') =
      body := by
    rw [List.takeWhile_append_of_pos hchars, List.takeWhile_cons_of_neg (by decide),
      List.append_nil]
  rw [framed, positionTag_framed]
  simp only [htake, List.drop_left]
  rw [if_pos ⟨pnText_ne_nil hpns, hne, List.prefix_refl _⟩]
  simp only [List.length_cons, List.length_append, List.length_nil]
  omega

/-- A sign stands where the match would have to end. -/
theorem positionTag_eq_zero (hbody : ∀ c ∈ body, isTagChar c = true) (hsign : '-' ∈ body) :
    positionTag (framed pns body) = 0 := by
  obtain ⟨u, v, rfl, hu⟩ := List.eq_append_cons_of_mem hsign
  have hchars : ∀ c ∈ u, (c.isDigit || c == '.' || c == '\t') = true := fun c hc =>
    inBody_of_isTagChar (hbody c (List.mem_append_left _ hc)) fun h => hu (h ▸ hc)
  have htake : (u ++ '-' :: (v ++ ['#', '#'])).takeWhile
      (fun c => c.isDigit || c == '.' || c == '\t') = u := by
    rw [List.takeWhile_append_of_pos hchars, List.takeWhile_cons_of_neg (by decide),
      List.append_nil]
  rw [framed, List.append_assoc, List.cons_append, positionTag_framed]
  simp only [htake, List.drop_left]
  exact if_neg fun h => by simpa using h.2.2

/-- Both patterns start with the marks. -/
theorem positionTag_of_head {l : Text} (h : ¬ ['@', '@'] <+: l) : positionTag l = 0 := by
  unfold positionTag
  split
  · exact absurd ⟨_, rfl⟩ h
  · rfl

theorem tagLength_of_head {l : Text} (h : ¬ ['@', '@'] <+: l) : tagLength l = 0 := by
  unfold tagLength
  split
  · exact absurd ⟨_, rfl⟩ h
  · rfl

theorem pnText_head (pns : List ℕ) (rest : Text) :
    ¬ ['@'] <+: pnText pns ++ '\t' :: rest := by
  cases h : pnText pns with
  | nil => simp
  | cons c cs =>
    have hc : c.isDigit = true ∨ c = '-' := mem_pnText (h ▸ List.mem_cons_self)
    rw [List.cons_append, List.cons_prefix_cons]
    rintro ⟨rfl, -⟩
    exact absurd hc (by decide)

/-- The marks stand only at the head of a tag. -/
theorem not_marks_of_suffix {a : Char} {s : Text} (hbody : '@' ∉ body)
    (hs : a :: s <:+ framed pns body) (hne : a :: s ≠ framed pns body) :
    ¬ ['@', '@'] <+: a :: s := by
  have hrest : '@' ∉ pnText pns ++ '\t' :: (body ++ ['#', '#']) := by
    intro h
    rcases List.mem_append.mp h with h | h
    · exact absurd (mem_pnText h) (by decide)
    · simp [hbody] at h
  rw [framed, List.suffix_cons_iff] at hs
  rcases hs with hs | hs
  · exact absurd hs hne
  rw [List.suffix_cons_iff] at hs
  rintro ⟨t, ht⟩
  rcases hs with hs | hs
  · rw [hs] at ht
    refine pnText_head pns (body ++ ['#', '#']) ⟨t, ?_⟩
    exact (List.cons.inj ht).2
  · refine hrest (hs.subset ?_)
    rw [← ht]
    exact List.mem_cons_self

/-- A text that is one match from its head to its end. -/
theorem matchesOf_splitMatches {l : Text} (hne : l ≠ []) (h : positionTag l = l.length) :
    Chunking.matchesOf (splitMatches positionTag l) = [l] := by
  obtain ⟨a, s, rfl⟩ := List.exists_cons_of_ne_nil hne
  rw [splitMatches, splitFrom_of_match h, splitFrom_drop, List.drop_length, splitFrom]
  simp [Chunking.matchesOf]

/-- The remover takes the whole tag, with or without signs. -/
theorem tagLength_eq_length (hbody : ∀ c ∈ body, isTagChar c = true) :
    tagLength (framed pns body) = (framed pns body).length := by
  have hinner : ∀ c ∈ pnText pns ++ '\t' :: body, isTagChar c = true := by
    intro c hc
    rcases List.mem_append.mp hc with hc | hc
    · rcases mem_pnText hc with h | rfl
      · simp [isTagChar, h]
      · rfl
    · rcases List.mem_cons.mp hc with rfl | hc
      · rfl
      · exact hbody c hc
  have htake : (pnText pns ++ '\t' :: body ++ ['#', '#']).takeWhile isTagChar =
      pnText pns ++ '\t' :: body := by
    rw [List.takeWhile_append_of_pos hinner, List.takeWhile_cons_of_neg (by decide),
      List.append_nil]
  have hframed : framed pns body = '@' :: '@' :: (pnText pns ++ '\t' :: body ++ ['#', '#']) := by
    simp [framed]
  rw [hframed]
  simp only [tagLength, htake, List.drop_left]
  rw [if_pos ⟨by simp, List.prefix_refl _⟩]
  simp only [List.length_cons, List.length_append, List.length_nil]

/-- A text without the marks keeps all of its own when the tag behind it is removed. -/
theorem removeTag_append_framed {text : Text} (htext : ¬ ['@', '@'] <:+: text)
    (hbody : ∀ c ∈ body, isTagChar c = true) :
    removeTag (text ++ framed pns body) = text := by
  rw [removeTag, Chunking.deleteFrom_append,
    Chunking.deleteFrom_whole (tagLength_eq_length hbody), List.append_nil]
  intro s hs hne
  obtain ⟨a, s, rfl⟩ := List.exists_cons_of_ne_nil hne
  cases s with
  | cons b s =>
    refine tagLength_of_head ?_
    rw [List.cons_append, List.cons_append, List.cons_prefix_cons, List.cons_prefix_cons]
    rintro ⟨rfl, rfl, -⟩
    exact htext ((List.prefix_append ['@', '@'] s).isInfix.trans hs.isInfix)
  | nil =>
    -- a mark at the end of the text, and the two of the tag
    by_cases ha : a = '@'
    · subst ha
      rfl
    · refine tagLength_of_head ?_
      rw [List.cons_append, List.cons_prefix_cons]
      exact fun h => ha h.1.symm

/-- A mark around a text that has none is stripped. -/
theorem strip_marks {mark : Char} {u t v : Text} (ht : mark ∉ t) (hu : ∀ c ∈ u, c = mark)
    (hv : ∀ c ∈ v, c = mark) :
    ((u ++ t ++ v).dropWhile (· = mark)).rdropWhile (· = mark) = t := by
  have hu' : ∀ c ∈ u, decide (c = mark) = true := by simpa using hu
  have hv' : ∀ c ∈ v.reverse, decide (c = mark) = true := by simpa using hv
  rw [List.append_assoc, List.dropWhile_append_of_pos hu']
  cases t with
  | nil =>
    rw [List.nil_append, List.dropWhile_eq_nil_iff.mpr (by simpa using hv), List.rdropWhile_nil]
  | cons a t =>
    have ha : a ≠ mark := fun h => ht (h ▸ List.mem_cons_self)
    have hlast : (a :: t).reverse.dropWhile (fun c => decide (c = mark)) = (a :: t).reverse := by
      refine List.dropWhile_eq_self_iff.mpr fun hlen => ?_
      have hmem := List.mem_reverse.mp (List.getElem_mem hlen)
      exact fun h => ht (of_decide_eq_true h ▸ hmem)
    rw [List.cons_append, List.dropWhile_cons_of_neg (by simpa using ha), ← List.cons_append,
      List.rdropWhile, List.reverse_append, List.dropWhile_append_of_pos hv', hlast,
      List.reverse_reverse]

theorem readInt_toDigits (n : ℕ) : Chunking.readInt (Nat.toDigits 10 n) = .ok (n : ℤ) := by
  have hfold : (Nat.toDigits 10 n).foldl (fun n c => 10 * n + (c.toNat - '0'.toNat)) 0 = n :=
    Nat.ofDigitChars_ten_toDigits
  rw [Chunking.readInt, if_neg Nat.toDigits_ne_nil, hfold]

theorem mapM_readInt (pns : List ℕ) :
    (pns.map (Nat.toDigits 10)).mapM (fun p => (Chunking.readInt p).map (· - 1)) =
      .ok (pns.map fun p : ℕ => (p : ℤ) - 1) := by
  induction pns with
  | nil => rfl
  | cons n pns ih =>
    rw [List.map_cons, List.mapM_cons, ih, readInt_toDigits]
    rfl

theorem splitAtSep_pnText (hpns : pns ≠ []) :
    splitAtSep ['-'] (pnText pns) = pns.map (Nat.toDigits 10) := by
  refine splitAtSep_singleton (by simpa using hpns) fun t ht hdash => ?_
  obtain ⟨n, -, rfl⟩ := List.mem_map.mp ht
  exact absurd (Nat.isDigit_of_mem_toDigits (by decide) (by decide) hdash) (by decide)

/-- The pages of a tag are read back, and the numbers as their texts are read. -/
theorem readTag_framed {v0 v1 vtop vbott : ℚ} (hpns : pns ≠ [])
    (hx0 : Number.decimal (oneDecimal x0) = some v0)
    (hx1 : Number.decimal (oneDecimal x1) = some v1)
    (htop : Number.decimal (oneDecimal top) = some vtop)
    (hbott : Number.decimal (oneDecimal bott) = some vbott) :
    Chunking.readTag Number.decimal (framed pns (bodyText x0 x1 top bott)) =
      .ok (.several (pns.map fun p : ℕ => (p : ℤ) - 1), ⟨v0, v1, vtop, vbott⟩) := by
  have hcore : framed pns (bodyText x0 x1 top bott) =
      ['@', '@'] ++ ['\t'].intercalate (pnText pns :: fields x0 x1 top bott) ++ ['#', '#'] := by
    simp [framed, bodyText, fields, List.intercalate_cons_cons]
  have hmem : ∀ c ∈ ['\t'].intercalate (pnText pns :: fields x0 x1 top bott),
      isTagChar c = true := by
    intro c hc
    rcases mem_of_mem_intercalate hc with hc | ⟨t, ht, hc⟩
    · obtain rfl := List.mem_singleton.mp hc
      rfl
    · rcases List.mem_cons.mp ht with rfl | ht
      · rcases mem_pnText hc with h | rfl
        · simp [isTagChar, h]
        · rfl
      · obtain ⟨q, -, rfl⟩ := List.mem_map.mp ht
        exact (isTagChar_of_mem_oneDecimal hc).1
  have hstrip : ((((framed pns (bodyText x0 x1 top bott)).dropWhile (· = '#')).rdropWhile
      (· = '#')).dropWhile (· = '@')).rdropWhile (· = '@') =
        ['\t'].intercalate (pnText pns :: fields x0 x1 top bott) := by
    have hash := @strip_marks '#' []
      (['@', '@'] ++ ['\t'].intercalate (pnText pns :: fields x0 x1 top bott)) ['#', '#'] ?_
      (by simp) (by simp)
    · have hat := @strip_marks '@' ['@', '@']
        (['\t'].intercalate (pnText pns :: fields x0 x1 top bott)) [] ?_ (by simp) (by simp)
      · rw [List.append_nil] at hat
        rw [hcore, ← List.nil_append (['@', '@'] ++ _), hash, hat]
      · exact fun h => absurd (hmem _ h) (by decide)
    · intro h
      rcases List.mem_append.mp h with h | h
      · exact absurd h (by decide)
      · exact absurd (hmem _ h) (by decide)
  have hsplit : splitAtSep ['\t'] (['\t'].intercalate (pnText pns :: fields x0 x1 top bott)) =
      pnText pns :: fields x0 x1 top bott := by
    refine splitAtSep_singleton (List.cons_ne_nil _ _) fun t ht htab => ?_
    rcases List.mem_cons.mp ht with rfl | ht
    · exact absurd (mem_pnText htab) (by decide)
    · obtain ⟨q, -, rfl⟩ := List.mem_map.mp ht
      exact (isTagChar_of_mem_oneDecimal htab).2 rfl
  simp only [Chunking.readTag]
  rw [hstrip, hsplit]
  simp only [fields, List.map_cons, List.map_nil, Chunking.readFloat, hx0, hx1, htop, hbott,
    splitAtSep_pnText hpns, mapM_readInt]
  rfl

theorem sign_mem_bodyText :
    '-' ∈ bodyText x0 x1 top bott ↔ x0 < 0 ∨ x1 < 0 ∨ top < 0 ∨ bott < 0 := by
  simp [bodyText, fields, List.intercalate_cons_cons, sign_mem_oneDecimal]

theorem isTagChar_of_mem_bodyText :
    ∀ c ∈ bodyText x0 x1 top bott, isTagChar c = true := by
  intro c hc
  rcases mem_of_mem_intercalate hc with hc | ⟨t, ht, hc⟩
  · obtain rfl := List.mem_singleton.mp hc
    rfl
  · obtain ⟨q, -, rfl⟩ := List.mem_map.mp ht
    exact (isTagChar_of_mem_oneDecimal hc).1

theorem bodyText_ne_nil : bodyText x0 x1 top bott ≠ [] := by
  simp [bodyText, fields, List.intercalate_cons_cons]

/-- A number as it is read back. -/
def rounded (q : ℚ) : ℚ := ((halfEven (10 * |q|)).toNat : ℚ) / 10

theorem rounded_of_isTenths (h : IsTenths q) (hq : 0 ≤ q) : rounded q = q := by
  have hread := decimal_oneDecimal_of_nonneg hq
  rw [decimal_oneDecimal h hq] at hread
  exact (Option.some.inj hread).symm

/-- A tag without a sign is found and read. -/
theorem positionsOf_framed (hpns : pns ≠ []) (hsign : '-' ∉ bodyText x0 x1 top bott) :
    positionsOf (framed pns (bodyText x0 x1 top bott)) =
      .ok [(.several (pns.map fun p : ℕ => (p : ℤ) - 1),
        ⟨rounded x0, rounded x1, rounded top, rounded bott⟩)] := by
  have hmatch := positionTag_eq_length hpns bodyText_ne_nil isTagChar_of_mem_bodyText hsign
  rw [sign_mem_bodyText] at hsign
  push Not at hsign
  rw [positionsOf, extractPositions, matchesOf_splitMatches (by simp [framed]) hmatch,
    List.mapM_cons, readTag_framed hpns (decimal_oneDecimal_of_nonneg hsign.1)
      (decimal_oneDecimal_of_nonneg hsign.2.1) (decimal_oneDecimal_of_nonneg hsign.2.2.1)
      (decimal_oneDecimal_of_nonneg hsign.2.2.2)]
  rfl

/-- A tag with a sign is not found. -/
theorem positionsOf_framed_of_sign (pns : List ℕ) (hsign : '-' ∈ bodyText x0 x1 top bott) :
    positionsOf (framed pns (bodyText x0 x1 top bott)) = .ok [] := by
  have hnone : ∀ a s, a :: s <:+ framed pns (bodyText x0 x1 top bott) →
      positionTag (a :: s) = 0 := by
    intro a s hs
    by_cases hwhole : a :: s = framed pns (bodyText x0 x1 top bott)
    · rw [hwhole, positionTag_eq_zero isTagChar_of_mem_bodyText hsign]
    · refine positionTag_of_head (not_marks_of_suffix (fun hat => ?_) hs hwhole)
      exact absurd (isTagChar_of_mem_bodyText _ hat) (by decide)
  rw [positionsOf, extractPositions, splitMatches_eq_singleton hnone]
  rfl

end Tag

/-! ## The lines of a document -/

/-- A box that starts on a loaded page and ends on the loaded page `lastPage`. All numbers have
one decimal. -/
structure PageLine (pages : PageImages) extends TextBox where
  lastPage : ℕ
  pageNumber_pos : 0 < pageNumber
  pageNumber_le : pageNumber ≤ lastPage
  lastPage_le : lastPage ≤ pages.heights.length
  top_le_bottom : top ≤ bottom
  top_le_page : top ≤ pages.cumHeight pageNumber
  bottom_le : bottom ≤ pages.cumHeight lastPage
  lt_bottom : ∀ k, pageNumber ≤ k → k < lastPage → pages.cumHeight k < bottom
  x0_tenths : IsTenths x0
  x1_tenths : IsTenths x1
  top_tenths : IsTenths top
  bottom_tenths : IsTenths bottom
  page_tenths : ∀ h ∈ pages.heights, IsTenths (h / pages.zoom)

variable {pages : PageImages}

namespace PageImages

theorem cumHeight_succ {k : ℕ} (hk : k < pages.heights.length) :
    pages.cumHeight (k + 1) = pages.cumHeight k + (pages.heights[k] : ℚ) / pages.zoom := by
  rw [cumHeight, cumHeight, List.take_add_one, List.getElem?_eq_getElem hk, Option.toList_some,
    List.map_append, List.sum_append, List.map_singleton, List.sum_singleton]

theorem isTenths_cumHeight (h : ∀ h ∈ pages.heights, IsTenths (h / pages.zoom)) (k : ℕ) :
    IsTenths (pages.cumHeight k) := by
  refine IsTenths.sum fun q hq => ?_
  obtain ⟨height, hheight, rfl⟩ := List.mem_map.mp hq
  exact h height (List.mem_of_mem_take hheight)

/-- The loop goes through the pages on which the line is. -/
theorem spread_eq {bottom : ℚ} (d k : ℕ) (hk : k + d < pages.heights.length)
    (hlt : ∀ j, k < j → j ≤ k + d → pages.cumHeight j < bottom)
    (hle : bottom ≤ pages.cumHeight (k + d + 1)) :
    pages.spread (k + 1) (bottom - pages.cumHeight k) (pages.heights.drop k) =
      some (List.range' (k + 1) (d + 1), bottom - pages.cumHeight (k + d)) := by
  have hzoom : (0 : ℚ) < pages.zoom := by exact_mod_cast pages.zoom_pos
  induction d generalizing k with
  | zero =>
    have hk' : k < pages.heights.length := hk
    have hfits : ¬ (pages.heights[k] : ℚ) < (bottom - pages.cumHeight k) * pages.zoom := by
      have hend : bottom ≤ pages.cumHeight (k + 1) := hle
      rw [cumHeight_succ hk'] at hend
      rw [not_lt, ← le_div_iff₀ hzoom]
      linarith
    rw [List.drop_eq_getElem_cons hk', spread, if_neg hfits]
    rfl
  | succ d ih =>
    have hk' : k < pages.heights.length := by omega
    have hhead := cumHeight_succ hk'
    have hlater : (pages.heights[k] : ℚ) < (bottom - pages.cumHeight k) * pages.zoom := by
      rw [← div_lt_iff₀ hzoom]
      have := hlt (k + 1) (by omega) (by omega)
      linarith
    have hrest : bottom - pages.cumHeight k - (pages.heights[k] : ℚ) / pages.zoom =
        bottom - pages.cumHeight (k + 1) := by
      rw [hhead]
      ring
    have hadd : k + (d + 1) = k + 1 + d := by omega
    rw [List.drop_eq_getElem_cons hk', spread, if_pos hlater, hrest,
      ih (k + 1) (by omega) (fun j hj hjd => hlt j (by omega) (by omega)) (hadd ▸ hle), hadd]
    rfl

end PageImages

namespace PageLine

variable (bx : PageLine pages)

/-- The pages a line covers. -/
def pns : List ℕ := List.range' bx.pageNumber (bx.lastPage + 1 - bx.pageNumber)

/-- The top of the line on its first page. -/
def pageTop : ℚ := bx.top - pages.cumHeight (bx.pageNumber - 1)

/-- The bottom of the line on its last page. -/
def pageBottom : ℚ := bx.bottom - pages.cumHeight (bx.lastPage - 1)

theorem pns_ne_nil : bx.pns ≠ [] := by
  have := bx.pageNumber_le
  simp [pns]
  omega

theorem lineTag_eq :
    lineTag pages bx.toTextBox =
      framed bx.pns (bodyText bx.x0 bx.x1 bx.pageTop bx.pageBottom) := by
  obtain ⟨k, hk⟩ := Nat.exists_eq_succ_of_ne_zero bx.pageNumber_pos.ne'
  obtain ⟨d, hd⟩ := Nat.exists_eq_add_of_le bx.pageNumber_le
  have hlast := bx.lastPage_le
  have hspread := @PageImages.spread_eq pages bx.bottom d k (by omega)
    (fun j hj hjd => bx.lt_bottom j (by omega) (by omega)) (by
      have := bx.bottom_le
      rwa [show k + d + 1 = bx.lastPage by omega])
  have hsub : bx.pageNumber - 1 = k := by omega
  have hcount : bx.lastPage + 1 - bx.pageNumber = d + 1 := by omega
  have hbefore : bx.lastPage - 1 = k + d := by omega
  have hpns : bx.pns = List.range' (k + 1) (d + 1) := by rw [pns, hcount, hk]
  rw [hpns, pageTop, pageBottom, hbefore, hsub, lineTag, hsub, hk, Nat.succ_eq_add_one]
  simp only [hspread]
  simp [framed, tagText, pnText, bodyText, fields]

theorem pageTop_tenths : IsTenths bx.pageTop :=
  bx.top_tenths.sub (PageImages.isTenths_cumHeight bx.page_tenths _)

theorem pageBottom_tenths : IsTenths bx.pageBottom :=
  bx.bottom_tenths.sub (PageImages.isTenths_cumHeight bx.page_tenths _)

theorem pageTop_le_pageBottom_or : bx.pageTop ≤ bx.pageBottom ∨ 0 < bx.pageBottom := by
  have hpos := bx.pageNumber_pos
  rcases bx.pageNumber_le.eq_or_lt with heq | hlt
  · left
    rw [pageTop, pageBottom, heq]
    exact sub_le_sub_right bx.top_le_bottom _
  · right
    exact sub_pos.mpr (bx.lt_bottom _ (by omega) (by omega))

/-- No number of the tag is negative. -/
def Unsigned : Prop := 0 ≤ bx.x0 ∧ 0 ≤ bx.x1 ∧ 0 ≤ bx.pageTop

variable {bx}

theorem Unsigned.pageBottom (h : bx.Unsigned) : 0 ≤ bx.pageBottom := by
  rcases bx.pageTop_le_pageBottom_or with hle | hpos
  · exact h.2.2.trans hle
  · exact hpos.le

theorem sign_mem_iff : '-' ∈ bodyText bx.x0 bx.x1 bx.pageTop bx.pageBottom ↔ ¬ bx.Unsigned := by
  rw [sign_mem_bodyText]
  constructor
  · rintro hneg h
    have hbottom := h.pageBottom
    obtain ⟨h0, h1, htop⟩ := h
    rcases hneg with h | h | h | h <;> linarith
  · intro h
    by_contra hneg
    push Not at hneg
    exact h ⟨hneg.1, hneg.2.1, hneg.2.2.1⟩

theorem positionsOf_of_unsigned (h : bx.Unsigned) :
    positionsOf (lineTag pages bx.toTextBox) =
      .ok [(.several (bx.pns.map fun p : ℕ => (p : ℤ) - 1),
        ⟨bx.x0, bx.x1, bx.pageTop, bx.pageBottom⟩)] := by
  rw [lineTag_eq, positionsOf_framed bx.pns_ne_nil (sign_mem_iff.not.mpr (not_not.mpr h)),
    rounded_of_isTenths bx.x0_tenths h.1, rounded_of_isTenths bx.x1_tenths h.2.1,
    rounded_of_isTenths bx.pageTop_tenths h.2.2,
    rounded_of_isTenths bx.pageBottom_tenths h.pageBottom]

theorem positionsOf_of_not_unsigned (h : ¬ bx.Unsigned) :
    positionsOf (lineTag pages bx.toTextBox) = .ok [] := by
  rw [lineTag_eq, positionsOf_framed_of_sign bx.pns (sign_mem_iff.mpr h)]

end PageLine

/-! ## What is cut out -/

section Crops

variable {left right bottom : ℚ} {d k : ℕ}

/-- The height of a rectangle. -/
def rectHeight (p : Position) : ℚ := p.2.bottom - p.2.top

def pageRange (k n : ℕ) : List ℤ := (List.range' k n).map fun p : ℕ => (p : ℤ)

theorem has_natCast (hk : k < pages.heights.length) : pages.Has (k : ℤ) :=
  ⟨Int.natCast_nonneg k, by exact_mod_cast hk⟩

theorem height_natCast (hk : k < pages.heights.length) :
    pages.height (k : ℤ) = (pages.cumHeight (k + 1) - pages.cumHeight k) * pages.zoom := by
  have hzoom : (pages.zoom : ℚ) ≠ 0 := by exact_mod_cast pages.zoom_pos.ne'
  rw [PageImages.cumHeight_succ hk, add_sub_cancel_left, div_mul_cancel₀ _ hzoom,
    PageImages.height, Int.toNat_natCast, List.getElem?_eq_getElem hk, Option.getD_some]

theorem check_ok {c : Crop} (hwidth : c.left ≤ c.right) (hheight : c.upper ≤ c.lower) :
    c.check = .ok c := by
  rw [Crop.check, if_neg (not_lt.mpr hwidth), if_neg (not_lt.mpr hheight)]

/-- The lower edge on page `k` of a rectangle that ends at `bottom`, in units. -/
theorem lower_eq (hk : k < pages.heights.length) :
    min ((bottom - pages.cumHeight k) * pages.zoom) (pages.height k) / pages.zoom =
      min bottom (pages.cumHeight (k + 1)) - pages.cumHeight k := by
  have hzoom : (0 : ℚ) < pages.zoom := by exact_mod_cast pages.zoom_pos
  rw [height_natCast hk, ← min_mul_of_nonneg _ _ hzoom.le, mul_div_cancel_right₀ _ hzoom.ne',
    min_sub_sub_right]

theorem height_nonneg (pn : ℤ) : 0 ≤ pages.height pn := Nat.cast_nonneg _

theorem remaining_eq (hk : k < pages.heights.length) :
    (bottom - pages.cumHeight k) * pages.zoom - pages.height k =
      (bottom - pages.cumHeight (k + 1)) * pages.zoom := by
  rw [height_natCast hk]
  ring

/-- One page behind the first. -/
theorem cropRest_cons {pns : List ℤ} {imgs : List Crop} {ps : List Position}
    (hwidth : left ≤ right) (hk : k < pages.heights.length) (hpos : pages.cumHeight k ≤ bottom)
    (hrest : cropRest pages left right ((bottom - pages.cumHeight (k + 1)) * pages.zoom) pns =
      .ok (imgs, ps)) :
    ∃ img, cropRest pages left right ((bottom - pages.cumHeight k) * pages.zoom) (k :: pns) =
      .ok (img :: imgs,
        (k, ⟨left, right, 0, min bottom (pages.cumHeight (k + 1)) - pages.cumHeight k⟩) :: ps) := by
  have hzoom : (0 : ℚ) ≤ pages.zoom := Nat.cast_nonneg _
  have hlower : 0 ≤ min ((bottom - pages.cumHeight k) * pages.zoom) (pages.height k) :=
    le_min (mul_nonneg (sub_nonneg.mpr hpos) hzoom) (height_nonneg _)
  let img : Crop := ⟨(k : ℤ).toNat, left * pages.zoom, 0, right * pages.zoom,
    min ((bottom - pages.cumHeight k) * pages.zoom) (pages.height k)⟩
  have hcheck : img.check = .ok img :=
    check_ok (mul_le_mul_of_nonneg_right hwidth hzoom) hlower
  refine ⟨img, ?_⟩
  rw [cropRest, if_pos (has_natCast hk), remaining_eq hk, hrest]
  simp only [lower_eq hk]
  rw [hcheck]
  rfl

/-- From a page on that the rectangle reaches, one rectangle a page is cut out, and their
heights add up to what is left of its height. -/
theorem exists_cropRest (hwidth : left ≤ right) (d k : ℕ) (hd : k + d < pages.heights.length)
    (hlt : ∀ j, k ≤ j → j ≤ k + d → pages.cumHeight j < bottom)
    (hle : bottom ≤ pages.cumHeight (k + d + 1)) :
    ∃ imgs ps, cropRest pages left right ((bottom - pages.cumHeight k) * pages.zoom)
        (pageRange k (d + 1)) = .ok (imgs, ps) ∧
      ps.map (·.1) = pageRange k (d + 1) ∧
      (ps.map rectHeight).sum = bottom - pages.cumHeight k := by
  induction d generalizing k with
  | zero =>
    have hend : bottom ≤ pages.cumHeight (k + 1) := hle
    obtain ⟨img, hcrop⟩ := @cropRest_cons pages left right bottom k [] [] [] hwidth hd
      (hlt k le_rfl le_rfl).le rfl
    refine ⟨_, _, hcrop, rfl, ?_⟩
    simp [rectHeight, hend]
  | succ d ih =>
    obtain ⟨imgs, ps, hrest, hpages, hsum⟩ := ih (k + 1) (by omega)
      (fun j hj hjd => hlt j (by omega) (by omega))
      (by rwa [show k + 1 + d + 1 = k + (d + 1) + 1 by omega])
    obtain ⟨img, hcrop⟩ := cropRest_cons hwidth (by omega) (hlt k le_rfl (by omega)).le hrest
    have hnext : pages.cumHeight (k + 1) ≤ bottom := (hlt (k + 1) (by omega) (by omega)).le
    refine ⟨_, _, hcrop, ?_, ?_⟩
    · rw [List.map_cons, hpages]
      rfl
    · rw [List.map_cons, List.sum_cons, hsum, min_eq_right hnext]
      simp only [rectHeight]
      ring

/-- The heights that are added to the bottom of the last page. -/
theorem sum_height_before (d k : ℕ) (hd : k + d < pages.heights.length) :
    (((pageRange (k + 1) d).filter fun p => pages.Has (p - 1)).map
      fun p => pages.height (p - 1)).sum =
      (pages.cumHeight (k + d) - pages.cumHeight k) * pages.zoom := by
  induction d generalizing k with
  | zero => simp [pageRange]
  | succ d ih =>
    have hhead : ((k + 1 : ℕ) : ℤ) - 1 = (k : ℤ) := by
      push_cast
      ring
    have hrange : pageRange (k + 1) (d + 1) = ((k + 1 : ℕ) : ℤ) :: pageRange (k + 1 + 1) d := rfl
    have hhas : pages.Has (((k + 1 : ℕ) : ℤ) - 1) := hhead ▸ has_natCast (by omega)
    rw [hrange, List.filter_cons_of_pos (by simpa using hhas), List.map_cons, List.sum_cons,
      ih (k + 1) (by omega), hhead, height_natCast (by omega), Nat.add_right_comm k 1 d,
      Nat.add_assoc k d 1]
    ring

/-- A rectangle that starts on its first page is cut out of all its pages. -/
theorem exists_cropSegment {top : ℚ} (hwidth : left ≤ right) (d k : ℕ)
    (hd : k + d < pages.heights.length)
    (hlt : ∀ j, k < j → j ≤ k + d → pages.cumHeight j < bottom)
    (hle : bottom ≤ pages.cumHeight (k + d + 1)) (htop : top ≤ bottom - pages.cumHeight k)
    (hpage : top ≤ pages.cumHeight (k + 1) - pages.cumHeight k) :
    ∃ imgs ps, cropSegment pages left right top (bottom - pages.cumHeight (k + d))
        (pageRange k (d + 1)) = .ok (imgs, ps) ∧ imgs ≠ [] ∧
      ps.map (·.1) = pageRange k (d + 1) ∧
      (ps.map rectHeight).sum = bottom - pages.cumHeight k - top := by
  have hzoom : (0 : ℚ) ≤ pages.zoom := Nat.cast_nonneg _
  have hk : k < pages.heights.length := by omega
  have hbottom : (bottom - pages.cumHeight (k + d)) * pages.zoom +
      (pages.cumHeight (k + d) - pages.cumHeight k) * pages.zoom =
        (bottom - pages.cumHeight k) * pages.zoom := by ring
  have hlower : top * pages.zoom ≤
      min ((bottom - pages.cumHeight k) * pages.zoom) (pages.height k) := by
    rw [height_natCast hk]
    exact le_min (mul_le_mul_of_nonneg_right htop hzoom)
      (mul_le_mul_of_nonneg_right hpage hzoom)
  have hcrop : ∀ imgs ps, cropRest pages left right
      ((bottom - pages.cumHeight (k + 1)) * pages.zoom) (pageRange (k + 1) d) = .ok (imgs, ps) →
      ∃ img, cropSegment pages left right top (bottom - pages.cumHeight (k + d))
        (pageRange k (d + 1)) = .ok (img :: imgs, ((k : ℤ),
          ⟨left, right, top, min bottom (pages.cumHeight (k + 1)) - pages.cumHeight k⟩) ::
            ps) := by
    intro imgs ps hrest
    have hrange : pageRange k (d + 1) = (k : ℤ) :: pageRange (k + 1) d := rfl
    let img : Crop := ⟨(k : ℤ).toNat, left * pages.zoom, top * pages.zoom, right * pages.zoom,
      min ((bottom - pages.cumHeight k) * pages.zoom) (pages.height k)⟩
    have hcheck : img.check = .ok img :=
      check_ok (mul_le_mul_of_nonneg_right hwidth hzoom) hlower
    refine ⟨img, ?_⟩
    rw [hrange, cropSegment]
    simp only [sum_height_before d k hd, hbottom]
    rw [if_pos (has_natCast hk), remaining_eq hk, hrest, lower_eq hk, hcheck]
    rfl
  cases d with
  | zero =>
    have hend : bottom ≤ pages.cumHeight (k + 1) := hle
    obtain ⟨img, himg⟩ := hcrop [] [] rfl
    refine ⟨_, _, himg, List.cons_ne_nil _ _, rfl, ?_⟩
    simp [rectHeight, hend]
  | succ d =>
    obtain ⟨imgs, ps, hrest, hpages, hsum⟩ := exists_cropRest hwidth d (k + 1) (by omega)
      (fun j hj hjd => hlt j (by omega) (by omega))
      (by rwa [show k + 1 + d + 1 = k + (d + 1) + 1 by omega])
    have hnext : pages.cumHeight (k + 1) ≤ bottom := (hlt (k + 1) (by omega) (by omega)).le
    obtain ⟨img, himg⟩ := hcrop imgs ps hrest
    refine ⟨_, _, himg, List.cons_ne_nil _ _, ?_, ?_⟩
    · rw [List.map_cons, hpages]
      rfl
    · rw [List.map_cons, List.sum_cons, hsum, min_eq_right hnext]
      simp only [rectHeight]
      ring

/-- A strip of one page is cut out. -/
theorem exists_cropSegment_one {top bottom : ℚ} (hwidth : left ≤ right)
    (hk : k < pages.heights.length) (htop : top ≤ bottom)
    (hpage : bottom ≤ pages.cumHeight (k + 1) - pages.cumHeight k) :
    ∃ r, cropSegment pages left right top bottom [(k : ℤ)] = .ok r := by
  have hseg := @exists_cropSegment pages left right (bottom + pages.cumHeight k) top hwidth 0 k hk
    (by omega) (by rw [Nat.add_zero]; linarith) (by linarith) (by linarith)
  obtain ⟨imgs, ps, hcrop, -⟩ := hseg
  rw [Nat.add_zero, add_sub_cancel_right] at hcrop
  exact ⟨_, hcrop⟩

/-- The whole run of `crop` on one position, all of whose pages are loaded. -/
theorem crop_eq {text : Text} {pageFrom : ℤ} {ns : List ℤ} {box : Chunking.Box ℚ}
    {imgs : List Crop} {ps : List Position} {above below : List Crop × List Position}
    (hpos : positionsOf text = .ok [(.several ns, box)]) (hns : ∀ n ∈ ns, pages.Has n)
    (hne : ns ≠ [])
    (habove : cropSegment pages box.left (box.left + max 6 (box.right - box.left))
      (max 0 (box.top - 120)) (max (box.top - 6) 0) (ns.take 1) = .ok above)
    (hinner : cropSegment pages box.left (max (box.left + 10) box.right) box.top box.bottom ns =
      .ok (imgs, ps))
    (hbelow : cropSegment pages box.left (box.left + max 6 (box.right - box.left))
      (min (pages.height (ns.getLastD 0) / pages.zoom) (box.bottom + 6))
      (min (pages.height (ns.getLastD 0) / pages.zoom) (box.bottom + 120))
      [ns.getLastD 0] = .ok below)
    (himgs : imgs ≠ []) :
    crop pages pageFrom text = .ok (some (ps.map fun p => (p.1 + pageFrom, p.2))) := by
  have hfilter : (ns.filter fun n => pages.Has n) = ns :=
    List.filter_eq_self.mpr fun n hn => decide_eq_true (hns n hn)
  have hposs : filteredPoss pages [(.several ns, box)] = [(ns, box)] := by
    simp [filteredPoss, pagesOf, hfilter, hne]
  have hmapM : [(ns, box)].mapM (fun p => cropSegment pages p.2.left
      (max (p.2.left + 10) p.2.right) p.2.top p.2.bottom p.1) = .ok [(imgs, ps)] := by
    rw [List.mapM_cons, hinner]
    rfl
  rw [crop, hpos]
  simp only [bind, Except.bind, hposs, List.head?_cons, List.getLast?_singleton, List.map_cons,
    List.map_nil, List.foldl_cons, List.foldl_nil, habove, hbelow]
  rw [hmapM]
  simp [himgs, pure, Except.pure]

end Crops

/-! ## Reading a tag back -/

/-- The tag of a line gives its pages and its place back; it is removed from behind any text
without marks; and one rectangle for each page of the line is cut out, of its height in all. -/
structure ReadsBack (pageFrom : ℤ) (bx : PageLine pages) : Prop where
  extract : positionsOf (lineTag pages bx.toTextBox) =
    .ok [(.several (bx.pns.map fun p : ℕ => (p : ℤ) - 1),
      ⟨bx.x0, bx.x1, bx.pageTop, bx.pageBottom⟩)]
  remove : ∀ text, ¬ ['@', '@'] <:+: text →
    removeTag (text ++ lineTag pages bx.toTextBox) = text
  cut : ∃ ps, crop pages pageFrom (lineTag pages bx.toTextBox) = .ok (some ps) ∧
    (ps.map (·.1)) = bx.pns.map (fun p : ℕ => (p : ℤ) - 1 + pageFrom) ∧
    (ps.map rectHeight).sum = bx.bottom - bx.top

variable {pageFrom : ℤ} {bx : PageLine pages}

theorem cut_of_unsigned (h : bx.Unsigned) :
    ∃ ps, crop pages pageFrom (lineTag pages bx.toTextBox) = .ok (some ps) ∧
      (ps.map (·.1)) = bx.pns.map (fun p : ℕ => (p : ℤ) - 1 + pageFrom) ∧
      (ps.map rectHeight).sum = bx.bottom - bx.top := by
  obtain ⟨k, hk⟩ := Nat.exists_eq_succ_of_ne_zero bx.pageNumber_pos.ne'
  obtain ⟨d, hd⟩ := Nat.exists_eq_add_of_le bx.pageNumber_le
  have hlast := bx.lastPage_le
  have hfirst : bx.pageNumber - 1 = k := by omega
  have hend : bx.lastPage - 1 = k + d := by omega
  have hns : (bx.pns.map fun p : ℕ => (p : ℤ) - 1) = pageRange k (d + 1) := by
    rw [PageLine.pns, show bx.lastPage + 1 - bx.pageNumber = d + 1 by omega, hk, pageRange,
      List.range'_eq_map_range, List.range'_eq_map_range, List.map_map, List.map_map]
    refine List.map_congr_left fun p _ => ?_
    simp only [Function.comp_apply]
    push_cast
    ring
  have htop : bx.pageTop = bx.top - pages.cumHeight k := by rw [PageLine.pageTop, hfirst]
  have hbottom : bx.pageBottom = bx.bottom - pages.cumHeight (k + d) := by
    rw [PageLine.pageBottom, hend]
  have hpage := bx.top_le_page
  rw [hk, Nat.succ_eq_add_one] at hpage
  have hinner := @exists_cropSegment pages bx.x0 (max (bx.x0 + 10) bx.x1) bx.bottom bx.pageTop
    (le_max_of_le_left (by linarith)) d k (by omega)
    (fun j hj hjd => bx.lt_bottom j (by omega) (by omega))
    (by rw [show k + d + 1 = bx.lastPage by omega]; exact bx.bottom_le)
    (by rw [htop]; linarith [bx.top_le_bottom]) (by rw [htop]; linarith)
  obtain ⟨imgs, ps, hinner, himgs, hpages, hsum⟩ := hinner
  rw [← hbottom] at hinner
  have hzoom : (pages.zoom : ℚ) ≠ 0 := by exact_mod_cast pages.zoom_pos.ne'
  have hstrip : bx.x0 ≤ bx.x0 + max 6 (bx.x1 - bx.x0) := by
    have := le_max_left (6 : ℚ) (bx.x1 - bx.x0)
    linarith
  have hheight : pages.height ((k + d : ℕ) : ℤ) / pages.zoom =
      pages.cumHeight (k + d + 1) - pages.cumHeight (k + d) := by
    rw [height_natCast (by omega), mul_div_cancel_right₀ _ hzoom]
  have hgetLast : (pageRange k (d + 1)).getLastD 0 = ((k + d : ℕ) : ℤ) := by
    rw [pageRange, List.range'_concat, List.map_append, List.map_singleton, List.getLastD_concat,
      Nat.one_mul]
  have hfit : bx.pageTop ≤ pages.cumHeight (k + 1) - pages.cumHeight k := by
    rw [htop]
    linarith
  obtain ⟨above, habove⟩ := @exists_cropSegment_one pages _ _ k (max 0 (bx.pageTop - 120))
    (max (bx.pageTop - 6) 0) hstrip (by omega)
    (max_le (le_max_right _ _) (le_max_of_le_left (by linarith)))
    (max_le (by linarith) (h.2.2.trans hfit))
  obtain ⟨below, hbelow⟩ := @exists_cropSegment_one pages _ _ (k + d)
    (min (pages.height ((k + d : ℕ) : ℤ) / pages.zoom) (bx.pageBottom + 6))
    (min (pages.height ((k + d : ℕ) : ℤ) / pages.zoom) (bx.pageBottom + 120)) hstrip (by omega)
    (min_le_min le_rfl (by linarith)) ((min_le_left _ _).trans hheight.le)
  have hpos := PageLine.positionsOf_of_unsigned h
  rw [hns] at hpos
  have hhas : ∀ n ∈ pageRange k (d + 1), pages.Has n := by
    intro n hn
    obtain ⟨p, hp, rfl⟩ := List.mem_map.mp hn
    have hmem := List.mem_range'_1.mp hp
    exact has_natCast (by omega)
  have hcrop := @crop_eq pages (lineTag pages bx.toTextBox) pageFrom _ _ imgs ps above below hpos
    hhas (List.cons_ne_nil _ _) habove hinner (by rw [hgetLast]; exact hbelow) himgs
  refine ⟨_, hcrop, ?_, ?_⟩
  · have hadd : bx.pns.map (fun p : ℕ => (p : ℤ) - 1 + pageFrom) =
        (bx.pns.map fun p : ℕ => (p : ℤ) - 1).map (· + pageFrom) := by
      rw [List.map_map]
      rfl
    rw [hadd, hns, ← hpages, List.map_map, List.map_map]
    rfl
  · have hheights : (ps.map (rectHeight ∘ fun p => (p.1 + pageFrom, p.2))) = ps.map rectHeight :=
      rfl
    rw [List.map_map, hheights, hsum, htop]
    ring

theorem readsBack_iff (pages : PageImages) (bx : PageLine pages) (pageFrom : ℤ) :
    ReadsBack pageFrom bx ↔
      0 ≤ bx.x0 ∧ 0 ≤ bx.x1 ∧ pages.cumHeight (bx.pageNumber - 1) ≤ bx.top := by
  have hunsigned : bx.Unsigned ↔
      0 ≤ bx.x0 ∧ 0 ≤ bx.x1 ∧ pages.cumHeight (bx.pageNumber - 1) ≤ bx.top := by
    rw [PageLine.Unsigned, PageLine.pageTop, sub_nonneg]
  rw [← hunsigned]
  constructor
  · intro h
    by_contra hneg
    have hextract := h.extract
    rw [PageLine.positionsOf_of_not_unsigned hneg] at hextract
    cases hextract
  · intro h
    refine ⟨PageLine.positionsOf_of_unsigned h, fun text htext => ?_, cut_of_unsigned h⟩
    rw [bx.lineTag_eq]
    exact removeTag_append_framed htext isTagChar_of_mem_bodyText

/-! ### A line in the margin -/

/-- One page of 300 pixels. -/
def onePage : PageImages := ⟨[300], 3, by decide⟩

/-- A line whose left side is one unit to the left of the page. -/
def marginLine : PageLine onePage where
  pageNumber := 1
  x0 := -1
  x1 := 50
  top := 10
  bottom := 20
  lastPage := 1
  pageNumber_pos := by decide
  pageNumber_le := by decide
  lastPage_le := by decide
  top_le_bottom := by norm_num
  top_le_page := by norm_num [onePage, PageImages.cumHeight]
  bottom_le := by norm_num [onePage, PageImages.cumHeight]
  lt_bottom := by omega
  x0_tenths := ⟨-10, by norm_num⟩
  x1_tenths := ⟨500, by norm_num⟩
  top_tenths := ⟨100, by norm_num⟩
  bottom_tenths := ⟨200, by norm_num⟩
  page_tenths := by
    intro h hh
    obtain rfl := List.mem_singleton.mp hh
    exact ⟨1000, by norm_num [onePage]⟩

/-- Its tag is not found. -/
theorem not_readsBack_marginLine : ¬ ReadsBack 0 marginLine := by
  intro h
  have hextract := h.extract
  have hneg : ¬ marginLine.Unsigned := fun hunsigned =>
    absurd hunsigned.1 (by norm_num [marginLine])
  rw [PageLine.positionsOf_of_not_unsigned hneg] at hextract
  cases hextract

end RagFlow.Vision
