/-
# Reading a command

What a command consists of can be read off its bytes from left to right: pieces with white space
between them. The lexer reads the same pieces, but it looks at what follows `DATASET` from one byte
too far on, which goes wrong at the end of the input and where no white space follows.
-/

import RagFlow.Cli.Lexer

namespace RagFlow.Cli

/-! ## Pieces -/

def isQuote (c : UInt8) : Bool := c = byte '\'' || c = byte '"'

/-- A byte of the name of a meta command. -/
def isMeta (c : UInt8) : Bool := isLetter c || c = byte '?'

/-- A byte inside a text in quotes. -/
def isInside (quote c : UInt8) : Bool := c ≠ quote && c ≠ 0

/-- What is inside a text in quotes and the closing quote, if there is one, and what is left. -/
def readQuoted (quote : UInt8) (cs : Bytes) : Bytes × Bytes :=
  match cs.dropWhile (isInside quote) with
  | [] => (cs.takeWhile (isInside quote), [])
  | c :: after =>
    if c = quote then (cs.takeWhile (isInside quote) ++ [c], after)
    else (cs.takeWhile (isInside quote), c :: after)

/-- The places behind the point, and what is left. -/
def readPlaces : Bytes → Bytes × Bytes
  | c :: d :: after =>
    if c = byte '.' ∧ isDigit d then
      (c :: (d :: after).takeWhile isDigit, (d :: after).dropWhile isDigit)
    else ([], c :: d :: after)
  | after => ([], after)

/-- The piece at the start, and what is left. -/
def readPiece (c : UInt8) (cs : Bytes) : Bytes × Bytes :=
  if isQuote c then ((readQuoted c cs).1.cons c, (readQuoted c cs).2)
  else if c = byte '\\' then (c :: cs.takeWhile isMeta, cs.dropWhile isMeta)
  else if isLetter c then (c :: cs.takeWhile isIdent, cs.dropWhile isIdent)
  else if isDigit c then
    (c :: cs.takeWhile isDigit ++ (readPlaces (cs.dropWhile isDigit)).1,
      (readPlaces (cs.dropWhile isDigit)).2)
  else ([c], cs)

theorem readQuoted_append (quote : UInt8) (cs : Bytes) :
    (readQuoted quote cs).1 ++ (readQuoted quote cs).2 = cs := by
  have hsplit := List.takeWhile_append_dropWhile (p := isInside quote) (l := cs)
  rw [readQuoted]
  split
  · rename_i hnil
    rwa [hnil] at hsplit
  · rename_i c after hcons
    rw [hcons] at hsplit
    split_ifs
    · rwa [List.append_assoc]
    · exact hsplit

theorem readPlaces_append (cs : Bytes) : (readPlaces cs).1 ++ (readPlaces cs).2 = cs := by
  fun_cases readPlaces cs
  · rw [List.cons_append, List.takeWhile_append_dropWhile]
  · rfl
  · rfl

theorem readPiece_append (c : UInt8) (cs : Bytes) :
    (readPiece c cs).1 ++ (readPiece c cs).2 = c :: cs := by
  rw [readPiece]
  split_ifs
  · exact congrArg (c :: ·) (readQuoted_append c cs)
  · exact congrArg (c :: ·) List.takeWhile_append_dropWhile
  · exact congrArg (c :: ·) List.takeWhile_append_dropWhile
  · rw [List.append_assoc, readPlaces_append, List.cons_append, List.takeWhile_append_dropWhile]
  · rfl

theorem head_readPiece (c : UInt8) (cs : Bytes) : (readPiece c cs).1.head? = some c := by
  rw [readPiece]
  split_ifs <;> rfl

theorem length_readPiece_lt (c : UInt8) (cs : Bytes) :
    (readPiece c cs).2.length < (c :: cs).length := by
  have happend := congrArg List.length (readPiece_append c cs)
  have hne : (readPiece c cs).1 ≠ [] := fun hnil => by
    have := head_readPiece c cs
    rw [hnil] at this
    cases this
  have hpos := List.length_pos_of_ne_nil hne
  rw [List.length_append] at happend
  omega

/-- The words among the pieces, each with what follows it. -/
def words (input : Bytes) : List (Bytes × Bytes) :=
  match _h : input.dropWhile isSpace with
  | [] => []
  | c :: cs => (if isLetter c then [readPiece c cs] else []) ++ words (readPiece c cs).2
termination_by input.length
decreasing_by
  have hlt := length_readPiece_lt c cs
  have hle := (List.dropWhile_suffix isSpace (l := input)).length_le
  rw [_h] at hle
  omega

/-- Something follows, and if it is no white space, then `TABLE` does not come right behind it. -/
def Followed : Bytes → Prop
  | [] => False
  | c :: after =>
    isSpace c = true ∨ toUpper ((after.dropWhile isSpace).takeWhile isIdent) ≠ bytes "TABLE"

/-! ## What the lexer should do -/

/-- The slices, with white space between them. -/
inductive Covers : Bytes → List Bytes → Prop
  | done {gap : Bytes} : (∀ c ∈ gap, isSpace c = true) → Covers gap []
  | piece {gap source rest : Bytes} {sources : List Bytes} : (∀ c ∈ gap, isSpace c = true) →
      Covers rest sources → Covers (gap ++ source ++ rest) (source :: sources)

/-- The type of a token that starts with a letter, by its own bytes. -/
def wordType (source : Bytes) : TokenType :=
  let word := source.takeWhile isIdent
  if toUpper word = bytes "DATASET" then
    if toUpper ((source.dropWhile isIdent).dropWhile isSpace) = bytes "TABLE" then
      .tokenDatasetTable
    else .tokenDataset
  else Lexer.keywordType (toUpper word)

/-- A word is recognised by its own bytes alone. -/
def Recognised (t : Token × Bytes) : Prop :=
  ∀ c ∈ t.2.head?, isLetter c = true → t.1.type = wordType t.2

/-- The lexer comes to the end, within one call for each byte and one more, and never indexes
outside the input; its tokens cover the input and are recognised. -/
def Consumes (input : Bytes) : Prop :=
  ∃ ts, Lexer.tokens (input.length + 1) (.new input) = some ts ∧ Covers input (ts.map Prod.snd) ∧
    ∀ t ∈ ts, Recognised t

/-! ## Where the lexer stands -/

/-- The lexer has read the one part of the input and stands before the other. -/
structure Stands (l : Lexer) (before rest : Bytes) : Prop where
  input : l.input = before ++ rest
  pos : l.pos = before.length
  readPos : l.readPos = before.length + 1
  ch : l.ch = rest.headD 0

variable {l : Lexer} {before rest source : Bytes} {c : UInt8} {cs : Bytes}

/-- What is between two positions. -/
theorem Lexer.slice_eq (rest : Bytes) (h : l.input = before ++ (source ++ rest)) :
    l.slice before.length (before ++ source).length = some source := by
  have hlen : (before ++ source).length ≤ l.input.length := by
    rw [h, ← List.append_assoc]
    exact (List.prefix_append _ _).length_le
  have hle : before.length ≤ (before ++ source).length := by
    rw [List.length_append]
    exact Nat.le_add_right _ _
  rw [Lexer.slice, if_pos ⟨hle, hlen⟩, h, List.drop_left, List.length_append,
    Nat.add_sub_cancel_left, List.take_left]

theorem Lexer.scan_eq {p : UInt8 → Bool} (h : l.input = before ++ rest) :
    l.scan p before.length = (before ++ rest.takeWhile p).length := by
  rw [Lexer.scan, h, List.drop_left, List.length_append]

theorem stands_new (input : Bytes) : Stands (.new input) [] input where
  input := rfl
  pos := rfl
  readPos := rfl
  ch := by cases input <;> rfl

namespace Stands

theorem getD_readPos (h : Stands l before (c :: cs)) : l.input.getD l.readPos 0 = cs.headD 0 := by
  rw [h.input, h.readPos, List.getD_eq_getElem?_getD, List.getElem?_append_right (by omega)]
  cases cs <;> simp

theorem readChar (h : Stands l before (c :: cs)) : Stands l.readChar (before ++ [c]) cs where
  input := by simp only [Lexer.readChar, h.input, List.append_assoc, List.singleton_append]
  pos := by simp only [Lexer.readChar, h.readPos, List.length_append, List.length_singleton]
  readPos := by simp only [Lexer.readChar, h.readPos, List.length_append, List.length_singleton]
  ch := h.getD_readPos

theorem readWhileFrom {p : UInt8 → Bool} (hp : p 0 = false) (fuel : ℕ) :
    ∀ {l : Lexer} {before rest : Bytes}, Stands l before rest → rest.length ≤ fuel →
      Stands (Lexer.readWhileFrom p fuel l) (before ++ rest.takeWhile p) (rest.dropWhile p) := by
  induction fuel with
  | zero =>
    intro l before rest h hlen
    obtain rfl := List.length_eq_zero_iff.1 (Nat.le_zero.1 hlen)
    simpa only [Lexer.readWhileFrom, List.takeWhile_nil, List.dropWhile_nil, List.append_nil]
      using h
  | succ fuel ih =>
    intro l before rest h hlen
    rw [Lexer.readWhileFrom, h.ch]
    cases rest with
    | nil =>
      rw [List.headD_nil, hp, if_neg Bool.false_ne_true]
      simpa only [List.takeWhile_nil, List.dropWhile_nil, List.append_nil] using h
    | cons c cs =>
      rw [List.headD_cons]
      split_ifs with hc
      · have := ih h.readChar (Nat.le_of_succ_le_succ hlen)
        simpa only [List.takeWhile_cons_of_pos hc, List.dropWhile_cons_of_pos hc,
          List.append_assoc, List.singleton_append] using this
      · simpa only [List.takeWhile_cons_of_neg hc, List.dropWhile_cons_of_neg hc,
          List.append_nil] using h

theorem readWhile {p : UInt8 → Bool} (hp : p 0 = false) (h : Stands l before rest) :
    Stands (l.readWhile p) (before ++ rest.takeWhile p) (rest.dropWhile p) := by
  refine readWhileFrom hp _ h ?_
  rw [h.input, List.length_append]
  exact Nat.le_add_left _ _

theorem skipWhitespace (h : Stands l before rest) :
    Stands l.skipWhitespace (before ++ rest.takeWhile isSpace) (rest.dropWhile isSpace) :=
  h.readWhile (by decide)

/-- The next word is looked for behind the current byte, and there has to be one. -/
theorem peekToken (h : Stands l before rest) :
    l.peekToken = rest.tail?.map fun after => (after.dropWhile isSpace).takeWhile isIdent := by
  rw [Lexer.peekToken, h.readPos]
  cases rest with
  | nil =>
    have hdrop : l.input.drop (before.length + 1) = [] := by
      rw [h.input, List.append_nil]
      exact List.drop_eq_nil_of_le (Nat.le_succ _)
    have hscan (p : UInt8 → Bool) : l.scan p (before.length + 1) = before.length + 1 := by
      rw [Lexer.scan, hdrop, List.takeWhile_nil, List.length_nil, Nat.add_zero]
    rw [hscan, hscan, Lexer.slice, if_neg]
    · rfl
    · rw [h.input, List.append_nil]
      omega
  | cons c after =>
    have hinput : l.input = before ++ [c] ++ after := by
      rw [h.input, List.append_assoc, List.singleton_append]
    have hlen : before.length + 1 = (before ++ [c]).length := by
      rw [List.length_append, List.length_singleton]
    have hgap : l.input =
        before ++ [c] ++ after.takeWhile isSpace ++ after.dropWhile isSpace := by
      rw [hinput, List.append_assoc _ _ (after.dropWhile isSpace),
        List.takeWhile_append_dropWhile]
    rw [hlen, Lexer.scan_eq hinput, Lexer.scan_eq hgap]
    refine Lexer.slice_eq ((after.dropWhile isSpace).dropWhile isIdent) ?_
    rw [List.takeWhile_append_dropWhile, hgap]

/-- What was read between two states. -/
theorem slice (h : Stands l before rest) {l' : Lexer} {rest' : Bytes}
    (h' : Stands l' (before ++ source) rest') : l'.slice l.pos l'.pos = some source := by
  rw [h.pos, h'.pos]
  exact Lexer.slice_eq _ (h'.input.trans (List.append_assoc _ _ _))

/-! ## Reading a piece -/

theorem readQuotedString {quote : UInt8} (hquote : quote ≠ 0) (h : Stands l before (c :: cs)) :
    ∃ value l', l.readQuotedString quote = some (value, l') ∧
      Stands l' (before ++ c :: (readQuoted quote cs).1) (readQuoted quote cs).2 := by
  have hread : Stands (l.readChar.readWhile (isInside quote))
      (before ++ [c] ++ cs.takeWhile (isInside quote)) (cs.dropWhile (isInside quote)) :=
    h.readChar.readWhile (by simp [isInside])
  have hresult : l.readQuotedString quote =
      some (cs.takeWhile (isInside quote),
        if (l.readChar.readWhile (isInside quote)).ch = quote then
          (l.readChar.readWhile (isInside quote)).readChar
        else l.readChar.readWhile (isInside quote)) :=
    congrArg (Option.map _) (h.readChar.slice hread)
  refine ⟨_, _, hresult, ?_⟩
  rw [hread.ch, readQuoted]
  cases hdrop : cs.dropWhile (isInside quote) with
  | nil =>
    rw [hdrop] at hread
    rw [List.headD_nil, if_neg hquote.symm]
    simpa only [List.append_assoc, List.singleton_append] using hread
  | cons d after =>
    rw [hdrop] at hread
    rw [List.append_assoc, List.singleton_append] at hread
    rw [List.headD_cons]
    split_ifs with hd
    · simpa only [if_pos hd, List.append_assoc, List.cons_append] using hread.readChar
    · simpa only [if_neg hd] using hread

theorem readMetaCommand (h : Stands l before (c :: cs)) :
    ∃ value l', l.readMetaCommand = some (value, l') ∧
      Stands l' (before ++ c :: cs.takeWhile isMeta) (cs.dropWhile isMeta) := by
  have hread : Stands (l.readChar.readWhile isMeta) (before ++ c :: cs.takeWhile isMeta)
      (cs.dropWhile isMeta) := by
    simpa only [List.append_assoc, List.singleton_append] using
      h.readChar.readWhile (p := isMeta) (by decide)
  exact ⟨_, _, congrArg (Option.map fun value => (value, l.readChar.readWhile isMeta))
    (h.slice hread), hread⟩

theorem readIdentifier (h : Stands l before rest) :
    ∃ l', l.readIdentifier = some (rest.takeWhile isIdent, l') ∧
      Stands l' (before ++ rest.takeWhile isIdent) (rest.dropWhile isIdent) := by
  have hread := h.readWhile (p := isIdent) (by decide)
  exact ⟨_, congrArg (Option.map fun value => (value, l.readWhile isIdent)) (h.slice hread), hread⟩

theorem readNumber (h : Stands l before rest) :
    ∃ t l', l.readNumber = some (t, l') ∧ t.type ≠ .tokenEOF ∧
      Stands l' (before ++ (rest.takeWhile isDigit ++ (readPlaces (rest.dropWhile isDigit)).1))
        (readPlaces (rest.dropWhile isDigit)).2 := by
  have hread := h.readWhile (p := isDigit) (by decide)
  have hwhole (hplaces : ¬((l.readWhile isDigit).ch = byte '.' ∧
      isDigit (l.readWhile isDigit).peekChar)) :
      l.readNumber = some (⟨.tokenInteger, rest.takeWhile isDigit⟩, l.readWhile isDigit) := by
    rw [Lexer.readNumber, if_neg hplaces, h.slice hread]
    rfl
  rw [hread.ch] at hwhole
  generalize hafter : rest.dropWhile isDigit = after at hread hwhole ⊢
  fun_cases readPlaces after with
  | case1 c d after hplaces =>
    have hpeek : (l.readWhile isDigit).peekChar = d := hread.getD_readPos
    have hall := hread.readChar.readWhile (p := isDigit) (by decide)
    rw [List.append_assoc, List.append_assoc, List.singleton_append] at hall
    refine ⟨⟨.tokenFloat, rest.takeWhile isDigit ++ c :: (d :: after).takeWhile isDigit⟩, _, ?_,
      by simp, hall⟩
    rw [Lexer.readNumber, if_pos ⟨hread.ch.trans hplaces.1, hpeek ▸ hplaces.2⟩]
    exact congrArg (Option.map fun value => ((⟨.tokenFloat, value⟩ : Token),
      (l.readWhile isDigit).readChar.readWhile isDigit)) (h.slice hall)
  | case2 c d after hplaces =>
    have hpeek : (l.readWhile isDigit).peekChar = d := hread.getD_readPos
    rw [hpeek] at hwhole
    exact ⟨_, _, hwhole hplaces, by simp, by rwa [List.append_nil]⟩
  | case3 after hshort =>
    refine ⟨_, _, hwhole ?_, by simp, by rwa [List.append_nil]⟩
    match after, hshort, hread with
    | [], _, _ => exact fun hplaces => absurd hplaces.1 (by decide)
    | [c], _, hread =>
      have hpeek : (l.readWhile isDigit).peekChar = 0 := hread.getD_readPos
      rw [hpeek]
      exact fun hplaces => absurd hplaces.2 (by decide)
    | c :: d :: after, hshort, _ => exact absurd rfl (hshort c d after)

end Stands

/-! ## One call -/

theorem keywordType_ne_eof (upper : Bytes) : Lexer.keywordType upper ≠ .tokenEOF := by
  have hkeywords : ∀ k ∈ Lexer.keywords, k.2 ≠ .tokenEOF := by decide
  rw [Lexer.keywordType]
  split
  · rename_i k hfind
    exact hkeywords k (List.mem_of_find?_eq_some hfind)
  · simp

/-- What follows every `DATASET` is as the lexer takes it to be. -/
def Follows (input : Bytes) : Prop :=
  ∀ w ∈ words input, toUpper w.1 = bytes "DATASET" → Followed w.2

/-- What a call does before the input: it stops, it fails, or it reads a slice. -/
inductive Call (before rest : Bytes) : Option (Token × Lexer) → Prop
  | stop {l' : Lexer} : (rest.dropWhile isSpace).headD 0 = 0 →
      Call before rest (some (⟨.tokenEOF, []⟩, l'))
  | fail : ¬Follows rest → Call before rest none
  | read {t : Token} {l' : Lexer} {source left : Bytes} :
      rest.dropWhile isSpace = source ++ left → source ≠ [] → 0 ∉ source →
      t.type ≠ .tokenEOF → Stands l' (before ++ rest.takeWhile isSpace ++ source) left →
      (Follows rest ↔ Recognised (t, source) ∧ Follows left) →
      Call before rest (some (t, l'))

theorem words_of_eq_nil (h : rest.dropWhile isSpace = []) : words rest = [] := by
  rw [words]
  split
  · rfl
  · rename_i hcons
    rw [h] at hcons
    cases hcons

theorem words_of_eq_cons (h : rest.dropWhile isSpace = c :: cs) :
    words rest =
      (if isLetter c then [readPiece c cs] else []) ++ words (readPiece c cs).2 := by
  rw [words]
  split
  · rename_i hnil
    rw [h] at hnil
    cases hnil
  · rename_i hcons
    rw [h] at hcons
    cases hcons
    rfl

theorem readPiece_letter (hletter : isLetter c = true) :
    readPiece c cs = ((c :: cs).takeWhile isIdent, (c :: cs).dropWhile isIdent) := by
  have hquote : ¬isQuote c = true := by
    rw [isQuote, Bool.or_eq_true, decide_eq_true_eq, decide_eq_true_eq]
    rintro (rfl | rfl)
    · exact absurd hletter (by decide)
    · exact absurd hletter (by decide)
  have hback : ¬c = byte '\\' := by
    rintro rfl
    exact absurd hletter (by decide)
  have hident : isIdent c = true := by
    simp only [isIdent, hletter, Bool.true_or]
  rw [readPiece, if_neg hquote, if_neg hback, if_pos hletter, List.takeWhile_cons_of_pos hident,
    List.dropWhile_cons_of_pos hident]

theorem follows_other (h : rest.dropWhile isSpace = c :: cs) (hletter : ¬isLetter c = true) :
    Follows rest ↔ Follows (readPiece c cs).2 := by
  rw [Follows, words_of_eq_cons h, if_neg hletter]
  rfl

theorem follows_letter (h : rest.dropWhile isSpace = c :: cs) (hletter : isLetter c = true) :
    Follows rest ↔
      (toUpper ((c :: cs).takeWhile isIdent) = bytes "DATASET" →
        Followed ((c :: cs).dropWhile isIdent)) ∧ Follows ((c :: cs).dropWhile isIdent) := by
  rw [Follows, words_of_eq_cons h, if_pos hletter, readPiece_letter hletter, List.singleton_append,
    List.forall_mem_cons]
  rfl

theorem zero_notMem_takeWhile {p : UInt8 → Bool} (hp : p 0 = false) : 0 ∉ cs.takeWhile p :=
  fun hmem => Bool.false_ne_true (hp.symm.trans (List.mem_takeWhile_imp hmem))

theorem zero_notMem_readQuoted {quote : UInt8} (hquote : quote ≠ 0) :
    0 ∉ (readQuoted quote cs).1 := by
  have hinside : 0 ∉ cs.takeWhile (isInside quote) := zero_notMem_takeWhile (by simp [isInside])
  rw [readQuoted]
  split
  · exact hinside
  · split_ifs with hc
    · rw [List.mem_append, List.mem_singleton, not_or]
      exact ⟨hinside, fun hzero => hquote (hc.symm.trans hzero.symm)⟩
    · exact hinside

theorem zero_notMem_readPlaces : 0 ∉ (readPlaces cs).1 := by
  fun_cases readPlaces cs with
  | case1 c d after hplaces =>
    rw [List.mem_cons, not_or, hplaces.1]
    exact ⟨by decide, zero_notMem_takeWhile (by decide)⟩
  | case2 => exact List.not_mem_nil
  | case3 => exact List.not_mem_nil

theorem zero_notMem_readPiece (hc : c ≠ 0) : 0 ∉ (readPiece c cs).1 := by
  rw [readPiece]
  split_ifs
  · exact List.not_mem_cons_of_ne_of_not_mem hc.symm (zero_notMem_readQuoted hc)
  · exact List.not_mem_cons_of_ne_of_not_mem hc.symm (zero_notMem_takeWhile (by decide))
  · exact List.not_mem_cons_of_ne_of_not_mem hc.symm (zero_notMem_takeWhile (by decide))
  · refine List.not_mem_cons_of_ne_of_not_mem hc.symm ?_
    exact fun hmem => (List.mem_append.1 hmem).elim (zero_notMem_takeWhile (by decide))
      zero_notMem_readPlaces
  · exact List.not_mem_cons_of_ne_of_not_mem hc.symm List.not_mem_nil

/-- A call that reads the piece before it. -/
def ReadsPiece (before : Bytes) (c : UInt8) (cs : Bytes) (r : Option (Token × Lexer)) : Prop :=
  ∃ t l', r = some (t, l') ∧ t.type ≠ .tokenEOF ∧
    Stands l' (before ++ (readPiece c cs).1) (readPiece c cs).2

theorem readsPiece_single {type : TokenType} (h : Stands l before (c :: cs))
    (htype : type ≠ .tokenEOF) (hpiece : readPiece c cs = ([c], cs)) :
    ReadsPiece before c cs (some (l.single type)) := by
  refine ⟨_, _, rfl, htype, ?_⟩
  rw [hpiece]
  exact h.readChar

theorem readsPiece_quoted {quote : UInt8} (h : Stands l before (quote :: cs))
    (hquote : isQuote quote = true) (hzero : quote ≠ 0) :
    ReadsPiece before quote cs
      ((l.readQuotedString quote).map fun r => (⟨.tokenQuotedString, r.1⟩, r.2)) := by
  obtain ⟨value, l', hread, hstands⟩ := h.readQuotedString hzero
  refine ⟨_, l', by rw [hread]; rfl, by simp, ?_⟩
  rw [readPiece, if_pos hquote]
  exact hstands

/-- A piece that does not start with a letter is read as it is. -/
theorem readsPiece_nextToken (h : Stands l.skipWhitespace before (c :: cs)) (hc : c ≠ 0)
    (hletter : ¬isLetter c = true) : ReadsPiece before c cs l.nextToken := by
  have hch : l.skipWhitespace.ch = c := h.ch
  rw [Lexer.nextToken]
  simp only [hch]
  split_ifs with h1 h2 h3 h4 h5 h6 h7 hdigit
  · exact readsPiece_single h (by simp) (by rw [h1]; rfl)
  · exact readsPiece_single h (by simp) (by rw [h2]; rfl)
  · exact readsPiece_single h (by simp) (by rw [h3]; rfl)
  · exact readsPiece_single h (by simp) (by rw [h4]; rfl)
  · subst h5
    exact readsPiece_quoted h (by decide) hc
  · subst h6
    exact readsPiece_quoted h (by decide) hc
  · obtain ⟨value, l', hread, hstands⟩ := h.readMetaCommand
    refine ⟨_, l', by rw [hread]; rfl, by simp, ?_⟩
    rw [h7] at hstands ⊢
    exact hstands
  · obtain ⟨t, l', hread, htype, hstands⟩ := h.readNumber
    refine ⟨t, l', hread, htype, ?_⟩
    rw [List.takeWhile_cons_of_pos hdigit, List.dropWhile_cons_of_pos hdigit] at hstands
    have hquote : ¬isQuote c = true := by simp [isQuote, h5, h6]
    rw [readPiece, if_neg hquote, if_neg h7, if_neg hletter, if_pos hdigit]
    exact hstands
  · have hquote : ¬isQuote c = true := by simp [isQuote, h5, h6]
    refine readsPiece_single h (by simp) ?_
    rw [readPiece, if_neg hquote, if_neg h7, if_neg hletter, if_neg hdigit]

/-- A word is looked up once it is read. -/
theorem nextToken_letter (h : Stands l.skipWhitespace before (c :: cs))
    (hletter : isLetter c = true) :
    ∃ l', l.nextToken = l'.lookupIdent ((c :: cs).takeWhile isIdent) ∧
      Stands l' (before ++ (c :: cs).takeWhile isIdent) ((c :: cs).dropWhile isIdent) := by
  have hch : l.skipWhitespace.ch = c := h.ch
  obtain ⟨l', hread, hstands⟩ := h.readIdentifier
  refine ⟨l', ?_, hstands⟩
  have hne (d : UInt8) (hd : ¬isLetter d = true) : ¬c = d := fun hcd => hd (hcd ▸ hletter)
  rw [Lexer.nextToken]
  simp only [hch]
  rw [if_neg (hne _ (by decide)), if_neg (hne _ (by decide)), if_neg (hne _ (by decide)),
    if_neg (hne _ (by decide)), if_neg (hne _ (by decide)), if_neg (hne _ (by decide)),
    if_neg (hne _ (by decide)), if_neg (hne _ (by decide)), if_pos hletter, hread]
  rfl

/-! ## Words -/

theorem isIdent_of_isSpace {d : UInt8} (hd : isSpace d = true) : ¬isIdent d = true := by
  simp only [isSpace, Bool.or_eq_true, decide_eq_true_eq] at hd
  obtain ((rfl | rfl) | rfl) | rfl := hd <;> decide

theorem isSpace_of_isLetter {d : UInt8} (hd : isLetter d = true) : ¬isSpace d = true :=
  fun hspace => isIdent_of_isSpace hspace (by simp only [isIdent, hd, Bool.true_or])

/-- A word that is `TABLE` starts with a letter. -/
theorem isLetter_of_table {d : UInt8} {ds : Bytes} (h : toUpper (d :: ds) = bytes "TABLE") :
    isLetter d = true := by
  have hd : (if 97 ≤ d && d ≤ 122 then d - 32 else d) = 84 := (List.cons.inj h).1
  split_ifs at hd with hlower
  · simp only [isLetter, hlower, Bool.or_true, Bool.true_or]
  · rw [hd]
    decide

/-- The type of one word. -/
theorem wordType_word {word : Bytes} (hword : ∀ d ∈ word, isIdent d = true) :
    wordType word =
      if toUpper word = bytes "DATASET" then .tokenDataset
      else Lexer.keywordType (toUpper word) := by
  have hrest : word.dropWhile isIdent = [] := List.dropWhile_eq_nil_iff.2 hword
  rw [wordType, List.takeWhile_eq_self_iff.2 hword, hrest]
  rfl

/-- Something that starts with the word `TABLE` starts with a letter. -/
theorem eq_cons_of_table (h : toUpper (rest.takeWhile isIdent) = bytes "TABLE") :
    ∃ d ds, rest = d :: ds ∧ isLetter d = true := by
  cases rest with
  | nil => cases h
  | cons d ds =>
    by_cases hd : isIdent d = true
    · rw [List.takeWhile_cons_of_pos hd] at h
      exact ⟨d, ds, rfl, isLetter_of_table h⟩
    · rw [List.takeWhile_cons_of_neg hd] at h
      cases h

/-- A word that is `TABLE` has a first byte, a letter. -/
theorem exists_of_table {table : Bytes} (h : toUpper table = bytes "TABLE") :
    ∃ d ds, table = d :: ds ∧ isLetter d = true := by
  cases table with
  | nil => cases h
  | cons d ds => exact ⟨d, ds, rfl, isLetter_of_table h⟩

/-- The type of two words with white space between them. -/
theorem wordType_table {word gap table : Bytes} (hword : ∀ d ∈ word, isIdent d = true)
    (hgap : ∀ d ∈ gap, isSpace d = true) (hne : gap ≠ [])
    (hdataset : toUpper word = bytes "DATASET") (htable : toUpper table = bytes "TABLE") :
    wordType (word ++ (gap ++ table)) = .tokenDatasetTable := by
  obtain ⟨d, ds, rfl⟩ := List.exists_cons_of_ne_nil hne
  obtain ⟨n, ns, rfl, hn⟩ := exists_of_table htable
  have hd : ¬isIdent d = true := isIdent_of_isSpace (hgap d List.mem_cons_self)
  have htake : (word ++ (d :: ds ++ n :: ns)).takeWhile isIdent = word := by
    rw [List.takeWhile_append_of_pos hword, List.cons_append, List.takeWhile_cons_of_neg hd,
      List.append_nil]
  have hdrop : ((word ++ (d :: ds ++ n :: ns)).dropWhile isIdent).dropWhile isSpace = n :: ns := by
    rw [List.dropWhile_append_of_pos hword, List.cons_append, List.dropWhile_cons_of_neg hd,
      ← List.cons_append, List.dropWhile_append_of_pos hgap,
      List.dropWhile_cons_of_neg (isSpace_of_isLetter hn)]
  rw [wordType, htake, hdrop, if_pos hdataset, if_pos htable]

/-- A token of a word is recognised if its type is that of the word. -/
theorem recognised_word {t : Token} (hhead : source.head? = some c) (hletter : isLetter c = true) :
    Recognised (t, source) ↔ t.type = wordType source := by
  simp only [Recognised, hhead, Option.mem_some_iff, forall_eq', hletter, forall_const]

theorem recognised_other {t : Token} (hhead : source.head? = some c)
    (hletter : ¬isLetter c = true) : Recognised (t, source) := by
  simp only [Recognised, hhead, Option.mem_some_iff, forall_eq']
  exact fun h => absurd h hletter

/-- The word before the lexer and what is behind it. -/
structure AtWord (l : Lexer) (before rest word left : Bytes) : Prop where
  split : rest.dropWhile isSpace = word ++ left
  ident : ∀ d ∈ word, isIdent d = true
  head : ∃ c, word.head? = some c ∧ isLetter c = true
  behind : ∀ d ∈ left.head?, ¬isIdent d = true
  follows : Follows rest ↔ (toUpper word = bytes "DATASET" → Followed left) ∧ Follows left
  stands : Stands l (before ++ rest.takeWhile isSpace ++ word) left

namespace AtWord

variable {word left : Bytes}

theorem ne_nil (h : AtWord l before rest word left) : word ≠ [] := by
  obtain ⟨c, hhead, -⟩ := h.head
  rintro rfl
  cases hhead

theorem zero_notMem (h : AtWord l before rest word left) : 0 ∉ word := fun hmem =>
  absurd (h.ident 0 hmem) (by decide)

/-- The word itself is the token. -/
theorem call_word {t : Token} (h : AtWord l before rest word left) (htype : t.type ≠ .tokenEOF)
    (hrecognised : t.type = wordType word ↔
      (toUpper word = bytes "DATASET" → Followed left)) :
    Call before rest (some (t, l)) := by
  obtain ⟨c, hhead, hletter⟩ := h.head
  refine .read h.split h.ne_nil h.zero_notMem htype h.stands ?_
  rw [recognised_word hhead hletter, hrecognised, h.follows]

/-- `DATASET` and `TABLE` are the token. -/
theorem call_table (h : AtWord l before rest word left)
    (hdataset : toUpper word = bytes "DATASET") (hgap : left.takeWhile isSpace ≠ [])
    (htable : toUpper ((left.dropWhile isSpace).takeWhile isIdent) = bytes "TABLE") :
    Call before rest (some (⟨.tokenDatasetTable, bytes "DATASET TABLE"⟩,
      (l.readWhile isSpace).readWhile isIdent)) := by
  obtain ⟨c, hhead, hletter⟩ := h.head
  obtain ⟨n, ns, hmid, hn⟩ := eq_cons_of_table htable
  have hsplit : rest.dropWhile isSpace =
      word ++ (left.takeWhile isSpace ++ (left.dropWhile isSpace).takeWhile isIdent) ++
        (left.dropWhile isSpace).dropWhile isIdent := by
    rw [h.split, List.append_assoc, List.append_assoc, List.takeWhile_append_dropWhile,
      List.takeWhile_append_dropWhile]
  have hstands := h.stands.skipWhitespace.readWhile (p := isIdent) (by decide)
  rw [List.append_assoc _ (left.takeWhile isSpace), List.append_assoc _ word] at hstands
  have hsource : (word ++ (left.takeWhile isSpace ++
      (left.dropWhile isSpace).takeWhile isIdent)).head? = some c := by
    rw [List.head?_append, hhead]
    rfl
  have hrecognised : wordType (word ++ (left.takeWhile isSpace ++
      (left.dropWhile isSpace).takeWhile isIdent)) = .tokenDatasetTable :=
    wordType_table h.ident (fun d => List.mem_takeWhile_imp) hgap hdataset htable
  refine .read hsplit ?_ ?_ (by simp) hstands ?_
  · exact List.append_ne_nil_of_left_ne_nil h.ne_nil _
  · rw [List.mem_append, List.mem_append, not_or, not_or]
    exact ⟨h.zero_notMem, zero_notMem_takeWhile (by decide), zero_notMem_takeWhile (by decide)⟩
  · have hfollowed : Followed left := by
      cases left with
      | nil => exact absurd rfl hgap
      | cons d ds =>
        refine Or.inl ?_
        by_contra hd
        exact hgap (List.takeWhile_cons_of_neg hd)
    have hother : toUpper ((n :: ns).takeWhile isIdent) ≠ bytes "DATASET" := by
      rw [← hmid, htable]
      decide
    rw [recognised_word hsource hletter, hrecognised, h.follows, follows_letter hmid hn, hmid]
    exact ⟨fun hfollows => ⟨rfl, hfollows.2.2⟩,
      fun hfollows => ⟨fun _ => hfollowed, fun htable => absurd htable hother, hfollows.2⟩⟩

theorem call_lookupIdent (h : AtWord l before rest word left) :
    Call before rest (l.lookupIdent word) := by
  rw [Lexer.lookupIdent, h.stands.peekToken]
  split_ifs with hdataset
  · have hword : wordType word = .tokenDataset := by
      rw [wordType_word h.ident, if_pos hdataset]
    cases left with
    | nil => exact .fail fun hfollows => (h.follows.1 hfollows).1 hdataset
    | cons d after =>
      rw [List.tail?_cons, Option.map_some, Option.map_some]
      have hd : ¬isIdent d = true := h.behind d rfl
      split_ifs with htable
      · by_cases hspace : isSpace d = true
        · refine h.call_table hdataset ?_ ?_
          · rw [List.takeWhile_cons_of_pos hspace]
            exact List.cons_ne_nil _ _
          · rwa [List.dropWhile_cons_of_pos hspace]
        · -- the lexer has seen `TABLE` behind a byte that it does not skip
          have hstands := h.stands.skipWhitespace.readWhile (p := isIdent) (by decide)
          rw [List.takeWhile_cons_of_neg hspace, List.dropWhile_cons_of_neg hspace,
            List.append_nil, List.takeWhile_cons_of_neg hd, List.dropWhile_cons_of_neg hd,
            List.append_nil] at hstands
          have hnot : ¬Followed (d :: after) := fun hfollowed =>
            hfollowed.elim hspace fun hne => hne htable
          obtain ⟨c, hhead, hletter⟩ := h.head
          refine .read h.split h.ne_nil h.zero_notMem (by simp) hstands ?_
          rw [recognised_word hhead hletter, hword, h.follows]
          exact iff_of_false (fun hfollows => hnot (hfollows.1 hdataset)) (by simp)
      · exact h.call_word (by simp) (iff_of_true hword.symm fun _ => .inr htable)
  · refine h.call_word (keywordType_ne_eof _) (iff_of_true ?_ fun h => absurd h hdataset)
    rw [wordType_word h.ident, if_neg hdataset]

end AtWord

theorem head_dropWhile {d : UInt8} (hd : d ∈ (cs.dropWhile isIdent).head?) :
    ¬isIdent d = true := by
  have hnot := List.head?_dropWhile_not isIdent cs
  rw [hd] at hnot
  exact fun htrue => Bool.false_ne_true (hnot.symm.trans htrue)

/-- What a call does. -/
theorem call_nextToken (h : Stands l before rest) : Call before rest l.nextToken := by
  have hskip := h.skipWhitespace
  have hstop (hzero : (rest.dropWhile isSpace).headD 0 = 0) : Call before rest l.nextToken := by
    have hch : l.skipWhitespace.ch = 0 := hskip.ch.trans hzero
    have hnext : l.nextToken = some (⟨.tokenEOF, []⟩, l.skipWhitespace) := by
      rw [Lexer.nextToken]
      simp only [hch]
      rfl
    rw [hnext]
    exact .stop hzero
  cases hdrop : rest.dropWhile isSpace with
  | nil => exact hstop (by rw [hdrop]; rfl)
  | cons c cs =>
    by_cases hc : c = 0
    · exact hstop (by rw [hdrop]; exact hc)
    rw [hdrop] at hskip
    by_cases hletter : isLetter c = true
    · obtain ⟨l', hnext, hstands⟩ := nextToken_letter hskip hletter
      have hident : isIdent c = true := by
        simp only [isIdent, hletter, Bool.true_or]
      rw [hnext]
      refine AtWord.call_lookupIdent {
        split := by rw [hdrop, List.takeWhile_append_dropWhile]
        ident := fun d => List.mem_takeWhile_imp
        head := ⟨c, by rw [List.takeWhile_cons_of_pos hident]; rfl, hletter⟩
        behind := fun d hd => head_dropWhile hd
        follows := follows_letter hdrop hletter
        stands := hstands }
    · obtain ⟨t, l', hnext, htype, hstands⟩ := readsPiece_nextToken hskip hc hletter
      have hhead : (readPiece c cs).1.head? = some c := head_readPiece c cs
      rw [hnext]
      refine .read (by rw [hdrop, readPiece_append]) ?_ (zero_notMem_readPiece hc) htype hstands ?_
      · intro hnil
        rw [hnil] at hhead
        cases hhead
      · rw [follows_other hdrop hletter]
        exact (and_iff_right (recognised_other hhead hletter)).symm

/-! ## A whole command -/

/-- The lexer comes to the end and recognises its tokens. -/
def Recognises (calls : ℕ) (l : Lexer) : Prop :=
  ∃ ts, l.tokens calls = some ts ∧ ∀ t ∈ ts, Recognised t

/-- The input ends where the lexer takes the byte for a NUL that is none. -/
theorem eq_nil_of_headD (hzero : rest.headD 0 = 0) (hrest : 0 ∉ rest) : rest = [] := by
  cases rest with
  | nil => rfl
  | cons c cs =>
    rw [List.headD_cons] at hzero
    exact absurd (hzero ▸ List.mem_cons_self) hrest

/-- The tokens from a call that reads a slice on. -/
theorem tokens_read {calls : ℕ} {t : Token} {l' : Lexer} {left : Bytes}
    (h : Stands l before rest) (hnext : l.nextToken = some (t, l'))
    (hsplit : rest.dropWhile isSpace = source ++ left) (htype : t.type ≠ .tokenEOF)
    (h' : Stands l' (before ++ rest.takeWhile isSpace ++ source) left) :
    l.tokens (calls + 1) = (l'.tokens calls).map ((t, source) :: ·) := by
  have hskip := h.skipWhitespace
  have hslice : l.slice l.skipWhitespace.pos l'.pos = some source := by
    rw [hskip.pos, h'.pos]
    refine Lexer.slice_eq left ?_
    rw [← hsplit, List.append_assoc, List.takeWhile_append_dropWhile, h.input]
  rw [Lexer.tokens, hnext, Option.bind_some, if_neg htype, hslice]
  rfl

/-- The slices have no NUL in them and, up to the first one, cover the input. -/
theorem covers_tokens (calls : ℕ) :
    ∀ {l : Lexer} {before rest : Bytes} {ts : List (Token × Bytes)}, Stands l before rest →
      l.tokens calls = some ts →
        (∀ t ∈ ts, 0 ∉ t.2) ∧ (0 ∉ rest → Covers rest (ts.map Prod.snd)) := by
  induction calls with
  | zero =>
    intro l before rest ts _ hts
    cases hts
  | succ calls ih =>
    intro l before rest ts h hts
    have hcall := call_nextToken h
    generalize hnext : l.nextToken = r at hcall
    cases hcall with
    | stop hzero =>
      rw [Lexer.tokens, hnext] at hts
      cases hts
      refine ⟨fun t ht => absurd ht List.not_mem_nil, fun hrest => .done ?_⟩
      exact List.dropWhile_eq_nil_iff.1 (eq_nil_of_headD hzero fun hmem =>
        hrest ((List.dropWhile_suffix _).subset hmem))
    | fail =>
      rw [Lexer.tokens, hnext] at hts
      cases hts
    | read hsplit hne hsource htype h' =>
      rw [tokens_read h hnext hsplit htype h', Option.map_eq_some_iff] at hts
      obtain ⟨ts', hts', rfl⟩ := hts
      obtain ⟨hnotMem, hcovers⟩ := ih h' hts'
      refine ⟨List.forall_mem_cons.2 ⟨hsource, hnotMem⟩, fun hrest => ?_⟩
      have hwhole := List.takeWhile_append_dropWhile (p := isSpace) (l := rest)
      rw [hsplit, ← List.append_assoc] at hwhole
      rw [List.map_cons, ← hwhole]
      refine .piece (fun c => List.mem_takeWhile_imp) (hcovers fun hmem => hrest ?_)
      rw [← hwhole]
      exact List.mem_append_right _ hmem

/-- Slices without a NUL cover no input with one. -/
theorem Covers.zero_notMem {input : Bytes} {sources : List Bytes} (h : Covers input sources)
    (hsources : ∀ source ∈ sources, 0 ∉ source) : 0 ∉ input := by
  have hspaces {gap : Bytes} (hgap : ∀ c ∈ gap, isSpace c = true) : 0 ∉ gap := fun hmem =>
    absurd (hgap 0 hmem) (by decide)
  induction h with
  | done hgap => exact hspaces hgap
  | piece hgap _ ih =>
    rw [List.forall_mem_cons] at hsources
    rw [List.mem_append, List.mem_append, not_or, not_or]
    exact ⟨⟨hspaces hgap, hsources.1⟩, ih hsources.2⟩

/-- The lexer gets through with enough calls if and only if every `DATASET` is followed as it
should be. -/
theorem recognises_iff (calls : ℕ) : ∀ {l : Lexer} {before rest : Bytes}, Stands l before rest →
    0 ∉ rest → rest.length < calls → (Recognises calls l ↔ Follows rest) := by
  induction calls with
  | zero =>
    intro l before rest _ _ hcalls
    exact absurd hcalls (Nat.not_lt_zero _)
  | succ calls ih =>
    intro l before rest h hrest hcalls
    have hcall := call_nextToken h
    generalize hnext : l.nextToken = r at hcall
    cases hcall with
    | stop hzero =>
      have hdrop : rest.dropWhile isSpace = [] := eq_nil_of_headD hzero fun hmem =>
        hrest ((List.dropWhile_suffix _).subset hmem)
      have htokens : l.tokens (calls + 1) = some [] := by
        rw [Lexer.tokens, hnext]
        rfl
      refine iff_of_true ⟨[], htokens, fun t ht => absurd ht List.not_mem_nil⟩ ?_
      rw [Follows, words_of_eq_nil hdrop]
      exact fun w hw => absurd hw List.not_mem_nil
    | fail hnot =>
      refine iff_of_false (fun ⟨ts, hts, _⟩ => ?_) hnot
      rw [Lexer.tokens, hnext] at hts
      cases hts
    | @read t l' source left hsplit hne hsource htype h' hfollows =>
      have hsuffix : left <:+ rest :=
        ⟨rest.takeWhile isSpace ++ source, by
          rw [List.append_assoc, ← hsplit, List.takeWhile_append_dropWhile]⟩
      have hlen : left.length < rest.length := by
        have hdrop := (List.dropWhile_suffix isSpace (l := rest)).length_le
        rw [hsplit, List.length_append] at hdrop
        have := List.length_pos_of_ne_nil hne
        omega
      rw [hfollows, ← ih h' (fun hmem => hrest (hsuffix.subset hmem)) (by omega), Recognises,
        tokens_read h hnext hsplit htype h']
      constructor
      · rintro ⟨ts, hts, hall⟩
        obtain ⟨ts', hts', rfl⟩ := Option.map_eq_some_iff.1 hts
        rw [List.forall_mem_cons] at hall
        exact ⟨hall.1, ts', hts', hall.2⟩
      · rintro ⟨ht, ts', hts', hall⟩
        exact ⟨(t, source) :: ts', by rw [hts']; rfl, List.forall_mem_cons.2 ⟨ht, hall⟩⟩

/-- The lexer consumes an input if and only if there is no NUL in it and behind every `DATASET`
comes something that does not begin with `TABLE` unless after white space. -/
theorem consumes_iff (input : Bytes) :
    Consumes input ↔ 0 ∉ input ∧
      ∀ w ∈ words input, toUpper w.1 = bytes "DATASET" → Followed w.2 := by
  have hstands := stands_new input
  constructor
  · rintro ⟨ts, hts, hcovers, hall⟩
    have hzero : 0 ∉ input := by
      refine hcovers.zero_notMem fun source hsource => ?_
      obtain ⟨t, ht, rfl⟩ := List.mem_map.1 hsource
      exact (covers_tokens _ hstands hts).1 t ht
    exact ⟨hzero, (recognises_iff _ hstands hzero (Nat.lt_succ_self _)).1 ⟨ts, hts, hall⟩⟩
  · rintro ⟨hzero, hfollows⟩
    obtain ⟨ts, hts, hall⟩ :=
      (recognises_iff _ hstands hzero (Nat.lt_succ_self _)).2 hfollows
    exact ⟨ts, hts, (covers_tokens _ hstands hts).2 hzero, hall⟩

/-- A command cannot end in `DATASET`. -/
theorem not_consumes : ¬Consumes (bytes "list dataset") := by
  rintro ⟨ts, hts, -⟩
  have hnone : Lexer.tokens ((bytes "list dataset").length + 1) (.new (bytes "list dataset")) =
      none := by decide
  rw [hnone] at hts
  cases hts

end RagFlow.Cli
