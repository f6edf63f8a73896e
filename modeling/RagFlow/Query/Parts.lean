/-
# Parts of a question's query

The terms of a part are read one by one, and each of them exactly if it is no connective itself,
its weight prints without an exponent, and its synonyms, if it has any, are read as clauses.
-/

import RagFlow.Query.Clauses

namespace RagFlow.Query

open RagFlow.Lucene RagFlow.Math
open RagFlow.Ingestion (isSpace)

variable {q : Queryer} {tk : Text}

theorem isNumber_of_point {d e : Char} (hd : d.isDigit = true) (he : e.isDigit = true) :
    IsNumber [d, '.', e] :=
  .point [d] [e] (List.cons_ne_nil _ _) (List.cons_ne_nil _ _)
    (fun c hc => by rwa [List.mem_singleton.mp hc]) fun c hc => by rwa [List.mem_singleton.mp hc]

/-! ## Terms -/

/-- A term without its synonyms and its parts. -/
def termItem (tk : Text) : Item := if ' ' ∈ tk then .phrase tk none else .word tk

theorem isClause_termItem (tk : Text) : (termItem tk).isClause = true := by
  rw [termItem]
  split <;> rfl

theorem body_term (h : IsTerm tk) :
    Body (if hasBlankInside tk then quote tk else tk)
      ((if tk ∈ reserved then none else some (termItem tk)).map fun item => [item]) := by
  by_cases hblank : ' ' ∈ tk
  · have hnot : tk ∉ reserved := by
      intro hmem
      simp only [reserved, orWord, List.mem_cons, List.not_mem_nil, or_false] at hmem
      rcases hmem with rfl | rfl | rfl <;> revert hblank <;> decide
    rw [if_pos ((hasBlankInside_iff h).mpr hblank), if_neg hnot, termItem, if_pos hblank]
    exact (closes_quoted (quotable_of_mem fun c hc => h.mem hc)).reads.body
  · have htoken := h.isToken hblank
    rw [if_neg fun hb => hblank ((hasBlankInside_iff h).mp hb), termItem, if_neg hblank]
    have hbody := (readsAs_word htoken.1 (isPlain_of_mem htoken)).body
    convert hbody using 1
    rw [finishAs]
    by_cases hor : tk = orWord
    · rw [if_pos (hor ▸ List.mem_cons_self), if_pos hor]
      rfl
    · rw [if_neg hor]
      split <;> rfl

/-- A synonym as it is put into the query. -/
def synonymItem : Text → Item
  | '"' :: t => .phrase t.dropLast none
  | t => .word t

theorem isClause_synonymItem (t : Text) : (synonymItem t).isClause = true := by
  rw [synonymItem.eq_def]
  split <;> rfl

section Terms

variable (hfine : Tokenizes q.fineGrainedTokenize)
include hfine

theorem readsAs_synonym {s : Text} (hs : s ∈ q.synonymTexts tk) (hne : s ≠ []) :
    ReadsAs synonymItem s := by
  obtain ⟨u, _, rfl⟩ := List.mem_map.mp hs
  dsimp only at hne ⊢
  rcases tokenize_eq_nil_or_isTerm hfine u with hnil | hterm
  · rw [hnil] at hne
    exact absurd rfl hne
  · split
    · refine readsAs_quoted (quotable_of_mem fun c hc => hterm.mem hc) ?_
      rw [synonymItem, List.dropLast_concat]
    · next hb =>
        have htoken := hterm.isToken fun hmem => hb ((hasBlankInside_iff hterm).mpr hmem)
        refine (readsAs_word htoken.1 (isPlain_of_mem htoken)).congr ?_
        obtain ⟨c, t, ht, hc⟩ := hterm.head
        rw [ht, synonymItem]
        rintro t' heq
        rw [List.cons.injEq] at heq
        exact absurd heq.1 (ne_of_isTokenChar hc (by decide))

omit hfine in
/-- The synonyms of a term are read as clauses, or there are none. -/
def SynonymsRead (q : Queryer) (tk : Text) : Prop :=
  q.synonymTexts tk ≠ [] →
    ReadsAsClauses ((q.synonymTexts tk).filter fun s => !s.isEmpty)

/-- The synonyms of a term, as the items of a group. -/
def synonymItems (q : Queryer) (tk : Text) : Option Item :=
  (((q.synonymTexts tk).filter fun s => !s.isEmpty).foldlM (finishAs synonymItem) []).bind
    fun items => if ready items then some (.group items.reverse) else none

theorem closes_synonyms : Closes (paren (joinBlank (q.synonymTexts tk))) (synonymItems q tk) :=
  (body_words fun _ hs hne => readsAs_synonym hfine hs hne).closes

omit hfine in
theorem isSome_synonymItems :
    (synonymItems q tk).isSome ↔
      ReadsAsClauses ((q.synonymTexts tk).filter fun s => !s.isEmpty) := by
  rw [← foldlM_finishAs_nil_iff isClause_synonymItem, synonymItems, Option.isSome_iff_exists]
  constructor
  · rintro ⟨item, hitem⟩
    obtain ⟨items, hitems, hready⟩ := Option.bind_eq_some_iff.mp hitem
    split at hready
    · next h => exact ⟨items, hitems, h⟩
    · cases hready
  · rintro ⟨items, hitems, hready⟩
    exact ⟨_, Option.bind_eq_some_iff.mpr ⟨items, hitems, if_pos hready⟩⟩

/-- A term with its synonyms. -/
def termWithSynonyms (q : Queryer) (tk : Text) : Option Item :=
  if tk ∈ reserved then none
  else if q.synonymTexts tk = [] then some (termItem tk)
  else (synonymItems q tk).map fun syns => .group [termItem tk, .or, .boosted syns "0.2".toList]

/-- A term with its synonyms and its parts; the last item is first. -/
def termItems (q : Queryer) (tk : Text) : Option (List Item) :=
  (termWithSynonyms q tk).map fun item =>
    if q.termParts tk = [] then [item]
    else
      let sm := joinBlank (q.termParts tk)
      [.boosted (.group [.phrase sm (some ['2'])]) "0.5".toList, .or, .phrase sm none, .or, item]

theorem isToken_of_mem_termParts {m : Text} (h : m ∈ q.termParts tk) : IsToken m := by
  rw [Queryer.termParts] at h
  obtain ⟨h, _⟩ := List.mem_filter.mp h
  obtain ⟨u, hu, rfl⟩ := List.mem_map.mp h
  obtain ⟨hu, hlong⟩ := List.mem_filter.mp hu
  obtain ⟨v, hv, rfl⟩ := List.mem_map.mp hu
  split at hv
  · have htoken : IsToken (v.filter fun c => !Queryer.isPartMark c) := by
      refine ⟨fun hnil => ?_, fun c hc => ?_⟩
      · rw [hnil] at hlong
        cases hlong
      · exact (isToken_of_mem_split hfine hv).2 c (List.mem_filter.mp hc).1
    rw [htoken.isTerm.subSpecialChar_eq]
    exact htoken
  · cases hv

omit hfine in
theorem isClause_of_termWithSynonyms {item : Item} (h : termWithSynonyms q tk = some item) :
    item.isClause = true := by
  rw [termWithSynonyms] at h
  split at h
  · cases h
  · split at h
    · cases h
      exact isClause_termItem tk
    · obtain ⟨_, _, rfl⟩ := Option.map_eq_some_iff.mp h
      rfl

theorem body_termWithSynonyms (h : IsTerm tk) :
    Body (if q.synonymTexts tk = [] then if hasBlankInside tk then quote tk else tk
      else paren ((if hasBlankInside tk then quote tk else tk) ++ " OR ".toList ++
        boosted (paren (joinBlank (q.synonymTexts tk))) "0.2".toList))
      ((termWithSynonyms q tk).map fun item => [item]) := by
  have hterm := body_term h
  rw [termWithSynonyms]
  by_cases hsyns : q.synonymTexts tk = []
  · rw [if_pos hsyns, if_pos hsyns]
    exact hterm
  · rw [if_neg hsyns, if_neg hsyns, List.append_assoc]
    have hsyn := (@closes_synonyms q tk hfine).boost
      (isNumber_of_point (d := '0') (e := '2') rfl rfl)
    have hbody := (hterm.or hsyn).closes.reads.body
    change Body (paren ((if hasBlankInside tk then quote tk else tk) ++ (" OR ".toList ++
      boosted (paren (joinBlank (q.synonymTexts tk))) "0.2".toList))) _ at hbody
    convert hbody using 2
    by_cases hres : tk ∈ reserved
    · rw [if_pos hres, if_pos hres]
      rfl
    · rw [if_neg hres, if_neg hres, Option.map_some, Option.bind_some, if_pos]
      · cases synonymItems q tk <;> rfl
      · rw [ready_cons]
        exact isClause_termItem tk

theorem body_termText (h : IsTerm tk) : Body (q.termText tk) (termItems q tk) := by
  have hbody := body_termWithSynonyms hfine h
  rw [Queryer.termText, termItems]
  dsimp only
  rw [h.subSpecialChar_eq]
  by_cases hparts : q.termParts tk = []
  · simp only [if_pos hparts]
    exact hbody
  · simp only [if_neg hparts]
    have hquotable : ∀ c ∈ joinBlank (q.termParts tk), c ≠ '"' ∧ c ≠ '\\' :=
      quotable_of_mem fun c hc =>
        mem_joinBlank (fun m hm => isToken_of_mem_termParts hfine hm) hc
    have htext : '"' :: (joinBlank (q.termParts tk) ++ "\"~2".toList) =
        quote (joinBlank (q.termParts tk)) ++ "~2".toList := by
      rw [quote, List.cons_append, List.append_assoc]
      rfl
    have hslop : Reads (boosted (paren (quote (joinBlank (q.termParts tk)) ++ "~2".toList))
        "0.5".toList)
        (some (.boosted (.group [.phrase (joinBlank (q.termParts tk)) (some ['2'])])
          "0.5".toList)) := by
      rw [← htext]
      exact (reads_slop hquotable).body.closes.boost
        (isNumber_of_point (d := '0') (e := '5') rfl rfl)
    have hquoted : Closes (quote (joinBlank (q.termParts tk)))
        (some (.phrase (joinBlank (q.termParts tk)) none)) := closes_quoted hquotable
    have hall := (hbody.or hquoted.reads).or hslop
    rw [← List.append_assoc, ← List.append_assoc] at hall
    convert hall using 1
    cases hitem : termWithSynonyms q tk with
    | none => rfl
    | some item =>
        have hready : ready [item] = true :=
          (ready_cons item []).trans (isClause_of_termWithSynonyms hitem)
        rw [Option.map_some, Option.map_some, Option.bind_some, if_pos hready]
        rfl

omit hfine in
theorem isSome_termItems :
    (termItems q tk).isSome ↔ tk ∉ reserved ∧ SynonymsRead q tk := by
  rw [termItems, Option.isSome_map, termWithSynonyms, SynonymsRead]
  by_cases hres : tk ∈ reserved
  · rw [if_pos hres]
    exact iff_of_false Bool.false_ne_true fun h => h.1 hres
  · rw [if_neg hres]
    by_cases hsyns : q.synonymTexts tk = []
    · rw [if_pos hsyns]
      exact iff_of_true rfl ⟨hres, fun h => absurd hsyns h⟩
    · rw [if_neg hsyns, Option.isSome_map, isSome_synonymItems]
      exact ⟨fun h => ⟨hres, fun _ => h⟩, fun h => h.2 hsyns⟩

omit hfine in
theorem ready_termItems {items : List Item} (h : termItems q tk = some items) :
    ready items = true := by
  obtain ⟨item, hitem, rfl⟩ := Option.map_eq_some_iff.mp h
  split
  · exact (ready_cons item []).trans (isClause_of_termWithSynonyms hitem)
  · rfl

end Terms

theorem strip_cons_ne_nil {c : Char} {t : Text} (h : isSpace c = false) : strip (c :: t) ≠ [] := by
  rw [strip, List.dropWhile_cons_of_neg (by rw [h]; exact Bool.false_ne_true)]
  intro hnil
  have hall := List.rdropWhile_eq_nil_iff.mp hnil c List.mem_cons_self
  rw [h] at hall
  cases hall

/-- Something is put into the query for each term. -/
theorem strip_termText_ne_nil (h : IsTerm tk) : strip (q.termText tk) ≠ [] := by
  obtain ⟨c, t, ht, hc⟩ := h.head
  have hfirst : ∃ d u, (if hasBlankInside tk then quote tk else tk) = d :: u ∧
      isSpace d = false := by
    split
    · exact ⟨_, _, rfl, by decide⟩
    · exact ⟨c, t, ht, not_isSpace hc⟩
  have hsecond : ∃ d u, (if q.synonymTexts tk = [] then if hasBlankInside tk then quote tk else tk
      else paren ((if hasBlankInside tk then quote tk else tk) ++ " OR ".toList ++
        boosted (paren (joinBlank (q.synonymTexts tk))) "0.2".toList)) = d :: u ∧
      isSpace d = false := by
    split
    · exact hfirst
    · exact ⟨_, _, rfl, by decide⟩
  obtain ⟨d, u, hd, hspace⟩ := hsecond
  have htext : ∃ v, q.termText tk = d :: v := by
    rw [Queryer.termText]
    dsimp only
    rw [h.subSpecialChar_eq, hd]
    split
    · exact ⟨u, rfl⟩
    · exact ⟨_, rfl⟩
  obtain ⟨v, hv⟩ := htext
  rw [hv]
  exact strip_cons_ne_nil hspace

/-! ## Parts -/

/-- The terms that are reached before there are keywords enough. -/
def reached (q : Queryer) : List Text → List (Text × Weight) → List (Text × Weight)
  | _, [] => []
  | keywords, x :: twts =>
    if 32 ≤ (q.termKeywords keywords x.1).length then []
    else x :: reached q (q.termKeywords keywords x.1) twts

theorem mem_of_mem_reached {keywords : List Text} {twts : List (Text × Weight)}
    {x : Text × Weight} (h : x ∈ reached q keywords twts) : x ∈ twts := by
  induction twts generalizing keywords with
  | nil => cases h
  | cons y twts ih =>
      rw [reached] at h
      split at h
      · cases h
      · rcases List.mem_cons.mp h with rfl | h
        · exact List.mem_cons_self
        · exact List.mem_cons_of_mem y (ih h)

theorem addTerms_snd {keywords : List Text} {twts : List (Text × Weight)}
    (h : ∀ x ∈ twts, IsTerm x.1) :
    (q.addTerms keywords twts).2 =
      (reached q keywords twts).map fun x => (q.termText x.1, x.2) := by
  induction twts generalizing keywords with
  | nil => rfl
  | cons x twts ih =>
      rw [Queryer.addTerms, reached]
      dsimp only
      split
      · rfl
      · rw [if_neg (strip_termText_ne_nil (h x List.mem_cons_self)),
          ih fun y hy => h y (List.mem_cons_of_mem x hy)]
        rfl

/-- The terms of a part that are put into the query. -/
def partTerms (q : Queryer) (keywords : List Text) (tt : Text) : List (Text × Weight) :=
  reached q (q.partKeywords keywords tt) (Queryer.sortTerms (q.tw.weights tt))

/-- A term with its weight. -/
def weightedItem (q : Queryer) (x : Text × Weight) : Option Item :=
  if x.2.Plain then
    (termItems q x.1).map fun items => .boosted (.group items.reverse) x.2.str
  else none

/-- The tokens of a part close to each other. -/
def proximityItem (q : Queryer) (tt : Text) : Item :=
  .boosted (.group [.phrase (q.tw.tokenize tt) (some ['2'])]) "1.5".toList

/-- The terms of a part, the last one first. -/
def termsItems (q : Queryer) (keywords : List Text) (tt : Text) : Option (List Item) :=
  ((partTerms q keywords tt).mapM (weightedItem q)).map fun items =>
    (if 1 < (q.tw.weights tt).length then [proximityItem q tt] else []) ++ items.reverse

/-- The synonyms of a part. -/
def partSynonyms (q : Queryer) (tt : Text) : List Item :=
  (q.lookup tt).map fun s => .phrase (q.tw.tokenize (subSpecialChar s)) none

/-- What is put into the query for a part. -/
def partItem (q : Queryer) (keywords : List Text) (tt : Text) : Option Item :=
  (termsItems q keywords tt).map fun items => .group
    (if q.lookup tt = [] then items.reverse
    else [.boosted (.group items.reverse) ['5'], .or,
      .boosted (.group ((partSynonyms q tt).intersperse .or)) "0.7".toList])

section Part

variable (htok : Tokenizes q.tw.tokenize) (hfine : Tokenizes q.fineGrainedTokenize)
  {keywords : List Text} {tt : Text}
include htok

theorem isTerm_of_mem_partTerms {x : Text × Weight} (h : x ∈ partTerms q keywords tt) :
    IsTerm x.1 :=
  isTerm_of_mem_weights htok ((List.mem_insertionSort _).mp (mem_of_mem_reached h))

/-- The text for the terms of a part. -/
def termsText (q : Queryer) (keywords : List Text) (tt : Text) : Text :=
  joinBlank ((partTerms q keywords tt).map fun x => boosted (paren (q.termText x.1)) x.2.str) ++
    if 1 < (q.tw.weights tt).length then
      ' ' :: boosted (paren (quote (q.tw.tokenize tt) ++ "~2".toList)) "1.5".toList
    else []

theorem addPart_snd :
    (q.addPart keywords tt).2 =
      if q.lookup tt ≠ [] ∧ termsText q keywords tt ≠ [] then
        boosted (paren (termsText q keywords tt)) ['5'] ++ " OR ".toList ++
          boosted (paren (joinOr ((q.lookup tt).map fun s =>
            quote (q.tw.tokenize (subSpecialChar s))))) "0.7".toList
      else termsText q keywords tt := by
  have hterms : ∀ x ∈ Queryer.sortTerms (q.tw.weights tt), IsTerm x.1 := fun x hx =>
    isTerm_of_mem_weights htok ((List.mem_insertionSort _).mp hx)
  have hsyns : joinOr ((q.lookup tt).map fun s => quote (q.tw.tokenize (subSpecialChar s))) ≠ [] ↔
      q.lookup tt ≠ [] := by
    cases hlookup : q.lookup tt with
    | nil => exact iff_of_false (fun h => h rfl) fun h => h rfl
    | cons s syns =>
        rw [List.map_cons, joinOr, intercalate_cons_eq]
        exact iff_of_true (List.cons_ne_nil _ _) (List.cons_ne_nil s syns)
  have htext : (if 1 < (q.tw.weights tt).length then
      joinBlank ((q.addTerms (q.partKeywords keywords tt)
        (Queryer.sortTerms (q.tw.weights tt))).2.map fun x => boosted (paren x.1) x.2.str) ++
        ' ' :: boosted (paren (quote (q.tw.tokenize tt) ++ "~2".toList)) "1.5".toList
      else joinBlank ((q.addTerms (q.partKeywords keywords tt)
        (Queryer.sortTerms (q.tw.weights tt))).2.map fun x => boosted (paren x.1) x.2.str)) =
      termsText q keywords tt := by
    rw [addTerms_snd hterms, List.map_map, termsText, partTerms]
    split
    · rfl
    · rw [List.append_nil]
      rfl
  rw [Queryer.addPart]
  dsimp only
  rw [htext]
  exact if_congr (and_congr_left' hsyns) rfl rfl

omit htok in
theorem termsText_eq_nil_iff :
    termsText q keywords tt = [] ↔
      partTerms q keywords tt = [] ∧ (q.tw.weights tt).length ≤ 1 := by
  rw [termsText, List.append_eq_nil_iff]
  refine and_congr ?_ ?_
  · cases partTerms q keywords tt with
    | nil => exact iff_of_true rfl rfl
    | cons x twts =>
        rw [List.map_cons, joinBlank, intercalate_cons_eq]
        exact iff_of_false (List.cons_ne_nil _ _) (List.cons_ne_nil x twts)
  · split
    · next h => exact iff_of_false (List.cons_ne_nil _ _) (Nat.not_le.mpr h)
    · next h => exact iff_of_true rfl (Nat.not_lt.mp h)

include hfine

omit htok in
theorem reads_weighted {x : Text × Weight} (h : IsTerm x.1) :
    Reads (boosted (paren (q.termText x.1)) x.2.str) (weightedItem q x) := by
  have hreads := reads_boosted_str (body_termText hfine h).closes x.2
  change Reads (boosted (paren (q.termText x.1)) x.2.str) _ at hreads
  rw [weightedItem]
  convert hreads using 2
  cases hitems : termItems q x.1 with
  | none => rfl
  | some items =>
      rw [Option.bind_some, if_pos (ready_termItems hitems)]
      rfl

theorem body_terms : Body (termsText q keywords tt) (termsItems q keywords tt) := by
  have hbody : Body (joinBlank ((partTerms q keywords tt).map fun x =>
      boosted (paren (q.termText x.1)) x.2.str))
      (((partTerms q keywords tt).mapM (weightedItem q)).map List.reverse) :=
    body_join fun x hx => reads_weighted hfine (isTerm_of_mem_partTerms htok hx)
  rw [termsText, termsItems]
  by_cases hmany : 1 < (q.tw.weights tt).length
  · rw [if_pos hmany, if_pos hmany]
    have hprox : Reads (boosted (paren (quote (q.tw.tokenize tt) ++ "~2".toList)) "1.5".toList)
        (some (proximityItem q tt)) := by
      have htext : '"' :: (q.tw.tokenize tt ++ "\"~2".toList) =
          quote (q.tw.tokenize tt) ++ "~2".toList := by
        rw [quote, List.cons_append, List.append_assoc]
        rfl
      rw [← htext]
      exact (reads_slop (quotable_of_mem fun c hc => mem_tokenize htok hc)).body.closes.boost
        (isNumber_of_point (d := '1') (e := '5') rfl rfl)
    convert hbody.blank hprox using 1
    cases (partTerms q keywords tt).mapM (weightedItem q) <;> rfl
  · rw [if_neg hmany, if_neg hmany, List.append_nil]
    exact hbody

omit htok hfine in
theorem ready_termsItems (hne : termsText q keywords tt ≠ []) {items : List Item}
    (h : termsItems q keywords tt = some items) : ready items = true := by
  obtain ⟨weighted, hweighted, rfl⟩ := Option.map_eq_some_iff.mp h
  by_cases hmany : 1 < (q.tw.weights tt).length
  · rw [if_pos hmany]
    rfl
  · rw [if_neg hmany, List.nil_append]
    have hall := mapM_eq_some_iff.mp hweighted
    refine ready_of_isClause (fun hnil => hne ?_) fun item hitem => ?_
    · rw [List.reverse_eq_nil_iff] at hnil
      rw [hnil, List.forall₂_nil_right_iff] at hall
      exact termsText_eq_nil_iff.mpr ⟨hall, Nat.not_lt.mp hmany⟩
    · obtain ⟨x, _, hx⟩ := exists_of_forall₂ hall (List.mem_reverse.mp hitem)
      rw [weightedItem] at hx
      split at hx
      · obtain ⟨_, _, rfl⟩ := Option.map_eq_some_iff.mp hx
        rfl
      · cases hx

/-- What is put into the query for a part, if that is anything, is read as one group. -/
theorem closes_part (hne : (q.addPart keywords tt).2 ≠ []) :
    Closes (paren (q.addPart keywords tt).2) (partItem q keywords tt) := by
  have hterms : Body (termsText q keywords tt) (termsItems q keywords tt) := body_terms htok hfine
  rw [addPart_snd htok] at hne ⊢
  by_cases hlookup : q.lookup tt = []
  · have hnot : ¬ (q.lookup tt ≠ [] ∧ termsText q keywords tt ≠ []) := fun h => h.1 hlookup
    rw [if_neg hnot] at hne ⊢
    have hcloses := hterms.closes
    change Closes (paren (termsText q keywords tt)) _ at hcloses
    convert hcloses using 1
    rw [partItem]
    cases hitems : termsItems q keywords tt with
    | none => rfl
    | some items =>
        rw [Option.map_some, Option.bind_some, if_pos (ready_termsItems hne hitems), if_pos hlookup]
  · by_cases htext : termsText q keywords tt = []
    · rw [if_neg fun h => h.2 htext] at hne
      exact absurd htext hne
    · rw [if_pos ⟨hlookup, htext⟩, List.append_assoc]
      have hfive : IsNumber ['5'] := .int _ (List.cons_ne_nil _ _) (by decide)
      have hsyns : Body (joinOr ((q.lookup tt).map fun s =>
          quote (q.tw.tokenize (subSpecialChar s)))) (some ((partSynonyms q tt).intersperse
            .or).reverse) := by
        have hbody := body_or_join (l := q.lookup tt) (g := fun s =>
          some (.phrase (q.tw.tokenize (subSpecialChar s)) none)) fun s _ =>
            (closes_quoted (quotable_of_mem fun c hc => mem_tokenize htok hc)).reads
        rw [mapM_eq_map fun s _ => rfl] at hbody
        exact hbody
      have hready : ready ((partSynonyms q tt).intersperse .or).reverse = true := by
        refine ready_intersperse (fun hnil => hlookup (List.map_eq_nil_iff.mp hnil)) fun i hi => ?_
        obtain ⟨_, _, rfl⟩ := List.mem_map.mp hi
        rfl
      have hfirst := hterms.closes.boost hfive
      have hsecond := hsyns.closes.boost (isNumber_of_point (d := '0') (e := '7') rfl rfl)
      have hcloses := (hfirst.body.or hsecond).closes
      change Closes (paren (boosted (paren (termsText q keywords tt)) ['5'] ++ (" OR ".toList ++
        boosted (paren (joinOr ((q.lookup tt).map fun s =>
          quote (q.tw.tokenize (subSpecialChar s))))) "0.7".toList))) _ at hcloses
      convert hcloses using 1
      rw [partItem]
      cases hitems : termsItems q keywords tt with
      | none => rfl
      | some items =>
          rw [Option.map_some, Option.bind_some, if_pos (ready_termsItems htext hitems),
            if_neg hlookup, Option.bind_some, if_pos hready, List.reverse_reverse]
          rfl

/-- The term can be put into the query with its weight and its synonyms. -/
def TermReads (q : Queryer) (x : Text × Weight) : Prop :=
  x.2.Plain ∧ x.1 ∉ reserved ∧ SynonymsRead q x.1

omit htok hfine in
theorem isSome_partItem :
    (partItem q keywords tt).isSome ↔ ∀ x ∈ partTerms q keywords tt, TermReads q x := by
  rw [partItem, Option.isSome_map, termsItems, Option.isSome_map, isSome_mapM]
  refine forall₂_congr fun x _ => ?_
  rw [weightedItem, TermReads, ← isSome_termItems]
  by_cases hplain : x.2.Plain
  · rw [if_pos hplain, Option.isSome_map]
    exact (and_iff_right hplain).symm
  · rw [if_neg hplain]
    exact iff_of_false Bool.false_ne_true fun h => hplain h.1

end Part

/-! ## Questions in parts -/

/-- The parts, each with the keywords before it. -/
def partStates (q : Queryer) : List Text → List Text → List (List Text × Text)
  | _, [] => []
  | keywords, tt :: tts => (keywords, tt) :: partStates q (q.addPart keywords tt).1 tts

theorem addParts_snd (keywords tts : List Text) :
    (q.addParts keywords tts).2 =
      (partStates q keywords tts).map fun s => (q.addPart s.1 s.2).2 := by
  induction tts generalizing keywords with
  | nil => rfl
  | cons tt tts ih =>
      rw [Queryer.addParts, partStates, List.map_cons, ← ih]

/-- Parts for which something is put into the query. -/
def filledParts (q : Queryer) (tts : List Text) : List (List Text × Text) :=
  (partStates q [] tts).filter fun s => (q.addPart s.1 s.2).2 ≠ []

theorem joinOr_filledParts (tts : List Text) :
    joinOr (((q.addParts [] tts).2.filter (· ≠ [])).map paren) =
      joinOr ((filledParts q tts).map fun s => paren (q.addPart s.1 s.2).2) := by
  rw [addParts_snd, List.filter_map, List.map_map]
  rfl

theorem parse_parts (htok : Tokenizes q.tw.tokenize) (hfine : Tokenizes q.fineGrainedTokenize)
    (tts : List Text) :
    parse (joinOr (((q.addParts [] tts).2.filter (· ≠ [])).map paren)) =
      ((filledParts q tts).mapM fun s => partItem q s.1 s.2).map (·.intersperse .or) := by
  rw [joinOr_filledParts]
  exact parse_or_join fun s hs =>
    (closes_part htok hfine (of_decide_eq_true (List.mem_filter.mp hs).2)).reads

end RagFlow.Query
