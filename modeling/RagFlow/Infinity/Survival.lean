/-
# Which chunks survive storage

What is read of a chunk after its insertion is compared with what was written. Each list of texts
comes back under a condition of its own on the separator of its column; numbers and plain texts
come back always, and of several datasets the first.
-/

import RagFlow.Infinity.Stored
import Mathlib.Data.List.Dedup

namespace RagFlow.Infinity

open RagFlow.Math

variable {J : Type*}

/-- The row of a chunk with the columns that its fields are read from. -/
structure RowOf (c : Chunk J) (kb : Value J) (res : Doc J) : Prop where
  columns : ∀ w ∈ c.columns kb, res.get? w.1 = some w.2
  others : ∀ k ∉ chunkColumns, res.get? k = none

/-- What is read under the names of the fields, before the texts are split. -/
def Chunk.shown (c : Chunk J) (kb : Value J) : List (String × Value J) :=
  [("id", .str c.id), ("docnm_kwd", .str c.docnmKwd),
    ("content_with_weight", .str c.contentWithWeight),
    ("important_kwd",
      .strs (splitKeywords ([','].intercalate (c.importantKwd.filter fun kw => !kw.isEmpty)) ++
        List.replicate (c.importantKwd.countP List.isEmpty) [])),
    ("question_kwd", .strs (splitlines (['\n'].intercalate c.questionKwd))),
    ("tag_kwd", .str (['#', '#', '#'].intercalate c.tagKwd)),
    ("source_id", .str (['#', '#', '#'].intercalate c.sourceId)),
    ("position_int", .str (joinHex c.positionInt.flatten)),
    ("page_num_int", .str (joinHex c.pageNumInt)), ("top_int", .str (joinHex c.topInt)),
    ("kb_id", kb), ("available_int", c.availableInt)]

section Frame

variable {c : Chunk J} {kb : Value J} {row res : Doc J} {fields fieldsAll : List String}

theorem mem_convertSelectFields (hfields : ∀ k, k ∈ fields ↔ k ∈ chunkFields) (k : String) :
    k ∈ "id" :: convertSelectFields fields ↔ k ∈ chunkColumns := by
  have hmap : ∀ k, k ∈ fields.map selectField ↔ k ∈ chunkFields.map selectField := fun k => by
    simp only [List.mem_map, hfields]
  have hselect : chunkFields.map selectField =
      ["docnm", "content", "important_keywords", "questions", "tag_kwd", "source_id",
        "position_int", "page_num_int", "top_int", "kb_id", "available_int"] := rfl
  have hcount : "important_kwd" ∈ fields ∧
      "important_kwd_empty_count" ∉ fields.map selectField := by
    rw [hfields, hmap, hselect]
    decide
  rw [List.mem_cons, convertSelectFields, if_pos hcount, List.mem_dedup, List.mem_append, hmap,
    hselect]
  simp only [chunkColumns, List.mem_cons, List.not_mem_nil, or_false]
  tauto

theorem rowOf_output (hfields : ∀ k, k ∈ fields ↔ k ∈ chunkFields)
    (hrow : ∀ w ∈ c.columns kb, row.get? w.1 = some w.2) :
    RowOf c kb (output ("id" :: convertSelectFields fields) row) where
  columns w hw := by
    have hcolumn : w.1 ∈ chunkColumns := List.mem_map_of_mem (f := Prod.fst) hw
    rw [output, Dict.get?_filter, hrow w hw]
    simp only [Option.filter_some, decide_eq_true_eq, mem_convertSelectFields hfields]
    rw [if_pos hcolumn]
  others k hk := by
    rw [output, Dict.get?_filter, Option.filter_eq_none_iff]
    intro v _
    rw [decide_eq_true_eq, mem_convertSelectFields hfields]
    exact hk

/-! ## The fields beside the columns -/

/-- One of the fields of a column is asked for. -/
theorem get?_copyColumn {column name : String} {names : List String} {v : Value J}
    (hone : names.filter (fun field => field ∈ fieldsAll) = [name])
    (hcolumn : res.get? column = some v) (k : String) :
    (copyColumn fieldsAll column names res).get? k = if k = name then some v else res.get? k := by
  rw [copyColumn, hcolumn]
  simp only [hone, List.foldl_cons, List.foldl_nil]
  exact Dict.get?_set res name k v

theorem copyColumn_of_none {column : String} {names : List String}
    (hnone : names.filter (fun field => field ∈ fieldsAll) = []) :
    copyColumn fieldsAll column names res = res := by
  rw [copyColumn]
  cases res.get? column with
  | none => rfl
  | some v => rw [hnone]; rfl

theorem exists_addFields (h : RowOf c kb res)
    (hall : ∀ k, k ∈ fieldsAll ↔ k ∈ "id" :: chunkFields) :
    ∃ res', addFields fieldsAll res = some res' ∧
      (∀ e ∈ c.shown kb, res'.get? e.1 = some e.2) ∧
      ∀ k ∈ res', k ∈ chunkColumns ++ chunkFields := by
  have hfilter : ∀ names : List String, names.filter (fun field => field ∈ fieldsAll) =
      names.filter fun field => field ∈ "id" :: chunkFields := fun names => by simp only [hall]
  have hget : ∀ w ∈ c.columns kb, res.get? w.1 = some w.2 := h.columns
  simp only [Chunk.columns, Chunk.writes, List.flatMap_cons, List.flatMap_nil, List.cons_append,
    List.nil_append, List.forall_mem_cons, List.not_mem_nil, false_implies, implies_true,
    and_true] at hget
  obtain ⟨hid, hdocnm, hcontent, hkeywords, hcount, hquestions, htag, hsource, hposition, hpage,
    htop, hkb, havailable⟩ := hget
  -- Each step in turn, and what the row has after it.
  have hone₁ : ["docnm_kwd", "title_tks", "title_sm_tks"].filter (fun field => field ∈ fieldsAll) =
      ["docnm_kwd"] := by
    rw [hfilter]
    decide
  have hget₁ := get?_copyColumn hone₁ hdocnm
  generalize hres₁ : copyColumn fieldsAll "docnm" ["docnm_kwd", "title_tks", "title_sm_tks"] res =
    res₁ at hget₁
  have hstep₂ : keywordColumn fieldsAll res₁ = some (res₁.set "important_kwd"
      (.strs (splitKeywords ([','].intercalate (c.importantKwd.filter fun kw => !kw.isEmpty)) ++
        List.replicate (c.importantKwd.countP List.isEmpty) []))) := by
    have hin : "important_kwd" ∈ fieldsAll := (hall _).mpr (by decide)
    rw [keywordColumn, hget₁, if_neg (by decide), hkeywords, hget₁, if_neg (by decide), hcount]
    simp only [if_pos hin]
    rfl
  generalize hkeys : splitKeywords _ ++ List.replicate _ [] = keys at hstep₂
  have hget₂ : ∀ k, (res₁.set "important_kwd" (.strs keys)).get? k =
      if k = "important_kwd" then some (.strs keys) else res₁.get? k :=
    fun k => Dict.get?_set res₁ "important_kwd" k _
  generalize res₁.set "important_kwd" (.strs keys) = res₂ at hstep₂ hget₂
  have hstep₃ : questionColumn fieldsAll res₂ = some (res₂.set "question_kwd"
      (.strs (splitlines (['\n'].intercalate c.questionKwd)))) := by
    have hin : "question_kwd" ∈ fieldsAll := (hall _).mpr (by decide)
    rw [questionColumn, hget₂, if_neg (by decide), hget₁, if_neg (by decide), hquestions]
    simp only [if_pos hin]
    rfl
  generalize hlines : splitlines _ = lines at hstep₃
  have hget₃ : ∀ k, (res₂.set "question_kwd" (.strs lines)).get? k =
      if k = "question_kwd" then some (.strs lines) else res₂.get? k :=
    fun k => Dict.get?_set res₂ "question_kwd" k _
  generalize res₂.set "question_kwd" (.strs lines) = res₃ at hstep₃ hget₃
  have hcontent₃ : res₃.get? "content" = some (.str c.contentWithWeight) := by
    rw [hget₃, if_neg (by decide), hget₂, if_neg (by decide), hget₁, if_neg (by decide), hcontent]
  have hone₄ : ["content_with_weight", "content_ltks", "content_sm_ltks"].filter
      (fun field => field ∈ fieldsAll) = ["content_with_weight"] := by
    rw [hfilter]
    decide
  have hget₄ := get?_copyColumn hone₄ hcontent₃
  refine ⟨copyColumn fieldsAll "content" ["content_with_weight", "content_ltks", "content_sm_ltks"]
    res₃, ?_, ?_, fun k hk => ?_⟩
  · have hnone : ∀ {names : List String} (column : String) (res : Doc J),
        names.filter (fun field => field ∈ "id" :: chunkFields) = [] →
        copyColumn fieldsAll column names res = res := fun column res hnames =>
      copyColumn_of_none (by rw [hfilter]; exact hnames)
    simp only [addFields, hres₁, hstep₂, Option.bind_eq_bind, Option.bind_some]
    rw [hnone "important_keywords" res₂ (by decide), hstep₃, Option.bind_some,
      hnone "questions" res₃ (by decide), hnone "authors" _ (by decide)]
  · simp only [Chunk.shown, hkeys, hlines, List.forall_mem_cons, List.not_mem_nil, false_implies,
      implies_true, and_true, hget₄, hget₃, hget₂, hget₁]
    simp [hid, htag, hsource, hposition, hpage, htop, hkb, havailable]
  · rw [Dict.mem_iff_isSome, hget₄, hget₃, hget₂, hget₁] at hk
    by_contra hnot
    rw [List.mem_append, not_or] at hnot
    have hne : ∀ name ∈ chunkFields, k ≠ name := fun name hname heq => hnot.2 (heq ▸ hname)
    rw [if_neg (hne _ (by decide)), if_neg (hne _ (by decide)), if_neg (hne _ (by decide)),
      if_neg (hne _ (by decide)), h.others k hnot.1] at hk
    exact Bool.false_ne_true hk

/-! ## The record of a row -/

/-- A column is found under its own name where no name has capitals. -/
theorem columnMap_of_mem {columns : List String} {k : String}
    (hlower : ∀ col ∈ columns, lower col = col) (hk : k ∈ columns) (hrow : k ≠ "row_id()") :
    columnMap columns fieldsAll k = some k := by
  rw [columnMap, if_neg fun h => hrow h.1]
  cases hfind : columns.reverse.find? fun col => lower col = k with
  | none =>
      have hnot := List.find?_eq_none.mp hfind k (List.mem_reverse.mpr hk)
      exact absurd (by simpa using hlower k hk) hnot
  | some col =>
      have hcol := List.mem_reverse.mp (List.mem_of_find?_eq_some hfind)
      have hsame : lower col = k := by simpa using List.find?_some hfind
      rw [← hsame, hlower col hcol]

/-- Where every field has a column of its own name, that column is read. -/
theorem get?_matchedColumns {columns : List String}
    (h : ∀ col ∈ fieldsAll, columnMap columns fieldsAll (lower col) = some col) (k : String) :
    (matchedColumns columns fieldsAll).get? k = if k ∈ fieldsAll then some k else none := by
  have hgen : ∀ (step : Dict String String → String → Dict String String) (l : List String)
      (m : Dict String String), (∀ col ∈ l, ∀ m, step m col = m.set col col) →
      (l.foldl step m).get? k = if k ∈ l then some k else m.get? k := by
    intro step l
    induction l with
    | nil => exact fun m _ => (if_neg List.not_mem_nil).symm
    | cons col l ih =>
        intro m hl
        rw [List.foldl_cons, hl col List.mem_cons_self,
          ih _ fun col' hcol' => hl col' (List.mem_cons_of_mem col hcol'), Dict.get?_set]
        by_cases hk : k ∈ l
        · rw [if_pos hk, if_pos (List.mem_cons_of_mem col hk)]
        · by_cases hcol : k = col
          · rw [if_neg hk, if_pos hcol, if_pos (hcol ▸ List.mem_cons_self), hcol]
          · rw [if_neg hk, if_neg hcol, if_neg (by simp [hk, hcol])]
  refine hgen _ fieldsAll Dict.empty fun col hcol m => ?_
  rw [h col hcol]

/-- A record has what is read from the columns of its fields. -/
theorem exists_record (loads : Text → Option (Value J)) (hid : "id" ∈ fieldsAll)
    (hlower : ∀ k ∈ res, lower k = k)
    (hall : ∀ k ∈ fieldsAll, k ≠ "row_id()" ∧
      k ∉ ["docnm", "important_keywords", "questions", "content", "authors"] ∧
      ∃ v, (res.get? k).bind (fieldValue loads k) = some v) :
    ∃ got, record loads fieldsAll res = some ((res.get? "id").bind (fieldValue loads "id"), got) ∧
      ∀ k ∈ fieldsAll, k ≠ "id" → got.get? k = (res.get? k).bind (fieldValue loads k) := by
  have hmem : ∀ k ∈ fieldsAll, k ∈ res := fun k hk => by
    obtain ⟨-, -, v, hv⟩ := hall k hk
    obtain ⟨x, hx, -⟩ := Option.bind_eq_some_iff.mp hv
    exact Dict.mem_of_get? hx
  have hmap : ∀ col ∈ fieldsAll, columnMap res.keys fieldsAll (lower col) = some col :=
    fun col hcol => by
      rw [hlower col (hmem col hcol)]
      exact columnMap_of_mem hlower (hmem col hcol) (hall col hcol).1
  have hmatched := get?_matchedColumns hmap
  have hsame : ∀ e ∈ (matchedColumns res.keys fieldsAll).entries, e.2 = e.1 ∧ e.1 ∈ fieldsAll := by
    intro e he
    have hget := Dict.get?_eq_some_iff.mpr he
    rw [hmatched] at hget
    split_ifs at hget with hin
    exact ⟨(Option.some.inj hget).symm, hin⟩
  have hnodup : ((matchedColumns res.keys fieldsAll).entries.map Prod.snd).Nodup := by
    rw [List.map_congr_left fun e he => (hsame e he).1]
    exact (matchedColumns res.keys fieldsAll).nodup
  have hsome : (Dict.fill Prod.snd (fun e => (res.get? e.1).bind (fieldValue loads e.2))
      (matchedColumns res.keys fieldsAll).entries Dict.empty).isSome :=
    Dict.isSome_fill fun e he => by
      obtain ⟨heq, hin⟩ := hsame e he
      obtain ⟨-, -, v, hv⟩ := hall e.1 hin
      rw [heq, hv]
      rfl
  obtain ⟨res2, hres2⟩ := Option.isSome_iff_exists.mp hsome
  have hget : ∀ k ∈ fieldsAll, res2.get? k = (res.get? k).bind (fieldValue loads k) := by
    intro k hk
    obtain ⟨-, -, v, hv⟩ := hall k hk
    rw [hv, Dict.get?_fill hnodup hres2]
    refine Or.inl ⟨(k, k), Dict.get?_eq_some_iff.mp ?_, rfl, hv⟩
    rw [hmatched, if_pos hk]
  have hnone : fieldsAll.filter (fun col => (columnMap res.keys fieldsAll (lower col)).isNone) =
      [] := by
    rw [List.filter_eq_nil_iff]
    intro col hcol
    rw [hmap col hcol]
    exact Bool.false_ne_true
  have hkept : ∀ k ∈ fieldsAll, (res2.filter fun k _ =>
      k ∉ ["docnm", "important_keywords", "questions", "content", "authors"]).get? k =
        (res.get? k).bind (fieldValue loads k) := by
    intro k hk
    obtain ⟨-, hnot, v, hv⟩ := hall k hk
    rw [Dict.get?_filter, hget k hk, hv, Option.filter_some, if_pos (decide_eq_true hnot)]
  rw [record]
  simp only [hres2, hnone, Option.map_some, List.foldl_nil]
  refine ⟨_, congrArg (fun x => some (x, _)) (hkept "id" hid), fun k hk hne => ?_⟩
  obtain ⟨-, -, v, hv⟩ := hall k hk
  rw [Dict.get?_filter, hkept k hk, hv, Option.filter_some, if_pos (decide_eq_true hne)]

/-! ## What is read -/

/-- The fields as they are read. -/
def Chunk.read (c : Chunk J) (kb : Value J) : List (String × Value J) :=
  [("id", .str c.id), ("docnm_kwd", .str c.docnmKwd),
    ("content_with_weight", .str c.contentWithWeight),
    ("important_kwd",
      .strs (splitKeywords ([','].intercalate (c.importantKwd.filter fun kw => !kw.isEmpty)) ++
        List.replicate (c.importantKwd.countP List.isEmpty) [])),
    ("question_kwd", .strs (splitlines (['\n'].intercalate c.questionKwd))),
    ("tag_kwd", .strs ((splitAtSep ['#', '#', '#'] (['#', '#', '#'].intercalate c.tagKwd)).filter
      fun kwd => !kwd.isEmpty)),
    ("source_id", .strs ((splitAtSep ['#', '#', '#']
      (['#', '#', '#'].intercalate c.sourceId)).filter fun kwd => !kwd.isEmpty)),
    ("position_int", .rows c.positionInt), ("page_num_int", .nums c.pageNumInt),
    ("top_int", .nums c.topInt), ("kb_id", kb), ("available_int", c.availableInt)]

theorem fieldValue_position (loads : Text → Option (Value J)) {rows : List (List ℕ)}
    (h : ∀ row ∈ rows, row.length = 5) :
    fieldValue loads "position_int" (.str (joinHex rows.flatten)) = some (.rows rows) := by
  have heq : fieldValue loads "position_int" (.str (joinHex rows.flatten)) =
      if !(joinHex rows.flatten).isEmpty then
        (splitHex (joinHex rows.flatten)).map fun arr => .rows (groups 5 arr)
      else some (.rows []) := rfl
  rw [heq]
  cases rows with
  | nil => rfl
  | cons row rows =>
      have hne : (row :: rows).flatten ≠ [] := by
        intro hnil
        have hlen := length_flatten_rows h
        rw [hnil, List.length_nil, List.length_cons] at hlen
        omega
      have hjoin : joinHex (row :: rows).flatten ≠ [] := fun hnil =>
        hne (joinHex_eq_nil_iff.mp hnil)
      rw [if_pos (by simpa using hjoin), splitHex_joinHex hne, Option.map_some,
        groups_flatten (by decide) h]

theorem fieldValue_nums (loads : Text → Option (Value J)) {k : String}
    (hk : k = "page_num_int" ∨ k = "top_int") (nums : List ℕ) :
    fieldValue loads k (.str (joinHex nums)) = some (.nums nums) := by
  have heq : fieldValue loads k (.str (joinHex nums)) =
      if !(joinHex nums).isEmpty then (splitHex (joinHex nums)).map .nums
      else some (.nums []) := by
    rcases hk with rfl | rfl <;> rfl
  rw [heq]
  by_cases hne : nums = []
  · rw [hne]
    rfl
  · have hjoin : joinHex nums ≠ [] := fun hnil => hne (joinHex_eq_nil_iff.mp hnil)
    rw [if_pos (by simpa using hjoin), splitHex_joinHex hne, Option.map_some]

/-- What is shown of a chunk is read as its fields. -/
theorem bind_fieldValue (loads : Text → Option (Value J))
    (h : ∀ e ∈ c.shown kb, res.get? e.1 = some e.2) :
    ∀ e ∈ c.read kb, (res.get? e.1).bind (fieldValue loads e.1) = some e.2 := by
  simp only [Chunk.shown, List.forall_mem_cons, List.not_mem_nil, false_implies, implies_true,
    and_true] at h
  obtain ⟨hid, hdocnm, hcontent, himportant, hquestion, htag, hsource, hposition, hpage, htop,
    hkb, havailable⟩ := h
  simp only [Chunk.read, List.forall_mem_cons, List.not_mem_nil, false_implies, implies_true,
    and_true, hid, hdocnm, hcontent, himportant, hquestion, htag, hsource, hposition, hpage, htop,
    hkb, havailable, Option.bind_some]
  exact ⟨rfl, rfl, rfl, rfl, rfl, rfl, rfl, fieldValue_position loads c.positions,
    fieldValue_nums loads (Or.inl rfl) _, fieldValue_nums loads (Or.inr rfl) _, rfl, rfl⟩

theorem exists_getFields [DecidableEq J] (loads : Text → Option (Value J)) (h : RowOf c kb res)
    (hfields : ∀ k, k ∈ fields ↔ k ∈ chunkFields) :
    ∃ got, getFields loads fields [res] = some [(some (.str c.id), got)] ∧
      ∀ e ∈ c.read kb, e.1 ≠ "id" → got.get? e.1 = some e.2 := by
  have hall : ∀ k, k ∈ (fields ++ ["id"]).dedup ↔ k ∈ "id" :: chunkFields := fun k => by
    rw [List.mem_dedup, List.mem_append, hfields, List.mem_singleton, List.mem_cons, or_comm]
  obtain ⟨res', hadd, hshown, hkeys⟩ := exists_addFields h hall
  have hread := bind_fieldValue loads hshown
  have hnames : (c.read kb).map Prod.fst = "id" :: chunkFields := rfl
  have hlower : ∀ k ∈ chunkColumns ++ chunkFields, lower k = k := by decide
  have hplain : ∀ k ∈ "id" :: chunkFields, k ≠ "row_id()" ∧
      k ∉ ["docnm", "important_keywords", "questions", "content", "authors"] := by decide
  obtain ⟨got, hrecord, hgot⟩ := exists_record loads ((hall "id").mpr List.mem_cons_self)
    (fun k hk => hlower k (hkeys k hk)) fun k hk => by
      have hname := (hall k).mp hk
      refine ⟨(hplain k hname).1, (hplain k hname).2, ?_⟩
      rw [← hnames] at hname
      obtain ⟨e, he, rfl⟩ := List.mem_map.mp hname
      exact ⟨e.2, hread e he⟩
  have hid := hread ("id", .str c.id) List.mem_cons_self
  rw [hid] at hrecord
  have hne : fields.isEmpty = false := by
    rw [List.isEmpty_eq_false_iff_exists_mem]
    exact ⟨"docnm_kwd", (hfields _).mpr (by decide)⟩
  refine ⟨got, ?_, fun e he hnid => ?_⟩
  · rw [getFields, hne, if_neg Bool.false_ne_true]
    simp [hadd, dropDuplicates, hrecord]
  · have hname : e.1 ∈ "id" :: chunkFields := by
      rw [← hnames]
      exact List.mem_map_of_mem he
    rw [hgot e.1 ((hall e.1).mpr hname) hnid, hread e he]

end Frame

/-! ## Chunks that survive -/

/-- A chunk of which every list of texts can be joined and split again. -/
structure Chunk.Storable (c : Chunk J) : Prop where
  important : ∀ kw ∈ c.importantKwd, ',' ∉ kw
  question : (∀ q ∈ c.questionKwd, ∀ ch ∈ q, isLineBreak ch = false) ∧
    c.questionKwd.getLast? ≠ some []
  tag : Separable c.tagKwd
  source : Separable c.sourceId
  kb : c.kbId.isList = false

section Survival

variable {dumps : Value J → Option Text} {c : Chunk J} {kb : Value J} {d got row : Doc J}
  {embeddingClmns : List (String × ℕ)}

/-- The datasets of a chunk that was inserted are not an empty list. -/
theorem exists_keptKb (h : c.In d) (hrow : insert dumps embeddingClmns d = some row) :
    ∃ kb, KeptKb c.kbId kb := by
  by_cases hlist : c.kbId.isList = true
  · have hentry : ("kb_id", c.kbId) ∈ d.entries :=
      Dict.get?_eq_some_iff.mp (h.2.2 ("kb_id", c.kbId) (by simp [Chunk.fields]))
    rw [insert] at hrow
    split_ifs at hrow
    obtain ⟨d', hd', -⟩ := Option.map_eq_some_iff.mp hrow
    obtain ⟨u, u', hu⟩ := exists_step_of_foldlM hd' hentry
    have heq : insertField dumps u ("kb_id", c.kbId) =
        if c.kbId.isList then c.kbId.head?.map fun x => u.set "kb_id" x else some u := rfl
    rw [heq, if_pos hlist] at hu
    obtain ⟨kb, hkb, -⟩ := Option.map_eq_some_iff.mp hu
    exact ⟨kb, by rwa [KeptKb, if_pos hlist]⟩
  · exact ⟨c.kbId, by rw [KeptKb, if_neg hlist]⟩

/-- What is kept of a list is not the list. -/
theorem keptKb_self_iff {v : Value J} : KeptKb v v ↔ v.isList = false := by
  rw [KeptKb]
  constructor
  · intro h
    rcases v with - | s | (- | ⟨s, l⟩) | n | (- | ⟨n, l⟩) | (- | ⟨row, l⟩) | items <;>
      simp_all [Value.isList, Value.head?]
  · intro h
    rw [h, if_neg Bool.false_ne_true]

/-- What was read of a chunk is what was written exactly if each text was split as it was
joined. -/
theorem returned_iff (hkb : KeptKb c.kbId kb)
    (hgot : ∀ e ∈ c.read kb, e.1 ≠ "id" → got.get? e.1 = some e.2) :
    c.Returned got ↔ c.Storable := by
  simp only [Chunk.read, List.forall_mem_cons, List.not_mem_nil, false_implies, implies_true,
    and_true] at hgot
  obtain ⟨-, hdocnm, hcontent, himportant, hquestion, htag, hsource, hposition, hpage, htop,
    hkbid, havailable⟩ := hgot
  have himportant := himportant (by decide)
  have hquestion := hquestion (by decide)
  have htag := htag (by decide)
  have hsource := hsource (by decide)
  have hkbid := hkbid (by decide)
  constructor
  · rintro ⟨⟨l, hl, hperm⟩, hfields⟩
    simp only [Chunk.fields, List.forall_mem_cons, List.not_mem_nil, false_implies, implies_true,
      and_true] at hfields
    obtain ⟨-, -, hquestion', htag', hsource', -, -, -, hkbid', -⟩ := hfields
    rw [hl] at himportant
    rw [hquestion] at hquestion'
    rw [htag] at htag'
    rw [hsource] at hsource'
    rw [hkbid] at hkbid'
    obtain rfl := Value.strs.inj (Option.some.inj himportant)
    refine ⟨splitKeywords_perm_iff.mp hperm, ?_, ?_, ?_, ?_⟩
    · exact splitlines_intercalate_iff.mp (Value.strs.inj (Option.some.inj hquestion'))
    · exact filter_splitAtSep_iff.mp (Value.strs.inj (Option.some.inj htag'))
    · exact filter_splitAtSep_iff.mp (Value.strs.inj (Option.some.inj hsource'))
    · rw [Option.some.inj hkbid'] at hkb
      exact keptKb_self_iff.mp hkb
  · intro hstorable
    have hsame : kb = c.kbId := by
      rwa [KeptKb, hstorable.kb, if_neg Bool.false_ne_true] at hkb
    refine ⟨⟨_, himportant, splitKeywords_perm_iff.mpr hstorable.important⟩, ?_⟩
    simp only [Chunk.fields, List.forall_mem_cons, List.not_mem_nil, false_implies, implies_true,
      and_true]
    refine ⟨hdocnm (by decide), hcontent (by decide), ?_, ?_, ?_, hposition (by decide),
      hpage (by decide), htop (by decide), ?_, havailable (by decide)⟩
    · rw [hquestion, splitlines_intercalate_iff.mpr hstorable.question]
    · rw [htag, filter_splitAtSep_iff.mpr hstorable.tag]
    · rw [hsource, filter_splitAtSep_iff.mpr hstorable.source]
    · rw [hkbid, hsame]

end Survival

/-- A chunk comes back from its row as it was inserted exactly if no important keyword has a comma,
no question has a line break and the last is not empty, the tags and the sources can be told apart
between `###`, and the dataset is no list. -/
theorem chunk_survives_iff [DecidableEq J] (dumps : Value J → Option Text)
    (loads : Text → Option (Value J)) (embeddingClmns : List (String × ℕ)) (fields : List String)
    (c : Chunk J) (d : Doc J) (hfields : ∀ k, k ∈ fields ↔ k ∈ chunkFields) (hin : c.In d)
    (hfurther : ∀ e ∈ d.entries, e.1 ∈ "id" :: chunkFields ∨ Apart dumps e) :
    (∃ got, readBack dumps loads embeddingClmns fields d = some [(some (.str c.id), got)] ∧
      c.Returned got) ↔ c.Storable := by
  constructor
  · rintro ⟨got, hback, hreturned⟩
    obtain ⟨row, hrow, hread⟩ := Option.bind_eq_some_iff.mp hback
    obtain ⟨kb, hkb⟩ := exists_keptKb hin hrow
    obtain ⟨row', hrow', hcolumns⟩ := exists_insert embeddingClmns hin hfurther hkb
    obtain rfl := Option.some.inj (hrow.symm.trans hrow')
    obtain ⟨got', hget, hgot⟩ := exists_getFields loads (rowOf_output hfields hcolumns) hfields
    have hsame : got = got' := by
      have hrecords := Option.some.inj (hread.symm.trans hget)
      exact (Prod.mk.inj (List.cons.inj hrecords).1).2
    exact (returned_iff hkb hgot).mp (hsame ▸ hreturned)
  · intro hstorable
    have hkb : KeptKb c.kbId c.kbId := keptKb_self_iff.mpr hstorable.kb
    obtain ⟨row, hrow, hcolumns⟩ := exists_insert embeddingClmns hin hfurther hkb
    obtain ⟨got, hget, hgot⟩ := exists_getFields loads (rowOf_output hfields hcolumns) hfields
    refine ⟨got, ?_, (returned_iff hkb hgot).mpr hstorable⟩
    rw [readBack, hrow, Option.bind_some, hget]

/-! ## A report -/

/-- The tokens of the content are a field that keeps off the columns. -/
theorem apart_content_ltks (dumps : Value J → Option Text) (v : Value J) :
    Apart dumps ("content_ltks", v) := by
  refine ⟨show ("content_ltks" : String) ≠ "_id" by decide, fun d htruthy => ?_⟩
  have heq : insertField dumps d ("content_ltks", v) =
      if Dict.truthy d "content_with_weight" then some d else some (d.set "content" v) := rfl
  exact ⟨d, by rw [heq, if_pos htruthy], fun k _ => rfl⟩

/-- A chunk with two tags and a keyword. -/
def report (keyword : Text) : Chunk Empty where
  id := ['c', '1']
  docnmKwd := ['r', '.', 'm', 'd']
  contentWithWeight := ['T', 'e', 'x', 't']
  importantKwd := [keyword, []]
  questionKwd := [['W', 'h', 'y', '?']]
  tagKwd := [['o', 'l', 'd'], ['#', 'n', 'e', 'w']]
  sourceId := []
  positionInt := [[1, 20, 300, 4, 5]]
  pageNumInt := [1]
  topInt := [4]
  kbId := .str ['k', 'b']
  availableInt := .num 1
  content_ne_nil := List.cons_ne_nil _ _
  positions := by decide

def reportDoc (keyword : Text) : Doc Empty where
  entries := ("id", .str (report keyword).id) :: ("important_kwd", .strs [keyword, []]) ::
    (report keyword).fields ++ [("content_ltks", .str ['t', 'e', 'x', 't'])]
  nodup := by
    show List.Nodup ["id", "important_kwd", "docnm_kwd", "content_with_weight", "question_kwd",
      "tag_kwd", "source_id", "position_int", "page_num_int", "top_int", "kb_id", "available_int",
      "content_ltks"]
    decide

theorem report_survives :
    ∃ got, readBack (fun _ => none) (fun _ => none) [("q_2_vec", 2)] chunkFields
      (reportDoc ['w', 'o', 'r', 'd']) = some [(some (.str ['c', '1']), got)] ∧
      (report ['w', 'o', 'r', 'd']).Returned got :=
  (chunk_survives_iff (fun _ => none) (fun _ => none) [("q_2_vec", 2)] chunkFields
    (report ['w', 'o', 'r', 'd']) (reportDoc ['w', 'o', 'r', 'd']) (fun _ => Iff.rfl)
    ⟨rfl, rfl, by decide⟩ fun e he => by
      rcases List.mem_append.mp he with he | he
      · left
        revert e
        decide
      · right
        rw [List.mem_singleton.mp he]
        exact apart_content_ltks _ _).mpr
    ⟨by decide, by decide, by unfold Separable; decide, by unfold Separable; decide, rfl⟩

/-- A keyword with a comma comes back as two. -/
theorem report_loses_keyword :
    ¬ ∃ got, readBack (fun _ => none) (fun _ => none) [("q_2_vec", 2)] chunkFields
      (reportDoc ['a', ',', 'b']) = some [(some (.str ['c', '1']), got)] ∧
      (report ['a', ',', 'b']).Returned got := by
  rintro ⟨got, hback, ⟨l, hl, hperm⟩, -⟩
  have hread : ((readBack (fun _ => none) (fun _ => none) [("q_2_vec", 2)] chunkFields
      (reportDoc ['a', ',', 'b'])).map fun records =>
        records.map fun r => r.2.get? "important_kwd") =
      some [some (.strs [['a'], ['b'], []])] := by
    decide +kernel
  rw [hback, Option.map_some, List.map_singleton, hl] at hread
  have heq := Value.strs.inj (Option.some.inj (List.cons.inj (Option.some.inj hread)).1)
  rw [heq] at hperm
  exact absurd hperm.length_eq (by decide)

end RagFlow.Infinity
