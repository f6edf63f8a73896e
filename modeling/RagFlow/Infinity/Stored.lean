/-
# The row of a chunk

What the insertion of a chunk leaves in the columns of its row, which is what a search for the
fields of the chunk gets back from the table.
-/

import RagFlow.Infinity.Fields

namespace RagFlow.Infinity

open RagFlow.Math

/-- The fields of a chunk. -/
structure Chunk (J : Type*) where
  id : Text
  docnmKwd : Text
  contentWithWeight : Text
  importantKwd : List Text
  questionKwd : List Text
  tagKwd : List Text
  sourceId : List Text
  positionInt : List (List ℕ)
  pageNumInt : List ℕ
  topInt : List ℕ
  kbId : Value J
  availableInt : Value J
  content_ne_nil : contentWithWeight ≠ []
  positions : ∀ row ∈ positionInt, row.length = 5

section Chunk

variable {J : Type*}

/-- The fields of a chunk but its important keywords, of which the order does not count. -/
def Chunk.fields (c : Chunk J) : List (String × Value J) :=
  [("docnm_kwd", .str c.docnmKwd), ("content_with_weight", .str c.contentWithWeight),
    ("question_kwd", .strs c.questionKwd), ("tag_kwd", .strs c.tagKwd),
    ("source_id", .strs c.sourceId), ("position_int", .rows c.positionInt),
    ("page_num_int", .nums c.pageNumInt), ("top_int", .nums c.topInt), ("kb_id", c.kbId),
    ("available_int", c.availableInt)]

def chunkFields : List String :=
  ["docnm_kwd", "content_with_weight", "important_kwd", "question_kwd", "tag_kwd", "source_id",
    "position_int", "page_num_int", "top_int", "kb_id", "available_int"]

/-- The dictionary `d` has the id and the fields of `c`. -/
def Chunk.In (c : Chunk J) (d : Doc J) : Prop :=
  d.get? "id" = some (.str c.id) ∧ d.get? "important_kwd" = some (.strs c.importantKwd) ∧
    ∀ e ∈ c.fields, d.get? e.1 = some e.2

/-- The fields were read as they were written. -/
def Chunk.Returned (c : Chunk J) (got : Doc J) : Prop :=
  (∃ l, got.get? "important_kwd" = some (.strs l) ∧ l.Perm c.importantKwd) ∧
    ∀ e ∈ c.fields, got.get? e.1 = some e.2

/-- What the insertion of each field writes into which columns, where `kb` is kept of the
datasets. -/
def Chunk.writes (c : Chunk J) (kb : Value J) :
    List ((String × Value J) × List (String × Value J)) :=
  [(("id", .str c.id), [("id", .str c.id)]),
    (("docnm_kwd", .str c.docnmKwd), [("docnm", .str c.docnmKwd)]),
    (("content_with_weight", .str c.contentWithWeight), [("content", .str c.contentWithWeight)]),
    (("important_kwd", .strs c.importantKwd),
      [("important_keywords",
          .str ([','].intercalate (c.importantKwd.filter fun kw => !kw.isEmpty))),
        ("important_kwd_empty_count", .num (c.importantKwd.countP List.isEmpty))]),
    (("question_kwd", .strs c.questionKwd),
      [("questions", .str (['\n'].intercalate c.questionKwd))]),
    (("tag_kwd", .strs c.tagKwd), [("tag_kwd", .str (['#', '#', '#'].intercalate c.tagKwd))]),
    (("source_id", .strs c.sourceId),
      [("source_id", .str (['#', '#', '#'].intercalate c.sourceId))]),
    (("position_int", .rows c.positionInt),
      [("position_int", .str (joinHex c.positionInt.flatten))]),
    (("page_num_int", .nums c.pageNumInt), [("page_num_int", .str (joinHex c.pageNumInt))]),
    (("top_int", .nums c.topInt), [("top_int", .str (joinHex c.topInt))]),
    (("kb_id", c.kbId), [("kb_id", kb)]),
    (("available_int", c.availableInt), [("available_int", c.availableInt)])]

def Chunk.columns (c : Chunk J) (kb : Value J) : List (String × Value J) :=
  (c.writes kb).flatMap Prod.snd

def chunkColumns : List String :=
  ["id", "docnm", "content", "important_keywords", "important_kwd_empty_count", "questions",
    "tag_kwd", "source_id", "position_int", "page_num_int", "top_int", "kb_id", "available_int"]

/-- What is kept of the datasets. -/
def KeptKb (v kb : Value J) : Prop := if v.isList then v.head? = some kb else kb = v

variable (dumps : Value J → Option Text)

/-- A further field of a chunk, which is stored and keeps off the columns of the others. -/
def Apart (e : String × Value J) : Prop :=
  e.1 ≠ "_id" ∧ ∀ d : Doc J, Dict.truthy d "content_with_weight" = true →
    ∃ d', insertField dumps d e = some d' ∧
      ∀ k ∈ "content_with_weight" :: chunkColumns, d'.get? k = d.get? k

/-- What a search for `fields` reads of a chunk after its insertion. -/
def readBack [DecidableEq J] (loads : Text → Option (Value J))
    (embeddingClmns : List (String × ℕ)) (fields : List String) (d : Doc J) :
    Option (List (Option (Value J) × Doc J)) :=
  (insert dumps embeddingClmns d).bind fun row =>
    getFields loads fields [output ("id" :: convertSelectFields fields) row]

end Chunk

/-! ## The row of a chunk -/

section Insert

variable {J : Type*} {dumps : Value J → Option Text} {c : Chunk J} {d d' : Doc J} {kb : Value J}

variable (dumps) in
/-- What the insertion of a field of a chunk does. -/
theorem insertField_field {p : (String × Value J) × List (String × Value J)}
    (hp : p ∈ c.writes kb) (hkb : KeptKb c.kbId kb)
    (hkept : c.kbId.isList = false → d.get? "kb_id" = some c.kbId) :
    ∃ d', insertField dumps d p.1 = some d' ∧ (∀ w ∈ p.2, d'.get? w.1 = some w.2) ∧
      ∀ x ∉ p.2.map Prod.fst, d'.get? x = d.get? x := by
  have hset : ∀ (k : String) (v : Value J),
      (∀ w ∈ [(k, v)], (d.set k v).get? w.1 = some w.2) ∧
        ∀ x ∉ [(k, v)].map Prod.fst, (d.set k v).get? x = d.get? x := fun k v =>
    ⟨by simp, fun x hx => Dict.get?_set_ne (by simpa using hx) d v⟩
  simp only [Chunk.writes, List.mem_cons, List.not_mem_nil, or_false] at hp
  rcases hp with rfl | rfl | rfl | rfl | rfl | rfl | rfl | rfl | rfl | rfl | rfl | rfl
  · exact ⟨_, rfl, hset _ _⟩
  · exact ⟨_, rfl, hset _ _⟩
  · exact ⟨_, rfl, hset _ _⟩
  · refine ⟨_, rfl, ?_, fun x hx => ?_⟩
    · simp [Dict.get?_set]
    · simp only [List.map_cons, List.map_nil, List.mem_cons, List.not_mem_nil, or_false,
        not_or] at hx
      rw [Dict.get?_set_ne hx.2, Dict.get?_set_ne hx.1]
  · exact ⟨_, rfl, hset _ _⟩
  · exact ⟨_, rfl, hset _ _⟩
  · exact ⟨_, rfl, hset _ _⟩
  · exact ⟨_, rfl, hset _ _⟩
  · exact ⟨_, rfl, hset _ _⟩
  · exact ⟨_, rfl, hset _ _⟩
  · have heq : insertField dumps d ("kb_id", c.kbId) =
        if c.kbId.isList then c.kbId.head?.map fun x => d.set "kb_id" x else some d := rfl
    rw [heq]
    unfold KeptKb at hkb
    by_cases hlist : c.kbId.isList = true
    · rw [if_pos hlist] at hkb ⊢
      rw [hkb]
      exact ⟨_, rfl, hset _ _⟩
    · rw [if_neg hlist] at hkb ⊢
      refine ⟨d, rfl, ?_, fun x _ => rfl⟩
      simpa [hkb] using hkept (Bool.not_eq_true _ ▸ hlist)
  · exact ⟨_, rfl, hset _ _⟩

theorem Chunk.In.get? (h : c.In d) {p : (String × Value J) × List (String × Value J)}
    (hp : p ∈ c.writes kb) : d.get? p.1.1 = some p.1.2 := by
  obtain ⟨hid, himportant, hfields⟩ := h
  have hmem : p.1 ∈ ("id", .str c.id) :: ("important_kwd", .strs c.importantKwd) :: c.fields := by
    simp only [Chunk.writes, List.mem_cons, List.not_mem_nil, or_false] at hp
    rcases hp with rfl | rfl | rfl | rfl | rfl | rfl | rfl | rfl | rfl | rfl | rfl | rfl <;>
      simp [Chunk.fields]
  rcases List.mem_cons.mp hmem with heq | hmem
  · rw [heq, hid]
  · rcases List.mem_cons.mp hmem with heq | hmem
    · rw [heq, himportant]
    · exact hfields _ hmem

theorem map_writes (c : Chunk J) (kb : Value J) :
    (c.writes kb).map (fun p => p.1.1) = "id" :: chunkFields := rfl

theorem map_columns (c : Chunk J) (kb : Value J) :
    (c.columns kb).map Prod.fst = chunkColumns := rfl

/-- An entry under the name of a field is that field. -/
theorem exists_writes (h : c.In d) (kb : Value J) {e : String × Value J} (he : e ∈ d.entries)
    (hname : e.1 ∈ "id" :: chunkFields) : ∃ p ∈ c.writes kb, p.1 = e := by
  rw [← map_writes c kb] at hname
  obtain ⟨p, hp, hpe⟩ := List.mem_map.mp hname
  have hget := h.get? hp
  rw [hpe, Dict.get?_eq_some_iff] at hget
  exact ⟨p, hp, Prod.ext hpe (d.value_unique hget he)⟩

/-- The loop writes every field of a chunk to its columns. -/
theorem exists_foldlM_insertField (h : c.In d)
    (hfurther : ∀ e ∈ d.entries, e.1 ∈ "id" :: chunkFields ∨ Apart dumps e)
    (hkb : KeptKb c.kbId kb) :
    ∃ d', d.entries.foldlM (insertField dumps) d = some d' ∧
      ∀ w ∈ c.columns kb, d'.get? w.1 = some w.2 := by
  -- Which fields have been written, and what the steps rely on.
  let P (done : List (String × Value J)) (u : Doc J) : Prop :=
    u.get? "content_with_weight" = some (.str c.contentWithWeight) ∧
      (c.kbId.isList = false → u.get? "kb_id" = some c.kbId) ∧
      ∀ p ∈ c.writes kb, p.1 ∈ done → ∀ w ∈ p.2, u.get? w.1 = some w.2
  have hkeys : ((c.columns kb).map Prod.fst).Nodup := by
    rw [map_columns]
    decide
  have hrun : ∃ d', d.entries.foldlM (insertField dumps) d = some d' ∧ P d.entries d' := by
    refine exists_foldlM_some ⟨?_, fun _ => ?_, fun p _ hp => absurd hp List.not_mem_nil⟩ ?_
    · exact h.2.2 ("content_with_weight", .str c.contentWithWeight) (by simp [Chunk.fields])
    · exact h.2.2 ("kb_id", c.kbId) (by simp [Chunk.fields])
    · rintro done e u hinit ⟨hcontent, hkept, hdone⟩
      have he : e ∈ d.entries := hinit.subset (List.mem_append_right _ (List.mem_singleton_self e))
      by_cases hname : e.1 ∈ "id" :: chunkFields
      · obtain ⟨p, hp, rfl⟩ := exists_writes h kb he hname
        obtain ⟨u', hu', hwrite, hframe⟩ := insertField_field dumps hp hkb hkept
        have hsub : ∀ w ∈ p.2, w ∈ c.columns kb := fun w hw => List.mem_flatMap.mpr ⟨p, hp, hw⟩
        refine ⟨u', hu', ?_, fun hlist => ?_, fun q hq hqdone w hw => ?_⟩
        · rw [hframe _ fun hx => ?_, hcontent]
          obtain ⟨w, hw, hx⟩ := List.mem_map.mp hx
          have hcolumn : w.1 ∈ chunkColumns := List.mem_map_of_mem (hsub w hw)
          rw [hx] at hcolumn
          exact absurd hcolumn (by decide)
        · by_cases hx : "kb_id" ∈ p.2.map Prod.fst
          · obtain ⟨w, hw, hx⟩ := List.mem_map.mp hx
            have hkbw : w = ("kb_id", kb) :=
              List.inj_on_of_nodup_map hkeys (hsub w hw) (by simp [Chunk.columns, Chunk.writes]) hx
            have hsame : kb = c.kbId := by rwa [KeptKb, hlist, if_neg Bool.false_ne_true] at hkb
            have hwritten := hwrite w hw
            rwa [hkbw, hsame] at hwritten
          · rw [hframe _ hx, hkept hlist]
        · by_cases hx : w.1 ∈ p.2.map Prod.fst
          · obtain ⟨w', hw', hx⟩ := List.mem_map.mp hx
            rw [← List.inj_on_of_nodup_map hkeys (hsub w' hw')
              (List.mem_flatMap.mpr ⟨q, hq, hw⟩) hx]
            exact hwrite w' hw'
          · rw [hframe _ hx]
            rcases List.mem_append.mp hqdone with hqdone | hqdone
            · exact hdone q hq hqdone w hw
            · have hqp : q = p := List.inj_on_of_nodup_map (f := fun p => p.1.1)
                (by rw [map_writes]; decide) hq hp
                (congrArg Prod.fst (List.mem_singleton.mp hqdone))
              exact absurd (List.mem_map_of_mem (hqp ▸ hw)) hx
      · have hapart := (hfurther e he).resolve_left hname
        have htruthy : Dict.truthy u "content_with_weight" = true := by
          rw [Dict.truthy, hcontent]
          simpa [Value.truthy] using c.content_ne_nil
        obtain ⟨u', hu', hframe⟩ := hapart.2 u htruthy
        refine ⟨u', hu', ?_, ?_, ?_⟩
        · rw [hframe _ List.mem_cons_self, hcontent]
        · intro hlist
          rw [hframe _ (by decide), hkept hlist]
        · intro q hq hqdone w hw
          have hcolumn : w.1 ∈ chunkColumns := by
            rw [← map_columns c kb]
            exact List.mem_map_of_mem (List.mem_flatMap.mpr ⟨q, hq, hw⟩)
          rw [hframe _ (List.mem_cons_of_mem _ hcolumn)]
          rcases List.mem_append.mp hqdone with hqdone | hqdone
          · exact hdone q hq hqdone w hw
          · refine absurd ?_ hname
            rw [← List.mem_singleton.mp hqdone, ← map_writes c kb]
            exact List.mem_map_of_mem hq
  obtain ⟨d', hd', -, -, hall⟩ := hrun
  refine ⟨d', hd', fun w hw => ?_⟩
  obtain ⟨p, hp, hwp⟩ := List.mem_flatMap.mp hw
  exact hall p hp (Dict.get?_eq_some_iff.mp (h.get? hp)) w hwp

/-- A column that is there is no missing vector. -/
theorem get?_addVectors {x : String} {v : Value J} (embeddingClmns : List (String × ℕ))
    (h : d.get? x = some v) : (addVectors embeddingClmns d).get? x = some v := by
  unfold addVectors
  induction embeddingClmns generalizing d with
  | nil => exact h
  | cons clmn clmns ih =>
      rw [List.foldl_cons]
      refine ih ?_
      split_ifs with hin
      · exact h
      · rw [Dict.get?_set_ne, h]
        rintro rfl
        exact hin (Dict.mem_of_get? h)

/-- The row of a chunk has its columns. -/
theorem exists_insert (embeddingClmns : List (String × ℕ)) (h : c.In d)
    (hfurther : ∀ e ∈ d.entries, e.1 ∈ "id" :: chunkFields ∨ Apart dumps e)
    (hkb : KeptKb c.kbId kb) :
    ∃ row, insert dumps embeddingClmns d = some row ∧
      ∀ w ∈ c.columns kb, row.get? w.1 = some w.2 := by
  obtain ⟨d', hd', hcolumns⟩ := exists_foldlM_insertField h hfurther hkb
  have hassert : ¬ ("_id" ∈ d ∨ "id" ∉ d) := by
    rintro (hunder | hid)
    · obtain ⟨v, hv⟩ := Dict.mem_keys_iff_exists.mp hunder
      rcases hfurther _ hv with hname | hapart
      · exact absurd (show "_id" ∈ "id" :: chunkFields from hname) (by decide)
      · exact hapart.1 rfl
    · exact hid (Dict.mem_of_get? h.1)
  rw [insert, if_neg hassert, hd']
  refine ⟨_, rfl, fun w hw => ?_⟩
  have hcolumn : w.1 ∈ chunkColumns := List.mem_map_of_mem (f := Prod.fst) hw
  refine get?_addVectors embeddingClmns ?_
  have hnot : ∀ k ∈ chunkColumns, k ∉ writtenFields := by decide
  rw [Dict.get?_filter, hcolumns w hw]
  simpa using hnot w.1 hcolumn

end Insert

end RagFlow.Infinity
