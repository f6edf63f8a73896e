/-
# Searches and deletions in Elasticsearch

A condition becomes a boolean query twice: once for a search, once for a deletion. The search
leaves out empty values and asks for `available_int` by range; the deletion leaves out only an
empty list of ids, and compares everything else.
-/

import RagFlow.Math.Dict

namespace RagFlow.Elastic

open RagFlow.Math

inductive Value where
  | str (s : String)
  | int (n : ℤ)
deriving DecidableEq

/-- The values of a condition. A dictionary stands under `must_not`. -/
inductive FieldValue where
  | one (v : Value)
  | many (l : List Value)
  | dict (items : List (String × String))
deriving DecidableEq

/-- `not v`. -/
def FieldValue.falsy : FieldValue → Bool
  | .one (.str s) => s = ""
  | .one (.int n) => n = 0
  | .many l => l.isEmpty
  | .dict items => items.isEmpty

abbrev Condition := Dict String FieldValue

/-! ## Queries -/

inductive Clause where
  | term (k : String) (v : Value)
  | terms (k : String) (l : List Value)
  | ids (values : List Value)
  /-- `range` with `lt`. -/
  | lt (k : String) (bound : ℤ)
  | hasField (k : String)
  /-- A `bool` with one clause under `must_not`. -/
  | mustNot (c : Clause)
  /-- A `bool` with two clauses under `should`, of which one has to match. -/
  | should (c d : Clause)
deriving DecidableEq

structure BoolQuery where
  filter : List Clause
  must : List Clause
  mustNot : List Clause
deriving DecidableEq

/-- What an index says of its documents: the terms of a field, whose name is `_id` for the id, its
numbers, and whether there is a value. -/
structure Index (δ : Type*) where
  term : δ → String → Value → Bool
  lt : δ → String → ℤ → Bool
  hasField : δ → String → Bool

section Match

variable {δ : Type*} (x : Index δ)

@[grind =] def Clause.matches (d : δ) : Clause → Bool
  | .term k v => x.term d k v
  | .terms k l => l.any (x.term d k)
  | .ids values => values.any (x.term d "_id")
  | .lt k bound => x.lt d k bound
  | .hasField k => x.hasField d k
  | .mustNot c => !c.matches d
  | .should c e => c.matches d || e.matches d

def BoolQuery.matches (q : BoolQuery) (d : δ) : Bool :=
  q.filter.all (Clause.matches x d) && q.must.all (Clause.matches x d) &&
    q.mustNot.all fun c => !c.matches x d

end Match

/-! ## The query of a search -/

/-- What an entry of the condition adds to the filters of `search`. -/
@[grind =] def searchClause (k : String) (v : FieldValue) : Option (List Clause) :=
  if k = "available_int" then
    some [if v = .one (.int 0) then .lt "available_int" 1 else .mustNot (.lt "available_int" 1)]
  else if k = "id" then
    if v.falsy then some []
    else
      match v with
      | .many l => some [.should (.terms "id" l) (.terms "_id" l)]
      | .one v => some [.should (.term "id" v) (.term "_id" v)]
      | .dict _ => some []
  else if v.falsy then some []
  else
    match v with
    | .many l => some [.terms k l]
    | .one v => some [.term k v]
    | .dict _ => none

/-- The query of `search` without expressions to match. -/
def searchQuery (condition : Condition) (knowledgebaseIds : List String) : Option BoolQuery :=
  ((condition.set "kb_id" (.many (knowledgebaseIds.map Value.str))).entries.mapM fun e =>
    searchClause e.1 e.2).map fun clauses =>
      { filter := clauses.flatten, must := [], mustNot := [] }

/-! ## The query of a deletion -/

/-- The ids of the condition. -/
@[grind =] def deleteIds (v : FieldValue) : Option (List Clause) :=
  match v with
  | .many [] => some []
  | .many l => some [.ids l]
  | .one v => some [.ids [v]]
  | .dict _ => none

/-- What an entry of the condition other than the ids adds to the query of `delete`. -/
@[grind =] def deleteClause (k : String) (v : FieldValue) : Option BoolQuery :=
  if k = "id" then some ⟨[], [], []⟩
  else if k = "exists" then
    match v with
    | .one (.str s) => some ⟨[.hasField s], [], []⟩
    | _ => none
  else if k = "must_not" then
    match v with
    | .dict items => some ⟨[], [], (items.filter (·.1 = "exists")).map fun e => .hasField e.2⟩
    | _ => some ⟨[], [], []⟩
  else
    match v with
    | .many l => some ⟨[], [.terms k l], []⟩
    | .one v => some ⟨[], [.term k v], []⟩
    | .dict _ => none

/-- The query of `delete`; a query without clauses matches everything. -/
def deleteQuery (condition : Condition) (knowledgebaseId : String) : Option BoolQuery :=
  let condition := condition.set "kb_id" (.one (.str knowledgebaseId))
  (((condition.get? "id").map deleteIds).getD (some [])).bind fun ids =>
    (condition.entries.mapM fun e => deleteClause e.1 e.2).map fun parts =>
      { filter := ids ++ parts.flatMap BoolQuery.filter
        must := parts.flatMap BoolQuery.must
        mustNot := parts.flatMap BoolQuery.mustNot }

/-! ## Both queries, entry by entry -/

/-- A condition on fields, without `exists` and `must_not`. -/
structure Ordinary (condition : Condition) : Prop where
  keys : ∀ k v, condition.get? k = some v → k ≠ "exists" ∧ k ≠ "must_not"
  values : ∀ k v, condition.get? k = some v → ∀ items, v ≠ .dict items

/-- The id of the document is also its field `id`, as `insert` writes it. -/
def Index.Inserted {δ : Type*} (x : Index δ) (d : δ) : Prop :=
  ∀ v, x.term d "id" v = x.term d "_id" v

/-- The document has at most one number as `available_int`. -/
def Index.Numbered {δ : Type*} (x : Index δ) (d : δ) : Prop :=
  ∀ n, x.term d "available_int" (.int n) = true →
    x.lt d "available_int" 1 = decide (n < 1)

/-- The document has 0 or 1 as `available_int`. -/
def Index.Flagged {δ : Type*} (x : Index δ) (d : δ) : Prop :=
  ∃ a : ℤ, (a = 0 ∨ a = 1) ∧ (∀ n, x.term d "available_int" (.int n) = decide (n = a)) ∧
    x.lt d "available_int" 1 = decide (a < 1)

section Entries

variable {δ : Type*} {x : Index δ} {d : δ} {condition : Condition} {k kb : String} {v : FieldValue}

def searchHolds (x : Index δ) (d : δ) (k : String) (v : FieldValue) : Bool :=
  ((searchClause k v).getD []).all (Clause.matches x d)

/-- The clauses of `delete` for an entry on a field. -/
@[grind =] def deleteHolds (x : Index δ) (d : δ) (k : String) (v : FieldValue) : Bool :=
  if k = "id" then ((deleteIds v).getD []).all (Clause.matches x d)
  else ((deleteClause k v).elim [] BoolQuery.must).all (Clause.matches x d)

theorem deleteHolds_id (l : List Value) :
    deleteHolds x d "id" (.many l) = (l.isEmpty || l.any (x.term d "_id")) := by
  cases l with
  | nil => rfl
  | cons v l => simp [deleteHolds, deleteIds, Clause.matches]

theorem deleteHolds_one (hid : k ≠ "id") (hkeys : k ≠ "exists" ∧ k ≠ "must_not") (v : Value) :
    deleteHolds x d k (.one v) = x.term d k v := by
  unfold deleteHolds deleteClause
  rw [if_neg hid, if_neg hid, if_neg hkeys.1, if_neg hkeys.2]
  simp [Clause.matches]

theorem deleteHolds_many (hid : k ≠ "id") (hkeys : k ≠ "exists" ∧ k ≠ "must_not")
    (l : List Value) : deleteHolds x d k (.many l) = l.any (x.term d k) := by
  unfold deleteHolds deleteClause
  rw [if_neg hid, if_neg hid, if_neg hkeys.1, if_neg hkeys.2]
  simp [Clause.matches]

theorem searchHolds_available (v : FieldValue) :
    searchHolds x d "available_int" v =
      if v = .one (.int 0) then x.lt d "available_int" 1 else !x.lt d "available_int" 1 := by
  unfold searchHolds searchClause
  rw [if_pos rfl]
  split_ifs <;> simp [Clause.matches]

theorem searchHolds_falsy (havail : k ≠ "available_int") (hv : v.falsy = true) :
    searchHolds x d k v = true := by
  unfold searchHolds searchClause
  rw [if_neg havail, hv]
  by_cases hid : k = "id"
  · rw [if_pos hid, if_pos rfl]
    rfl
  · rw [if_neg hid, if_pos rfl]
    rfl

theorem searchHolds_id (hinserted : x.Inserted d) (hv : v.falsy = false)
    (hvalue : ∀ items, v ≠ .dict items) :
    searchHolds x d "id" v = deleteHolds x d "id" v := by
  unfold searchHolds searchClause
  rw [if_neg (by decide), if_pos rfl, hv, if_neg Bool.false_ne_true]
  cases v with
  | one v => simp [deleteHolds, deleteIds, Clause.matches, hinserted v]
  | many l =>
      have hterms : l.any (x.term d "id") = l.any (x.term d "_id") := by
        congr 1
        exact funext hinserted
      have hempty : l.isEmpty = false := hv
      rw [deleteHolds_id, hempty]
      simp [Clause.matches, hterms]
  | dict items => exact absurd rfl (hvalue items)

theorem searchHolds_field (havail : k ≠ "available_int") (hid : k ≠ "id")
    (hkeys : k ≠ "exists" ∧ k ≠ "must_not") (hv : v.falsy = false)
    (hvalue : ∀ items, v ≠ .dict items) : searchHolds x d k v = deleteHolds x d k v := by
  unfold searchHolds searchClause
  rw [if_neg havail, if_neg hid, hv, if_neg Bool.false_ne_true]
  cases v with
  | one v =>
      rw [deleteHolds_one hid hkeys]
      simp [Clause.matches]
  | many l =>
      rw [deleteHolds_many hid hkeys]
      simp [Clause.matches]
  | dict items => exact absurd rfl (hvalue items)

/-- What is deleted for an entry is found for it. -/
theorem searchHolds_of_deleteHolds (hkeys : k ≠ "exists" ∧ k ≠ "must_not")
    (hvalue : ∀ items, v ≠ .dict items) (hinserted : x.Inserted d) (hnumbered : x.Numbered d)
    (havail : k = "available_int" → ∃ n : ℕ, v = .one (.int n)) (h : deleteHolds x d k v = true) :
    searchHolds x d k v = true := by
  by_cases hk : k = "available_int"
  · obtain ⟨n, rfl⟩ := havail hk
    subst hk
    rw [deleteHolds_one (by decide) hkeys] at h
    rw [searchHolds_available, hnumbered n h]
    split_ifs with hn
    · have hzero : (n : ℤ) = 0 := by simpa using hn
      simp [hzero]
    · have hpos : ¬ (n : ℤ) < 1 := by
        have hne : (n : ℤ) ≠ 0 := fun heq => hn (by rw [heq])
        omega
      simpa using hpos
  · cases hv : v.falsy with
    | true => exact searchHolds_falsy hk hv
    | false =>
        by_cases hid : k = "id"
        · subst hid
          rw [searchHolds_id hinserted hv hvalue, h]
        · rw [searchHolds_field hk hid hkeys hv hvalue, h]

/-- Values that are not empty are asked for alike. -/
theorem searchHolds_eq (hkeys : k ≠ "exists" ∧ k ≠ "must_not")
    (hvalue : ∀ items, v ≠ .dict items) (hinserted : x.Inserted d)
    (hfalsy : k ≠ "available_int" → v.falsy = true → k = "id" ∧ v = .many [])
    (havail : k = "available_int" →
      (v = .one (.int 0) ∨ v = .one (.int 1)) ∧ x.Flagged d) :
    searchHolds x d k v = deleteHolds x d k v := by
  by_cases hk : k = "available_int"
  · obtain ⟨hv, a, ha, hterm, hlt⟩ := havail hk
    subst hk
    rw [searchHolds_available, hlt]
    rcases hv with rfl | rfl
    · rw [if_pos rfl, deleteHolds_one (by decide) hkeys, hterm]
      rcases ha with rfl | rfl <;> decide
    · rw [if_neg (by decide), deleteHolds_one (by decide) hkeys, hterm]
      rcases ha with rfl | rfl <;> decide
  · cases hv : v.falsy with
    | true =>
        obtain ⟨rfl, rfl⟩ := hfalsy hk hv
        rw [searchHolds_falsy hk hv, deleteHolds_id]
        rfl
    | false =>
        by_cases hid : k = "id"
        · subst hid
          exact searchHolds_id hinserted hv hvalue
        · exact searchHolds_field hk hid hkeys hv hvalue

/-- What is set has no dictionary as value. -/
theorem ordinary_set (h : Ordinary condition) {k' : String} {v' : FieldValue}
    (hk' : k' ≠ "exists" ∧ k' ≠ "must_not") (hv' : ∀ items, v' ≠ .dict items) :
    Ordinary (condition.set k' v') where
  keys k v hkv := by
    rw [Dict.get?_set] at hkv
    split_ifs at hkv with hk
    · exact hk ▸ hk'
    · exact h.keys k v hkv
  values k v hkv := by
    rw [Dict.get?_set] at hkv
    split_ifs at hkv with hk
    · exact Option.some.inj hkv ▸ hv'
    · exact h.values k v hkv

theorem isSome_searchClause (hvalue : ∀ items, v ≠ .dict items) : (searchClause k v).isSome := by
  unfold searchClause
  split_ifs
  · rfl
  · rfl
  · rfl
  · split <;> rfl
  · rfl
  · split
    · rfl
    · rfl
    · exact absurd rfl (hvalue _)

theorem exists_searchQuery (x : Index δ) (h : Ordinary condition) (ids : List String) :
    ∃ q, searchQuery condition ids = some q ∧ ∀ d, q.matches x d = true ↔
      ∀ k v, (condition.set "kb_id" (.many (ids.map Value.str))).get? k = some v →
        searchHolds x d k v = true := by
  have hset : Ordinary (condition.set "kb_id" (.many (ids.map Value.str))) :=
    ordinary_set h (by decide) (by simp)
  generalize hcondition : condition.set "kb_id" (.many (ids.map Value.str)) = c at hset
  have hmapM : (c.entries.mapM fun e => searchClause e.1 e.2) =
      some (c.entries.map fun e => (searchClause e.1 e.2).getD []) := by
    refine mapM_eq_map fun e he => ?_
    have hsome := isSome_searchClause (k := e.1)
      (hset.values e.1 e.2 (Dict.get?_eq_some_iff.mpr he))
    obtain ⟨clauses, hclauses⟩ := Option.isSome_iff_exists.mp hsome
    rw [hclauses]
    rfl
  refine ⟨_, by rw [searchQuery, hcondition, hmapM, Option.map_some], fun d => ?_⟩
  simp only [BoolQuery.matches, List.all_nil, Bool.and_true, List.all_flatten, List.all_map,
    List.all_eq_true]
  constructor
  · intro hall k v hkv
    exact hall (k, v) (Dict.get?_eq_some_iff.mp hkv)
  · intro hall e he
    exact hall e.1 e.2 (Dict.get?_eq_some_iff.mpr he)

/-- The clauses for an entry other than the ids. -/
theorem deleteClause_eq (hkeys : k ≠ "exists" ∧ k ≠ "must_not")
    (hvalue : ∀ items, v ≠ .dict items) :
    deleteClause k v = some ⟨[], (deleteClause k v).elim [] BoolQuery.must, []⟩ := by
  unfold deleteClause
  rw [if_neg hkeys.1, if_neg hkeys.2]
  split_ifs
  · rfl
  · split
    · rfl
    · rfl
    · exact absurd rfl (hvalue _)

theorem exists_deleteQuery (x : Index δ) (h : Ordinary condition) (kb : String) :
    ∃ r, deleteQuery condition kb = some r ∧ ∀ d, r.matches x d = true ↔
      ∀ k v, (condition.set "kb_id" (.one (.str kb))).get? k = some v →
        deleteHolds x d k v = true := by
  have hset : Ordinary (condition.set "kb_id" (.one (.str kb))) :=
    ordinary_set h (by decide) (by simp)
  generalize hcondition : condition.set "kb_id" (.one (.str kb)) = c at hset
  have hmapM : (c.entries.mapM fun e => deleteClause e.1 e.2) =
      some (c.entries.map fun e => ⟨[], (deleteClause e.1 e.2).elim [] BoolQuery.must, []⟩) :=
    mapM_eq_map fun e he => deleteClause_eq (hset.keys e.1 e.2 (Dict.get?_eq_some_iff.mpr he))
      (hset.values e.1 e.2 (Dict.get?_eq_some_iff.mpr he))
  -- The clauses for the ids hold if those of the entry do.
  obtain ⟨ids, hids, hmatch⟩ : ∃ ids, ((c.get? "id").map deleteIds).getD (some []) = some ids ∧
      ∀ d, ids.all (Clause.matches x d) = true ↔
        ∀ v, c.get? "id" = some v → deleteHolds x d "id" v = true := by
    cases hget : c.get? "id" with
    | none => exact ⟨[], rfl, fun d => by simp⟩
    | some v =>
        have hsome : ∃ ids, deleteIds v = some ids := by
          unfold deleteIds
          split
          · exact ⟨_, rfl⟩
          · exact ⟨_, rfl⟩
          · exact ⟨_, rfl⟩
          · exact absurd rfl (hset.values "id" _ hget _)
        obtain ⟨ids, hids⟩ := hsome
        refine ⟨ids, by rw [Option.map_some, hids]; rfl, fun d => ?_⟩
        simp [deleteHolds, hids]
  refine ⟨_, by rw [deleteQuery, hcondition, hids, Option.bind_some, hmapM, Option.map_some],
    fun d => ?_⟩
  have hmust : ∀ k v, k ≠ "id" → deleteHolds x d k v =
      ((deleteClause k v).elim [] BoolQuery.must).all (Clause.matches x d) := fun k v hid => by
    rw [deleteHolds, if_neg hid]
  have hid : ∀ v, deleteClause "id" v = some ⟨[], [], []⟩ := fun v => by
    unfold deleteClause
    rw [if_pos rfl]
  simp only [BoolQuery.matches, List.all_append, List.flatMap_map, List.all_flatMap, List.all_nil,
    Bool.and_eq_true, hmatch, implies_true, and_true, List.all_eq_true (l := c.entries)]
  constructor
  · rintro ⟨hholds, hall⟩ k v hkv
    by_cases hk : k = "id"
    · exact hk ▸ hholds v (hk ▸ hkv)
    · rw [hmust k v hk]
      exact hall (k, v) (Dict.get?_eq_some_iff.mp hkv)
  · intro hall
    refine ⟨fun v hv => hall "id" v hv, fun e he => ?_⟩
    by_cases hk : e.1 = "id"
    · rw [hk, hid]
      rfl
    · rw [← hmust e.1 e.2 hk]
      exact hall e.1 e.2 (Dict.get?_eq_some_iff.mpr he)

/-- The dataset is asked for alike. -/
theorem kbId_holds_eq (kb : String) :
    searchHolds x d "kb_id" (.many ([kb].map Value.str)) =
      deleteHolds x d "kb_id" (.one (.str kb)) := by
  have hkeys : "kb_id" ≠ "exists" ∧ "kb_id" ≠ "must_not" := by decide
  rw [searchHolds_field (by decide) (by decide) hkeys rfl (by simp),
    deleteHolds_many (by decide) hkeys, deleteHolds_one (by decide) hkeys]
  simp

/-- What holds of the entries of a dictionary in which one is set. -/
theorem forall_set {c : Condition} {k' : String} {v' : FieldValue}
    {P : String → FieldValue → Prop} :
    (∀ k v, (c.set k' v').get? k = some v → P k v) ↔
      P k' v' ∧ ∀ k v, k ≠ k' → c.get? k = some v → P k v := by
  constructor
  · intro h
    refine ⟨h k' v' (Dict.get?_set_self c k' v'), fun k v hk hkv => h k v ?_⟩
    rw [Dict.get?_set_ne hk, hkv]
  · rintro ⟨hself, hrest⟩ k v hkv
    rw [Dict.get?_set] at hkv
    split_ifs at hkv with hk
    · exact hk ▸ Option.some.inj hkv ▸ hself
    · exact hrest k v hk hkv

/-- A deletion removes only what a search with the same condition finds, and all of it if no value
is empty other than a list of ids; such a list is no condition for either. -/
theorem deletion_within_search {δ : Type*} (x : Index δ) (condition : Condition) (kb : String)
    (h : Ordinary condition) :
    ∃ q r, searchQuery condition [kb] = some q ∧ deleteQuery condition kb = some r ∧
      (∀ d, x.Inserted d → x.Numbered d →
        (∀ v, condition.get? "available_int" = some v → ∃ n : ℕ, v = .one (.int n)) →
        r.matches x d = true → q.matches x d = true) ∧
      ((∀ k v, condition.get? k = some v → k ≠ "available_int" → v.falsy = true →
          k = "id" ∧ v = .many []) →
        ∀ d, x.Inserted d →
          (∀ v, condition.get? "available_int" = some v →
            (v = .one (.int 0) ∨ v = .one (.int 1)) ∧ x.Flagged d) →
          q.matches x d = r.matches x d) ∧
      (condition.get? "id" = some (.many []) →
        ∃ q' r', searchQuery (condition.filter fun k _ => k ≠ "id") [kb] = some q' ∧
          deleteQuery (condition.filter fun k _ => k ≠ "id") kb = some r' ∧
          ∀ d, q.matches x d = q'.matches x d ∧ r.matches x d = r'.matches x d) := by
  obtain ⟨q, hq, hqMatches⟩ := exists_searchQuery x h [kb]
  obtain ⟨r, hr, hrMatches⟩ := exists_deleteQuery x h kb
  simp only [forall_set] at hqMatches hrMatches
  refine ⟨q, r, hq, hr, ?_, ?_, ?_⟩
  · intro d hinserted hnumbered havail hr
    obtain ⟨hkb, hall⟩ := (hrMatches d).mp hr
    refine (hqMatches d).mpr ⟨(kbId_holds_eq kb).trans hkb, fun k v hk hkv => ?_⟩
    exact searchHolds_of_deleteHolds (h.keys k v hkv) (h.values k v hkv) hinserted hnumbered
      (fun hk => havail v (hk ▸ hkv)) (hall k v hk hkv)
  · intro hfalsy d hinserted havail
    have heq : ∀ k v, condition.get? k = some v → searchHolds x d k v = deleteHolds x d k v :=
      fun k v hkv => searchHolds_eq (h.keys k v hkv) (h.values k v hkv) hinserted
        (hfalsy k v hkv) fun hk => havail v (hk ▸ hkv)
    rw [Bool.eq_iff_iff, hqMatches, hrMatches, kbId_holds_eq]
    refine and_congr_right fun _ => ?_
    exact forall_congr' fun k => forall_congr' fun v => forall_congr' fun _ =>
      forall_congr' fun hkv => by rw [heq k v hkv]
  · intro hid
    have hfilter : ∀ k v, (condition.filter fun k _ => k ≠ "id").get? k = some v ↔
        k ≠ "id" ∧ condition.get? k = some v := by
      intro k v
      rw [Dict.get?_filter, Option.filter_eq_some_iff, and_comm, decide_eq_true_eq]
    have hordinary : Ordinary (condition.filter fun k _ => k ≠ "id") :=
      ⟨fun k v hkv => h.keys k v ((hfilter k v).mp hkv).2,
        fun k v hkv => h.values k v ((hfilter k v).mp hkv).2⟩
    obtain ⟨q', hq', hqMatches'⟩ := exists_searchQuery x hordinary [kb]
    obtain ⟨r', hr', hrMatches'⟩ := exists_deleteQuery x hordinary kb
    simp only [forall_set] at hqMatches' hrMatches'
    -- The entry that is left out holds of every document.
    have hrest : ∀ {P : String → FieldValue → Prop}, P "id" (.many []) →
        ((∀ k v, k ≠ "kb_id" → condition.get? k = some v → P k v) ↔
          ∀ k v, k ≠ "kb_id" → (condition.filter fun k _ => k ≠ "id").get? k = some v → P k v) := by
      intro P hP
      constructor
      · exact fun hall k v hk hkv => hall k v hk ((hfilter k v).mp hkv).2
      · intro hall k v hk hkv
        by_cases hkid : k = "id"
        · subst hkid
          obtain rfl := Option.some.inj (hid.symm.trans hkv)
          exact hP
        · exact hall k v hk ((hfilter k v).mpr ⟨hkid, hkv⟩)
    refine ⟨q', r', hq', hr', fun d => ⟨?_, ?_⟩⟩
    · rw [Bool.eq_iff_iff, hqMatches, hqMatches', hrest (searchHolds_falsy (by decide) rfl)]
    · rw [Bool.eq_iff_iff, hrMatches, hrMatches', hrest (deleteHolds_id [])]

end Entries

/-- Documents as lists of their terms. -/
def termIndex : Index (List (String × Value)) where
  term d k v := (k, v) ∈ d
  lt d k bound := d.any fun e => e.1 = k && match e.2 with
    | .int n => n < bound
    | .str _ => false
  hasField d k := d.any (·.1 = k)

/-- A chunk of a document in a dataset. -/
def chunkTerms (id : String) : List (String × Value) :=
  [("_id", .str id), ("id", .str id), ("doc_id", .str "d"), ("kb_id", .str "kb"),
    ("available_int", .int 1)]

/-- The chunks of a document that are named and are available. -/
def chunkCondition : Condition where
  entries := [("id", .many [.str "a"]), ("doc_id", .one (.str "d")),
    ("available_int", .one (.int 1))]
  nodup := by decide

theorem deletion_within_search_chunk :
    ∃ q r, searchQuery chunkCondition ["kb"] = some q ∧
      deleteQuery chunkCondition "kb" = some r ∧
      q.matches termIndex (chunkTerms "a") = r.matches termIndex (chunkTerms "a") := by
  have hentries : ∀ k v, chunkCondition.get? k = some v →
      (k, v) ∈ [("id", FieldValue.many [.str "a"]), ("doc_id", .one (.str "d")),
        ("available_int", .one (.int 1))] := fun k v hkv => Dict.get?_eq_some_iff.mp hkv
  have hordinary : Ordinary chunkCondition := by
    constructor
    · intro k v hkv
      have hmem := hentries k v hkv
      simp only [List.mem_cons, Prod.mk.injEq, List.not_mem_nil, or_false] at hmem
      rcases hmem with ⟨rfl, -⟩ | ⟨rfl, -⟩ | ⟨rfl, -⟩ <;> decide
    · intro k v hkv items
      have hmem := hentries k v hkv
      simp only [List.mem_cons, Prod.mk.injEq, List.not_mem_nil, or_false] at hmem
      rcases hmem with ⟨-, rfl⟩ | ⟨-, rfl⟩ | ⟨-, rfl⟩ <;> simp
  obtain ⟨q, r, hq, hr, -, hsame, -⟩ :=
    deletion_within_search termIndex chunkCondition "kb" hordinary
  refine ⟨q, r, hq, hr, hsame (fun k v hkv _ hv => ?_) _ (fun v => ?_) fun v hv => ?_⟩
  · have hmem := hentries k v hkv
    simp only [List.mem_cons, Prod.mk.injEq, List.not_mem_nil, or_false] at hmem
    rcases hmem with ⟨-, rfl⟩ | ⟨-, rfl⟩ | ⟨-, rfl⟩ <;> exact absurd hv (by decide)
  · simp [termIndex, chunkTerms]
  · have hmem := hentries _ v hv
    simp only [List.mem_cons, Prod.mk.injEq, List.not_mem_nil, or_false] at hmem
    have hv' : v = .one (.int 1) := by
      rcases hmem with ⟨h, -⟩ | ⟨h, -⟩ | ⟨-, h⟩
      · exact absurd h (by decide)
      · exact absurd h (by decide)
      · exact h
    refine ⟨Or.inr hv', 1, Or.inr rfl, fun n => ?_, by decide⟩
    simp [termIndex, chunkTerms]

/-- An empty list of ids deletes chunks with any id. -/
theorem empty_ids_delete_chunk :
    ∃ r, deleteQuery { entries := [("id", .many [])], nodup := by decide } "kb" = some r ∧
      r.matches termIndex (chunkTerms "a") = true :=
  ⟨⟨[], [.term "kb_id" (.str "kb")], []⟩, by decide, by decide⟩

end RagFlow.Elastic
