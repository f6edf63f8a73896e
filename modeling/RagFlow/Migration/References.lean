/-
# What the migration keeps

Components are mapped one to one, and each place that names a component names its new id
afterwards. Only references in parameters depend on their spelling: the canvas reads one without
braces as well, and the migration does not.
-/

import RagFlow.Migration.Settled

namespace RagFlow.Migration

open RagFlow.Math

variable {ids : List Text}

/-! ## Places -/

/-- A step into a value. -/
inductive Step where
  | key (k : Text)
  | item (i : ℕ)

/-- The value at a place. -/
def Json.at : List Step → Json → Option Json
  | [], v => some v
  | .key k :: place, .dict entries => (look k entries).bind (Json.at place)
  | .item i :: place, .list items => items[i]?.bind (Json.at place)
  | _, _ => none

theorem at_rewriteValue (place : List Step) (v : Json) :
    (rewriteValue ids v).at place = (v.at place).map (rewriteValue ids) := by
  induction place generalizing v with
  | nil => cases v <;> rfl
  | cons step place ih =>
      cases step with
      | key k =>
          cases v with
          | dict entries =>
              rw [rewriteValue, rewriteEntries_eq, Json.at, look_map, Json.at]
              cases look k entries with
              | none => rfl
              | some w => exact ih w
          | null | bool _ | num _ | str _ | list _ => rfl
      | item i =>
          cases v with
          | list items =>
              rw [rewriteValue, rewriteItems_eq, Json.at, List.getElem?_map, Json.at]
              cases items[i]? with
              | none => rfl
              | some w => exact ih w
          | null | bool _ | num _ | str _ | dict _ => rfl

/-- What stands at a place that names a component by its id: ids are mapped, and other values
stay, except for texts that have a reference in them. -/
def EntryKept (ids : List Text) (before after : Json) : Prop :=
  (∀ c ∈ ids, before = .str c → after = .str (mapId ids c)) ∧
    (∀ t, before = .str t → NamesNone ids t → after = .str t) ∧
    ((∀ t, before ≠ .str t) → after = before)

/-- A text in a parameter: a reference to a component names its new id and the same variable, an
id is mapped, and a text that names no component stays. -/
def TextKept (ids : List Text) (before after : Text) : Prop :=
  (∀ c name, variableRef before = some (c, name) → c ∈ ids →
      variableRef after = some (mapId ids c, name)) ∧
    (before ∈ ids → after = mapId ids before) ∧ (NamesNone ids before → after = before)

structure ComponentKept (ids : List Text) (before after : Json) : Prop where
  links : ∀ key ∈ ["downstream".toList, "upstream".toList], ∀ items,
    before.at [.key key] = some (.list items) →
      ∃ items', after.at [.key key] = some (.list items') ∧
        List.Forall₂ (EntryKept ids) items items'
  parent : ∀ t, before.at [.key "parent_id".toList] = some (.str t) →
    ∃ v, after.at [.key "parent_id".toList] = some v ∧ EntryKept ids (.str t) v
  params : ∀ place t,
    before.at (.key "obj".toList :: .key "params".toList :: place) = some (.str t) →
      ∃ t', after.at (.key "obj".toList :: .key "params".toList :: place) = some (.str t') ∧
        TextKept ids t t'

/-- Every reference in the parameters of a component is spelled as the migration finds it. -/
def RefsSpelled (ids : List Text) (component : Json) : Prop :=
  ∀ place t, component.at (.key "obj".toList :: .key "params".toList :: place) = some (.str t) →
    ∀ c name, variableRef t = some (c, name) → c ∈ ids → Spelled ids t c

/-- What is looked up can be. -/
structure LooksUp (component : Json) : Prop where
  links : ∀ key ∈ ["downstream".toList, "upstream".toList], ∀ items,
    component.at [.key key] = some (.list items) → ∀ v ∈ items, v.isKey = true
  name : ∀ v, component.at [.key "obj".toList, .key "component_name".toList] = some v →
    v.isKey = true

/-! ## Components -/

theorem isKey_rewriteValue (v : Json) : (rewriteValue ids v).isKey = v.isKey := by
  cases v <;> rfl

theorem isSome_mapIds {v : Json} :
    (mapIds ids v).isSome ↔ ∀ items, v = .list items → ∀ w ∈ items, w.isKey = true := by
  cases v with
  | list items =>
      rw [mapIds, Option.isSome_map, isSome_mapM]
      simp [isSome_atKey]
  | null | bool _ | num _ | str _ | dict _ => simp [mapIds]

theorem isSome_renameObj {v : Json} : (renameObj v).isSome ↔
    ∀ w, v.at [.key "component_name".toList] = some w → w.isKey = true := by
  cases v with
  | dict obj =>
      rw [renameObj, Option.isSome_map, isSome_atKey]
      rw [Json.at]
      cases look "component_name".toList obj with
      | none => simp [Json.isKey]
      | some w =>
          rw [Option.getD_some, Option.bind_some, Json.at]
          simp
  | null | bool _ | num _ | str _ | list _ => simp [renameObj, Json.at]

/-- At one key, a value that is rewritten and then looked up is so if it could be before. -/
theorem isSome_mapIds_rewriteValue {v : Json} :
    (mapIds ids (rewriteValue ids v)).isSome ↔
      ∀ items, v = .list items → ∀ w ∈ items, w.isKey = true := by
  rw [isSome_mapIds]
  cases v with
  | list items =>
      rw [rewriteValue, rewriteItems_eq]
      simp [isKey_rewriteValue]
  | null | bool _ | num _ | str _ | dict _ => simp [rewriteValue]

theorem isSome_renameObj_rewriteValue {v : Json} : (renameObj (rewriteValue ids v)).isSome ↔
    ∀ w, v.at [.key "component_name".toList] = some w → w.isKey = true := by
  rw [isSome_renameObj, at_rewriteValue]
  cases v.at [.key "component_name".toList] with
  | none => simp
  | some w => simp [isKey_rewriteValue]

theorem isSome_rewriteComponent {c : Json} :
    (rewriteComponent ids c).isSome ↔ LooksUp c := by
  cases c with
  | dict entries =>
      have hlook : ∀ k, look k (entries.map fun e => (e.1, rewriteValue ids e.2)) =
          (look k entries).map (rewriteValue ids) := fun k => look_map (rewriteValue ids) entries
      have hat : ∀ k, (Json.dict entries).at [.key k] = look k entries := fun k => by
        rw [Json.at]
        cases look k entries <;> rfl
      rw [rewriteComponent, rewriteValue, rewriteEntries_eq]
      dsimp only
      rw [Option.isSome_map, isSome_mapAllM (nodup_linkRewrites ids)]
      simp only [linkRewrites, List.forall_mem_cons, hlook, Option.map_eq_some_iff,
        forall_exists_index, and_imp, forall_apply_eq_imp_iff₂]
      constructor
      · rintro ⟨hobj, hdown, hup, _⟩
        refine ⟨fun key hkey items hitems => ?_, fun v hv => ?_⟩
        · rw [hat] at hitems
          simp only [List.mem_cons, List.not_mem_nil, or_false] at hkey
          rcases hkey with rfl | rfl
          · exact isSome_mapIds_rewriteValue.mp (hdown _ hitems) items rfl
          · exact isSome_mapIds_rewriteValue.mp (hup _ hitems) items rfl
        · rw [Json.at] at hv
          obtain ⟨obj, hlookup, hname⟩ := Option.bind_eq_some_iff.mp hv
          exact isSome_renameObj_rewriteValue.mp (hobj obj hlookup) v hname
      · rintro ⟨hlinks, hname⟩
        refine ⟨fun v hv => ?_, fun v hv => ?_, fun v hv => ?_, fun _ _ => rfl, ?_⟩
        · refine isSome_renameObj_rewriteValue.mpr fun w hw => hname w ?_
          rw [Json.at, hv]
          exact hw
        · refine isSome_mapIds_rewriteValue.mpr fun items hitems => ?_
          exact hlinks "downstream".toList List.mem_cons_self items (by rw [hat, hv, hitems])
        · refine isSome_mapIds_rewriteValue.mpr fun items hitems => ?_
          exact hlinks "upstream".toList (List.mem_cons_of_mem _ List.mem_cons_self) items
            (by rw [hat, hv, hitems])
        · exact fun _ hf => absurd hf List.not_mem_nil
  | null | bool _ | num _ | str _ | list _ =>
      refine iff_of_true rfl ⟨fun _ _ _ h => ?_, fun _ h => ?_⟩ <;> cases h

theorem mapId_rewriteVariableRefs_of_mem {c : Text} (hc : c ∈ ids) :
    mapId ids (rewriteVariableRefs ids c) = mapId ids c := by
  rw [rewriteVariableRefs, if_pos hc, mapId_of_mem hc, mapId]
  split
  · exact renameId_renameId c
  · rfl

theorem entryKept_of_rewrite {t : Text} :
    EntryKept ids (.str t) (.str (mapId ids (rewriteVariableRefs ids t))) := by
  refine ⟨fun c hc heq => ?_, fun u heq hu => ?_, fun hno => absurd rfl (hno t)⟩
  · cases heq
    rw [mapId_rewriteVariableRefs_of_mem hc]
  · cases heq
    rw [rewriteVariableRefs_of_namesNone hu, mapId, if_neg hu.1]

theorem entryKept_of_atKey_rewriteValue {v v' : Json}
    (h : atKey (mapId ids) (rewriteValue ids v) = some v') : EntryKept ids v v' := by
  cases v with
  | str t =>
      cases h
      exact entryKept_of_rewrite
  | list _ | dict _ => cases h
  | null | bool _ | num _ =>
      cases h
      exact ⟨fun _ _ heq => absurd heq (by simp), fun _ heq => absurd heq (by simp), fun _ => rfl⟩

theorem entryKept_of_atKey {v v' : Json} (h : atKey (mapId ids) v = some v') :
    EntryKept ids v v' := by
  cases v with
  | str t =>
      cases h
      refine ⟨fun c _ heq => ?_, fun u heq hu => ?_, fun hno => absurd rfl (hno t)⟩
      · cases heq
        rfl
      · cases heq
        rw [mapId, if_neg hu.1]
  | list _ | dict _ => cases h
  | null | bool _ | num _ =>
      cases h
      exact ⟨fun _ _ heq => absurd heq (by simp), fun _ heq => absurd heq (by simp), fun _ => rfl⟩

theorem textKept_iff {t : Text} : TextKept ids t (rewriteVariableRefs ids t) ↔
    ∀ c name, variableRef t = some (c, name) → c ∈ ids → Spelled ids t c := by
  constructor
  · exact fun h c name href hc => (variableRef_rewrite_iff href hc).mp (h.1 c name href hc)
  · refine fun h => ⟨fun c name href hc => (variableRef_rewrite_iff href hc).mpr
      (h c name href hc), fun ht => ?_, rewriteVariableRefs_of_namesNone⟩
    rw [rewriteVariableRefs, if_pos ht, mapId_of_mem ht]

/-- What a component has at its keys afterwards. -/
theorem look_rewriteComponent {entries : List (Text × Json)} {c' : Json}
    (hc : rewriteComponent ids (.dict entries) = some c') :
    ∃ entries', c' = .dict entries' ∧ ∀ f ∈ linkRewrites ids,
      (∀ v, look f.1 entries = some v →
        ∃ v', f.2 (rewriteValue ids v) = some v' ∧ look f.1 entries' = some v') ∧
      (look f.1 entries = none → look f.1 entries' = none) := by
  rw [rewriteComponent, rewriteValue, rewriteEntries_eq] at hc
  dsimp only at hc
  obtain ⟨entries', hentries, rfl⟩ := Option.map_eq_some_iff.mp hc
  have hsome := (isSome_mapAllM (nodup_linkRewrites ids)).mp (Option.isSome_of_mem hentries)
  refine ⟨entries', rfl, fun f hf => ?_⟩
  have hlook := (look_of_mapAllM (nodup_linkRewrites ids) hentries).1 f hf
  rw [look_map] at hlook
  constructor
  · intro v hv
    have hsome' := hsome f hf (rewriteValue ids v) (by rw [look_map, hv]; rfl)
    obtain ⟨v', hv'⟩ := Option.isSome_iff_exists.mp hsome'
    rw [hv, Option.map_some, Option.bind_some, hv'] at hlook
    exact ⟨v', hv', hlook.symm⟩
  · intro hnone
    rw [hnone] at hlook
    exact hlook.symm

/-- Beside the name of the operator, nothing in `obj` is touched. -/
theorem at_renameObj {v v' : Json} {place : List Step} (h : renameObj v = some v') :
    v'.at (.key "params".toList :: place) = v.at (.key "params".toList :: place) := by
  cases v with
  | dict obj =>
      obtain ⟨name, _, rfl⟩ := Option.map_eq_some_iff.mp h
      rw [Json.at, Json.at, look_put_ne (by decide)]
  | null | bool _ | num _ | str _ | list _ =>
      cases h
      rfl

/-- The parameters of a component are rewritten as values. -/
theorem at_params {c c' : Json} (hc : rewriteComponent ids c = some c') (place : List Step) :
    c'.at (.key "obj".toList :: .key "params".toList :: place) =
      (c.at (.key "obj".toList :: .key "params".toList :: place)).map (rewriteValue ids) := by
  cases c with
  | dict entries =>
      obtain ⟨entries', rfl, hlook⟩ := look_rewriteComponent hc
      obtain ⟨hfound, hmissing⟩ := hlook ("obj".toList, renameObj) List.mem_cons_self
      rw [Json.at, Json.at]
      cases hobj : look "obj".toList entries with
      | none =>
          rw [hmissing hobj]
          rfl
      | some v =>
          obtain ⟨v', hv', hobj'⟩ := hfound v hobj
          rw [hobj', Option.bind_some, Option.bind_some, at_renameObj hv', at_rewriteValue]
  | null | bool _ | num _ | str _ | list _ =>
      cases hc
      rfl

theorem forall₂_of_mapIds {items : List Json} {v' : Json} {f : Json → Json}
    {R : Json → Json → Prop} (hR : ∀ w w', atKey (mapId ids) (f w) = some w' → R w w')
    (h : mapIds ids (.list (items.map f)) = some v') :
    ∃ items', v' = .list items' ∧ List.Forall₂ R items items' := by
  obtain ⟨items', hitems, rfl⟩ := Option.map_eq_some_iff.mp h
  refine ⟨items', rfl, ?_⟩
  have hall := List.forall₂_map_left_iff.mp (mapM_eq_some_iff.mp hitems)
  exact hall.imp hR

/-- A component that has been migrated keeps what it names exactly if its references are spelled
as the migration finds them. -/
theorem componentKept_iff {c c' : Json} (hc : rewriteComponent ids c = some c') :
    ComponentKept ids c c' ↔ RefsSpelled ids c := by
  constructor
  · intro hkept place t ht
    obtain ⟨t', ht', htext⟩ := hkept.params place t ht
    rw [at_params hc, ht, Option.map_some, Option.some.injEq, rewriteValue, Json.str.injEq] at ht'
    subst ht'
    exact textKept_iff.mp htext
  · intro hspelled
    refine ⟨fun key hkey items hitems => ?_, fun t ht => ?_, fun place t ht => ?_⟩
    · cases c with
      | dict entries =>
          obtain ⟨entries', rfl, hlook⟩ := look_rewriteComponent hc
          have hlinks : (key, mapIds ids) ∈ linkRewrites ids := by
            simp only [List.mem_cons, List.not_mem_nil, or_false] at hkey
            rcases hkey with rfl | rfl
            · exact List.mem_cons_of_mem _ List.mem_cons_self
            · exact List.mem_cons_of_mem _ (List.mem_cons_of_mem _ List.mem_cons_self)
          rw [Json.at] at hitems
          obtain ⟨v, hv, hlist⟩ := Option.bind_eq_some_iff.mp hitems
          cases hlist
          obtain ⟨v', hv', hafter⟩ := (hlook _ hlinks).1 _ hv
          dsimp only at hv' hafter
          rw [rewriteValue, rewriteItems_eq] at hv'
          obtain ⟨items', rfl, hall⟩ := forall₂_of_mapIds
            (fun _ _ => entryKept_of_atKey_rewriteValue) hv'
          refine ⟨items', ?_, hall⟩
          rw [Json.at, hafter]
          rfl
      | null | bool _ | num _ | str _ | list _ => cases hitems
    · cases c with
      | dict entries =>
          obtain ⟨entries', rfl, hlook⟩ := look_rewriteComponent hc
          rw [Json.at] at ht
          obtain ⟨v, hv, htext⟩ := Option.bind_eq_some_iff.mp ht
          cases htext
          obtain ⟨v', hv', hafter⟩ := (hlook ("parent_id".toList, _) (by
            rw [linkRewrites]
            exact List.mem_cons_of_mem _ (List.mem_cons_of_mem _ (List.mem_cons_of_mem _
              List.mem_cons_self)))).1 _ hv
          cases hv'
          refine ⟨_, ?_, entryKept_of_rewrite⟩
          rw [Json.at, hafter]
          rfl
      | null | bool _ | num _ | str _ | list _ => cases ht
    · refine ⟨rewriteVariableRefs ids t, ?_, textKept_iff.mpr (hspelled place t ht)⟩
      rw [at_params hc, ht, Option.map_some, rewriteValue]

/-! ## The workflow -/

/-- The end points of the edges, the path and the components of a workflow before and after. -/
structure Kept (ids : List Text) (components entries entries' : List (Text × Json)) : Prop where
  components : ∃ components', look "components".toList entries' = some (.dict components') ∧
    (components'.map Prod.fst).Nodup ∧
    List.Forall₂ (fun e e' => e'.1 = mapId ids e.1 ∧ ComponentKept ids e.2 e'.2)
      components components'
  path : ∀ items, look "path".toList entries = some (.list items) →
    ∃ items', look "path".toList entries' = some (.list items') ∧
      List.Forall₂ (EntryKept ids) items items'
  edges : ∀ i, ∀ key ∈ ["source".toList, "target".toList], ∀ t,
    (Json.dict entries).at [.key "graph".toList, .key "edges".toList, .item i, .key key] =
      some (.str t) →
    ∃ v, (Json.dict entries').at
        [.key "graph".toList, .key "edges".toList, .item i, .key key] = some v ∧
      EntryKept ids (.str t) v

theorem renameId_injective {c d : Text} (h : renameId c = renameId d) :
    c = d ∨ renameId c = d ∨ renameId d = c := by
  rcases renameId_spec c with hc | ⟨e, he, r, hc, hc'⟩
  · exact .inr (.inr (h.symm.trans hc))
  · rcases renameId_spec d with hd | ⟨e', he', r', hd, hd'⟩
    · exact .inr (.inl (h.trans hd))
    · left
      rw [hc', hd'] at h
      rw [hc, hd]
      simp only [componentRenames, List.mem_cons, List.not_mem_nil, or_false] at he he'
      rcases he with rfl | rfl | rfl <;> rcases he' with rfl | rfl | rfl <;> simp_all

/-- Components are mapped one to one. -/
theorem nodup_map_mapId (hids : ids.Nodup)
    (hdistinct : ∀ c ∈ ids, ∀ d ∈ ids, c ≠ d → renameId c ≠ d) :
    (ids.map (mapId ids)).Nodup := by
  refine (List.nodup_map_iff_inj_on hids).mpr fun c hc d hd heq => ?_
  rw [mapId_of_mem hc, mapId_of_mem hd] at heq
  by_contra hne
  rcases renameId_injective heq with hsame | hsame | hsame
  · exact hne hsame
  · exact hdistinct c hc d hd hne hsame
  · exact hdistinct d hd c hc (Ne.symm hne) hsame

theorem rewriteComponents_eq_some_iff {components components' : List (Text × Json)}
    (hkeys : ((components.map Prod.fst).map (mapId ids)).Nodup) :
    rewriteComponents ids components = some components' ↔
      List.Forall₂ (fun e e' => e'.1 = mapId ids e.1 ∧ rewriteComponent ids e.2 = some e'.2)
        components components' := by
  have hentry : ∀ e e' : Text × Json,
      (rewriteComponent ids e.2).map (fun c => (mapId ids e.1, c)) = some e' ↔
        e'.1 = mapId ids e.1 ∧ rewriteComponent ids e.2 = some e'.2 := by
    intro e e'
    obtain ⟨k, c⟩ := e'
    rw [Option.map_eq_some_iff]
    constructor
    · rintro ⟨c', hc', heq⟩
      cases heq
      exact ⟨rfl, hc'⟩
    · rintro ⟨rfl, hc⟩
      exact ⟨c, hc, rfl⟩
  have hfold : ∀ rewritten : List (Text × Json),
      List.Forall₂ (fun e e' => e'.1 = mapId ids e.1 ∧ rewriteComponent ids e.2 = some e'.2)
        components rewritten → rewritten.foldl (fun d e => put e.1 e.2 d) [] = rewritten := by
    intro rewritten hall
    have hmap : rewritten.map Prod.fst = (components.map Prod.fst).map (mapId ids) := by
      clear hkeys
      induction hall with
      | nil => rfl
      | cons h _ ih => rw [List.map_cons, h.1, ih, List.map_cons, List.map_cons]
    exact foldl_put [] rewritten (hmap ▸ hkeys)
  rw [rewriteComponents, Option.map_eq_some_iff]
  simp only [mapM_eq_some_iff, hentry]
  constructor
  · rintro ⟨rewritten, hall, rfl⟩
    rw [hfold rewritten hall]
    exact hall
  · exact fun hall => ⟨components', hall, hfold components' hall⟩

theorem keys_of_forall₂ {components components' : List (Text × Json)}
    {R : Text × Json → Text × Json → Prop} (hR : ∀ e e', R e e' → e'.1 = mapId ids e.1)
    (h : List.Forall₂ R components components') :
    components'.map Prod.fst = (components.map Prod.fst).map (mapId ids) := by
  induction h with
  | nil => rfl
  | cons hhead _ ih => rw [List.map_cons, hR _ _ hhead, ih, List.map_cons, List.map_cons]

section Workflow

variable {entries entries' components components' : List (Text × Json)}

theorem normalizeChunkerDsl_eq (h : look "components".toList entries = some (.dict components)) :
    normalizeChunkerDsl (.dict entries) =
      (rewriteComponents (components.map Prod.fst) components).bind fun components' =>
        (mapAllM (restRewrites (components.map Prod.fst))
          (put "components".toList (.dict components') entries)).map .dict := by
  rw [normalizeChunkerDsl]
  dsimp only
  rw [h]
  dsimp only [bind]
  refine Option.bind_congr fun components' _ => ?_
  cases mapAllM (restRewrites (components.map Prod.fst))
    (put "components".toList (.dict components') entries) <;> rfl

theorem components_not_mem (ids : List Text) :
    "components".toList ∉ (restRewrites ids).map Prod.fst := by
  change "components".toList ∉ ["path".toList, "graph".toList, "history".toList,
    "messages".toList, "reference".toList]
  decide

/-- What stands beside the components afterwards. -/
theorem look_rest (h : mapAllM (restRewrites ids)
    (put "components".toList (.dict components') entries) = some entries') :
    look "components".toList entries' = some (.dict components') ∧
      ∀ f ∈ restRewrites ids, (look f.1 entries).bind f.2 = look f.1 entries' := by
  obtain ⟨hself, hothers⟩ := look_of_mapAllM (nodup_restRewrites ids) h
  refine ⟨(hothers _ (components_not_mem ids)).trans look_put_self, fun f hf => ?_⟩
  have hne : f.1 ≠ "components".toList := fun heq =>
    components_not_mem ids (heq ▸ List.mem_map_of_mem hf)
  rw [← hself f hf, look_put_ne hne]

/-- Migrating once more changes nothing. -/
theorem normalizeChunkerDsl_again
    (hkeys : (ids.map (mapId ids)).Nodup) (hids : components.map Prod.fst = ids)
    (hcomponents : List.Forall₂
      (fun e e' => e'.1 = mapId ids e.1 ∧ rewriteComponent ids e.2 = some e'.2)
        components components')
    (hrest : mapAllM (restRewrites ids)
      (put "components".toList (.dict components') entries) = some entries') :
    normalizeChunkerDsl (.dict entries') = some (.dict entries') := by
  obtain ⟨hlook, hself⟩ := look_rest hrest
  have hkeys' : components'.map Prod.fst = ids.map (mapId ids) := by
    rw [keys_of_forall₂ (fun _ _ h => h.1) hcomponents, hids]
  have hsettled : Settled (components'.map Prod.fst) := hkeys' ▸ settled_map_mapId ids
  have hsame : rewriteComponents (components'.map Prod.fst) components' = some components' := by
    have hmap : (components'.map Prod.fst).map (mapId (components'.map Prod.fst)) =
        components'.map Prod.fst :=
      (List.map_congr_left fun x _ => hsettled x).trans (List.map_id _)
    refine (rewriteComponents_eq_some_iff (by rw [hmap, hkeys']; exact hkeys)).mpr ?_
    refine List.forall₂_same.mpr fun e' he' => ⟨(hsettled _).symm, ?_⟩
    obtain ⟨e, _, hboth⟩ := exists_of_forall₂ hcomponents he'
    exact rewriteComponent_again hsettled hboth.2
  have hrest' : mapAllM (restRewrites (components'.map Prod.fst)) entries' = some entries' := by
    refine mapAllM_eq_self fun f hf v hv => ?_
    have hcame : ∀ g, (f.1, g) ∈ restRewrites ids → ∃ w, g w = some v := by
      intro g hg
      have hg' := hself _ hg
      rw [hv] at hg'
      obtain ⟨w, _, hw⟩ := Option.bind_eq_some_iff.mp hg'
      exact ⟨w, hw⟩
    simp only [restRewrites, List.mem_cons, List.not_mem_nil, or_false] at hf
    rcases hf with rfl | rfl | rfl | rfl | rfl
    · obtain ⟨w, hw⟩ := hcame (mapIds ids) (by simp [restRewrites])
      exact mapIds_again hsettled hw
    · obtain ⟨w, hw⟩ := hcame (fun v => some (onDict (mapAll (graphRewrites ids)) v))
        (by simp [restRewrites])
      cases hw
      exact congrArg some (onDict_onDict (graphRewrites_again hsettled) w)
    all_goals exact congrArg some (hsettled.rewriteValue_eq v)
  rw [normalizeChunkerDsl_eq hlook, hsame, Option.bind_some, put_of_look hlook, hrest',
    Option.map_some]

/-- An end point of an edge is mapped. -/
theorem edge_kept {key t : Text} {i : ℕ} {graph graph' : Json}
    (hkey : key ∈ ["source".toList, "target".toList])
    (hgraph : graph' = onDict (mapAll (graphRewrites ids)) graph)
    (ht : graph.at [.key "edges".toList, .item i, .key key] = some (.str t)) :
    graph'.at [.key "edges".toList, .item i, .key key] = some (.str (mapId ids t)) := by
  have hend : (key, onText (mapId ids)) ∈ edgeRewrites ids := by
    simp only [List.mem_cons, List.not_mem_nil, or_false] at hkey
    rcases hkey with rfl | rfl
    · exact List.mem_cons_self
    · exact List.mem_cons_of_mem _ List.mem_cons_self
  have hedges : ("edges".toList, onDicts (mapAll (edgeRewrites ids))) ∈ graphRewrites ids :=
    List.mem_cons_of_mem _ List.mem_cons_self
  subst hgraph
  cases graph with
  | dict g =>
      rw [Json.at] at ht
      obtain ⟨edges, hlook, ht⟩ := Option.bind_eq_some_iff.mp ht
      rw [onDict, Json.at, look_mapAll (nodup_graphRewrites ids) hedges, hlook]
      cases edges with
      | list items =>
          rw [Json.at] at ht
          obtain ⟨edge, hitem, ht⟩ := Option.bind_eq_some_iff.mp ht
          rw [Option.map_some, Option.bind_some, onDicts, Json.at, List.getElem?_map, hitem]
          cases edge with
          | dict e =>
              rw [Json.at] at ht
              obtain ⟨v, hv, ht⟩ := Option.bind_eq_some_iff.mp ht
              cases ht
              rw [Option.map_some, Option.bind_some, onDict, Json.at,
                look_mapAll (nodup_edgeRewrites ids) hend, hv]
              rfl
          | null | bool _ | num _ | str _ | list _ => cases ht
      | null | bool _ | num _ | str _ | dict _ => cases ht
  | null | bool _ | num _ | str _ | list _ => cases ht

theorem path_kept {items : List Json} {v : Json} (h : mapIds ids (.list items) = some v) :
    ∃ items', v = .list items' ∧ List.Forall₂ (EntryKept ids) items items' :=
  forall₂_of_mapIds (f := id) (fun _ _ => entryKept_of_atKey)
    (by rw [List.map_id]; exact h)

/-- The migration succeeds, leaves its result as it is, and maps every place that names a component
exactly if what is looked up can be and every reference in a parameter is spelled as it finds it. -/
theorem normalizeChunkerDsl_iff (entries components : List (Text × Json))
    (hlook : look "components".toList entries = some (.dict components))
    (hkeys : (components.map Prod.fst).Nodup)
    (hdistinct : ∀ c ∈ components.map Prod.fst, ∀ d ∈ components.map Prod.fst,
      c ≠ d → renameId c ≠ d) :
    (∃ entries', normalizeChunkerDsl (.dict entries) = some (.dict entries') ∧
        normalizeChunkerDsl (.dict entries') = some (.dict entries') ∧
        Kept (components.map Prod.fst) components entries entries') ↔
      (∀ e ∈ components, LooksUp e.2 ∧ RefsSpelled (components.map Prod.fst) e.2) ∧
        ∀ items, look "path".toList entries = some (.list items) →
          ∀ v ∈ items, v.isKey = true := by
  have hnodup := nodup_map_mapId hkeys hdistinct
  generalize hids : components.map Prod.fst = ids at hkeys hdistinct hnodup ⊢
  have hnormal := normalizeChunkerDsl_eq hlook
  rw [hids] at hnormal
  have hpath : ("path".toList, mapIds ids) ∈ restRewrites ids := List.mem_cons_self
  constructor
  · rintro ⟨entries', hrun, _, hkept⟩
    rw [hnormal] at hrun
    obtain ⟨components', hcomponents, hrest⟩ := Option.bind_eq_some_iff.mp hrun
    obtain ⟨_, hrest, heq⟩ := Option.map_eq_some_iff.mp hrest
    cases heq
    have hall := (rewriteComponents_eq_some_iff (by rw [hids]; exact hnodup)).mp hcomponents
    obtain ⟨hlook', hself⟩ := look_rest hrest
    obtain ⟨components'', hlook'', _, hkept'⟩ := hkept.components
    rw [hlook', Option.some.injEq, Json.dict.injEq] at hlook''
    subst hlook''
    refine ⟨fun e he => ?_, fun items hitems v hv => ?_⟩
    · obtain ⟨e', _, hrewrite, hcomponent⟩ := exists_of_forall₂_left hall hkept' he
      exact ⟨isSome_rewriteComponent.mp (Option.isSome_of_mem hrewrite.2),
        (componentKept_iff hrewrite.2).mp hcomponent.2⟩
    · have hsome := hself _ hpath
      obtain ⟨items', hitems', _⟩ := hkept.path items hitems
      rw [hitems, Option.bind_some, hitems'] at hsome
      exact isSome_mapIds.mp (Option.isSome_of_mem hsome) items rfl v hv
  · rintro ⟨hcomponents, hitems⟩
    have hexists : ∀ e ∈ components, ∃ e' : Text × Json,
        e'.1 = mapId ids e.1 ∧ rewriteComponent ids e.2 = some e'.2 := by
      intro e he
      obtain ⟨c', hc'⟩ := Option.isSome_iff_exists.mp
        (isSome_rewriteComponent.mpr (hcomponents e he).1)
      exact ⟨(mapId ids e.1, c'), rfl, hc'⟩
    obtain ⟨components', hall⟩ := exists_forall₂ hexists
    have hsome : (mapAllM (restRewrites ids)
        (put "components".toList (.dict components') entries)).isSome := by
      rw [isSome_mapAllM (nodup_restRewrites ids)]
      simp only [restRewrites, List.forall_mem_cons]
      refine ⟨fun v hv => ?_, fun _ _ => rfl, fun _ _ => rfl, fun _ _ => rfl, fun _ _ => rfl,
        fun _ hf => absurd hf List.not_mem_nil⟩
      rw [look_put_ne (by decide)] at hv
      exact isSome_mapIds.mpr fun items heq => hitems items (heq ▸ hv)
    obtain ⟨entries', hrest⟩ := Option.isSome_iff_exists.mp hsome
    obtain ⟨hlook', hself⟩ := look_rest hrest
    refine ⟨entries', ?_, normalizeChunkerDsl_again hnodup hids hall hrest, ?_, ?_, ?_⟩
    · rw [hnormal, (rewriteComponents_eq_some_iff (by rw [hids]; exact hnodup)).mpr hall,
        Option.bind_some, hrest, Option.map_some]
    · refine ⟨components', hlook', ?_, ?_⟩
      · rw [keys_of_forall₂ (fun _ _ h => h.1) hall, hids]
        exact hnodup
      · exact forall₂_imp_of_mem hall fun e he e' h =>
          ⟨h.1, (componentKept_iff h.2).mpr (hcomponents e he).2⟩
    · intro items hpathItems
      have hsame := hself _ hpath
      rw [hpathItems, Option.bind_some] at hsame
      have hitem : (mapIds ids (.list items)).isSome :=
        isSome_mapIds.mpr fun items' heq => by
          cases heq
          exact hitems items hpathItems
      obtain ⟨v, hv⟩ := Option.isSome_iff_exists.mp hitem
      obtain ⟨items', rfl, hkept⟩ := path_kept hv
      exact ⟨items', hsame.symm.trans hv, hkept⟩
    · intro i key hkey t ht
      rw [Json.at] at ht
      obtain ⟨graph, hgraph, ht⟩ := Option.bind_eq_some_iff.mp ht
      have hsame := hself ("graph".toList, fun v => some (onDict (mapAll (graphRewrites ids)) v))
        (List.mem_cons_of_mem _ List.mem_cons_self)
      dsimp only at hsame
      rw [hgraph, Option.bind_some] at hsame
      refine ⟨.str (mapId ids t), ?_, entryKept_of_atKey (v := .str t) rfl⟩
      rw [Json.at, ← hsame, Option.bind_some]
      exact edge_kept hkey rfl ht

/-- A splitter, and an agent with a text for a parameter. -/
def splitterComponents (ref : Text) : List (Text × Json) :=
  [("Splitter:a".toList, .dict []),
    ("Agent:b".toList, .dict [("obj".toList, .dict [("params".toList, .str ref)])])]

def splitterDsl (ref : Text) : List (Text × Json) :=
  [("components".toList, .dict (splitterComponents ref))]

theorem at_splitterComponents {ref t : Text} {e : Text × Json} {place : List Step}
    (he : e ∈ splitterComponents ref)
    (ht : e.2.at (.key "obj".toList :: .key "params".toList :: place) = some (.str t)) :
    t = ref := by
  simp only [splitterComponents, List.mem_cons, List.not_mem_nil, or_false] at he
  rcases he with rfl | rfl
  · cases ht
  · change (Json.str ref).at place = some (.str t) at ht
    cases place with
    | nil =>
        cases ht
        rfl
    | cons step place => cases step <;> cases ht

/-- A reference in braces is found. -/
theorem normalizeChunkerDsl_braced :
    ∃ entries', normalizeChunkerDsl (.dict (splitterDsl "{Splitter:a@chunks}".toList)) =
        some (.dict entries') ∧
      normalizeChunkerDsl (.dict entries') = some (.dict entries') ∧
      Kept ((splitterComponents "{Splitter:a@chunks}".toList).map Prod.fst)
        (splitterComponents "{Splitter:a@chunks}".toList)
        (splitterDsl "{Splitter:a@chunks}".toList) entries' := by
  refine (normalizeChunkerDsl_iff (splitterDsl "{Splitter:a@chunks}".toList)
    (splitterComponents "{Splitter:a@chunks}".toList) rfl (by decide) (by decide)).mpr
      ⟨fun e he => ⟨?_, fun place t ht c name href hc => ?_⟩, fun items h => by cases h⟩
  · simp only [splitterComponents, List.mem_cons, List.not_mem_nil, or_false] at he
    rcases he with rfl | rfl
    · exact ⟨fun _ _ _ h => (by cases h), fun _ h => by cases h⟩
    · refine ⟨fun key hkey items h => ?_, fun v h => ?_⟩
      · simp only [List.mem_cons, List.not_mem_nil, or_false] at hkey
        rcases hkey with rfl | rfl <;> cases h
      · cases h
  · obtain rfl := at_splitterComponents he ht
    have hval : variableRef "{Splitter:a@chunks}".toList =
        some ("Splitter:a".toList, "chunks".toList) := by decide
    rw [hval, Option.some.injEq, Prod.mk.injEq] at href
    rw [← href.1, Spelled, if_neg (by decide)]
    exact .inl (by decide)

/-- The same reference without braces names the old id afterwards. -/
theorem normalizeChunkerDsl_bare :
    ¬ ∃ entries', normalizeChunkerDsl (.dict (splitterDsl "Splitter:a@chunks".toList)) =
        some (.dict entries') ∧
      normalizeChunkerDsl (.dict entries') = some (.dict entries') ∧
      Kept ((splitterComponents "Splitter:a@chunks".toList).map Prod.fst)
        (splitterComponents "Splitter:a@chunks".toList)
        (splitterDsl "Splitter:a@chunks".toList) entries' := by
  rintro ⟨entries', hrun, _, hkept⟩
  cases hrun
  obtain ⟨components', hlook, _, hall⟩ := hkept.components
  cases hlook
  obtain ⟨t', ht', hrefs, _⟩ := (List.forall₂_cons.mp (List.forall₂_cons.mp hall).2).1.2.params
    [] "Splitter:a@chunks".toList rfl
  cases ht'
  have hnew := hrefs "Splitter:a".toList "chunks".toList (by decide) (by decide)
  revert hnew
  decide

end Workflow

end RagFlow.Migration
