/-
# Migrating once more

After the migration no id changes any more, and where no id changes every part of the workflow is
left as it is.
-/

import RagFlow.Math.Except
import RagFlow.Migration.VariableRef

namespace RagFlow.Migration

open RagFlow.Math

variable {ids : List Text}

/-- No id changes. -/
def Settled (ids : List Text) : Prop := ∀ x, mapId ids x = x

theorem settled_map_mapId (ids : List Text) : Settled (ids.map (mapId ids)) := by
  intro x
  rw [mapId]
  split
  · next hx =>
      obtain ⟨c, hc, rfl⟩ := List.mem_map.mp hx
      rw [mapId_of_mem hc, renameId_renameId]
  · rfl

/-! ## Values -/

theorem rewriteItems_eq (ids : List Text) (items : List Json) :
    rewriteItems ids items = items.map (rewriteValue ids) := by
  induction items with
  | nil => rw [rewriteItems, List.map_nil]
  | cons item items ih => rw [rewriteItems, List.map_cons, ih]

theorem rewriteEntries_eq (ids : List Text) (entries : List (Text × Json)) :
    rewriteEntries ids entries = entries.map fun e => (e.1, rewriteValue ids e.2) := by
  induction entries with
  | nil => rw [rewriteEntries, List.map_nil]
  | cons e entries ih =>
      obtain ⟨key, item⟩ := e
      rw [rewriteEntries, List.map_cons, ih]

mutual

theorem Settled.rewriteValue_eq (h : Settled ids) : ∀ v, rewriteValue ids v = v
  | .null | .bool _ | .num _ => by rw [rewriteValue]
  | .str t => by rw [rewriteValue, rewriteVariableRefs_of_settled h]
  | .list items => by rw [rewriteValue, Settled.rewriteItems_eq h items]
  | .dict entries => by rw [rewriteValue, Settled.rewriteEntries_eq h entries]

theorem Settled.rewriteItems_eq (h : Settled ids) : ∀ items, rewriteItems ids items = items
  | [] => by rw [rewriteItems]
  | item :: items => by
      rw [rewriteItems, Settled.rewriteValue_eq h item, Settled.rewriteItems_eq h items]

theorem Settled.rewriteEntries_eq (h : Settled ids) :
    ∀ entries, rewriteEntries ids entries = entries
  | [] => by rw [rewriteEntries]
  | (key, item) :: entries => by
      rw [rewriteEntries, Settled.rewriteValue_eq h item, Settled.rewriteEntries_eq h entries]

end

theorem onText_onText {f g : Text → Text} (h : ∀ t, g (f t) = f t) (v : Json) :
    onText g (onText f v) = onText f v := by
  cases v with
  | str t => exact congrArg Json.str (h t)
  | null | bool _ | num _ | list _ | dict _ => rfl

theorem onDict_onDict {f g : List (Text × Json) → List (Text × Json)}
    (h : ∀ es, g (f es) = f es) (v : Json) : onDict g (onDict f v) = onDict f v := by
  cases v with
  | dict es => exact congrArg Json.dict (h es)
  | null | bool _ | num _ | str _ | list _ => rfl

theorem onDicts_onDicts {f g : List (Text × Json) → List (Text × Json)}
    (h : ∀ es, g (f es) = f es) (v : Json) : onDicts g (onDicts f v) = onDicts f v := by
  cases v with
  | list items =>
      refine congrArg Json.list ?_
      rw [List.map_map]
      exact List.map_congr_left fun v _ => onDict_onDict h v
  | null | bool _ | num _ | str _ | dict _ => rfl

theorem renameText_renameText (renames : List (Text × Text))
    (h : ∀ e ∈ renames, look e.2 renames = none) (t : Text) :
    renameText renames (renameText renames t) = renameText renames t := by
  rw [renameText, renameText]
  cases hlook : look t renames with
  | none => rw [Option.getD_none, hlook, Option.getD_none]
  | some new => rw [Option.getD_some, h _ (mem_of_look hlook), Option.getD_none]

/-! ## The graph -/

theorem replaceText_self (id t : Text) : replaceText id id t = t := by
  rw [replaceText]
  split
  · next h => simp [h]
  · next h =>
      refine substitute_of_same fun s n r _ hm => ?_
      split at hm
      · next hstart =>
          obtain ⟨rest, rfl⟩ := hstart
          rw [Option.some.injEq, Prod.mk.injEq] at hm
          rw [← hm.1, ← hm.2, Nat.sub_add_cancel (List.length_pos_of_ne_nil h), List.take_left]
      · cases hm

theorem Settled.rewriteEdgeId_eq (h : Settled ids) (t : Text) : rewriteEdgeId ids t = t := by
  rw [rewriteEdgeId]
  generalize ids.mergeSort _ = sorted
  induction sorted with
  | nil => rfl
  | cons id sorted ih => rw [List.foldl_cons, h id, replaceText_self, ih]

theorem nodup_dataRewrites (ids : List Text) : ((dataRewrites ids).map Prod.fst).Nodup := by
  change ["label".toList, "name".toList, "form".toList].Nodup
  decide

theorem nodup_nodeRewrites (ids : List Text) : ((nodeRewrites ids).map Prod.fst).Nodup := by
  change ["id".toList, "parentId".toList, "type".toList, "data".toList].Nodup
  decide

theorem nodup_edgeRewrites (ids : List Text) : ((edgeRewrites ids).map Prod.fst).Nodup := by
  change ["source".toList, "target".toList, "id".toList].Nodup
  decide

theorem nodup_graphRewrites (ids : List Text) : ((graphRewrites ids).map Prod.fst).Nodup := by
  change ["nodes".toList, "edges".toList].Nodup
  decide

theorem nodup_linkRewrites (ids : List Text) : ((linkRewrites ids).map Prod.fst).Nodup := by
  change ["obj".toList, "downstream".toList, "upstream".toList, "parent_id".toList].Nodup
  decide

theorem nodup_restRewrites (ids : List Text) : ((restRewrites ids).map Prod.fst).Nodup := by
  change ["path".toList, "graph".toList, "history".toList, "messages".toList,
    "reference".toList].Nodup
  decide

variable {ids' : List Text}

theorem dataRewrites_again (h : Settled ids') (es : List (Text × Json)) :
    mapAll (dataRewrites ids') (mapAll (dataRewrites ids) es) = mapAll (dataRewrites ids) es := by
  have hname := onText_onText (renameText_renameText componentRenames (by decide))
  exact mapAll_mapAll (nodup_dataRewrites ids) (.cons ⟨rfl, hname⟩ (.cons ⟨rfl, hname⟩
    (.cons ⟨rfl, fun _ => h.rewriteValue_eq _⟩ .nil)))

theorem nodeRewrites_again (h : Settled ids') (es : List (Text × Json)) :
    mapAll (nodeRewrites ids') (mapAll (nodeRewrites ids) es) = mapAll (nodeRewrites ids) es := by
  have hid := onText_onText (f := mapId ids) (g := mapId ids') fun t => h _
  have htype := onText_onText (renameText_renameText nodeTypeRenames (by decide))
  exact mapAll_mapAll (nodup_nodeRewrites ids) (.cons ⟨rfl, hid⟩ (.cons ⟨rfl, hid⟩
    (.cons ⟨rfl, htype⟩ (.cons ⟨rfl, onDict_onDict (dataRewrites_again h)⟩ .nil))))

theorem edgeRewrites_again (h : Settled ids') (es : List (Text × Json)) :
    mapAll (edgeRewrites ids') (mapAll (edgeRewrites ids) es) = mapAll (edgeRewrites ids) es := by
  have hid := onText_onText (f := mapId ids) (g := mapId ids') fun t => h _
  have hedge := onText_onText (f := rewriteEdgeId ids) (g := rewriteEdgeId ids')
    fun t => h.rewriteEdgeId_eq _
  exact mapAll_mapAll (nodup_edgeRewrites ids)
    (.cons ⟨rfl, hid⟩ (.cons ⟨rfl, hid⟩ (.cons ⟨rfl, hedge⟩ .nil)))

theorem graphRewrites_again (h : Settled ids') (es : List (Text × Json)) :
    mapAll (graphRewrites ids') (mapAll (graphRewrites ids) es) = mapAll (graphRewrites ids) es :=
  mapAll_mapAll (nodup_graphRewrites ids) (.cons ⟨rfl, onDicts_onDicts (nodeRewrites_again h)⟩
    (.cons ⟨rfl, onDicts_onDicts (edgeRewrites_again h)⟩ .nil))

/-! ## What may fail -/

/-- The value can be looked up in a dictionary. -/
def Json.isKey : Json → Bool
  | .list _ | .dict _ => false
  | .null | .bool _ | .num _ | .str _ => true

theorem isSome_atKey {f : Text → Text} {v : Json} : (atKey f v).isSome = v.isKey := by
  cases v <;> rfl

theorem atKey_again {f g : Text → Text} (h : ∀ t, g (f t) = f t) {v v' : Json}
    (hv : atKey f v = some v') : atKey g v' = some v' := by
  cases v with
  | str t =>
      cases hv
      exact congrArg (fun t => some (Json.str t)) (h t)
  | list _ | dict _ => cases hv
  | null | bool _ | num _ =>
      cases hv
      rfl

theorem mapIds_again (h : Settled ids') {v v' : Json} (hv : mapIds ids v = some v') :
    mapIds ids' v' = some v' := by
  cases v with
  | list items =>
      obtain ⟨items', hitems, rfl⟩ := Option.map_eq_some_iff.mp hv
      have hsame : ∀ v ∈ items', atKey (mapId ids') v = some (id v) := by
        intro v hv
        obtain ⟨w, _, hw⟩ := exists_of_forall₂ (mapM_eq_some_iff.mp hitems) hv
        exact atKey_again (fun t => h _) hw
      rw [mapIds, mapM_eq_map hsame, List.map_id]
      rfl
  | null | bool _ | num _ | str _ | dict _ =>
      cases hv
      rfl

theorem renameObj_again {v v' : Json} (hv : renameObj v = some v') : renameObj v' = some v' := by
  cases v with
  | dict obj =>
      obtain ⟨name, hname, rfl⟩ := Option.map_eq_some_iff.mp hv
      have hsame := atKey_again (renameText_renameText componentRenames (by decide))
        hname
      rw [renameObj, look_put_self, Option.getD_some, hsame, Option.map_some,
        put_of_look look_put_self]
  | null | bool _ | num _ | str _ | list _ =>
      cases hv
      rfl

/-- A component that has been migrated is left as it is. -/
theorem rewriteComponent_again (h : Settled ids') {c c' : Json}
    (hc : rewriteComponent ids c = some c') : rewriteComponent ids' c' = some c' := by
  rw [rewriteComponent] at hc
  split at hc
  · next entries _ =>
      obtain ⟨entries', hentries, rfl⟩ := Option.map_eq_some_iff.mp hc
      obtain ⟨hlook, _⟩ := look_of_mapAllM (nodup_linkRewrites ids) hentries
      have hsame : mapAllM (linkRewrites ids') entries' = some entries' := by
        refine mapAllM_eq_self fun f hf v hv => ?_
        have hcame : ∀ g, (f.1, g) ∈ linkRewrites ids → ∃ w, g w = some v := by
          intro g hg
          have hself := hlook _ hg
          rw [hv] at hself
          obtain ⟨w, _, hw⟩ := Option.bind_eq_some_iff.mp hself
          exact ⟨w, hw⟩
        simp only [linkRewrites, List.mem_cons, List.not_mem_nil, or_false] at hf
        rcases hf with rfl | rfl | rfl | rfl
        · obtain ⟨w, hw⟩ := hcame renameObj (by simp [linkRewrites])
          exact renameObj_again hw
        · obtain ⟨w, hw⟩ := hcame (mapIds ids) (by simp [linkRewrites])
          exact mapIds_again h hw
        · obtain ⟨w, hw⟩ := hcame (mapIds ids) (by simp [linkRewrites])
          exact mapIds_again h hw
        · exact congrArg some (by cases v <;> first | rfl | exact congrArg Json.str (h _))
      rw [rewriteComponent, h.rewriteValue_eq]
      dsimp only
      rw [hsame, Option.map_some]
  · next other hother =>
      cases hc
      rw [rewriteComponent, h.rewriteValue_eq]
      split
      · next entries hentries =>
          exact absurd hentries (hother entries)
      · rfl

end RagFlow.Migration
