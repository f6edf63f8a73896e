/-
# The versions of an agent

Saving an agent records a snapshot of its DSL. A save of the DSL that the latest version has
goes to that version, unless it is released and the save is not; anything else becomes a new
version. Afterwards only the newest versions that are not released are kept. Versions made at
the same time are in any order for the database.
-/

import Mathlib.Data.List.Nodup
import Mathlib.Data.List.Perm.Basic
import Mathlib.Logic.Relation

namespace RagFlow.Agent.Versions

universe u

/-- A row of `user_canvas_version`. -/
structure Version (D : Type u) where
  id : String
  userCanvasId : String
  title : Option String
  description : Option String
  release : Bool
  dsl : D
  createTime : ℕ

/-- The arguments of `save_or_replace_latest`. -/
structure SaveRequest (D : Type u) where
  userCanvasId : String
  dsl : D
  title : Option String
  description : Option String
  release : Option Bool

variable {D : Type u}

/-- The row to insert; columns without a value get their default. -/
def SaveRequest.snapshot (request : SaveRequest D) (dsl : D) (id : String) (now : ℕ) :
    Version D where
  id := id
  userCanvasId := request.userCanvasId
  title := request.title
  description := request.description
  release := request.release.getD false
  dsl := dsl
  createTime := now

/-- The version with `update_data`. -/
def Version.refresh (version : Version D) (request : SaveRequest D) (dsl : D) : Version D :=
  { version with
    dsl := dsl
    description := request.description.or version.description
    release := request.release.getD version.release }

def updateById (table : List (Version D)) (id : String) (f : Version D → Version D) :
    List (Version D) :=
  table.map fun version => if version.id = id then f version else version

def deleteByIds (table : List (Version D)) (ids : List String) : List (Version D) :=
  table.filter fun version => version.id ∉ ids

/-- The versions of a canvas that are not released. -/
def unpublished (table : List (Version D)) (userCanvasId : String) : List (Version D) :=
  table.filter fun version => version.userCanvasId = userCanvasId ∧ version.release = false

/-- `delete_all_versions`, where `order` has the unpublished versions with the newest first. -/
def deleteAllVersions (table order : List (Version D)) : List (Version D) :=
  if 20 < order.length then
    deleteByIds table ((order.drop 20).map Version.id)
  else
    table

/-- `insert`, which raises if the id is taken. -/
def insertVersion (table : List (Version D)) (row : Version D) :
    Option (List (Version D) × Option String × Bool) :=
  if row.id ∈ table.map Version.id then
    none
  else
    some (table ++ [row], none, true)

/-- What `save_or_replace_latest` writes before it deletes old versions, and what it returns:
the version that it has updated, and whether there is a new one. Without a result it raises. -/
def writeVersion [DecidableEq D] (normalizeDsl : D → Option D) (request : SaveRequest D)
    (latest : Option (Version D)) (id : String) (now : ℕ) (table : List (Version D)) :
    Option (List (Version D) × Option String × Bool) :=
  match normalizeDsl request.dsl, latest with
  | none, _ => none
  | some dsl, none => insertVersion table (request.snapshot dsl id now)
  | some dsl, some version =>
    match normalizeDsl version.dsl with
    | none => none
    | some latestDsl =>
      if latestDsl = dsl ∧ ¬ (version.release = true ∧ request.release ≠ some true) then
        some (updateById table version.id (·.refresh request dsl), some version.id, false)
      else
        insertVersion table (request.snapshot dsl id now)

/-- The query for the latest version of a canvas. -/
def IsLatest (table : List (Version D)) (userCanvasId : String) :
    Option (Version D) → Prop
  | none => ∀ version ∈ table, version.userCanvasId ≠ userCanvasId
  | some latest => latest ∈ table ∧ latest.userCanvasId = userCanvasId ∧
      ∀ version ∈ table, version.userCanvasId = userCanvasId →
        version.createTime ≤ latest.createTime

/-- `delete_all_versions` on some order of the unpublished versions, newest first. The database
may fail where there are `Faults`. -/
inductive Pruned (Faults : Prop) (userCanvasId : String) (table : List (Version D)) :
    List (Version D) → Prop
  | pruned (order : List (Version D)) (hperm : order.Perm (unpublished table userCanvasId))
      (horder : order.Pairwise fun newer older => older.createTime ≤ newer.createTime) :
      Pruned Faults userCanvasId table (deleteAllVersions table order)
  | failed (hfaults : Faults) : Pruned Faults userCanvasId table table

/-- A call of `save_or_replace_latest`. -/
inductive Save [DecidableEq D] (normalizeDsl : D → Option D) (Faults : Prop)
    (table : List (Version D)) : List (Version D) → Prop
  | raised : Save normalizeDsl Faults table table
  | saved {written table' : List (Version D)} {result : Option String × Bool}
      (request : SaveRequest D) (latest : Option (Version D)) (id : String) (now : ℕ)
      (hlatest : IsLatest table request.userCanvasId latest)
      (hwrite : writeVersion normalizeDsl request latest id now table = some (written, result))
      (hpruned : Pruned Faults request.userCanvasId written table') :
      Save normalizeDsl Faults table table'

section Table

variable {normalizeDsl : D → Option D} {Faults : Prop} {table written table' : List (Version D)}
  {result : Option String × Bool} {version : Version D} {canvas id : String}

theorem insertVersion_eq_some {row : Version D}
    (h : insertVersion table row = some (written, result)) :
    row.id ∉ table.map Version.id ∧ written = table ++ [row] := by
  unfold insertVersion at h
  split_ifs at h with hid
  exact ⟨hid, (Prod.mk.inj (Option.some.inj h)).1.symm⟩

theorem map_id_updateById (f : Version D → Version D) (hf : ∀ v, (f v).id = v.id) :
    (updateById table id f).map Version.id = table.map Version.id := by
  rw [updateById, List.map_map]
  refine List.map_congr_left fun v _ => ?_
  simp only [Function.comp]
  split_ifs <;> simp [hf]

theorem sublist_deleteAllVersions (table order : List (Version D)) :
    (deleteAllVersions table order).Sublist table := by
  unfold deleteAllVersions deleteByIds
  split
  · exact List.filter_sublist
  · exact .refl _

theorem Pruned.sublist (h : Pruned Faults canvas table table') : table'.Sublist table := by
  cases h with
  | pruned order => exact sublist_deleteAllVersions table order
  | failed => exact .refl _

theorem mem_unpublished :
    version ∈ unpublished table canvas ↔
      version ∈ table ∧ version.userCanvasId = canvas ∧ version.release = false := by
  simp [unpublished]

theorem eq_of_id {v w : Version D} (hnodup : (table.map Version.id).Nodup) (hv : v ∈ table)
    (hw : w ∈ table) (hid : v.id = w.id) : v = w :=
  List.inj_on_of_nodup_map hnodup hv hw hid

/-- What is deleted is among the unpublished versions behind the newest ones. -/
theorem mem_drop_of_not_mem {order : List (Version D)} (hnodup : (table.map Version.id).Nodup)
    (hperm : order.Perm (unpublished table canvas)) (hmem : version ∈ table)
    (hgone : version ∉ deleteAllVersions table order) : version ∈ order.drop 20 := by
  unfold deleteAllVersions deleteByIds at hgone
  split_ifs at hgone with hmany
  · simp only [List.mem_filter, hmem, true_and, decide_not, Bool.not_eq_true',
      decide_eq_false_iff_not, not_not] at hgone
    obtain ⟨old, hold, hid⟩ := List.mem_map.mp hgone
    have hin := (mem_unpublished.mp (hperm.subset (List.mem_of_mem_drop hold))).1
    rwa [eq_of_id hnodup hmem hin hid.symm]
  · exact absurd hmem hgone

/-- Only unpublished versions are deleted. -/
theorem Pruned.gone (h : Pruned Faults canvas table table')
    (hnodup : (table.map Version.id).Nodup) (hmem : version ∈ table) (hgone : version ∉ table') :
    version ∈ unpublished table canvas := by
  cases h with
  | failed => exact absurd hmem hgone
  | pruned order hperm =>
      exact hperm.subset (List.mem_of_mem_drop (mem_drop_of_not_mem hnodup hperm hmem hgone))

theorem Pruned.released (h : Pruned Faults canvas table table')
    (hnodup : (table.map Version.id).Nodup) (hmem : version ∈ table)
    (hrelease : version.release = true) : version ∈ table' := by
  by_contra hgone
  have hunpublished := (mem_unpublished.mp (h.gone hnodup hmem hgone)).2.2
  rw [hrelease] at hunpublished
  exact absurd hunpublished (by decide)

/-- The version is still there and released, with its title and time, and its DSL is the same but
for being put into its own normal form. -/
structure Survives (normalizeDsl : D → Option D) (version version' : Version D) : Prop where
  id : version'.id = version.id
  userCanvasId : version'.userCanvasId = version.userCanvasId
  title : version'.title = version.title
  release : version'.release = true
  createTime : version'.createTime = version.createTime
  dsl : Relation.ReflTransGen (fun dsl dsl' => normalizeDsl dsl = some dsl') version.dsl
    version'.dsl

theorem Survives.trans {v v' v'' : Version D} (h : Survives normalizeDsl v v')
    (h' : Survives normalizeDsl v' v'') : Survives normalizeDsl v v'' where
  id := h'.id.trans h.id
  userCanvasId := h'.userCanvasId.trans h.userCanvasId
  title := h'.title.trans h.title
  release := h'.release
  createTime := h'.createTime.trans h.createTime
  dsl := h.dsl.trans h'.dsl

theorem unpublished_deleteByIds (table : List (Version D)) (ids : List String) :
    unpublished (deleteByIds table ids) canvas =
      (unpublished table canvas).filter fun version => version.id ∉ ids := by
  rw [unpublished, unpublished, deleteByIds, List.filter_filter, List.filter_filter]
  exact List.filter_congr fun _ _ => Bool.and_comm _ _

/-- No more than the newest unpublished versions are left. -/
theorem length_unpublished_delete {order : List (Version D)}
    (hperm : order.Perm (unpublished table canvas)) :
    (unpublished (deleteAllVersions table order) canvas).length ≤ 20 := by
  unfold deleteAllVersions
  split_ifs with hmany
  · rw [unpublished_deleteByIds, ← (hperm.filter _).length_eq]
    have hold : (order.drop 20).filter
        (fun version => version.id ∉ (order.drop 20).map Version.id) = [] := by
      rw [List.filter_eq_nil_iff]
      intro version hversion
      simpa only [decide_eq_true_eq, not_not] using List.mem_map_of_mem hversion
    have hsplit : ∀ p : Version D → Bool,
        order.filter p = (order.take 20).filter p ++ (order.drop 20).filter p := fun p => by
      rw [← List.filter_append, List.take_append_drop]
    rw [hsplit, hold, List.append_nil]
    exact Nat.le_trans (List.length_filter_le _ _) (List.length_take_le _ _)
  · rw [← hperm.length_eq]
    omega

/-- What is deleted is not newer than any unpublished version that stays. -/
theorem Pruned.oldest (h : Pruned Faults canvas table table')
    (hnodup : (table.map Version.id).Nodup) {old kept : Version D} (hold : old ∈ table)
    (hgone : old ∉ table') (hkept : kept ∈ unpublished table' canvas) :
    old.createTime ≤ kept.createTime := by
  cases h with
  | failed => exact absurd hold hgone
  | pruned order hperm horder =>
      have hdrop := mem_drop_of_not_mem hnodup hperm hold hgone
      obtain ⟨hstays, hcanvas⟩ := mem_unpublished.mp hkept
      have hmem := (sublist_deleteAllVersions table order).subset hstays
      have horderMem : kept ∈ order := hperm.mem_iff.mpr (mem_unpublished.mpr ⟨hmem, hcanvas⟩)
      rw [← List.take_append_drop 20 order, List.mem_append] at horderMem
      rw [← List.take_append_drop 20 order, List.pairwise_append] at horder
      rcases horderMem with hnew | hlate
      · exact horder.2.2 kept hnew old hdrop
      · unfold deleteAllVersions deleteByIds at hstays
        split_ifs at hstays with hmany
        · have hid := (List.mem_filter.mp hstays).2
          simp only [decide_eq_true_eq] at hid
          exact absurd (List.mem_map_of_mem hlate) hid
        · rw [List.drop_eq_nil_of_le (by omega)] at hlate
          simp at hlate

end Table

section Steps

variable [DecidableEq D] {normalizeDsl : D → Option D} {request : SaveRequest D}
  {latest : Option (Version D)} {id : String} {now : ℕ} {Faults : Prop}
  {table written table' : List (Version D)} {result : Option String × Bool}
  {version : Version D} {canvas : String}

/-- The two ways to write. -/
theorem writeVersion_cases
    (h : writeVersion normalizeDsl request latest id now table = some (written, result)) :
    (∃ dsl, normalizeDsl request.dsl = some dsl ∧ id ∉ table.map Version.id ∧
      written = table ++ [request.snapshot dsl id now]) ∨
    ∃ version dsl, latest = some version ∧ normalizeDsl version.dsl = some dsl ∧
      (version.release = true → request.release = some true) ∧
      written = updateById table version.id (·.refresh request dsl) := by
  unfold writeVersion at h
  split at h
  · cases h
  · next dsl hdsl => exact .inl ⟨dsl, hdsl, insertVersion_eq_some h⟩
  · next dsl version hdsl =>
      split at h
      · cases h
      · next latestDsl hlatest =>
          split_ifs at h with hrefresh
          · obtain ⟨rfl, hrelease⟩ := hrefresh
            refine .inr ⟨version, latestDsl, rfl, hlatest, fun hreleased => ?_,
              (Prod.mk.inj (Option.some.inj h)).1.symm⟩
            exact not_not.mp fun hnot => hrelease ⟨hreleased, hnot⟩
          · exact .inl ⟨dsl, hdsl, insertVersion_eq_some h⟩

/-- The ids of a table stay distinct. -/
theorem nodup_write (hnodup : (table.map Version.id).Nodup)
    (h : writeVersion normalizeDsl request latest id now table = some (written, result)) :
    (written.map Version.id).Nodup := by
  rcases writeVersion_cases h with ⟨dsl, -, hid, rfl⟩ | ⟨version, dsl, -, -, -, rfl⟩
  · rw [List.map_append]
    exact hnodup.append (List.nodup_singleton _) (by simpa [SaveRequest.snapshot] using hid)
  · rw [map_id_updateById]
    · exact hnodup
    · exact fun v => rfl

theorem Save.nodup (hnodup : (table.map Version.id).Nodup)
    (h : Save normalizeDsl Faults table table') : (table'.map Version.id).Nodup := by
  cases h with
  | raised => exact hnodup
  | saved request latest id now hlatest hwrite hpruned =>
      exact (nodup_write hnodup hwrite).sublist (hpruned.sublist.map _)

theorem survives_write (hnodup : (table.map Version.id).Nodup)
    (hlatest : IsLatest table canvas latest)
    (h : writeVersion normalizeDsl request latest id now table = some (written, result))
    (hmem : version ∈ table) (hrelease : version.release = true) :
    ∃ version' ∈ written, Survives normalizeDsl version version' := by
  have hsame : Survives normalizeDsl version version := ⟨rfl, rfl, rfl, hrelease, rfl, .refl⟩
  rcases writeVersion_cases h with ⟨dsl, -, -, rfl⟩ | ⟨target, dsl, rfl, hdsl, hprotect, rfl⟩
  · exact ⟨version, List.mem_append_left _ hmem, hsame⟩
  · refine ⟨_, List.mem_map_of_mem hmem, ?_⟩
    by_cases hid : version.id = target.id
    · obtain rfl := eq_of_id hnodup hmem hlatest.1 hid
      rw [if_pos rfl]
      exact ⟨rfl, rfl, rfl, by simp [Version.refresh, hprotect hrelease], rfl, .single hdsl⟩
    · rw [if_neg hid]
      exact hsame

theorem Save.survives (hnodup : (table.map Version.id).Nodup)
    (h : Save normalizeDsl Faults table table') (hmem : version ∈ table)
    (hrelease : version.release = true) :
    ∃ version' ∈ table', Survives normalizeDsl version version' := by
  cases h with
  | raised => exact ⟨version, hmem, rfl, rfl, rfl, hrelease, rfl, .refl⟩
  | saved request latest id now hlatest hwrite hpruned =>
      obtain ⟨version', hmem', hsurvives⟩ := survives_write hnodup hlatest hwrite hmem hrelease
      exact ⟨version', hpruned.released (nodup_write hnodup hwrite) hmem' hsurvives.release,
        hsurvives⟩

/-- Once a version is released, no sequence of saves deletes it, takes the release back or puts
another DSL in its place. -/
theorem released_survives (hnodup : (table.map Version.id).Nodup)
    (hrun : Relation.ReflTransGen (Save normalizeDsl Faults) table table')
    (hmem : version ∈ table) (hrelease : version.release = true) :
    ∃ version' ∈ table', Survives normalizeDsl version version' := by
  have hboth : (table'.map Version.id).Nodup ∧
      ∃ version' ∈ table', Survives normalizeDsl version version' := by
    induction hrun with
    | refl => exact ⟨hnodup, version, hmem, rfl, rfl, rfl, hrelease, rfl, .refl⟩
    | tail _ hsave ih =>
        obtain ⟨hids, version', hmem', hsurvives⟩ := ih
        obtain ⟨version'', hmem'', hnext⟩ := hsave.survives hids hmem' hsurvives.release
        exact ⟨hsave.nodup hids, version'', hmem'', hsurvives.trans hnext⟩
  exact hboth.2

/-! ## The number of versions -/

omit [DecidableEq D] in
/-- An update within one canvas leaves the others alone. -/
theorem unpublished_updateById (hnodup : (table.map Version.id).Nodup) {target : Version D}
    (htarget : target ∈ table) (hcanvas : target.userCanvasId ≠ canvas) (request : SaveRequest D)
    (dsl : D) :
    unpublished (updateById table target.id (·.refresh request dsl)) canvas =
      unpublished table canvas := by
  have hkept : ∀ version ∈ table, version.userCanvasId = canvas → version.id ≠ target.id :=
    fun version hmem hversion hid =>
      hcanvas (eq_of_id hnodup hmem htarget hid ▸ hversion)
  rw [unpublished, updateById, List.filter_map]
  have hfilter : table.filter ((fun version => decide
      (version.userCanvasId = canvas ∧ version.release = false)) ∘
        fun version => if version.id = target.id then version.refresh request dsl else version) =
      unpublished table canvas := by
    refine List.filter_congr fun version hmem => ?_
    by_cases hid : version.id = target.id
    · obtain rfl := eq_of_id hnodup hmem htarget hid
      simp [Version.refresh, hcanvas]
    · simp [hid]
  rw [hfilter]
  refine (List.map_congr_left fun version hmem => ?_).trans (List.map_id _)
  obtain ⟨hin, hversion, -⟩ := mem_unpublished.mp hmem
  simp [hkept version hin hversion]

theorem unpublished_write_other (hnodup : (table.map Version.id).Nodup)
    (hlatest : IsLatest table request.userCanvasId latest)
    (h : writeVersion normalizeDsl request latest id now table = some (written, result))
    (hne : request.userCanvasId ≠ canvas) :
    unpublished written canvas = unpublished table canvas := by
  rcases writeVersion_cases h with ⟨dsl, -, -, rfl⟩ | ⟨target, dsl, rfl, -, -, rfl⟩
  · simp [unpublished, SaveRequest.snapshot, hne]
  · exact unpublished_updateById hnodup hlatest.1 (by rwa [hlatest.2.1]) request dsl

/-- At most 20 unpublished versions of each canvas. -/
def Bounded (table : List (Version D)) : Prop :=
  ∀ canvas, (unpublished table canvas).length ≤ 20

theorem Save.bounded (hnodup : (table.map Version.id).Nodup) (hbounded : Bounded table)
    (h : Save normalizeDsl False table table') : Bounded table' := by
  cases h with
  | raised => exact hbounded
  | @saved written _ result request latest id now hlatest hwrite hpruned =>
      intro canvas
      by_cases hcanvas : request.userCanvasId = canvas
      · subst hcanvas
        cases hpruned with
        | failed hfaults => exact hfaults.elim
        | pruned order hperm => exact length_unpublished_delete hperm
      · have hsub : (unpublished table' canvas).Sublist (unpublished written canvas) :=
          hpruned.sublist.filter _
        rw [unpublished_write_other hnodup hlatest hwrite hcanvas] at hsub
        exact Nat.le_trans hsub.length_le (hbounded canvas)

/-- Where the database does not fail, no canvas ever has more than 20 unpublished versions, and a
save deletes unpublished versions of its canvas only, none of them newer than one it keeps. -/
theorem versions_bounded (hrun : Relation.ReflTransGen (Save normalizeDsl False) [] table) :
    Bounded table ∧ ∀ {request : SaveRequest D} {latest id now written result table'},
      IsLatest table request.userCanvasId latest →
      writeVersion normalizeDsl request latest id now table = some (written, result) →
      Pruned False request.userCanvasId written table' →
      ∀ old ∈ written, old ∉ table' → old ∈ unpublished written request.userCanvasId ∧
        ∀ kept ∈ unpublished table' request.userCanvasId, old.createTime ≤ kept.createTime := by
  have hboth : (table.map Version.id).Nodup ∧ Bounded table := by
    induction hrun with
    | refl => exact ⟨.nil, fun _ => Nat.zero_le _⟩
    | tail _ hsave ih => exact ⟨hsave.nodup ih.1, hsave.bounded ih.1 ih.2⟩
  refine ⟨hboth.2, fun _ hwrite hpruned old hold hgone => ?_⟩
  have hnodup := nodup_write hboth.1 hwrite
  exact ⟨hpruned.gone hnodup hold hgone, fun kept hkept =>
    (hpruned.oldest hnodup hold hgone hkept)⟩

end Steps

/-- A released version, and a save of the same DSL that is not released. -/
def published : Version String where
  id := "first"
  userCanvasId := "canvas"
  title := some "tenant_agent"
  description := none
  release := true
  dsl := "dsl"
  createTime := 1

def draft : SaveRequest String where
  userCanvasId := "canvas"
  dsl := "dsl"
  title := none
  description := none
  release := none

theorem save_draft (Faults : Prop) :
    Save some Faults [published] [published, draft.snapshot "dsl" "second" 2] := by
  have hwrite : writeVersion some draft (some published) "second" 2 [published] =
      some ([published, draft.snapshot "dsl" "second" 2], none, true) := rfl
  refine .saved draft (some published) "second" 2 ⟨by simp, rfl, by simp⟩ hwrite ?_
  exact .pruned [draft.snapshot "dsl" "second" 2] (.refl _) (List.pairwise_singleton _ _)

theorem released_survives_draft :
    published ∈ [published] ∧ published.release = true ∧
      ∃ version' ∈ [published, draft.snapshot "dsl" "second" 2],
        Survives some published version' :=
  ⟨by simp, rfl, released_survives (by simp) (.single (save_draft True)) (by simp) rfl⟩

theorem save_first :
    Save some False [] [draft.snapshot "dsl" "first" 1] := by
  have hwrite : writeVersion some draft none "first" 1 [] =
      some ([draft.snapshot "dsl" "first" 1], none, true) := rfl
  refine .saved draft none "first" 1 (by simp [IsLatest]) hwrite ?_
  exact .pruned [draft.snapshot "dsl" "first" 1] (.refl _) (List.pairwise_singleton _ _)

theorem versions_bounded_first : Bounded [draft.snapshot "dsl" "first" 1] :=
  (versions_bounded (.single save_first)).1

end RagFlow.Agent.Versions
