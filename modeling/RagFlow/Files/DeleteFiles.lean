/-
# Deleting files

`delete_files` goes through the given ids one at a time: it checks the entry of an id and
deletes it, a folder with all that is below it, before it checks the next. A failure comes
after what was deleted for the ids before it. An entry of the knowledge base is spared where
its own id is given, with all below it, and deleted where it is below a folder that is.
-/

import RagFlow.Math.Subtree
import Mathlib.Data.List.Nodup

namespace RagFlow.Files

open RagFlow.Math

/-! ## The file tree -/

/-- What `delete_files` reads of a row of the table `file`. -/
structure FileRow where
  id : String
  parentId : String
  tenantId : String
  type : String
  sourceType : String
deriving DecidableEq

/-- `FileSource.KNOWLEDGEBASE`. -/
def knowledgebase : String := "knowledgebase"

/-- `FileType.FOLDER`. -/
def folder : String := "folder"

/-- `c` is in the folder `p`; the root folder is its own parent. -/
def FileRow.IsIn (c p : FileRow) : Prop := c.parentId = p.id ∧ c.id ≠ p.id

instance (c p : FileRow) : Decidable (c.IsIn p) := inferInstanceAs (Decidable (_ ∧ _))

/-- Rows that make up a tree: ids are primary keys, what contains an entry is a folder, and
`height` goes down from a folder to what is in it. -/
structure FileTree where
  rows : List FileRow
  nodup : (rows.map (·.id)).Nodup
  isFolder : ∀ c ∈ rows, ∀ p ∈ rows, c.IsIn p → p.type = folder
  height : String → ℕ
  height_lt : ∀ c ∈ rows, c.id ≠ c.parentId → height c.id < height c.parentId

/-- The rows of a tree that are still in the table. -/
structure FileTable (t : FileTree) where
  rows : List FileRow
  sublist : rows.Sublist t.rows

namespace FileTable

variable {t : FileTree}

def all (t : FileTree) : FileTable t := ⟨t.rows, .refl _⟩

/-- `FileService.get_by_id`. -/
def getById (s : FileTable t) (fileId : String) : Option FileRow :=
  s.rows.find? (·.id = fileId)

/-- `FileService.list_all_files_by_parent_id`. -/
def listAllFilesByParentId (s : FileTable t) (parentId : String) : List FileRow :=
  s.rows.filter fun c => c.parentId = parentId ∧ c.id ≠ parentId

/-- `FileService.delete`. -/
def delete (s : FileTable t) (file : FileRow) : FileTable t :=
  ⟨s.rows.filter (·.id ≠ file.id), List.filter_sublist.trans s.sublist⟩

/-- `_delete_single_file`, as far as the rows of the table are concerned: the object in the
storage and the documents of the file go with it. -/
def deleteSingleFile (s : FileTable t) (file : FileRow) : FileTable t := s.delete file

theorem height_lt_of_mem {s : FileTable t} {c : FileRow} {parentId : String}
    (hc : c ∈ s.listAllFilesByParentId parentId) : t.height c.id < t.height parentId := by
  simp only [listAllFilesByParentId, List.mem_filter, decide_eq_true_eq] at hc
  obtain ⟨hmem, hparent, hne⟩ := hc
  rw [← hparent]
  exact t.height_lt c (s.sublist.subset hmem) (by rwa [hparent])

/-- `_delete_folder_recursive`. -/
def deleteFolderRecursive (s : FileTable t) (file : FileRow) : FileTable t :=
  ((s.listAllFilesByParentId file.id).attach.foldl (fun s c =>
    if c.1.type = folder then deleteFolderRecursive s c.1 else s.deleteSingleFile c.1)
    s).delete file
termination_by t.height file.id
decreasing_by exact height_lt_of_mem c.2

/-- The checks of an id. -/
def check (permitted : List FileRow → FileRow → Bool) (s : FileTable t) (fileId : String) :
    Except String FileRow :=
  match s.getById fileId with
  | none => .error "File or Folder not found!"
  | some file =>
      if file.tenantId = "" then .error "Tenant not found!"
      else if !permitted s.rows file then .error "No authorization."
      else .ok file

/-- What is deleted for an id that passes the checks. -/
def remove (s : FileTable t) (file : FileRow) : FileTable t :=
  if file.sourceType = knowledgebase then s
  else if file.type = folder then s.deleteFolderRecursive file
  else s.deleteSingleFile file

/-- `_rm_sync`. `permitted` is `check_file_team_permission` for the user, which may depend on
the rows that are left. -/
def rmSync (permitted : List FileRow → FileRow → Bool) (s : FileTable t) :
    List String → Except String Unit × FileTable t
  | [] => (.ok (), s)
  | fileId :: fileIds =>
      match s.check permitted fileId with
      | .error e => (.error e, s)
      | .ok file => rmSync permitted (s.remove file) fileIds

end FileTable

def deleteFiles (t : FileTree) (permitted : List FileRow → FileRow → Bool)
    (fileIds : List String) : Except String Unit × FileTable t :=
  (FileTable.all t).rmSync permitted fileIds

/-! ## What is deleted for one id -/

variable {t : FileTree} {permitted : List FileRow → FileRow → Bool} {s : FileTable t}
  {r c f : FileRow}

/-- `c` and `p` are rows of the tree, and `c` is in `p`. -/
def FileTree.Child (t : FileTree) (c p : FileRow) : Prop :=
  c ∈ t.rows ∧ p ∈ t.rows ∧ c.IsIn p

/-- `r` is below an entry with an id in `ids` whose source type is not the knowledge base. -/
def FileTree.IsRemoved (t : FileTree) (ids : List String) (r : FileRow) : Prop :=
  ∃ f ∈ t.rows, f.id ∈ ids ∧ f.sourceType ≠ knowledgebase ∧ Below t.Child r f

theorem FileTree.eq_of_id_eq (t : FileTree) (hr : r ∈ t.rows) (hf : f ∈ t.rows)
    (h : r.id = f.id) : r = f :=
  List.inj_on_of_nodup_map t.nodup hr hf h

namespace FileTable

/-- The rows of a table as a set. -/
def present (s : FileTable t) : Set FileRow := {r | r ∈ s.rows}

theorem mem_present : r ∈ s.present ↔ r ∈ s.rows := Iff.rfl

theorem mem_of_present (h : r ∈ s.present) : r ∈ t.rows := s.sublist.subset h

private theorem eq_of_sublist {l l₁ l₂ : List FileRow} (hnd : l.Nodup) (h₁ : l₁.Sublist l)
    (h₂ : l₂.Sublist l) (h : ∀ a, a ∈ l₁ ↔ a ∈ l₂) : l₁ = l₂ := by
  induction l generalizing l₁ l₂ with
  | nil => rw [List.sublist_nil.mp h₁, List.sublist_nil.mp h₂]
  | cons a l ih =>
    obtain ⟨ha, hnd⟩ := List.nodup_cons.mp hnd
    cases h₁ with
    | cons _ h₁ =>
      cases h₂ with
      | cons _ h₂ => exact ih hnd h₁ h₂ h
      | cons_cons _ h₂ => exact absurd (h₁.subset ((h a).mpr List.mem_cons_self)) ha
    | cons_cons _ h₁ =>
      cases h₂ with
      | cons _ h₂ => exact absurd (h₂.subset ((h a).mp List.mem_cons_self)) ha
      | cons_cons _ h₂ =>
        refine congrArg (a :: ·) (ih hnd h₁ h₂ fun b => ?_)
        have hb := h b
        rw [List.mem_cons, List.mem_cons] at hb
        constructor
        · intro hmem
          refine (hb.mp (.inr hmem)).resolve_left ?_
          rintro rfl
          exact ha (h₁.subset hmem)
        · intro hmem
          refine (hb.mpr (.inr hmem)).resolve_left ?_
          rintro rfl
          exact ha (h₂.subset hmem)

theorem ext_present {s s' : FileTable t} (h : ∀ r, r ∈ s.present ↔ r ∈ s'.present) : s = s' := by
  obtain ⟨rows, hsub⟩ := s
  obtain ⟨rows', hsub'⟩ := s'
  have hrows : rows = rows' :=
    eq_of_sublist (List.Nodup.of_map _ t.nodup) hsub hsub' h
  subst hrows
  rfl

theorem mem_present_delete (hs : f ∈ t.rows) :
    r ∈ (s.delete f).present ↔ r ∈ s.present ∧ r ≠ f := by
  simp only [present, delete, Set.mem_ofPred_eq, List.mem_filter, decide_eq_true_eq]
  refine and_congr_right fun hr => not_congr ⟨t.eq_of_id_eq (s.sublist.subset hr) hs, ?_⟩
  rintro rfl
  rfl

theorem mem_listAllFilesByParentId (hf : f ∈ t.rows) :
    c ∈ s.listAllFilesByParentId f.id ↔ c ∈ s.present ∧ t.Child c f := by
  simp only [listAllFilesByParentId, List.mem_filter, decide_eq_true_eq, present,
    Set.mem_ofPred_eq, FileTree.Child, FileRow.IsIn]
  exact ⟨fun h => ⟨h.1, s.sublist.subset h.1, hf, h.2⟩, fun h => ⟨h.1, h.2.2.2⟩⟩

/-- A file has nothing below it. -/
theorem present_deleteSingleFile (hf : f ∈ t.rows) (htype : f.type ≠ folder) :
    (s.deleteSingleFile f).present = withoutBelow t.Child s.present f := by
  ext r
  rw [deleteSingleFile, mem_present_delete hf]
  have hchild : ∀ c, ¬ t.Child c f := fun c hc => htype (t.isFolder c hc.1 f hc.2.1 hc.2.2)
  rw [withoutBelow, Set.mem_ofPred_eq, below_iff_eq hchild]

/-- The loop over what is in a folder takes out one sub-tree after the other, if the
recursion does so for a folder among them. -/
theorem present_foldl {cs : List FileRow} (hs : Rooted t.Child s.present)
    (hcs : ∀ c ∈ cs, c ∈ t.rows)
    (ih : ∀ c ∈ cs, ∀ s : FileTable t, Rooted t.Child s.present →
      (s.deleteFolderRecursive c).present = withoutBelow t.Child s.present c) :
    (cs.foldl (fun s c =>
      if c.type = folder then deleteFolderRecursive s c else s.deleteSingleFile c) s).present =
      cs.foldl (withoutBelow t.Child) s.present := by
  induction cs generalizing s with
  | nil => rfl
  | cons c cs ihcs =>
    have hstep : (if c.type = folder then deleteFolderRecursive s c
        else s.deleteSingleFile c).present = withoutBelow t.Child s.present c := by
      split
      · exact ih c List.mem_cons_self s hs
      · exact present_deleteSingleFile (hcs c List.mem_cons_self) ‹_›
    rw [List.foldl_cons, List.foldl_cons, ← hstep]
    refine ihcs ?_ (fun c hc => hcs c (List.mem_cons_of_mem _ hc))
      fun c hc => ih c (List.mem_cons_of_mem _ hc)
    rw [hstep]
    exact hs.withoutBelow c

/-- `_delete_folder_recursive` deletes the folder with all that is below it. -/
theorem present_deleteFolderRecursive {s : FileTable t} {f : FileRow}
    (hs : Rooted t.Child s.present) (hf : f ∈ t.rows) :
    (s.deleteFolderRecursive f).present = withoutBelow t.Child s.present f := by
  have hlist : ∀ c ∈ s.listAllFilesByParentId f.id, c ∈ t.rows :=
    fun c hc => mem_of_present ((mem_listAllFilesByParentId hf).mp hc).1
  have hfold : ((s.listAllFilesByParentId f.id).attach.foldl (fun s c =>
      if c.1.type = folder then deleteFolderRecursive s c.1 else s.deleteSingleFile c.1)
      s).present = (s.listAllFilesByParentId f.id).foldl (withoutBelow t.Child) s.present := by
    have hattach := @List.foldl_attach _ _ (s.listAllFilesByParentId f.id)
      (fun s c => if c.type = folder then deleteFolderRecursive s c else s.deleteSingleFile c) s
    rw [hattach]
    exact present_foldl hs hlist fun c hc s' hs' =>
      have := height_lt_of_mem hc
      present_deleteFolderRecursive hs' (hlist c hc)
  ext r
  rw [deleteFolderRecursive, mem_present_delete hf, hfold,
    hs.mem_withoutBelow_iff fun c => mem_listAllFilesByParentId hf]
termination_by t.height f.id

theorem present_remove (hs : Rooted t.Child s.present) (hf : f ∈ t.rows)
    (hkb : f.sourceType ≠ knowledgebase) :
    (s.remove f).present = withoutBelow t.Child s.present f := by
  rw [remove, if_neg hkb]
  split
  · exact present_deleteFolderRecursive hs hf
  · exact present_deleteSingleFile hf ‹_›

/-! ## What is deleted for all ids -/

open Classical in
/-- The rows that are left once the ids before an id have been gone through. -/
noncomputable def left (t : FileTree) (ids : List String) : FileTable t :=
  ⟨t.rows.filter fun r => ¬ t.IsRemoved ids r, List.filter_sublist⟩

theorem mem_present_left {ids : List String} :
    r ∈ (left t ids).present ↔ r ∈ t.rows ∧ ¬ t.IsRemoved ids r := by
  simp [present, left]

theorem left_nil : left t [] = all t := by
  refine ext_present fun r => ?_
  rw [mem_present_left]
  simp [present, all, FileTree.IsRemoved]

theorem rooted_left (ids : List String) : Rooted t.Child (left t ids).present := by
  intro r hr p hp
  rw [mem_present_left] at hr ⊢
  refine ⟨hp.2.1, fun ⟨f, hf, hid, hkb, hb⟩ => hr.2 ⟨f, hf, hid, hkb, ?_⟩⟩
  exact Relation.ReflTransGen.head hp hb

/-- An id that passes the checks is that of a row that is left. -/
theorem mem_of_check {id : String} (h : s.check permitted id = .ok f) :
    f ∈ s.present ∧ f.id = id := by
  unfold check at h
  split at h
  · cases h
  · rename_i file hget
    have hfile : file = f := by
      split at h
      · cases h
      · split at h
        · cases h
        · exact Except.ok.inj h
    subst hfile
    exact ⟨List.mem_of_find?_eq_some hget, by simpa using List.find?_some hget⟩

/-- Going through one more id. -/
theorem remove_left {ids : List String} {id : String}
    (h : (left t ids).check permitted id = .ok f) :
    (left t ids).remove f = left t (ids ++ [id]) := by
  obtain ⟨hf, rfl⟩ := mem_of_check h
  have hfrows := mem_of_present hf
  have hgone : ∀ r, t.IsRemoved (ids ++ [f.id]) r ↔
      t.IsRemoved ids r ∨ f.sourceType ≠ knowledgebase ∧ Below t.Child r f := by
    intro r
    constructor
    · rintro ⟨g, hg, hid, hkb, hb⟩
      rcases List.mem_append.mp hid with hid | hid
      · exact .inl ⟨g, hg, hid, hkb, hb⟩
      · obtain rfl := t.eq_of_id_eq hg hfrows (List.mem_singleton.mp hid)
        exact .inr ⟨hkb, hb⟩
    · rintro (⟨g, hg, hid, hkb, hb⟩ | ⟨hkb, hb⟩)
      · exact ⟨g, hg, List.mem_append_left _ hid, hkb, hb⟩
      · exact ⟨f, hfrows, by simp, hkb, hb⟩
  refine ext_present fun r => ?_
  rw [mem_present_left, hgone, not_or, ← and_assoc, ← mem_present_left]
  by_cases hkb : f.sourceType = knowledgebase
  · simp [remove, hkb]
  · rw [present_remove (rooted_left ids) hfrows hkb]
    simp [withoutBelow, hkb]

/-- Every id of the list passes the checks at its turn, when those before it, `ids` first, have
been gone through. -/
def EachPasses (permitted : List FileRow → FileRow → Bool) (t : FileTree) :
    List String → List String → Prop
  | _, [] => True
  | ids, id :: rest =>
      (∃ f, (left t ids).check permitted id = .ok f) ∧ EachPasses permitted t (ids ++ [id]) rest

/-- `id` is the first that does not pass, with the ids `before` in front of it. -/
def FailsAt (permitted : List FileRow → FileRow → Bool) (t : FileTree)
    (fileIds before : List String) (e : String) : Prop :=
  ∃ id after, fileIds = before ++ id :: after ∧ EachPasses permitted t [] before ∧
    (left t before).check permitted id = .error e

/-- The run up to an id. -/
theorem rmSync_append {ids before : List String} (after : List String)
    (h : EachPasses permitted t ids before) :
    (left t ids).rmSync permitted (before ++ after) =
      (left t (ids ++ before)).rmSync permitted after := by
  induction before generalizing ids with
  | nil => simp
  | cons id before ih =>
    obtain ⟨⟨f, hf⟩, hrest⟩ := h
    rw [List.cons_append, rmSync, hf]
    simp only
    rw [remove_left hf, ih hrest, List.append_assoc, List.singleton_append]

theorem eachPasses_append {ids before : List String} {id : String}
    (h : EachPasses permitted t ids before)
    (hid : ∃ f, (left t (ids ++ before)).check permitted id = .ok f) :
    EachPasses permitted t ids (before ++ [id]) := by
  induction before generalizing ids with
  | nil => exact ⟨by simpa using hid, trivial⟩
  | cons j before ih =>
    refine ⟨h.1, ih h.2 ?_⟩
    simpa using hid

/-- Either all ids pass at their turn or there is a first that does not. -/
theorem eachPasses_or_failsAt (fileIds : List String) :
    EachPasses permitted t [] fileIds ∨ ∃ before e, FailsAt permitted t fileIds before e := by
  suffices h : ∀ after before, EachPasses permitted t [] before →
      fileIds = before ++ after → EachPasses permitted t [] fileIds ∨
        ∃ before e, FailsAt permitted t fileIds before e from h fileIds [] trivial rfl
  intro after
  induction after with
  | nil =>
    intro before h heq
    rw [List.append_nil] at heq
    exact .inl (heq ▸ h)
  | cons id after ih =>
    intro before h heq
    cases hcheck : (left t before).check permitted id with
    | error e => exact .inr ⟨before, e, id, after, heq, h, hcheck⟩
    | ok f =>
      refine ih (before ++ [id]) (eachPasses_append h ⟨f, hcheck⟩) ?_
      rw [heq, List.append_assoc, List.singleton_append]

end FileTable

open FileTable

variable {fileIds before : List String} {e : String}

theorem deleteFiles_of_eachPasses (h : EachPasses permitted t [] fileIds) :
    deleteFiles t permitted fileIds = (.ok (), left t fileIds) := by
  have hrun := rmSync_append [] h
  rw [List.append_nil, left_nil] at hrun
  rw [deleteFiles, hrun, rmSync, List.nil_append]

theorem deleteFiles_of_failsAt (h : FailsAt permitted t fileIds before e) :
    deleteFiles t permitted fileIds = (.error e, left t before) := by
  obtain ⟨id, after, rfl, hbefore, hid⟩ := h
  have hrun := rmSync_append (id :: after) hbefore
  rw [left_nil, List.nil_append] at hrun
  rw [deleteFiles, hrun, rmSync, hid]

/-! ## All or nothing -/

/-- A failure deletes nothing; what a success deletes are the entries in the sub-trees of the
given ids, but for those of the knowledge base; none of those is deleted. -/
structure AllOrNothing (t : FileTree) (fileIds : List String)
    (result : Except String Unit × FileTable t) : Prop where
  failure : ∀ e, result.1 = .error e → result.2.rows = t.rows
  success : result.1 = .ok () → ∀ r ∈ t.rows, r ∉ result.2.rows ↔
    r.sourceType ≠ knowledgebase ∧ ∃ f ∈ t.rows, f.id ∈ fileIds ∧ Below t.Child r f
  dataset : ∀ r ∈ t.rows, r.sourceType = knowledgebase → r ∈ result.2.rows

/-- The ids before the first that fails are those of entries of the knowledge base; or all ids
pass, those of other entries have no entry of the knowledge base below them, and another entry
below a given one of the knowledge base is also below a given one that is not. -/
def Settles (permitted : List FileRow → FileRow → Bool) (t : FileTree) (fileIds : List String) :
    Prop :=
  (∃ before e, FailsAt permitted t fileIds before e ∧
    ∀ f ∈ t.rows, f.id ∈ before → f.sourceType = knowledgebase) ∨
  EachPasses permitted t [] fileIds ∧
    (∀ r ∈ t.rows, t.IsRemoved fileIds r → r.sourceType ≠ knowledgebase) ∧
    ∀ f ∈ t.rows, f.id ∈ fileIds → f.sourceType = knowledgebase → ∀ r ∈ t.rows,
      Below t.Child r f → r.sourceType ≠ knowledgebase → t.IsRemoved fileIds r

theorem rows_left_eq (h : ∀ f ∈ t.rows, f.id ∈ before → f.sourceType = knowledgebase) :
    (left t before).rows = t.rows := by
  have hleft : left t before = all t := ext_present fun r => by
    rw [mem_present_left]
    refine ⟨fun hr => hr.1, fun hr => ⟨hr, ?_⟩⟩
    rintro ⟨f, hf, hid, hkb, -⟩
    exact hkb (h f hf hid)
  rw [hleft, all]

theorem mem_rows_left (hr : r ∈ t.rows) {ids : List String} :
    r ∈ (left t ids).rows ↔ ¬ t.IsRemoved ids r := by
  rw [← mem_present, mem_present_left]
  exact and_iff_right hr

theorem allOrNothing_of_settles (h : Settles permitted t fileIds) :
    AllOrNothing t fileIds (deleteFiles t permitted fileIds) := by
  rcases h with ⟨before, e, hfail, hkb⟩ | ⟨hpass, hspared, hcovered⟩
  · rw [deleteFiles_of_failsAt hfail]
    have hrows := rows_left_eq hkb
    refine ⟨fun _ _ => hrows, fun h => (by cases h), fun r hr _ => ?_⟩
    rw [hrows]
    exact hr
  · rw [deleteFiles_of_eachPasses hpass]
    refine ⟨fun _ h => (by cases h), fun _ r hr => ?_, fun r hr hkb => ?_⟩
    · rw [mem_rows_left hr, not_not]
      constructor
      · intro hremoved
        obtain ⟨f, hf, hid, -, hb⟩ := id hremoved
        exact ⟨hspared r hr hremoved, f, hf, hid, hb⟩
      · rintro ⟨hne, f, hf, hid, hb⟩
        by_cases hkb : f.sourceType = knowledgebase
        · exact hcovered f hf hid hkb r hr hb hne
        · exact ⟨f, hf, hid, hkb, hb⟩
    · rw [mem_rows_left hr]
      exact fun hremoved => hspared r hr hremoved hkb

theorem settles_of_allOrNothing (h : AllOrNothing t fileIds (deleteFiles t permitted fileIds)) :
    Settles permitted t fileIds := by
  rcases @eachPasses_or_failsAt t permitted fileIds with
    hpass | ⟨before, e, hfail⟩
  · rw [deleteFiles_of_eachPasses hpass] at h
    refine .inr ⟨hpass, fun r hr hremoved hkb => ?_, fun f hf hid _ r hr hb hne => ?_⟩
    · exact (mem_rows_left hr).mp (h.dataset r hr hkb) hremoved
    · have hgone := (h.success rfl r hr).mpr ⟨hne, f, hf, hid, hb⟩
      rwa [mem_rows_left hr, not_not] at hgone
  · rw [deleteFiles_of_failsAt hfail] at h
    refine .inl ⟨before, e, hfail, fun f hf hid => ?_⟩
    by_contra hkb
    have hleft : f ∈ (left t before).rows := by
      rw [h.failure e rfl]
      exact hf
    exact (mem_rows_left hf).mp hleft ⟨f, hf, hid, hkb, .refl f⟩

theorem allOrNothing_deleteFiles_iff (t : FileTree) (permitted : List FileRow → FileRow → Bool)
    (fileIds : List String) :
    AllOrNothing t fileIds (deleteFiles t permitted fileIds) ↔ Settles permitted t fileIds :=
  ⟨settles_of_allOrNothing, allOrNothing_of_settles⟩

/-- A folder of a user with one file. -/
def exampleTree : FileTree where
  rows := [⟨"docs", "docs", "user", folder, ""⟩, ⟨"a", "docs", "user", "pdf", ""⟩]
  nodup := by decide
  isFolder := by decide
  height := fun id => if id = "docs" then 1 else 0
  height_lt := by decide

/-- The second id is not found when the file of the first has been deleted. -/
theorem deleted_before_failure :
    ¬ AllOrNothing exampleTree ["a", "b"]
      (deleteFiles exampleTree (fun _ _ => true) ["a", "b"]) := by
  intro h
  have hrows := h.failure "File or Folder not found!" (by decide)
  exact absurd hrows (by decide)

end RagFlow.Files
