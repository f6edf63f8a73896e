/-
# Merging along a tree of titles

`tree_merge` builds a tree from the lines of a law: a line down to some level opens a node below the
last one of a higher level, and what lies deeper is text of the node that was opened last. Each leaf
then becomes a chunk, together with the titles and texts of all nodes above it, and the text before
the first title is a chunk of its own.

The tree holds the lines in their order, whatever the levels are, and every node lies above some
leaf. So no line is lost and every chunk is in the order of the document. What can fail comes before
that: the levels that occur are looked up in a list which is empty when the filter keeps nothing.
-/

import RagFlow.Chunking.BodySections
import Mathlib.Data.List.Sort

namespace RagFlow.Chunking

open RagFlow.Query (strip)

/-! ## `Node` -/

inductive Node (α : Type)
  | mk (level : ℕ) (texts : List α) (children : List (Node α))

/-- A node on the stack; its children on the stack are not among `children` yet. -/
structure OpenNode (α : Type) where
  level : ℕ
  texts : List α
  children : List (Node α)

section Build

variable {α : Type}

def OpenNode.close (node : OpenNode α) : Node α := .mk node.level node.texts node.children

def OpenNode.addChild (node : OpenNode α) (child : Node α) : OpenNode α :=
  { node with children := node.children ++ [child] }

/-- The inner loop of `build_tree`: nodes are left down to one of a smaller level or the root. -/
def climb (level : ℕ) : OpenNode α → List (OpenNode α) → OpenNode α × List (OpenNode α)
  | node, [] => (node, [])
  | node, parent :: rest =>
      if level ≤ node.level then climb level (parent.addChild node.close) rest
      else (node, parent :: rest)

/-- A step of `build_tree`, on the last node of the stack and those above it. -/
def buildStep (depth : ℤ) (stack : OpenNode α × List (OpenNode α)) (line : ℕ × α) :
    OpenNode α × List (OpenNode α) :=
  if depth ≠ -1 ∧ depth < line.1 then
    ({ stack.1 with texts := stack.1.texts ++ [line.2] }, stack.2)
  else
    let stack := climb line.1 stack.1 stack.2
    ({ level := line.1, texts := [line.2], children := [] }, stack.1 :: stack.2)

/-- The root, once all nodes on the stack are where they belong. -/
def closeAll : OpenNode α → List (OpenNode α) → Node α
  | node, [] => node.close
  | node, parent :: rest => closeAll (parent.addChild node.close) rest

def buildTree (depth : ℤ) (lines : List (ℕ × α)) : Node α :=
  let stack := lines.foldl (buildStep depth) ({ level := 0, texts := [], children := [] }, [])
  closeAll stack.1 stack.2

mutual

/-- `_dfs`: the chunks, each as the list of its texts. -/
def Node.dfs (depth : ℤ) : Node α → List α → List (List α)
  | .mk level texts children, titles =>
      let atRoot := if level = 0 ∧ texts ≠ [] then [titles ++ texts] else []
      let pathTitles := if 1 ≤ level ∧ (level : ℤ) ≤ depth then titles ++ texts else titles
      let own :=
        if depth < level ∧ texts ≠ [] then [pathTitles ++ texts]
        else if children = [] ∧ 1 ≤ level ∧ (level : ℤ) ≤ depth then [pathTitles]
        else []
      atRoot ++ own ++ dfsAll depth children pathTitles

def dfsAll (depth : ℤ) : List (Node α) → List α → List (List α)
  | [], _ => []
  | child :: children, titles => child.dfs depth titles ++ dfsAll depth children titles

end

end Build

/-! ## `tree_merge` -/

/-- The text of a line, with blanks for ideographic spaces and without outer ones. -/
def lineText (t : Text) : Text := strip (t.map fun c => if c = '\u3000' then ' ' else c)

/-- `get_level`. -/
def getLevel (family : List Pattern) (s : Text × Text) : ℕ × Text :=
  let text := lineText s.1
  (levelOf family (strip text) text s.2 + 1, text)

/-- The lines of the sections. -/
def linesOf (family : List Pattern) (sections : List (Text × Text)) : List (ℕ × Text) :=
  (sections.map (getLevel family)).filter fun line => line.2.any (· ≠ '\n')

/-- The levels that occur, in ascending order. -/
def sortedLevels (lines : List (ℕ × Text)) : List ℕ :=
  (lines.map Prod.fst).dedup.insertionSort (· ≤ ·)

/-- The level down to which nodes are made, from the levels that occur in ascending order. -/
def targetLevel (family : List Pattern) (depth : ℕ) (levels : List ℕ) : Except String ℕ :=
  let target := if depth ≤ levels.length ∧ depth ≠ 0 then levels[depth - 1]? else levels.getLast?
  match target with
  | none => .error "IndexError"
  | some target =>
      if target = family.length + 2 then
        .ok (if 1 < levels.length then levels.getD (levels.length - 2) 0 else levels.getD 0 0)
      else .ok target

/-- What `tree_merge` returns: its argument as it is, or chunks. -/
inductive TreeMerged
  | same (paragraphs : Paragraphs)
  | chunks (cks : List Text)

def joinLines (texts : List Text) : Text := ['\n'].intercalate texts

def treeMerge (bull : ℤ) (paragraphs : Paragraphs) (depth : ℕ) : Except String TreeMerged :=
  if paragraphs.sections = [] ∨ bull < 0 then .ok (.same paragraphs)
  else
    match bulletPattern[bull.toNat]? with
    | none => .error "IndexError"
    | some family =>
        let lines := linesOf family (kept paragraphs)
        (targetLevel family depth (sortedLevels lines)).map fun target : ℕ =>
          .chunks ((((buildTree target lines).dfs target []).map joinLines).filter (· ≠ []))

/-! ## The lines in the tree -/

section Entries

variable {α : Type}

mutual

/-- The texts of a node and of all nodes below it, in order. -/
def Node.entries : Node α → List α
  | .mk _ texts children => texts ++ entriesAll children

def entriesAll : List (Node α) → List α
  | [] => []
  | child :: children => child.entries ++ entriesAll children

end

mutual

/-- All nodes have levels from 1 to the depth. -/
def Node.Within (depth : ℤ) : Node α → Prop
  | .mk level _ children => 1 ≤ level ∧ (level : ℤ) ≤ depth ∧ WithinAll depth children

def WithinAll (depth : ℤ) : List (Node α) → Prop
  | [] => True
  | child :: children => child.Within depth ∧ WithinAll depth children

end

theorem entriesAll_append (children more : List (Node α)) :
    entriesAll (children ++ more) = entriesAll children ++ entriesAll more := by
  induction children with
  | nil => rfl
  | cons child children ih => rw [List.cons_append, entriesAll, ih, entriesAll, List.append_assoc]

theorem withinAll_append {depth : ℤ} {children more : List (Node α)} :
    WithinAll depth (children ++ more) ↔ WithinAll depth children ∧ WithinAll depth more := by
  induction children with
  | nil => simp [WithinAll]
  | cons child children ih => rw [List.cons_append, WithinAll, WithinAll, ih, and_assoc]

/-- What the nodes on a stack hold, from the root on. -/
def held (node : OpenNode α) (above : List (OpenNode α)) : List α :=
  (above.reverse ++ [node]).flatMap fun open_ => open_.texts ++ entriesAll open_.children

/-- All nodes of a stack but the root have levels from 1 to the depth. -/
def StackWithin (depth : ℤ) : OpenNode α → List (OpenNode α) → Prop
  | node, [] => node.level = 0 ∧ WithinAll depth node.children
  | node, parent :: rest =>
      1 ≤ node.level ∧ (node.level : ℤ) ≤ depth ∧ WithinAll depth node.children ∧
        StackWithin depth parent rest

variable {depth : ℤ} {node parent : OpenNode α} {above : List (OpenNode α)}

theorem held_addChild (node parent : OpenNode α) (rest : List (OpenNode α)) :
    held (parent.addChild node.close) rest = held node (parent :: rest) := by
  simp [held, OpenNode.addChild, OpenNode.close, entriesAll_append, entriesAll, Node.entries]

theorem stackWithin_addChild {rest : List (OpenNode α)}
    (h : StackWithin depth node (parent :: rest)) :
    StackWithin depth (parent.addChild node.close) rest := by
  obtain ⟨hlow, hhigh, hchildren, hrest⟩ := h
  have hclose : WithinAll depth [node.close] := ⟨⟨hlow, hhigh, hchildren⟩, trivial⟩
  cases rest with
  | nil => exact ⟨hrest.1, withinAll_append.mpr ⟨hrest.2, hclose⟩⟩
  | cons grand rest =>
      exact ⟨hrest.1, hrest.2.1, withinAll_append.mpr ⟨hrest.2.2.1, hclose⟩, hrest.2.2.2⟩

/-- Leaving nodes moves nothing. -/
theorem climb_spec (level : ℕ) (h : StackWithin depth node above) :
    held (climb level node above).1 (climb level node above).2 = held node above ∧
      StackWithin depth (climb level node above).1 (climb level node above).2 := by
  induction above generalizing node with
  | nil => exact ⟨rfl, h⟩
  | cons parent rest ih =>
      rw [climb]
      split
      · obtain ⟨hheld, hwithin⟩ := ih (stackWithin_addChild h)
        exact ⟨hheld.trans (held_addChild node parent rest), hwithin⟩
      · exact ⟨rfl, h⟩

theorem closeAll_spec (h : StackWithin depth node above) :
    (closeAll node above).entries = held node above ∧
      ∃ texts children, closeAll node above = .mk 0 texts children ∧ WithinAll depth children := by
  induction above generalizing node with
  | nil =>
      obtain ⟨hroot, hchildren⟩ := h
      refine ⟨by simp [closeAll, held, OpenNode.close, Node.entries], node.texts, node.children,
        ?_, hchildren⟩
      rw [closeAll, OpenNode.close, hroot]
  | cons parent rest ih =>
      obtain ⟨hentries, hroot⟩ := ih (stackWithin_addChild h)
      rw [closeAll]
      exact ⟨hentries.trans (held_addChild node parent rest), hroot⟩

/-- The state of `build_tree` after some lines: they are held in order, and the last node has no
children, so that further text comes after everything. -/
structure Building (depth : ℤ) (done : List (ℕ × α))
    (stack : OpenNode α × List (OpenNode α)) : Prop where
  held : held stack.1 stack.2 = done.map Prod.snd
  within : StackWithin depth stack.1 stack.2
  leaf : stack.1.children = []

theorem Building.step {done : List (ℕ × α)} {stack : OpenNode α × List (OpenNode α)}
    (hdepth : depth ≠ -1) {line : ℕ × α} (hline : 1 ≤ line.1) (h : Building depth done stack) :
    Building depth (done ++ [line]) (buildStep depth stack line) := by
  obtain ⟨hheld, hwithin, hleaf⟩ := h
  rw [buildStep]
  by_cases hdeep : depth < line.1
  · rw [if_pos ⟨hdepth, hdeep⟩]
    refine ⟨?_, ?_, hleaf⟩
    · rw [List.map_append, ← hheld]
      simp [RagFlow.Chunking.held, hleaf, entriesAll]
    · obtain ⟨node, above⟩ := stack
      cases above <;> exact hwithin
  · rw [if_neg fun hboth => hdeep hboth.2]
    obtain ⟨hclimb, hclimb'⟩ := climb_spec line.1 hwithin
    refine ⟨?_, ⟨hline, not_lt.mp hdeep, trivial, hclimb'⟩, rfl⟩
    rw [List.map_append, ← hheld, ← hclimb]
    simp [RagFlow.Chunking.held, entriesAll]

/-- The tree holds all lines in their order, below a root of level 0. -/
theorem buildTree_spec (hdepth : depth ≠ -1) {lines : List (ℕ × α)}
    (hlines : ∀ line ∈ lines, 1 ≤ line.1) :
    (buildTree depth lines).entries = lines.map Prod.snd ∧
      ∃ texts children, buildTree depth lines = .mk 0 texts children ∧
        WithinAll depth children := by
  have hbuild : Building depth lines
      (lines.foldl (buildStep depth) ({ level := 0, texts := [], children := [] }, [])) := by
    induction lines using List.reverseRecOn with
    | nil => exact ⟨rfl, ⟨rfl, trivial⟩, rfl⟩
    | append_singleton lines line ih =>
        rw [List.foldl_append]
        have hold := ih fun l hl => hlines l (List.mem_append_left _ hl)
        exact hold.step hdepth (hlines line (List.mem_append_right _ List.mem_cons_self))
  obtain ⟨hentries, hroot⟩ := closeAll_spec hbuild.within
  exact ⟨hentries.trans hbuild.held, hroot⟩

end Entries

/-! ## The chunks of a tree -/

section Chunks

variable {α : Type} {depth : ℤ}

/-- Below a node with a level within the depth its texts are titles, and it is a chunk itself if
nothing is below. -/
theorem dfs_of_within {level : ℕ} (hlow : 1 ≤ level) (hhigh : (level : ℤ) ≤ depth)
    (texts : List α) (children : List (Node α)) (titles : List α) :
    (Node.mk level texts children).dfs depth titles =
      (if children = [] then [titles ++ texts] else []) ++
        dfsAll depth children (titles ++ texts) := by
  have hroot : ¬ (level = 0 ∧ texts ≠ []) := fun h => by omega
  have hdeep : ¬ (depth < (level : ℤ) ∧ texts ≠ []) := fun h => not_lt.mpr hhigh h.1
  have hleaf : (children = [] ∧ 1 ≤ level ∧ (level : ℤ) ≤ depth) ↔ children = [] :=
    and_iff_left ⟨hlow, hhigh⟩
  rw [Node.dfs]
  simp only [if_neg hroot, if_pos (And.intro hlow hhigh), if_neg hdeep, List.nil_append]
  rw [if_congr hleaf rfl rfl]

mutual

/-- A chunk below a node is its titles and then some of its texts, in order. -/
theorem dfs_sublist : ∀ (node : Node α) (titles : List α), node.Within depth →
    ∀ ck ∈ node.dfs depth titles, ∃ c, ck = titles ++ c ∧ c.Sublist node.entries
  | .mk level texts children, titles, h => by
      intro ck hck
      rw [Node.Within] at h
      rw [dfs_of_within h.1 h.2.1] at hck
      rw [Node.entries]
      rcases List.mem_append.mp hck with hck | hck
      · by_cases hleaf : children = []
        · rw [if_pos hleaf] at hck
          exact ⟨texts, List.mem_singleton.mp hck, List.sublist_append_left _ _⟩
        · rw [if_neg hleaf] at hck
          cases hck
      · obtain ⟨c, rfl, hc⟩ := dfsAll_sublist children (titles ++ texts) h.2.2 ck hck
        exact ⟨texts ++ c, List.append_assoc _ _ _, hc.append_left texts⟩

theorem dfsAll_sublist : ∀ (children : List (Node α)) (titles : List α),
    WithinAll depth children →
      ∀ ck ∈ dfsAll depth children titles, ∃ c, ck = titles ++ c ∧ c.Sublist (entriesAll children)
  | [], titles, _ => by
      intro ck hck
      rw [dfsAll] at hck
      cases hck
  | child :: children, titles, h => by
      intro ck hck
      rw [WithinAll] at h
      rw [dfsAll] at hck
      rw [entriesAll]
      rcases List.mem_append.mp hck with hck | hck
      · obtain ⟨c, rfl, hc⟩ := dfs_sublist child titles h.1 ck hck
        exact ⟨c, rfl, hc.trans (List.sublist_append_left _ _)⟩
      · obtain ⟨c, rfl, hc⟩ := dfsAll_sublist children titles h.2 ck hck
        exact ⟨c, rfl, hc.trans (List.sublist_append_right _ _)⟩

end

mutual

/-- Every title above a node and every text in it is in some chunk. -/
theorem dfs_covers : ∀ (node : Node α) (titles : List α), node.Within depth →
    ∀ a ∈ titles ++ node.entries, ∃ ck ∈ node.dfs depth titles, a ∈ ck
  | .mk level texts children, titles, h => by
      intro a ha
      rw [Node.Within] at h
      rw [dfs_of_within h.1 h.2.1]
      rw [Node.entries, ← List.append_assoc] at ha
      by_cases hleaf : children = []
      · subst hleaf
        rw [entriesAll, List.append_nil] at ha
        rw [if_pos rfl]
        exact ⟨titles ++ texts, List.mem_append_left _ List.mem_cons_self, ha⟩
      · rw [if_neg hleaf, List.nil_append]
        exact dfsAll_covers children (titles ++ texts) h.2.2 hleaf a ha

theorem dfsAll_covers : ∀ (children : List (Node α)) (titles : List α),
    WithinAll depth children → children ≠ [] →
      ∀ a ∈ titles ++ entriesAll children, ∃ ck ∈ dfsAll depth children titles, a ∈ ck
  | [], _, _, hne => absurd rfl hne
  | child :: children, titles, h, _ => by
      intro a ha
      rw [WithinAll] at h
      rw [entriesAll, ← List.append_assoc] at ha
      rw [dfsAll]
      rcases List.mem_append.mp ha with ha | ha
      · obtain ⟨ck, hck, hack⟩ := dfs_covers child titles h.1 a ha
        exact ⟨ck, List.mem_append_left _ hck, hack⟩
      · by_cases hleaf : children = []
        · subst hleaf
          rw [entriesAll] at ha
          cases ha
        · obtain ⟨ck, hck, hack⟩ := dfsAll_covers children titles h.2 hleaf a
            (List.mem_append_right _ ha)
          exact ⟨ck, List.mem_append_right _ hck, hack⟩

end

/-- The chunks of a tree: sublists of what it holds, in which everything is found. -/
theorem dfs_buildTree (hdepth : 0 ≤ depth) {lines : List (ℕ × α)}
    (hlines : ∀ line ∈ lines, 1 ≤ line.1) :
    (∀ ck ∈ (buildTree depth lines).dfs depth [], ck.Sublist (lines.map Prod.snd)) ∧
      ∀ a ∈ lines.map Prod.snd, ∃ ck ∈ (buildTree depth lines).dfs depth [], a ∈ ck := by
  obtain ⟨hentries, texts, children, hroot, hwithin⟩ :=
    buildTree_spec (by omega : depth ≠ -1) hlines
  have hdfs : (buildTree depth lines).dfs depth [] =
      (if texts ≠ [] then [texts] else []) ++ dfsAll depth children [] := by
    rw [hroot, Node.dfs]
    simp
    exact fun hneg => absurd hneg (not_lt.mpr hdepth)
  rw [hroot, Node.entries] at hentries
  rw [hdfs, ← hentries]
  constructor
  · intro ck hck
    rcases List.mem_append.mp hck with hck | hck
    · by_cases htexts : texts ≠ []
      · rw [if_pos htexts] at hck
        exact List.mem_singleton.mp hck ▸ List.sublist_append_left _ _
      · rw [if_neg htexts] at hck
        cases hck
    · obtain ⟨c, rfl, hc⟩ := dfsAll_sublist children [] hwithin ck hck
      exact hc.trans (List.sublist_append_right _ _)
  · intro a ha
    rcases List.mem_append.mp ha with ha | ha
    · rw [if_pos (List.ne_nil_of_mem ha)]
      exact ⟨texts, List.mem_append_left _ List.mem_cons_self, ha⟩
    · have hne : children ≠ [] := by
        rintro rfl
        rw [entriesAll] at ha
        cases ha
      obtain ⟨ck, hck, hack⟩ := dfsAll_covers children [] hwithin hne a ha
      exact ⟨ck, List.mem_append_right _ hck, hack⟩

end Chunks

/-! ## The tree does not look at its texts -/

section Natural

variable {α β : Type} (f : α → β)

mutual

def Node.map : Node α → Node β
  | .mk level texts children => .mk level (texts.map f) (mapAll children)

def mapAll : List (Node α) → List (Node β)
  | [] => []
  | child :: children => child.map :: mapAll children

end

def OpenNode.map (node : OpenNode α) : OpenNode β :=
  { level := node.level, texts := node.texts.map f, children := mapAll f node.children }

theorem mapAll_append (children more : List (Node α)) :
    mapAll f (children ++ more) = mapAll f children ++ mapAll f more := by
  induction children with
  | nil => rfl
  | cons child children ih => rw [List.cons_append, mapAll, ih, mapAll, List.cons_append]

theorem map_addChild (node parent : OpenNode α) :
    (parent.addChild node.close).map f = (parent.map f).addChild (node.map f).close := by
  rw [OpenNode.map, OpenNode.addChild, mapAll_append]
  rfl

theorem climb_map (level : ℕ) (node : OpenNode α) (above : List (OpenNode α)) :
    climb level (node.map f) (above.map (OpenNode.map f)) =
      ((climb level node above).1.map f, (climb level node above).2.map (OpenNode.map f)) := by
  induction above generalizing node with
  | nil => rfl
  | cons parent rest ih =>
      have hlevel : (node.map f).level = node.level := rfl
      rw [List.map_cons, climb, climb, hlevel, ← map_addChild, ih]
      split <;> rfl

theorem closeAll_map (node : OpenNode α) (above : List (OpenNode α)) :
    closeAll (node.map f) (above.map (OpenNode.map f)) = (closeAll node above).map f := by
  induction above generalizing node with
  | nil => rfl
  | cons parent rest ih => rw [List.map_cons, closeAll, closeAll, ← map_addChild, ih]

theorem buildStep_map (depth : ℤ) (stack : OpenNode α × List (OpenNode α)) (line : ℕ × α) :
    buildStep depth (stack.1.map f, stack.2.map (OpenNode.map f)) (line.1, f line.2) =
      ((buildStep depth stack line).1.map f,
        (buildStep depth stack line).2.map (OpenNode.map f)) := by
  rw [buildStep, buildStep]
  split
  · simp [OpenNode.map]
  · simp only [climb_map]
    rfl

theorem buildTree_map (depth : ℤ) (lines : List (ℕ × α)) :
    buildTree depth (lines.map fun line => (line.1, f line.2)) =
      (buildTree depth lines).map f := by
  have hrun : ∀ stack : OpenNode α × List (OpenNode α),
      (lines.map fun line => (line.1, f line.2)).foldl (buildStep depth)
          (stack.1.map f, stack.2.map (OpenNode.map f)) =
        ((lines.foldl (buildStep depth) stack).1.map f,
          (lines.foldl (buildStep depth) stack).2.map (OpenNode.map f)) := by
    induction lines with
    | nil => exact fun _ => rfl
    | cons line lines ih =>
        intro stack
        rw [List.map_cons, List.foldl_cons, List.foldl_cons, buildStep_map, ih]
  rw [buildTree, buildTree, ← closeAll_map]
  have hstart := hrun ({ level := 0, texts := [], children := [] }, [])
  exact congrArg (fun stack => closeAll stack.1 stack.2) hstart

mutual

theorem dfs_map (depth : ℤ) : ∀ (node : Node α) (titles : List α),
    (node.map f).dfs depth (titles.map f) = (node.dfs depth titles).map (List.map f)
  | .mk level texts children, titles => by
      have htexts : texts.map f ≠ [] ↔ texts ≠ [] := by simp
      have hchildren : mapAll f children = [] ↔ children = [] := by
        cases children <;> simp [mapAll]
      have hpath : (if 1 ≤ level ∧ (level : ℤ) ≤ depth then titles.map f ++ texts.map f
            else titles.map f) =
          (if 1 ≤ level ∧ (level : ℤ) ≤ depth then titles ++ texts else titles).map f := by
        split <;> simp
      rw [Node.map, Node.dfs, Node.dfs]
      simp only [htexts, hchildren, hpath, dfsAll_map depth children, List.map_append,
        apply_ite (List.map (List.map f)), List.map_cons, List.map_nil]

theorem dfsAll_map (depth : ℤ) : ∀ (children : List (Node α)) (titles : List α),
    dfsAll depth (mapAll f children) (titles.map f) =
      (dfsAll depth children titles).map (List.map f)
  | [], _ => rfl
  | child :: children, titles => by
      rw [mapAll, dfsAll, dfs_map depth child, dfsAll_map depth children, dfsAll, List.map_append]

end

end Natural

/-! ## What is returned -/

section Returned

variable {family : List Pattern} {sections : List (Text × Text)} {paragraphs : Paragraphs}

theorem joinLines_ne_nil {texts : List Text} {t : Text} (h : t ∈ texts) (ht : t ≠ []) :
    joinLines texts ≠ [] := by
  match texts with
  | [] => cases h
  | [a] =>
      obtain rfl := List.mem_singleton.mp h
      rwa [joinLines, List.intercalate_singleton]
  | a :: b :: texts =>
      rw [joinLines, List.intercalate_cons_cons]
      simp

/-- The line of a section that is kept is not blank. -/
theorem lineText_any {t : Text} (h : survives t = true) : (lineText t).any (· ≠ '\n') = true := by
  obtain ⟨c, hc, hspace⟩ := exists_of_survives h
  have hideographic : c ≠ '\u3000' := by
    rintro rfl
    exact absurd hspace (by decide)
  have hmem : c ∈ lineText t := by
    rw [lineText, mem_strip_iff hspace]
    exact List.mem_map.mpr ⟨c, hc, if_neg hideographic⟩
  rw [List.any_eq_true]
  refine ⟨c, hmem, decide_eq_true ?_⟩
  rintro rfl
  exact absurd hspace (by decide)

/-- No kept section is left out of the lines. -/
theorem linesOf_eq (family : List Pattern) (h : ∀ s ∈ sections, survives s.1 = true) :
    linesOf family sections = sections.map (getLevel family) := by
  rw [linesOf, List.filter_eq_self]
  intro line hline
  obtain ⟨s, hs, rfl⟩ := List.mem_map.mp hline
  exact lineText_any (h s hs)

/-- The text of a kept section as it is put into a chunk. -/
def lineAt (sections : List (Text × Text)) (i : ℕ) : Text := lineText (textAt sections i)

/-- The lines with the indices of their sections in place of their texts. -/
def indexLines (family : List Pattern) (sections : List (Text × Text)) : List (ℕ × ℕ) :=
  sections.zipIdx.map fun s => ((getLevel family s.1).1, s.2)

theorem map_indexLines (family : List Pattern) (sections : List (Text × Text)) :
    (indexLines family sections).map (fun line => (line.1, lineAt sections line.2)) =
      sections.map (getLevel family) := by
  apply List.ext_getElem
  · simp [indexLines]
  · intro i hi hi'
    rw [List.length_map] at hi'
    simp [indexLines, lineAt, textAt, getLevel, hi']

theorem snd_indexLines (family : List Pattern) (sections : List (Text × Text)) :
    (indexLines family sections).map Prod.snd = List.range sections.length := by
  rw [indexLines, List.map_map]
  exact List.zipIdx_map_snd 0 sections |>.trans (List.range_eq_range' ▸ rfl)

/-- A level is found whenever there is one. -/
theorem exists_targetLevel (family : List Pattern) (depth : ℕ) {levels : List ℕ}
    (h : levels ≠ []) : ∃ target, targetLevel family depth levels = .ok target := by
  have hsome : ∃ target, (if depth ≤ levels.length ∧ depth ≠ 0 then levels[depth - 1]?
      else levels.getLast?) = some target := by
    split
    · next hdepth => exact ⟨_, List.getElem?_eq_getElem (by omega)⟩
    · exact ⟨_, List.getLast?_eq_some_getLast h⟩
  obtain ⟨target, htarget⟩ := hsome
  rw [targetLevel, htarget]
  split
  · next h => cases h
  · split
    · exact ⟨_, rfl⟩
    · exact ⟨_, rfl⟩

theorem survives_of_mem_kept {s : Text × Text} (h : s ∈ kept paragraphs) : survives s.1 = true :=
  (List.mem_filter.mp h).2

/-- The call returns chunks in which every kept section is found, and in each of which the sections
are in the order of the document. -/
def TreeMerges (bull : ℕ) (paragraphs : Paragraphs) (depth : ℕ) : Prop :=
  ∃ chunks : List (List ℕ),
    treeMerge bull paragraphs depth =
        .ok (.chunks (chunks.map fun ck => joinLines (ck.map (lineAt (kept paragraphs))))) ∧
      (∀ i, i < (kept paragraphs).length → ∃ ck ∈ chunks, i ∈ ck) ∧
      ∀ ck ∈ chunks, ck.Pairwise (· < ·)

/-- The merge keeps every line in order unless it fails: there has to be such a family of patterns,
and the filter has to keep something. -/
theorem treeMerges_iff (bull : ℕ) {paragraphs : Paragraphs} (hne : paragraphs.sections ≠ [])
    (depth : ℕ) :
    TreeMerges bull paragraphs depth ↔
      bull < bulletPattern.length ∧ kept paragraphs ≠ [] := by
  have hguard : ¬ (paragraphs.sections = [] ∨ (bull : ℤ) < 0) := by
    rw [not_or]
    exact ⟨hne, by omega⟩
  cases hfamily : bulletPattern[bull]? with
  | none =>
      refine iff_of_false ?_ fun h => ?_
      · rintro ⟨chunks, hok, -⟩
        rw [treeMerge, if_neg hguard, Int.toNat_natCast, hfamily] at hok
        cases hok
      · exact absurd h.1 (not_lt.mpr (List.getElem?_eq_none_iff.mp hfamily))
  | some family =>
      have hbull := (List.getElem?_eq_some_iff.mp hfamily).1
      have hsurvive : ∀ s ∈ kept paragraphs, survives s.1 = true := fun s hs =>
        survives_of_mem_kept hs
      have hmerge : treeMerge bull paragraphs depth =
          (targetLevel family depth (sortedLevels ((kept paragraphs).map (getLevel family)))).map
            fun target : ℕ => .chunks ((((buildTree target ((kept paragraphs).map
              (getLevel family))).dfs target []).map joinLines).filter (· ≠ [])) := by
        rw [treeMerge, if_neg hguard, Int.toNat_natCast, hfamily, ← linesOf_eq family hsurvive]
      rw [TreeMerges, hmerge]
      by_cases hkept : kept paragraphs = []
      · refine iff_of_false ?_ fun h => h.2 hkept
        rintro ⟨chunks, hok, -⟩
        rw [hkept] at hok
        cases depth <;> cases hok
      · refine iff_of_true ?_ ⟨hbull, hkept⟩
        have hlevels : sortedLevels ((kept paragraphs).map (getLevel family)) ≠ [] := by
          intro hnil
          have hperm := List.perm_insertionSort (· ≤ ·)
            (((kept paragraphs).map (getLevel family)).map Prod.fst).dedup
          rw [sortedLevels] at hnil
          rw [hnil, List.nil_perm, List.dedup_eq_nil, List.map_eq_nil_iff,
            List.map_eq_nil_iff] at hperm
          exact hkept hperm
        obtain ⟨target, htarget⟩ := exists_targetLevel family depth hlevels
        have hpositive : ∀ line ∈ indexLines family (kept paragraphs), 1 ≤ line.1 := by
          intro line hline
          obtain ⟨s, -, rfl⟩ := List.mem_map.mp hline
          exact Nat.succ_le_succ (Nat.zero_le _)
        obtain ⟨hsublist, hcovers⟩ :=
          dfs_buildTree (Int.natCast_nonneg target) hpositive
        rw [snd_indexLines] at hsublist hcovers
        have hdfs := dfs_map (lineAt (kept paragraphs)) target
          (buildTree target (indexLines family (kept paragraphs))) []
        rw [← buildTree_map, map_indexLines, List.map_nil] at hdfs
        refine ⟨((buildTree target (indexLines family (kept paragraphs))).dfs target []).filter
          fun ck => joinLines (ck.map (lineAt (kept paragraphs))) ≠ [], ?_, ?_, ?_⟩
        · rw [htarget]
          refine congrArg (fun cks => Except.ok (TreeMerged.chunks cks)) ?_
          rw [hdfs, List.map_map, List.filter_map]
          rfl
        · intro i hi
          obtain ⟨ck, hck, hick⟩ := hcovers i (List.mem_range.mpr hi)
          refine ⟨ck, List.mem_filter.mpr ⟨hck, decide_eq_true ?_⟩, hick⟩
          refine joinLines_ne_nil (List.mem_map.mpr ⟨i, hick, rfl⟩) fun hblank => ?_
          have htext : textAt (kept paragraphs) i = ((kept paragraphs)[i]).1 := by
            rw [textAt, List.getElem?_eq_getElem hi]
            rfl
          have hany := lineText_any (hsurvive _ (List.getElem_mem hi))
          rw [← htext, ← lineAt, hblank] at hany
          cases hany
        · intro ck hck
          exact List.pairwise_lt_range.sublist (hsublist ck (List.mem_filter.mp hck).1)

theorem treeMerges_two : TreeMerges 4 (.plain ["# a".toList, "text".toList]) 1 ↔
    4 < bulletPattern.length ∧ kept (.plain ["# a".toList, "text".toList]) ≠ [] :=
  treeMerges_iff 4 (by decide) 1

/-- A document whose only line is a page number. -/
theorem not_treeMerges : ¬ TreeMerges 4 (.plain ["12".toList]) 1 := by
  rintro ⟨chunks, hok, -⟩
  have hkept : kept (.plain ["12".toList]) = [] := by decide +kernel
  rw [treeMerge, if_neg (by decide), hkept] at hok
  cases hok

end Returned

end RagFlow.Chunking
