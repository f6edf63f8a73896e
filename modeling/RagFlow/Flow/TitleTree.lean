/-
# The tree of titles

`_ChunkNode.build_tree` hangs every title of a run of lines below the last one of a higher level and
gives the lines between two titles to the first of them. `_dfs` reads the tree back, either one path
for every title with text of its own or without titles below, or one for every title without titles
below, with the texts of all titles on the way.

A node and what is below it are consecutive lines, the title first, then its own text, then the
nodes below it with their levels not rising from one to the next. That much holds of the stack after
every line, and it decides which titles are above a line.
-/

import Mathlib
import RagFlow.Flow.TitleLevels

namespace RagFlow.Flow

/-! ## `_ChunkNode` -/

inductive ChunkNode
  | mk (level : ℕ) (titleIndexes bodyIndexes : List ℕ) (children : List ChunkNode)

def ChunkNode.level : ChunkNode → ℕ
  | .mk level _ _ _ => level

def ChunkNode.children : ChunkNode → List ChunkNode
  | .mk _ _ _ children => children

def ChunkNode.addChild : ChunkNode → ChunkNode → ChunkNode
  | .mk level titles bodies children, child => .mk level titles bodies (children ++ [child])

def ChunkNode.addBodyIndex (index : ℕ) : ChunkNode → ChunkNode
  | .mk level titles bodies children => .mk level titles (bodies ++ [index]) children

/-- The inner loop of `build_tree`. A node is added to the one below it on the stack when it
leaves, not when it enters. -/
def popFrom (level : ℕ) : ChunkNode → List ChunkNode → ChunkNode × List ChunkNode
  | node, [] => (node, [])
  | node, parent :: rest =>
      if level ≤ node.level then popFrom level (parent.addChild node) rest
      else (node, parent :: rest)

/-- A step of `build_tree`, on the last node of the stack and those above it. -/
def treeStep (depth : ℕ) (stack : ChunkNode × List ChunkNode) (line : ℕ × ℕ) :
    ChunkNode × List ChunkNode :=
  if depth < line.1 then (stack.1.addBodyIndex line.2, stack.2)
  else
    let stack := popFrom line.1 stack.1 stack.2
    (.mk line.1 [line.2] [] [], stack.1 :: stack.2)

/-- The root, once all nodes have left the stack. -/
def rootOf : ChunkNode → List ChunkNode → ChunkNode
  | node, [] => node
  | node, parent :: rest => rootOf (parent.addChild node) rest

def buildTitleTree (depth : ℕ) (indexedLines : List (ℕ × ℕ)) : ChunkNode :=
  let stack := indexedLines.foldl (treeStep depth) (.mk 0 [] [] [], [])
  rootOf stack.1 stack.2

mutual

/-- `_dfs`. -/
def ChunkNode.dfs (depth : ℕ) (includeHeadingContent : Bool) :
    ChunkNode → List ℕ → List (List ℕ)
  | .mk level titleIndexes bodyIndexes children, titles =>
      let atRoot := if level = 0 ∧ bodyIndexes ≠ [] then [titles ++ bodyIndexes] else []
      if includeHeadingContent then
        let pathTitles := if 1 ≤ level ∧ level ≤ depth then titles ++ titleIndexes else titles
        let own :=
          if bodyIndexes ≠ [] ∧ 1 ≤ level ∧ level ≤ depth then [pathTitles ++ bodyIndexes]
          else if children = [] ∧ 1 ≤ level ∧ level ≤ depth then [pathTitles]
          else []
        atRoot ++ own ++ pathsOf depth includeHeadingContent children pathTitles
      else
        let pathTitles :=
          if 1 ≤ level ∧ level ≤ depth then titles ++ titleIndexes ++ bodyIndexes else titles
        let own := if children = [] ∧ 1 ≤ level ∧ level ≤ depth then [pathTitles] else []
        atRoot ++ own ++ pathsOf depth includeHeadingContent children pathTitles

def pathsOf (depth : ℕ) (includeHeadingContent : Bool) :
    List ChunkNode → List ℕ → List (List ℕ)
  | [], _ => []
  | child :: children, titles =>
      child.dfs depth includeHeadingContent titles ++
        pathsOf depth includeHeadingContent children titles

end

def ChunkNode.getPaths (depth : ℕ) (includeHeadingContent : Bool) (root : ChunkNode) :
    List (List ℕ) :=
  root.dfs depth includeHeadingContent []

/-! ## Consecutive lines -/

section Spans

variable (lv : ℕ → ℕ) (t : ℕ)

mutual

/-- The lines of a node and of all nodes below it are those from `s` up to `e`, where a line has
the level `lv` and is a title down to the level `t`. -/
def ChunkNode.Spans : ChunkNode → ℕ → ℕ → Prop
  | .mk level titles bodies children, s, e =>
      (titles = [s] ∧ level = lv s ∧ lv s ≤ t ∨ titles = [] ∧ level = 0) ∧
        (∃ k, bodies = List.range' (s + titles.length) k ∧
          SpanAll children (s + titles.length + k) e) ∧
        (∀ b ∈ bodies, t < lv b) ∧ (∀ c ∈ children, level < c.level) ∧
        children.Pairwise fun c c' => c'.level ≤ c.level

def SpanAll : List ChunkNode → ℕ → ℕ → Prop
  | [], s, e => s = e
  | child :: children, s, e => ∃ m, child.Spans s m ∧ SpanAll children m e

end

/-- A node that can become the last one below its parent. -/
structure ChunkNode.Fits (parent node : ChunkNode) : Prop where
  below : parent.level < node.level
  last : ∀ c ∈ parent.children, node.level ≤ c.level

/-- The nodes on a stack, the last one first, make up the lines before `e`. -/
def StackSpans : ChunkNode → List ChunkNode → ℕ → Prop
  | node, [], e => node.level = 0 ∧ node.Spans lv t 0 e
  | node, parent :: rest, e =>
      ∃ s, node.Spans lv t s e ∧ parent.Fits node ∧ StackSpans parent rest s

end Spans

section Build

variable {lv : ℕ → ℕ} {t s m e l : ℕ} {node parent : ChunkNode} {above : List ChunkNode}

@[simp] theorem level_addChild : (parent.addChild node).level = parent.level := by
  cases parent
  rfl

@[simp] theorem children_addChild :
    (parent.addChild node).children = parent.children ++ [node] := by
  cases parent
  rfl

theorem spanAll_concat {children : List ChunkNode} (h : SpanAll lv t children s m)
    (hnode : node.Spans lv t m e) : SpanAll lv t (children ++ [node]) s e := by
  induction children generalizing s with
  | nil =>
      obtain rfl : s = m := h
      exact ⟨e, hnode, rfl⟩
  | cons child children ih =>
      obtain ⟨m', hchild, hrest⟩ := h
      exact ⟨m', hchild, ih hrest⟩

theorem ChunkNode.Spans.addChild (h : parent.Spans lv t s m) (hnode : node.Spans lv t m e)
    (hfits : parent.Fits node) : (parent.addChild node).Spans lv t s e := by
  obtain ⟨level, titles, bodies, children⟩ := parent
  obtain ⟨hhead, ⟨k, hbodies, hchildren⟩, htext, hbelow, hfalling⟩ := h
  refine ⟨hhead, ⟨k, hbodies, spanAll_concat hchildren hnode⟩, htext, ?_, ?_⟩
  · intro c hc
    rcases List.mem_append.mp hc with hc | hc
    · exact hbelow c hc
    · obtain rfl := List.mem_singleton.mp hc
      exact hfits.below
  · refine List.pairwise_append.mpr ⟨hfalling, List.pairwise_singleton _ _, fun c hc c' hc' => ?_⟩
    obtain rfl := List.mem_singleton.mp hc'
    exact hfits.last c hc

/-- A node leaves the stack. -/
theorem StackSpans.pop (h : StackSpans lv t node (parent :: above) e) :
    StackSpans lv t (parent.addChild node) above e := by
  obtain ⟨s, hnode, hfits, hparent⟩ := h
  cases above with
  | nil => exact ⟨level_addChild.trans hparent.1, hparent.2.addChild hnode hfits⟩
  | cons grand rest =>
      obtain ⟨s', hspans, hfits', hrest⟩ := hparent
      refine ⟨s', hspans.addChild hnode hfits, ⟨?_, ?_⟩, hrest⟩
      · rw [level_addChild]
        exact hfits'.below
      · rw [level_addChild]
        exact hfits'.last

/-- The nodes of at least a level leave, and one of that level fits in. -/
theorem popFrom_spec (h : StackSpans lv t node above e) (hl : 1 ≤ l)
    (hchildren : ∀ c ∈ node.children, l ≤ c.level) :
    StackSpans lv t (popFrom l node above).1 (popFrom l node above).2 e ∧
      (popFrom l node above).1.level < l ∧
      ∀ c ∈ (popFrom l node above).1.children, l ≤ c.level := by
  induction above generalizing node with
  | nil =>
      refine ⟨h, ?_, hchildren⟩
      rw [popFrom, h.1]
      exact hl
  | cons parent rest ih =>
      rw [popFrom]
      split
      · next hle =>
          refine ih h.pop fun c hc => ?_
          obtain ⟨_, -, hfits, -⟩ := h
          rw [children_addChild] at hc
          rcases List.mem_append.mp hc with hc | hc
          · exact hle.trans (hfits.last c hc)
          · obtain rfl := List.mem_singleton.mp hc
            exact hle
      · next hlt => exact ⟨h, not_le.mp hlt, hchildren⟩

theorem rootOf_spec (h : StackSpans lv t node above e) :
    (rootOf node above).level = 0 ∧ (rootOf node above).Spans lv t 0 e := by
  induction above generalizing node with
  | nil => exact h
  | cons parent rest ih => exact ih h.pop

/-- Text goes to the last node, which has no nodes below it yet. -/
theorem ChunkNode.Spans.addBodyIndex (h : node.Spans lv t s e) (hleaf : node.children = [])
    (htext : t < lv e) : (node.addBodyIndex e).Spans lv t s (e + 1) := by
  obtain ⟨level, titles, bodies, children⟩ := node
  obtain ⟨hhead, ⟨k, hbodies, hchildren⟩, hold, hbelow, hfalling⟩ := h
  obtain rfl : children = [] := hleaf
  obtain rfl : s + titles.length + k = e := hchildren
  refine ⟨hhead, ⟨k + 1, ?_, rfl⟩, ?_, hbelow, hfalling⟩
  · rw [List.range'_1_concat, hbodies]
  · intro b hb
    rcases List.mem_append.mp hb with hb | hb
    · exact hold b hb
    · obtain rfl := List.mem_singleton.mp hb
      exact htext

theorem StackSpans.addBodyIndex (h : StackSpans lv t node above e) (hleaf : node.children = [])
    (htext : t < lv e) : StackSpans lv t (node.addBodyIndex e) above (e + 1) := by
  have hlevel : (node.addBodyIndex e).level = node.level := by
    cases node
    rfl
  cases above with
  | nil => exact ⟨hlevel.trans h.1, h.2.addBodyIndex hleaf htext⟩
  | cons parent rest =>
      obtain ⟨s, hspans, ⟨hbelow, hlast⟩, hrest⟩ := h
      exact ⟨s, hspans.addBodyIndex hleaf htext, ⟨hlevel ▸ hbelow, hlevel ▸ hlast⟩, hrest⟩

/-- The stack after the lines before `n`. By induction on their number. -/
theorem treeStep_foldl (hlv : ∀ p, p < e → 1 ≤ lv p) :
    let stack := ((List.range e).map fun p => (lv p, p)).foldl (treeStep t) (.mk 0 [] [] [], [])
    StackSpans lv t stack.1 stack.2 e ∧ stack.1.children = [] := by
  induction e with
  | zero =>
      exact ⟨⟨rfl, .inr ⟨rfl, rfl⟩, ⟨0, rfl, rfl⟩, by simp, by simp, .nil⟩, rfl⟩
  | succ e ih =>
      obtain ⟨hstack, hleaf⟩ := ih fun p hp => hlv p (Nat.lt_succ_of_lt hp)
      rw [List.range_succ, List.map_append, List.foldl_append]
      generalize ((List.range e).map fun p => (lv p, p)).foldl (treeStep t) (.mk 0 [] [] [], []) =
        stack at hstack hleaf ⊢
      simp only [List.map_cons, List.map_nil, List.foldl_cons, List.foldl_nil, treeStep]
      split
      · next htext =>
          refine ⟨hstack.addBodyIndex hleaf htext, ?_⟩
          obtain ⟨node, above⟩ := stack
          cases node
          exact hleaf
      · next htitle =>
          obtain ⟨hpop, hlevel, hlast⟩ :=
            popFrom_spec hstack (hlv e (Nat.lt_succ_self e)) (by simp [hleaf])
          refine ⟨⟨e, ⟨.inl ⟨rfl, rfl, not_lt.mp htitle⟩, ⟨0, rfl, rfl⟩, by simp, by simp, .nil⟩,
            ⟨hlevel, hlast⟩, hpop⟩, rfl⟩

theorem buildTitleTree_spans (hlv : ∀ p, p < e → 1 ≤ lv p) :
    let root := buildTitleTree t ((List.range e).map fun p => (lv p, p))
    root.level = 0 ∧ root.Spans lv t 0 e :=
  rootOf_spec (treeStep_foldl hlv).1

end Build

end RagFlow.Flow
