/-
# Paths of titles

The titles above a line are those before it that no title of the same or a higher level separates
from it. A path that `_dfs` reads from the tree of titles has before each of its lines just the
titles above it. With the text of titles kept apart the path is a chain of titles and then lines
that are all below this chain; otherwise the own text of a title stands between it and the titles
below.
-/

import Mathlib
import RagFlow.Flow.TitleTree

namespace RagFlow.Flow

section Laws

variable (lv : ℕ → ℕ) (t : ℕ)

/-- A title above a line. -/
def Above (q p : ℕ) : Prop :=
  q < p ∧ lv q ≤ t ∧ ∀ r, q < r → r ≤ p → lv r ≤ t → lv q < lv r

/-- Lines in order, each with the titles above it and no others before it. -/
structure PathLaw (g : List ℕ) : Prop where
  ordered : g.Pairwise (· < ·)
  titled : ∀ p ∈ g, ∀ q, q ∈ g ∧ q < p ∧ lv q ≤ t ↔ Above lv t q p

/-- A chain of titles with rising levels, and then some lines below it. -/
def StartsWithChain (g : List ℕ) : Prop :=
  ∃ chain content, g = chain ++ content ∧ content ≠ [] ∧
    (∀ p ∈ content, ∀ q, q ∈ chain ↔ Above lv t q p) ∧
    chain.Pairwise fun q q' => lv q < lv q'

/-- The lines of a path so far are before those from `s` up to `e`, and the titles among them are
the ones above each of those. -/
structure Opens (path : List ℕ) (s e : ℕ) : Prop where
  law : PathLaw lv t path
  before : ∀ p ∈ path, p < s
  titled : ∀ p, s ≤ p → p < e → ∀ q, q < s → (q ∈ path ∧ lv q ≤ t ↔ Above lv t q p)

/-- What the paths through the lines from `s` up to `e` are, below the lines of `path`. -/
structure Reads (includeHeadingContent : Bool) (path : List ℕ) (s e : ℕ)
    (paths : List (List ℕ)) : Prop where
  law : ∀ g ∈ paths, PathLaw lv t g
  through : ∀ g ∈ paths, path <+: g ∧ ∀ p ∈ g, p ∈ path ∨ s ≤ p ∧ p < e
  covers : ∀ p, s ≤ p → p < e → ∃ g ∈ paths, p ∈ g
  chain : includeHeadingContent = true → ∀ g ∈ paths, StartsWithChain lv t g
  once : includeHeadingContent = true → ∀ p, s ≤ p → p < e → t < lv p →
    paths.countP (p ∈ ·) = 1

end Laws

section Paths

variable {lv : ℕ → ℕ} {t s m e p q : ℕ} {g path lines : List ℕ} {paths paths' : List (List ℕ)}
  {inc : Bool}

theorem Above.lt (h : Above lv t q p) : q < p := h.1

theorem not_above_of_text (h : t < lv q) : ¬ Above lv t q p := fun habove =>
  absurd habove.2.1 (not_le.mpr h)

/-- The levels of the titles on a path rise. -/
theorem PathLaw.rising (h : PathLaw lv t g) :
    (g.filter fun q => lv q ≤ t).Pairwise fun q q' => lv q < lv q' := by
  refine List.pairwise_filter.mpr (h.ordered.imp_of_mem fun {q q'} hq hq' hlt htitle htitle' => ?_)
  have habove := (h.titled q' hq' q).mp ⟨hq, hlt, of_decide_eq_true htitle⟩
  exact habove.2.2 q' hlt le_rfl (of_decide_eq_true htitle')

/-! ## One more piece of a path -/

/-- Some lines from `s` on, each with those titles from `s` on above it that come before. -/
structure Piece (lv : ℕ → ℕ) (t s e : ℕ) (lines : List ℕ) : Prop where
  ordered : lines.Pairwise (· < ·)
  inside : ∀ p ∈ lines, s ≤ p ∧ p < e
  titled : ∀ p ∈ lines, ∀ q, s ≤ q → (q ∈ lines ∧ q < p ∧ lv q ≤ t ↔ Above lv t q p)

theorem Opens.append (h : Opens lv t path s e) (hpiece : Piece lv t s e lines) :
    PathLaw lv t (path ++ lines) := by
  constructor
  · refine List.pairwise_append.mpr ⟨h.law.ordered, hpiece.ordered, fun p hp p' hp' => ?_⟩
    exact (h.before p hp).trans_le (hpiece.inside p' hp').1
  · intro p hp q
    rw [List.mem_append]
    rcases List.mem_append.mp hp with hp | hp
    · have hps := h.before p hp
      rw [← h.law.titled p hp q]
      refine and_congr_left fun ⟨hqp, _⟩ => or_iff_left fun hq => ?_
      have hsq := (hpiece.inside q hq).1
      omega
    · obtain ⟨hsp, hpe⟩ := hpiece.inside p hp
      rcases lt_or_ge q s with hqs | hqs
      · rw [← h.titled p hsp hpe q hqs, or_iff_left fun hq => ?_]
        · exact and_congr_right fun _ => and_iff_right (by omega)
        · have hsq := (hpiece.inside q hq).1
          omega
      · rw [← hpiece.titled p hp q hqs, or_iff_right fun hq => ?_]
        have hlt := h.before q hq
        omega

/-- A path opens the lines further on whose titles from `s` on are those of the new piece. -/
theorem Opens.next (h : Opens lv t path s e) (hpiece : Piece lv t s e lines) (hsm : s ≤ m)
    (hlines : ∀ p ∈ lines, p < m)
    (htitled : ∀ p, m ≤ p → p < e → ∀ q, s ≤ q → q < m →
      (q ∈ lines ∧ lv q ≤ t ↔ Above lv t q p)) :
    Opens lv t (path ++ lines) m e := by
  refine ⟨h.append hpiece, ?_, ?_⟩
  · intro p hp
    rcases List.mem_append.mp hp with hp | hp
    · exact (h.before p hp).trans_le hsm
    · exact hlines p hp
  · intro p hmp hpe q hqm
    rw [List.mem_append]
    rcases lt_or_ge q s with hqs | hqs
    · rw [← h.titled p (hsm.trans hmp) hpe q hqs, or_iff_left fun hq => ?_]
      have hsq := (hpiece.inside q hq).1
      omega
    · rw [← htitled p hmp hpe q hqs hqm, or_iff_right fun hq => ?_]
      have hlt := h.before q hq
      omega

theorem Opens.left (h : Opens lv t path s e) (hme : m ≤ e) : Opens lv t path s m :=
  ⟨h.law, h.before, fun p hsp hpm => h.titled p hsp (hpm.trans_le hme)⟩

/-- No title of the lines up to `m` is above a later one if the line `m` is a title of no lower
level. -/
theorem Opens.right (h : Opens lv t path s e) (hsm : s ≤ m)
    (hlow : m < e → lv m ≤ t ∧ ∀ q, s ≤ q → q < m → lv q ≤ t → lv m ≤ lv q) :
    Opens lv t path m e := by
  refine ⟨h.law, fun p hp => (h.before p hp).trans_le hsm, fun p hmp hpe q hqm => ?_⟩
  rcases lt_or_ge q s with hqs | hqs
  · exact h.titled p (hsm.trans hmp) hpe q hqs
  · obtain ⟨htitle, hall⟩ := hlow (hmp.trans_lt hpe)
    refine iff_of_false ?_ ?_
    · rintro ⟨hq, -⟩
      have hlt := h.before q hq
      omega
    · rintro ⟨-, hq, hrise⟩
      have hlt := hrise m hqm hmp htitle
      have hle := hall q hqs hqm hq
      omega

/-- A title with nothing more. -/
theorem piece_title (htitle : s < e) : Piece lv t s e [s] := by
  refine ⟨List.pairwise_singleton _ _, by simpa using htitle, ?_⟩
  simp only [List.mem_singleton, forall_eq]
  intro q hsq
  exact iff_of_false (fun h => absurd h.2.1 (by omega)) fun h => absurd h.lt (by omega)

/-- Text that follows no title of the same piece. -/
theorem piece_text {k : ℕ} (hk : s + k ≤ e) (htext : ∀ p, s ≤ p → p < s + k → t < lv p) :
    Piece lv t s e (List.range' s k) := by
  refine ⟨List.pairwise_lt_range', fun p hp => ?_, fun p hp q hsq => ?_⟩
  · rw [List.mem_range'_1] at hp
    omega
  · rw [List.mem_range'_1] at hp
    refine iff_of_false (fun h => ?_) fun h => not_above_of_text (htext q hsq ?_) h
    · have hq := List.mem_range'_1.mp h.1
      exact absurd h.2.2 (not_le.mpr (htext q hsq hq.2))
    · have hqp := h.lt
      omega

/-- A title and its own text. -/
theorem piece_title_text {k : ℕ} (htitle : lv s ≤ t) (hk : s + 1 + k ≤ e)
    (htext : ∀ p, s < p → p < s + 1 + k → t < lv p) :
    Piece lv t s e ([s] ++ List.range' (s + 1) k) := by
  have hrange : [s] ++ List.range' (s + 1) k = List.range' s (k + 1) := rfl
  rw [hrange]
  refine ⟨List.pairwise_lt_range', fun p hp => ?_, fun p hp q hsq => ?_⟩
  · rw [List.mem_range'_1] at hp
    omega
  · rw [List.mem_range'_1] at hp
    constructor
    · rintro ⟨hq, hqp, hle⟩
      rw [List.mem_range'_1] at hq
      obtain rfl : q = s := by
        by_contra hne
        exact absurd hle (not_le.mpr (htext q (by omega) (by omega)))
      refine ⟨hqp, hle, fun r hqr hrp hr => ?_⟩
      exact absurd hr (not_le.mpr (htext r hqr (by omega)))
    · intro habove
      have hqp := habove.lt
      exact ⟨List.mem_range'_1.mpr ⟨hsq, by omega⟩, hqp, habove.2.1⟩

/-! ## Paths one after the other -/

theorem Reads.append (hpath : ∀ p ∈ path, p < s) (hsm : s ≤ m) (hme : m ≤ e)
    (h : Reads lv t inc path s m paths) (h' : Reads lv t inc path m e paths') :
    Reads lv t inc path s e (paths ++ paths') := by
  refine ⟨?_, ?_, ?_, ?_, ?_⟩
  · intro g hg
    rcases List.mem_append.mp hg with hg | hg
    · exact h.law g hg
    · exact h'.law g hg
  · intro g hg
    rcases List.mem_append.mp hg with hg | hg
    · obtain ⟨hpre, hin⟩ := h.through g hg
      exact ⟨hpre, fun p hp => (hin p hp).imp_right fun hr => ⟨hr.1, hr.2.trans_le hme⟩⟩
    · obtain ⟨hpre, hin⟩ := h'.through g hg
      exact ⟨hpre, fun p hp => (hin p hp).imp_right fun hr => ⟨hsm.trans hr.1, hr.2⟩⟩
  · intro p hsp hpe
    rcases lt_or_ge p m with hpm | hmp
    · obtain ⟨g, hg, hin⟩ := h.covers p hsp hpm
      exact ⟨g, List.mem_append_left _ hg, hin⟩
    · obtain ⟨g, hg, hin⟩ := h'.covers p hmp hpe
      exact ⟨g, List.mem_append_right _ hg, hin⟩
  · intro hinc g hg
    rcases List.mem_append.mp hg with hg | hg
    · exact h.chain hinc g hg
    · exact h'.chain hinc g hg
  · intro hinc p hsp hpe htext
    have hnot : p ∉ path := fun hp => absurd (hpath p hp) (by omega)
    rw [List.countP_append]
    rcases lt_or_ge p m with hpm | hmp
    · rw [h.once hinc p hsp hpm htext, List.countP_eq_zero.mpr fun g hg => ?_]
      rw [decide_eq_true_iff]
      intro hin
      rcases (h'.through g hg).2 p hin with hp | hp
      · exact hnot hp
      · omega
    · rw [h'.once hinc p hmp hpe htext, List.countP_eq_zero.mpr fun g hg => ?_]
      rw [decide_eq_true_iff]
      intro hin
      rcases (h.through g hg).2 p hin with hp | hp
      · exact hnot hp
      · omega

/-! ## Paths through a node -/

theorem PathLaw.startsWithChain {chain content : List ℕ} (h : PathLaw lv t (chain ++ content))
    (hne : content ≠ []) (hchain : ∀ q ∈ chain, lv q ≤ t)
    (hcontent : ∀ p ∈ content, ∀ q ∈ content, q < p → t < lv q) :
    StartsWithChain lv t (chain ++ content) := by
  obtain ⟨hordered, -, hbefore⟩ := List.pairwise_append.mp h.ordered
  refine ⟨chain, content, rfl, hne, fun p hp q => ?_, ?_⟩
  · rw [← h.titled p (List.mem_append_right _ hp) q]
    constructor
    · exact fun hq => ⟨List.mem_append_left _ hq, hbefore q hq p hp, hchain q hq⟩
    · rintro ⟨hq, hqp, htitle⟩
      refine (List.mem_append.mp hq).resolve_right fun hq => ?_
      exact absurd htitle (not_le.mpr (hcontent p hp q hq hqp))
  · have hrising := (List.pairwise_append.mp ((List.filter_append ..) ▸ h.rising)).1
    rwa [List.filter_eq_self.mpr fun q hq => decide_eq_true (hchain q hq)] at hrising

/-- The paths of a node, of which those below go through `lines`. -/
theorem Reads.node (own : List (List ℕ)) (hpath : ∀ p ∈ path, p < s) (hsm : s ≤ m) (hme : m ≤ e)
    (hlines : ∀ p ∈ lines, s ≤ p ∧ p < m)
    (hlaw : ∀ g ∈ own, PathLaw lv t g)
    (hthrough : ∀ g ∈ own, path <+: g ∧ ∀ p ∈ g, p ∈ path ∨ s ≤ p ∧ p < m)
    (hchain : inc = true → ∀ g ∈ own, StartsWithChain lv t g)
    (hcovers : ∀ p, s ≤ p → p < m → ∃ g ∈ own ++ paths, p ∈ g)
    (honce : inc = true → ∀ p, s ≤ p → p < m → t < lv p → p ∉ lines ∧ own.countP (p ∈ ·) = 1)
    (h : Reads lv t inc (path ++ lines) m e paths) : Reads lv t inc path s e (own ++ paths) := by
  refine ⟨?_, ?_, ?_, ?_, ?_⟩
  · intro g hg
    rcases List.mem_append.mp hg with hg | hg
    · exact hlaw g hg
    · exact h.law g hg
  · intro g hg
    rcases List.mem_append.mp hg with hg | hg
    · obtain ⟨hpre, hin⟩ := hthrough g hg
      exact ⟨hpre, fun p hp => (hin p hp).imp_right fun hr => ⟨hr.1, hr.2.trans_le hme⟩⟩
    · obtain ⟨hpre, hin⟩ := h.through g hg
      refine ⟨(List.prefix_append _ _).trans hpre, fun p hp => ?_⟩
      rcases hin p hp with hp | hp
      · refine (List.mem_append.mp hp).imp_right fun hp => ?_
        exact ⟨(hlines p hp).1, (hlines p hp).2.trans_le hme⟩
      · exact .inr ⟨hsm.trans hp.1, hp.2⟩
  · intro p hsp hpe
    rcases lt_or_ge p m with hpm | hmp
    · exact hcovers p hsp hpm
    · obtain ⟨g, hg, hin⟩ := h.covers p hmp hpe
      exact ⟨g, List.mem_append_right _ hg, hin⟩
  · intro hinc g hg
    rcases List.mem_append.mp hg with hg | hg
    · exact hchain hinc g hg
    · exact h.chain hinc g hg
  · intro hinc p hsp hpe htext
    have hnot : p ∉ path := fun hp => absurd (hpath p hp) (by omega)
    rw [List.countP_append]
    rcases lt_or_ge p m with hpm | hmp
    · obtain ⟨hline, hown⟩ := honce hinc p hsp hpm htext
      rw [hown, List.countP_eq_zero.mpr fun g hg => ?_]
      rw [decide_eq_true_iff]
      intro hin
      rcases (h.through g hg).2 p hin with hp | hp
      · exact (List.mem_append.mp hp).elim hnot hline
      · omega
    · rw [h.once hinc p hmp hpe htext, List.countP_eq_zero.mpr fun g hg => ?_]
      rw [decide_eq_true_iff]
      intro hin
      rcases (hthrough g hg).2 p hin with hp | hp
      · exact hnot hp
      · omega

mutual

/-- The titles of a node have at least its level. -/
theorem spans_low : ∀ (node : ChunkNode) (s e : ℕ), node.Spans lv t s e →
    s ≤ e ∧ ∀ r, s ≤ r → r < e → lv r ≤ t → node.level ≤ lv r
  | .mk level titles bodies children, s, e, h => by
      obtain ⟨hhead, ⟨k, rfl, hchildren⟩, htext, hbelow, -⟩ := h
      obtain ⟨hle, hlow⟩ := spanAll_low children _ e level hchildren fun c hc => (hbelow c hc).le
      refine ⟨by omega, fun r hsr hre hr => ?_⟩
      rcases lt_or_ge r (s + titles.length + k) with hlt | hge
      · rcases lt_or_ge r (s + titles.length) with hlt' | hge'
        · rcases hhead with ⟨rfl, rfl, -⟩ | ⟨rfl, -⟩
          · obtain rfl : r = s := by
              rw [List.length_singleton] at hlt'
              omega
            exact le_rfl
          · rw [List.length_nil] at hlt'
            omega
        · exact absurd hr (not_le.mpr (htext r (List.mem_range'_1.mpr ⟨hge', hlt⟩)))
      · exact hlow r hge hre hr

theorem spanAll_low : ∀ (children : List ChunkNode) (s e l : ℕ), SpanAll lv t children s e →
    (∀ c ∈ children, l ≤ c.level) → s ≤ e ∧ ∀ r, s ≤ r → r < e → lv r ≤ t → l ≤ lv r
  | [], s, e, l, h, _ => by
      obtain rfl : s = e := h
      exact ⟨le_rfl, fun r hsr hrs => by omega⟩
  | child :: children, s, e, l, h, hlevel => by
      obtain ⟨m, hchild, hrest⟩ := h
      obtain ⟨hsm, hlow⟩ := spans_low child s m hchild
      obtain ⟨hme, hlow'⟩ := spanAll_low children m e l hrest fun c hc =>
        hlevel c (List.mem_cons_of_mem _ hc)
      refine ⟨hsm.trans hme, fun r hsr hre hr => ?_⟩
      rcases lt_or_ge r m with hlt | hge
      · exact (hlevel child List.mem_cons_self).trans (hlow r hsr hlt hr)
      · exact hlow' r hge hre hr

end

/-- A node that is not the root begins with its title. -/
theorem ChunkNode.Spans.title {node : ChunkNode} (h : node.Spans lv t s e)
    (hlevel : 1 ≤ node.level) : s < e ∧ node.level = lv s ∧ lv s ≤ t := by
  obtain ⟨level, titles, bodies, children⟩ := node
  obtain ⟨hhead, ⟨k, rfl, hchildren⟩, htext, hbelow, -⟩ := h
  rcases hhead with ⟨rfl, hlv, ht⟩ | ⟨-, h0⟩
  · have hle := (spanAll_low children _ e level hchildren fun c hc => (hbelow c hc).le).1
    rw [List.length_singleton] at hle
    exact ⟨by omega, hlv, ht⟩
  · exact absurd hlevel (by rw [ChunkNode.level, h0]; decide)

/-- The lines behind a title and its own text have the title above them, and nothing else of the
two. -/
theorem opens_children {level k : ℕ} {children : List ChunkNode}
    (h : Opens lv t path s e) (hpiece : Piece lv t s e lines) (hself : s ∈ lines)
    (hin : ∀ p ∈ lines, p < s + 1 + k) (hlv : level = lv s) (htitle : lv s ≤ t)
    (htext : ∀ p, s < p → p < s + 1 + k → t < lv p)
    (hchildren : SpanAll lv t children (s + 1 + k) e) (hbelow : ∀ c ∈ children, level < c.level) :
    Opens lv t (path ++ lines) (s + 1 + k) e := by
  refine h.next hpiece (by omega) hin fun p hmp hpe q hsq hqm => ?_
  rcases Nat.eq_or_lt_of_le hsq with rfl | hsq
  · refine iff_of_true ⟨hself, htitle⟩ ⟨by omega, htitle, fun r hsr hrp hr => ?_⟩
    rcases lt_or_ge r (s + 1 + k) with hlt | hge
    · exact absurd hr (not_le.mpr (htext r hsr hlt))
    · have hlow := (spanAll_low children _ e (level + 1) hchildren hbelow).2
      have hle := hlow r hge (by omega) hr
      omega
  · have htextq := htext q hsq hqm
    exact iff_of_false (fun hq => absurd hq.2 (not_le.mpr htextq)) (not_above_of_text htextq)

/-- The node has a path of its own, with its title and its text. -/
theorem Reads.own {own : List ℕ} (hopens : Opens lv t path s e) (hown : Piece lv t s e own)
    (hsm : s ≤ m) (hme : m ≤ e) (hmem : ∀ p, p ∈ own ↔ s ≤ p ∧ p < m) (hlines : lines ⊆ own)
    (hchain : inc = true → StartsWithChain lv t (path ++ own))
    (honce : inc = true → ∀ p ∈ own, t < lv p → p ∉ lines)
    (h : Reads lv t inc (path ++ lines) m e paths) :
    Reads lv t inc path s e ([path ++ own] ++ paths) := by
  refine h.node _ hopens.before hsm hme (fun p hp => (hmem p).mp (hlines hp)) ?_ ?_ ?_ ?_ ?_
  · exact List.forall_mem_singleton.mpr (hopens.append hown)
  · refine List.forall_mem_singleton.mpr ⟨List.prefix_append _ _, fun p hp => ?_⟩
    exact (List.mem_append.mp hp).imp_right (hmem p).mp
  · exact fun hinc => List.forall_mem_singleton.mpr (hchain hinc)
  · intro p hsp hpm
    exact ⟨path ++ own, List.mem_cons_self, List.mem_append_right _ ((hmem p).mpr ⟨hsp, hpm⟩)⟩
  · intro hinc p hsp hpm htext
    have hp := (hmem p).mpr ⟨hsp, hpm⟩
    refine ⟨honce hinc p hp htext, ?_⟩
    rw [List.countP_singleton, if_pos (decide_eq_true (List.mem_append_right _ hp))]

/-- The node has no path of its own, and those below go through all of its lines. -/
theorem Reads.notOwn (hopens : Opens lv t path s e) (hsm : s ≤ m) (hme : m < e)
    (hmem : ∀ p, p ∈ lines ↔ s ≤ p ∧ p < m) (htitles : inc = true → ∀ p ∈ lines, lv p ≤ t)
    (h : Reads lv t inc (path ++ lines) m e paths) : Reads lv t inc path s e paths := by
  refine h.node [] hopens.before hsm hme.le (fun p hp => (hmem p).mp hp) (by simp)
    (by simp) (by simp) ?_ ?_
  · intro p hsp hpm
    obtain ⟨g, hg, -⟩ := h.covers m le_rfl hme
    refine ⟨g, hg, (h.through g hg).1.subset ?_⟩
    exact List.mem_append_right _ ((hmem p).mpr ⟨hsp, hpm⟩)
  · intro hinc p hsp hpm htext
    have htitle := htitles hinc p ((hmem p).mpr ⟨hsp, hpm⟩)
    exact absurd htext (not_lt.mpr htitle)

/-- A node with the title `s`, then `k` lines of text, and on to `e` what lies below it. -/
structure Titled (lv : ℕ → ℕ) (t level s k e : ℕ) (bodies : List ℕ) (children : List ChunkNode) :
    Prop where
  lt : s < e
  level_eq : level = lv s
  title : lv s ≤ t
  mem : ∀ p, p ∈ [s] ++ bodies ↔ s ≤ p ∧ p < s + 1 + k
  length : bodies.length = k
  text : ∀ p, s < p → p < s + 1 + k → t < lv p
  deeper : ∀ b ∈ bodies, t < lv b
  spans : SpanAll lv t children (s + 1 + k) e
  below : ∀ c ∈ children, level < c.level
  le : s + 1 + k ≤ e
  first : children ≠ [] → s + 1 + k < e
  piece : Piece lv t s e ([s] ++ bodies)

theorem ChunkNode.Spans.titled {level : ℕ} {titles bodies : List ℕ} {children : List ChunkNode}
    (h : (ChunkNode.mk level titles bodies children).Spans lv t s e) (hlevel : 1 ≤ level) :
    titles = [s] ∧ ∃ k, Titled lv t level s k e bodies children := by
  obtain ⟨hse, hlv, htitle⟩ := h.title hlevel
  obtain ⟨hhead, ⟨k, hbodies, hchildren⟩, htext, hbelow, -⟩ := h
  obtain rfl : titles = [s] := by
    rcases hhead with ⟨rfl, -⟩ | ⟨-, h0⟩
    · rfl
    · omega
  rw [List.length_singleton] at hbodies hchildren
  have htext' : ∀ p, s < p → p < s + 1 + k → t < lv p := fun p hsp hpm =>
    htext p (hbodies ▸ List.mem_range'_1.mpr ⟨hsp, hpm⟩)
  have hme := (spanAll_low children _ e (level + 1) hchildren hbelow).1
  have hpiece := piece_title_text htitle hme htext'
  rw [← hbodies] at hpiece
  refine ⟨rfl, k, hse, hlv, htitle, ?_, ?_, htext', htext, hchildren, hbelow, hme, ?_, hpiece⟩
  · intro p
    rw [List.mem_append, List.mem_singleton, hbodies, List.mem_range'_1]
    omega
  · rw [hbodies, List.length_range']
  · intro hne
    obtain ⟨child, rest, rfl⟩ := List.exists_cons_of_ne_nil hne
    obtain ⟨m, hchild, hmore⟩ := hchildren
    have hpositive := hbelow child List.mem_cons_self
    have hlt := (hchild.title (by omega)).1
    have hle := (spanAll_low rest m e 0 hmore fun c _ => Nat.zero_le _).1
    omega

section Titled

variable {level k : ℕ} {bodies : List ℕ} {children : List ChunkNode}

/-- With the headings, the title goes on to what lies below, and the text only where the node has
a path of its own. -/
theorem Titled.reads_headings (h : Titled lv t level s k e bodies children) (hlevel : 1 ≤ level)
    (hopens : Opens lv t path s e) (htitles : ∀ q ∈ path, lv q ≤ t)
    (hreads : Reads lv t true (path ++ [s]) (s + 1 + k) e (pathsOf t true children (path ++ [s]))) :
    Reads lv t true path s e ((ChunkNode.mk level [s] bodies children).dfs t true path) := by
  have hwithin : 1 ≤ level ∧ level ≤ t := ⟨hlevel, h.level_eq ▸ h.title⟩
  have hnot : level ≠ 0 := by omega
  have hlaw := hopens.append h.piece
  have hme := h.le
  by_cases hbody : bodies = []
  · obtain rfl : k = 0 := by rw [← h.length, hbody, List.length_nil]
    subst hbody
    by_cases hleaf : children = []
    · have hdfs : (ChunkNode.mk level [s] [] children).dfs t true path =
          [path ++ ([s] ++ [])] ++ pathsOf t true children (path ++ [s]) := by
        simp [ChunkNode.dfs, hwithin, hnot, hleaf]
      rw [hdfs]
      refine hreads.own hopens h.piece (by omega) hme h.mem (by simp) (fun _ => ?_) ?_
      · refine hlaw.startsWithChain (by simp) htitles ?_
        simp
      · intro _ p hp htextp
        obtain rfl := List.mem_singleton.mp hp
        exact absurd h.title (not_le.mpr htextp)
    · have hdfs : (ChunkNode.mk level [s] [] children).dfs t true path =
          pathsOf t true children (path ++ [s]) := by
        simp [ChunkNode.dfs, hwithin, hnot, hleaf]
      rw [hdfs]
      refine hreads.notOwn hopens (by omega) (h.first hleaf) h.mem fun _ p hp => ?_
      exact List.mem_singleton.mp hp ▸ h.title
  · have hdfs : (ChunkNode.mk level [s] bodies children).dfs t true path =
        [path ++ ([s] ++ bodies)] ++ pathsOf t true children (path ++ [s]) := by
      simp [ChunkNode.dfs, hwithin, hnot, hbody]
    rw [hdfs]
    refine hreads.own hopens h.piece (by omega) hme h.mem (by simp) (fun _ => ?_) ?_
    · rw [← List.append_assoc] at hlaw ⊢
      refine hlaw.startsWithChain hbody ?_ fun p _ q hq _ => h.deeper q hq
      intro q hq
      rcases List.mem_append.mp hq with hq | hq
      · exact htitles q hq
      · exact List.mem_singleton.mp hq ▸ h.title
    · intro _ p _ htextp hp
      obtain rfl := List.mem_singleton.mp hp
      exact absurd h.title (not_le.mpr htextp)

/-- Without the headings, the title and the text go on to what lies below. -/
theorem Titled.reads_plain (h : Titled lv t level s k e bodies children) (hlevel : 1 ≤ level)
    (hopens : Opens lv t path s e)
    (hreads : Reads lv t false (path ++ ([s] ++ bodies)) (s + 1 + k) e
      (pathsOf t false children (path ++ ([s] ++ bodies)))) :
    Reads lv t false path s e ((ChunkNode.mk level [s] bodies children).dfs t false path) := by
  have hwithin : 1 ≤ level ∧ level ≤ t := ⟨hlevel, h.level_eq ▸ h.title⟩
  have hnot : level ≠ 0 := by omega
  by_cases hleaf : children = []
  · have hdfs : (ChunkNode.mk level [s] bodies children).dfs t false path =
        [path ++ ([s] ++ bodies)] ++ pathsOf t false children (path ++ ([s] ++ bodies)) := by
      simp [ChunkNode.dfs, hwithin, hnot, hleaf]
    rw [hdfs]
    exact hreads.own hopens h.piece (by omega) h.le h.mem (List.Subset.refl _) (by simp) (by simp)
  · have hdfs : (ChunkNode.mk level [s] bodies children).dfs t false path =
        pathsOf t false children (path ++ ([s] ++ bodies)) := by
      simp [ChunkNode.dfs, hwithin, hnot, hleaf]
    rw [hdfs]
    exact hreads.notOwn hopens (by omega) (h.first hleaf) h.mem (by simp)

end Titled

/-- A node is read right if what lies below it is. -/
theorem dfs_reads_of_children {level : ℕ} {titles bodies : List ℕ} {children : List ChunkNode}
    (hlevel : 1 ≤ level) (hspans : (ChunkNode.mk level titles bodies children).Spans lv t s e)
    (hopens : Opens lv t path s e) (htitles : inc = true → ∀ q ∈ path, lv q ≤ t)
    (hrest : ∀ path' m, SpanAll lv t children m e → Opens lv t path' m e →
      (inc = true → ∀ q ∈ path', lv q ≤ t) →
        Reads lv t inc path' m e (pathsOf t inc children path')) :
    Reads lv t inc path s e ((ChunkNode.mk level titles bodies children).dfs t inc path) := by
  obtain ⟨rfl, k, h⟩ := hspans.titled hlevel
  cases inc with
  | true =>
      have hopen := opens_children hopens (piece_title h.lt) List.mem_cons_self (by simp; omega)
        h.level_eq h.title h.text h.spans h.below
      apply h.reads_headings hlevel hopens (htitles rfl)
      apply hrest _ _ h.spans hopen
      intro _ q hq
      rcases List.mem_append.mp hq with hq | hq
      · exact htitles rfl q hq
      · exact List.mem_singleton.mp hq ▸ h.title
  | false =>
      have hopen := opens_children hopens h.piece (by simp) (fun p hp => ((h.mem p).mp hp).2)
        h.level_eq h.title h.text h.spans h.below
      apply h.reads_plain hlevel hopens
      exact hrest _ _ h.spans hopen (by simp)

mutual

/-- Every node is read right, whatever lies below it. -/
theorem dfs_reads : ∀ (node : ChunkNode) (path : List ℕ) (s e : ℕ), 1 ≤ node.level →
    node.Spans lv t s e → Opens lv t path s e → (inc = true → ∀ q ∈ path, lv q ≤ t) →
      Reads lv t inc path s e (node.dfs t inc path)
  | .mk _ _ _ children, _, _, e, hlevel, hspans, hopens, htitles =>
      dfs_reads_of_children hlevel hspans hopens htitles fun path' m hspan hopens' htitles' =>
        pathsOf_reads children path' m e
          (fun c hc => hlevel.trans (hspans.2.2.2.1 c hc).le) hspans.2.2.2.2 hspan hopens' htitles'

theorem pathsOf_reads : ∀ (children : List ChunkNode) (path : List ℕ) (s e : ℕ),
    (∀ c ∈ children, 1 ≤ c.level) → children.Pairwise (fun c c' => c'.level ≤ c.level) →
      SpanAll lv t children s e → Opens lv t path s e → (inc = true → ∀ q ∈ path, lv q ≤ t) →
        Reads lv t inc path s e (pathsOf t inc children path)
  | [], path, s, e, _, _, hspan, _, _ => by
      obtain rfl : s = e := hspan
      refine ⟨by simp [pathsOf], by simp [pathsOf], fun p hsp hps => ?_, by simp [pathsOf],
        fun _ p hsp hps => ?_⟩ <;> omega
  | child :: children, path, s, e, hpositive, hfalling, hspan, hopens, htitles => by
      obtain ⟨m, hchild, hrest⟩ := hspan
      obtain ⟨hlast, hfalling⟩ := List.pairwise_cons.mp hfalling
      obtain ⟨hsm, hlow⟩ := spans_low child s m hchild
      have hme := (spanAll_low children m e 0 hrest fun c _ => Nat.zero_le _).1
      have hpositive' := fun c hc => hpositive c (List.mem_cons_of_mem _ hc)
      have hopens' : Opens lv t path m e := by
        refine hopens.right hsm fun hlt => ?_
        cases children with
        | nil =>
            obtain rfl : m = e := hrest
            exact absurd hlt (lt_irrefl m)
        | cons next more =>
            obtain ⟨m', hnext, -⟩ := hrest
            obtain ⟨-, hlv, htitle⟩ := hnext.title (hpositive' next List.mem_cons_self)
            refine ⟨htitle, fun q hsq hqm hq => ?_⟩
            have hle := hlast next List.mem_cons_self
            exact hlv ▸ hle.trans (hlow q hsq hqm hq)
      rw [pathsOf]
      exact Reads.append hopens.before hsm hme
        (dfs_reads child path s m (hpositive child List.mem_cons_self) hchild (hopens.left hme)
          htitles)
        (pathsOf_reads children path m e hpositive' hfalling hrest hopens' htitles)

end

/-! ## Paths from the root -/

theorem opens_nil : Opens lv t [] 0 e :=
  ⟨⟨.nil, by simp⟩, by simp, fun _ _ _ _ hq => absurd hq (Nat.not_lt_zero _)⟩

/-- The text before the first title has a path of its own. -/
theorem Reads.ofRoot {k : ℕ} (hk : k ≠ 0) (hke : k ≤ e) (htext : ∀ p, p < k → t < lv p)
    (h : Reads lv t inc [] k e paths) : Reads lv t inc [] 0 e ([List.range' 0 k] ++ paths) := by
  have hpiece : Piece lv t 0 e (List.range' 0 k) :=
    piece_text (by omega) fun p _ hp => htext p (by omega)
  have h' : Reads lv t inc ([] ++ []) k e paths := h
  refine h'.own opens_nil hpiece (Nat.zero_le k) hke ?_ (by simp) ?_ (by simp)
  · intro p
    rw [List.mem_range'_1, zero_add]
  · refine fun _ => (opens_nil.append hpiece).startsWithChain ?_ (by simp) ?_
    · rwa [ne_eq, List.range'_eq_nil_iff]
    · intro p _ q hq _
      exact htext q (by rw [List.mem_range'_1] at hq; omega)

theorem reads_empty : Reads lv t inc [] e e [] :=
  ⟨by simp, by simp, fun p hep hpe => by omega, by simp, fun _ p hep hpe => by omega⟩

theorem getPaths_reads {root : ChunkNode} (hspans : root.Spans lv t 0 e) (hroot : root.level = 0)
    (hpos : 1 ≤ lv 0) : Reads lv t inc [] 0 e (root.getPaths t inc) := by
  obtain ⟨level, titles, bodies, children⟩ := root
  obtain rfl : level = 0 := hroot
  obtain ⟨hhead, ⟨k, hbodies, hchildren⟩, htext, hbelow, hfalling⟩ := hspans
  obtain rfl : titles = [] := by
    rcases hhead with ⟨-, hlv, -⟩ | ⟨rfl, -⟩
    · omega
    · rfl
  rw [List.length_nil, add_zero] at hbodies hchildren
  rw [zero_add] at hchildren
  have hke := (spanAll_low children k e 1 hchildren hbelow).1
  have htext' : ∀ p, p < k → t < lv p := fun p hp =>
    htext p (hbodies ▸ List.mem_range'_1.mpr ⟨Nat.zero_le p, by omega⟩)
  have hopens : Opens lv t [] k e := by
    refine ⟨opens_nil (e := e).law, by simp, fun p _ _ q hq => ?_⟩
    exact iff_of_false (by simp) (not_above_of_text (htext' q hq))
  have hreads : Reads lv t inc [] k e (pathsOf t inc children []) :=
    pathsOf_reads children [] k e hbelow hfalling hchildren hopens (by simp)
  by_cases hbody : bodies = []
  · obtain rfl : k = 0 := by simpa [hbody] using (congrArg List.length hbodies).symm
    have hdfs : (ChunkNode.mk 0 [] bodies children).getPaths t inc = pathsOf t inc children [] := by
      cases inc <;> simp [ChunkNode.getPaths, ChunkNode.dfs, hbody]
    rwa [hdfs]
  · have hk : k ≠ 0 := by
      rintro rfl
      exact hbody hbodies
    have hdfs : (ChunkNode.mk 0 [] bodies children).getPaths t inc =
        [List.range' 0 k] ++ pathsOf t inc children [] := by
      cases inc <;> simp [ChunkNode.getPaths, ChunkNode.dfs, hbody, ← hbodies]
    rw [hdfs]
    exact hreads.ofRoot hk hke htext'

/-- A path without lines would be none. -/
theorem Reads.filter_ne_nil (h : Reads lv t inc path s e paths) :
    Reads lv t inc path s e (paths.filter (· ≠ [])) := by
  refine ⟨fun g hg => h.law g (List.mem_of_mem_filter hg),
    fun g hg => h.through g (List.mem_of_mem_filter hg), fun p hsp hpe => ?_,
    fun hinc g hg => h.chain hinc g (List.mem_of_mem_filter hg), fun hinc p hsp hpe htext => ?_⟩
  · obtain ⟨g, hg, hin⟩ := h.covers p hsp hpe
    exact ⟨g, List.mem_filter.mpr ⟨hg, decide_eq_true (List.ne_nil_of_mem hin)⟩, hin⟩
  · rw [← h.once hinc p hsp hpe htext, List.countP_filter]
    refine List.countP_congr fun g _ => ?_
    simp only [Bool.and_eq_true, decide_eq_true_iff]
    exact and_iff_left_of_imp List.ne_nil_of_mem

end Paths

end RagFlow.Flow
