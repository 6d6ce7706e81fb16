import Midend.Proofs.ImmediateDominators
import Midend.Proofs.Sequences

/-!
# The dominator tree is what it should be

The computed tree answers exactly the questions of dominance over paths.  Its orders list the reachable
blocks once each, and in both of them a dominator comes before what it dominates.

## Shape of the argument

The parents that the iteration ends with are the immediate dominators.  So the blocks below a block in the
tree are those it dominates, and the tour that numbers the tree goes through them one after the other
(`Toured`).  One block dominates another when the other stands in its stretch of the pre-order, and this
can be seen from the two ends of their stretches.

None of the loops that make the tree needs its bound: written without bounds they come to an end, and leave
the same tree (`finished`).
-/

namespace Midend

namespace DomTree

open Midend.Graph

variable {g : Graph} {t : DomTree} {a b c : BlockId}

/-! ## What the tree is made of -/

/-- A tree is computed for a graph that has its entry. -/
theorem entry_mem_of_ofGraph (h : ofGraph g = .ok t) : g.entry ∈ g.blockIds := by
  simp only [ofGraph, Checked.bind_eq_ok, block, Checked.ofOption_eq_ok] at h
  obtain ⟨entry, hentry, -⟩ := h
  rw [mem_blockIds]
  exact (Array.getElem?_eq_some_iff.1 hentry).1

/-- A graph that has its entry has a tree. -/
theorem ofGraph_eq_ok (h : g.entry ∈ g.blockIds) : ∃ t, ofGraph g = .ok t := by
  rw [mem_blockIds] at h
  rw [ofGraph, block, Array.getElem?_eq_getElem h]
  exact ⟨_, rfl⟩

/-- The number that the iteration gives a block: its place, and a larger one if it has no place. -/
def number (t : DomTree) (b : BlockId) : Nat := (t.rpoNumbers.get b.index).getD t.rpo.length

/-- How the tables of the tree are filled. -/
theorem ofGraph_inv (h : ofGraph g = .ok t) : t.rpo = g.reachable ∧
    t.rpoNumbers = t.rpo.zipIdx.foldl (fun u x => u.set x.1.index (some x.2)) Table.empty ∧
    t.idoms = idomsOf t.number g.entry g.preds t.rpo ∧
    t.preorder = (Tour.visit t.childLists t.rpo.length .start g.entry).blocks.toList ∧
    t.first = (Tour.visit t.childLists t.rpo.length .start g.entry).first ∧
    t.last = (Tour.visit t.childLists t.rpo.length .start g.entry).last := by
  simp only [ofGraph, Checked.bind_eq_ok, Checked.pure_eq_ok] at h
  obtain ⟨_, _, rfl⟩ := h
  exact ⟨rfl, rfl, rfl, rfl, rfl, rfl⟩

/-- The order of the tree is the order of the search. -/
theorem rpo_eq (h : ofGraph g = .ok t) : t.rpo = g.reachable := (ofGraph_inv h).1

/-- The tree depends on the entry, the number of blocks and the edges alone. -/
theorem ofGraph_congr {g' : Graph} (hentry : g'.entry = g.entry)
    (hsize : g'.blocks.size = g.blocks.size) (hsuccs : g'.succs = g.succs) (hpreds : g'.preds = g.preds)
    (h : ofGraph g = .ok t) : ofGraph g' = .ok t := by
  have hmem := entry_mem_of_ofGraph h
  rw [mem_blockIds] at hmem
  have hreach : g'.reachable = g.reachable := by
    rw [reachable, reachable, hentry, hsize, hsuccs]
  simp only [ofGraph, Checked.bind_eq_ok, Checked.pure_eq_ok] at h ⊢
  obtain ⟨_, _, rfl⟩ := h
  refine ⟨_, by rw [block, Checked.ofOption_eq_ok, hentry]; exact Array.getElem?_eq_getElem (hsize ▸ hmem),
    ?_⟩
  rw [hreach, hpreds, hentry]

/-- No block is in the order twice. -/
theorem nodup_rpo (h : ofGraph g = .ok t) : t.rpo.Nodup := rpo_eq h ▸ nodup_reachable

/-- The order lists the reachable blocks. -/
theorem mem_rpo (hg : g.Consistent) (h : ofGraph g = .ok t) : b ∈ t.rpo ↔ g.Reachable b := by
  rw [rpo_eq h, hg.mem_reachable (entry_mem_of_ofGraph h)]
  rfl

/-- The number of a block is its place in the order. -/
theorem rpoNumber?_eq (h : ofGraph g = .ok t) (n : Nat) :
    t.rpoNumber? b = some n ↔ t.rpo[n]? = some b := by
  have hnodup := nodup_rpo h
  obtain ⟨-, hnumbers, -⟩ := ofGraph_inv h
  rw [rpoNumber?, hnumbers]
  by_cases hb : b ∈ t.rpo
  · obtain ⟨m, hm⟩ := List.mem_iff_getElem?.1 hb
    have hmem : (b, m) ∈ t.rpo.zipIdx := List.mem_zipIdx_iff_getElem?.2 hm
    have hunique : ∀ y ∈ t.rpo.zipIdx, y.1.index = b.index → some y.2 = some m := by
      intro y hy hyb
      have hy' := List.mem_zipIdx_iff_getElem?.1 hy
      rw [BlockId.index_inj.1 hyb] at hy'
      exact congrArg some ((List.getElem?_inj (List.getElem?_eq_some_iff.1 hy').1 hnodup).1 (hy'.trans hm.symm))
    have hget := Table.get_foldl_set_of_mem (k := fun x : BlockId × Nat => x.1.index)
      (v := fun x => some x.2) (t := Table.empty) hmem hunique
    rw [hget]
    simp only [Option.some.injEq]
    constructor
    · rintro rfl
      exact hm
    · intro hn
      exact (List.getElem?_inj (List.getElem?_eq_some_iff.1 hm).1 hnodup).1 (hm.trans hn.symm)
  · have hne : ∀ y ∈ t.rpo.zipIdx, y.1.index ≠ b.index := by
      intro y hy hyb
      exact hb (BlockId.index_inj.1 hyb ▸ List.mem_of_getElem? (List.mem_zipIdx_iff_getElem?.1 hy))
    have hget := Table.get_foldl_set_of_ne (k := fun x : BlockId × Nat => x.1.index)
      (v := fun x => some x.2) (t := Table.empty) hne
    rw [hget]
    constructor
    · intro hn
      rw [Table.get_empty] at hn
      cases hn
    · intro hn
      exact absurd (List.mem_of_getElem? hn) hb

/-- A block has a number when it is in the order. -/
theorem isReachable_iff_mem (h : ofGraph g = .ok t) : t.isReachable b = true ↔ b ∈ t.rpo := by
  rw [isReachable, Option.isSome_iff_exists, List.mem_iff_getElem?]
  simp only [rpoNumber?_eq h]

/-- Reachability, as the tree answers it. -/
theorem isReachable_iff (hg : g.Consistent) (h : ofGraph g = .ok t) :
    t.isReachable b = true ↔ g.Reachable b := by
  rw [isReachable_iff_mem h, mem_rpo hg h]

/-! ## Order of the search -/

/-- In reverse post-order, what strictly dominates a block comes before it. -/
theorem mem_of_rpo_eq (h : ofGraph g = .ok t) {l r : List BlockId} (hl : t.rpo = l ++ b :: r)
    (hab : g.SDom a b) : a ∈ l := by
  rw [rpo_eq h] at hl
  have hp := exists_path_of_reachable_eq hl
  by_contra ha
  refine hab.1.2 (hp.mono fun x hx => ?_)
  rintro rfl
  rcases List.mem_append.1 hx with hx | hx
  · exact ha hx
  · exact hab.2 (by simpa using hx)

/-- Numbers in reverse post-order grow along dominance. -/
theorem rpo_lt_of_sdom (h : ofGraph g = .ok t) (hab : g.SDom a b) {m n : Nat}
    (hm : t.rpo[m]? = some a) (hn : t.rpo[n]? = some b) : m < n := by
  obtain ⟨hlt, hget⟩ := List.getElem?_eq_some_iff.1 hn
  have hsplit : t.rpo = t.rpo.take n ++ b :: t.rpo.drop (n + 1) := by
    rw [← hget, List.getElem_cons_drop, List.take_append_drop]
  have ha := mem_of_rpo_eq h hsplit hab
  obtain ⟨k, hk⟩ := List.mem_iff_getElem?.1 ha
  have hkn : k < n := by
    have hlen := (List.getElem?_eq_some_iff.1 hk).1
    rw [List.length_take] at hlen
    omega
  rw [List.getElem?_take_of_lt hkn] at hk
  have hmk := (List.getElem?_inj (List.getElem?_eq_some_iff.1 hm).1 (nodup_rpo h)).1 (hm.trans hk.symm)
  omega

/-- Numbers in reverse post-order do not fall along dominance. -/
theorem rpo_le_of_dom (h : ofGraph g = .ok t) (hab : g.Dom a b) {m n : Nat} (hm : t.rpo[m]? = some a)
    (hn : t.rpo[n]? = some b) : m ≤ n := by
  by_cases hne : a = b
  · subst hne
    exact Nat.le_of_eq ((List.getElem?_inj (List.getElem?_eq_some_iff.1 hm).1 (nodup_rpo h)).1
      (hm.trans hn.symm))
  · exact Nat.le_of_lt (rpo_lt_of_sdom h ⟨hab, hne⟩ hm hn)

/-- In reverse post-order no block comes before one that strictly dominates it. -/
theorem pairwise_rpo (h : ofGraph g = .ok t) : t.rpo.Pairwise fun x y => ¬ g.SDom y x := by
  rw [List.pairwise_iff_getElem]
  intro i j hi hj hij hdom
  have hlt := rpo_lt_of_sdom h hdom (List.getElem?_eq_getElem hj) (List.getElem?_eq_getElem hi)
  omega

/-! ## Immediate dominators -/

/-- The number of a block of the order, as it is used in the tables. -/
theorem number_eq (h : ofGraph g = .ok t) {n : Nat} (hn : t.rpo[n]? = some b) : t.number b = n := by
  have hnumber := (rpoNumber?_eq h n).2 hn
  rw [rpoNumber?] at hnumber
  rw [number, hnumber, Option.getD_some]

/-- Reverse post-order is an order the iteration works for. -/
theorem exists_ordered (hg : g.Consistent) (h : ofGraph g = .ok t) : ∃ par, Ordered g t.rpo t.number par := by
  have hpar : ∀ b, ∃ p, (g.Reachable b ∧ b ≠ g.entry → p ∈ g.preds b ∧ g.Reachable p ∧
      t.number p < t.number b) ∧ (¬ (g.Reachable b ∧ b ≠ g.entry) → p = b) := by
    intro b
    by_cases hb : g.Reachable b ∧ b ≠ g.entry
    · obtain ⟨l, r, hl⟩ := List.append_of_mem ((mem_rpo hg h).2 hb.1)
      obtain ⟨p, hp, hedge⟩ := exists_earlier_pred (rpo_eq h ▸ hl) hb.2
      obtain ⟨k, hk⟩ := List.mem_iff_getElem?.1 hp
      have hlt := (List.getElem?_eq_some_iff.1 hk).1
      have hrpo : t.rpo[k]? = some p := by rw [hl, List.getElem?_append_left hlt, hk]
      have hnb : t.number b = l.length := number_eq h (by rw [hl]; simp)
      have hreach := (mem_rpo hg h).1 (List.mem_of_getElem? hrpo)
      refine ⟨p, fun _ => ⟨hg.mem_preds_iff.2 hedge, hreach, ?_⟩, fun hno => absurd hb hno⟩
      rw [number_eq h hrpo, hnb]
      exact hlt
    · exact ⟨b, fun hyes => absurd hyes hb, fun _ => rfl⟩
  choose par hyes hno using hpar
  refine ⟨par, fun b => mem_rpo hg h, fun b n => number_eq h, hno _ fun hb => hb.2 rfl, fun b => ?_,
    fun b hb hne => (hyes b ⟨hb, hne⟩).2.2, fun b hb hne => (hyes b ⟨hb, hne⟩).1, fun b hb => ?_⟩
  · by_cases hb : g.Reachable b ∧ b ≠ g.entry
    · exact Nat.le_of_lt (hyes b hb).2.2
    · rw [hno b hb]
  · by_cases hne : b = g.entry
    · rwa [hno b fun hyes => hyes.2 hne]
    · exact (hyes b ⟨hb, hne⟩).2.1

/-- The immediate dominator strictly dominates, and every other strict dominator dominates it. -/
theorem idom?_spec (hg : g.Consistent) (h : ofGraph g = .ok t) (ha : t.idom? b = some a) :
    g.SDom a b ∧ ∀ d, g.SDom d b → g.Dom d a := by
  obtain ⟨par, ho⟩ := exists_ordered hg h
  rw [idom?, (ofGraph_inv h).2.2.1] at ha
  exact (get_idomsOf hg ho).2 a ha

/-- Only the entry and what is not reachable have no immediate dominator. -/
theorem idom?_eq_none_iff (hg : g.Consistent) (h : ofGraph g = .ok t) :
    t.idom? b = none ↔ b = g.entry ∨ ¬ g.Reachable b := by
  obtain ⟨par, ho⟩ := exists_ordered hg h
  rw [idom?, (ofGraph_inv h).2.2.1, (get_idomsOf hg ho).1]

/-- Every other reachable block has one. -/
theorem exists_idom? (hg : g.Consistent) (h : ofGraph g = .ok t) (hb : g.Reachable b)
    (hne : b ≠ g.entry) : ∃ a, t.idom? b = some a := by
  rw [← Option.ne_none_iff_exists', Ne, idom?_eq_none_iff hg h]
  tauto

/-- No other block strictly dominates and is dominated by every other strict dominator. -/
theorem idom?_eq_some_iff (hg : g.Consistent) (h : ofGraph g = .ok t) :
    t.idom? b = some a ↔ g.SDom a b ∧ ∀ d, g.SDom d b → g.Dom d a := by
  refine ⟨idom?_spec hg h, ?_⟩
  rintro ⟨hab, hleast⟩
  have hne : b ≠ g.entry := by
    rintro rfl
    exact hab.2 hab.1.eq_entry
  obtain ⟨a', ha'⟩ := exists_idom? hg h hab.1.1 hne
  obtain ⟨hab', hleast'⟩ := idom?_spec hg h ha'
  rw [ha', (hleast a' hab').antisymm (hleast' a hab)]

/-- A fold that gives each member to the list of one entry: the lists grow by the members they are given. -/
private theorem get_foldl_snoc {step : Table (List BlockId) → BlockId → Table (List BlockId)} {n : Nat}
    {P : BlockId → Prop} [DecidablePred P] (xs : List BlockId) (u : Table (List BlockId))
    (hstep : ∀ u b, (step u b).get n = if P b then u.get n ++ [b] else u.get n) :
    (xs.foldl step u).get n = u.get n ++ xs.filter (P ·) := by
  induction xs generalizing u with
  | nil => simp
  | cons b xs ih =>
    rw [List.foldl_cons, ih, hstep, List.filter_cons]
    by_cases hb : P b <;> simp [hb]

/-- The children of a block are the blocks that it dominates immediately, in the order of the search. -/
theorem children_eq (h : ofGraph g = .ok t) :
    t.children a = t.rpo.filter fun b => t.idom? b = some a := by
  obtain ⟨step, hchildren, hstep⟩ : ∃ step, t.childLists = t.rpo.foldl step Table.empty ∧
      ∀ u b, (step u b).get a.index =
        if t.idom? b = some a then u.get a.index ++ [b] else u.get a.index := by
    simp only [ofGraph, Checked.bind_eq_ok, Checked.pure_eq_ok] at h
    obtain ⟨_, _, rfl⟩ := h
    refine ⟨_, rfl, fun u b => ?_⟩
    simp only [idom?]
    split
    · next c hc =>
      by_cases hac : a = c
      · simp [Table.modify, hc, hac]
      · simp [Table.modify, Table.get_set, hc, hac, Ne.symm hac]
    · next hc => simp [hc]
  have hempty : (Table.empty : Table (List BlockId)).get a.index = [] := Table.get_empty _
  rw [children, hchildren, get_foldl_snoc _ _ hstep, hempty, List.nil_append]

/-- A block is a child of its immediate dominator. -/
theorem mem_children (hg : g.Consistent) (h : ofGraph g = .ok t) :
    b ∈ t.children a ↔ t.idom? b = some a := by
  rw [children_eq h, List.mem_filter, decide_eq_true_eq]
  constructor
  · exact fun hb => hb.2
  · exact fun hb => ⟨(mem_rpo hg h).2 (idom?_spec hg h hb).1.1.1, hb⟩

/-- Two blocks with the same immediate dominator dominate nothing in common. -/
theorem not_dom_both (hg : g.Consistent) (h : ofGraph g = .ok t) {c' : BlockId}
    (hc : t.idom? c = some a) (hc' : t.idom? c' = some a) (hne : c ≠ c') (hcb : g.Dom c b) :
    ¬ g.Dom c' b := by
  intro hcb'
  have hspec := idom?_spec hg h hc
  have hspec' := idom?_spec hg h hc'
  rcases hcb.total hcb' with hdom | hdom
  · exact hspec.1.2 (hspec.1.1.antisymm (hspec'.2 c ⟨hdom, hne⟩))
  · exact hspec'.1.2 (hspec'.1.1.antisymm (hspec.2 c' ⟨hdom, Ne.symm hne⟩))

/-! ## Subtrees -/

/-- The blocks of a tree below a root, at most so many levels of them, each before its children. -/
def subtree (childLists : Table (List BlockId)) : Nat → BlockId → List BlockId
  | 0, _ => []
  | depth + 1, b => b :: (childLists.get b.index).flatMap (subtree childLists depth)

/-- What is below a block in the tree is dominated by it. -/
theorem dom_of_mem_subtree (hg : g.Consistent) (h : ofGraph g = .ok t) {depth : Nat}
    (hb : g.Reachable b) (hx : a ∈ subtree t.childLists depth b) : g.Dom b a := by
  induction depth generalizing b with
  | zero => simp [subtree] at hx
  | succ depth ih =>
    rw [subtree, List.mem_cons, List.mem_flatMap] at hx
    rcases hx with rfl | ⟨c, hc, hx⟩
    · exact .refl hb
    · have hspec := idom?_spec hg h ((mem_children hg h).1 hc)
      exact hspec.1.1.trans (ih hspec.1.1.1 hx)

/-- Going deeper finds more of the tree. -/
theorem subtree_mono {childLists : Table (List BlockId)} {m n : Nat} (hmn : m ≤ n)
    (hb : b ∈ subtree childLists m a) : b ∈ subtree childLists n a := by
  induction m generalizing n a with
  | zero => simp [subtree] at hb
  | succ m ih =>
    obtain ⟨n, rfl⟩ : ∃ k, n = k + 1 := ⟨n - 1, by omega⟩
    rw [subtree, List.mem_cons, List.mem_flatMap] at hb ⊢
    rcases hb with hb | ⟨c, hc, hb⟩
    · exact .inl hb
    · exact .inr ⟨c, hc, ih (by omega) hb⟩

/-- A subtree one level deeper holds the children of all its blocks. -/
theorem mem_subtree_of_child {childLists : Table (List BlockId)} {n : Nat}
    (hb : b ∈ subtree childLists n a) (hc : c ∈ childLists.get b.index) :
    c ∈ subtree childLists (n + 1) a := by
  induction n generalizing a with
  | zero => simp [subtree] at hb
  | succ n ih =>
    rw [subtree, List.mem_cons, List.mem_flatMap] at hb
    rw [subtree, List.mem_cons, List.mem_flatMap]
    rcases hb with rfl | ⟨x, hx, hb⟩
    · exact .inr ⟨c, hc, by simp [subtree]⟩
    · exact .inr ⟨x, hx, ih hb⟩

/-- A block is in the subtree of each of its dominators, no deeper than their numbers are apart. -/
theorem mem_subtree (hg : g.Consistent) (h : ofGraph g = .ok t) {m n : Nat} (hm : t.rpo[m]? = some a)
    (hn : t.rpo[n]? = some b) (hab : g.Dom a b) : b ∈ subtree t.childLists (n - m + 1) a := by
  induction n using Nat.strongRecOn generalizing b with
  | ind n ih =>
    by_cases hne : a = b
    · simp [hne, subtree]
    have hentry : b ≠ g.entry := by
      rintro rfl
      exact hne hab.eq_entry
    obtain ⟨p, hp⟩ := exists_idom? hg h hab.1 hentry
    have hspec := idom?_spec hg h hp
    obtain ⟨k, hk⟩ := List.mem_iff_getElem?.1 ((mem_rpo hg h).2 hspec.1.1.left)
    have hap := hspec.2 a ⟨hab, hne⟩
    have hlt := rpo_lt_of_sdom h hspec.1 hk hn
    have hle := rpo_le_of_dom h hap hm hk
    have hmem := ih k hlt hk hap
    exact subtree_mono (by omega) (mem_subtree_of_child hmem ((mem_children hg h).2 hp))

/-- In a subtree no block comes twice, and none comes before one that dominates it. -/
theorem pairwise_subtree (hg : g.Consistent) (h : ofGraph g = .ok t) (depth : Nat)
    (ha : g.Reachable a) :
    (subtree t.childLists depth a).Pairwise fun x y => x ≠ y ∧ ¬ g.SDom y x := by
  induction depth generalizing a with
  | zero => exact .nil
  | succ depth ih =>
    have hchild : ∀ c ∈ t.childLists.get a.index, t.idom? c = some a := fun c hc =>
      (mem_children hg h).1 hc
    rw [subtree, List.pairwise_cons]
    refine ⟨fun y hy => ?_, ?_⟩
    · -- the root strictly dominates everything below it
      obtain ⟨c, hc, hy⟩ := List.mem_flatMap.1 hy
      have hspec := idom?_spec hg h (hchild c hc)
      have hcy := dom_of_mem_subtree hg h hspec.1.1.1 hy
      have hne : a ≠ y := by
        rintro rfl
        exact hspec.1.2 (hspec.1.1.antisymm hcy)
      exact ⟨hne, fun hya => hne ((hspec.1.1.trans hcy).antisymm hya.1)⟩
    · rw [List.pairwise_flatMap]
      refine ⟨fun c hc => ih (idom?_spec hg h (hchild c hc)).1.1.1, ?_⟩
      have hnodup : (t.childLists.get a.index).Nodup := by
        have hfilter := (nodup_rpo h).filter fun b => t.idom? b = some a
        rwa [← children_eq h] at hfilter
      refine hnodup.imp_of_mem fun {c c'} hc hc' hne x hx y hy => ?_
      -- a common block, or dominance across, would put two children above one block
      have hcx := dom_of_mem_subtree hg h (idom?_spec hg h (hchild c hc)).1.1.1 hx
      have hcy := dom_of_mem_subtree hg h (idom?_spec hg h (hchild c' hc')).1.1.1 hy
      have hboth := not_dom_both hg h (hchild c hc) (hchild c' hc') hne hcx
      refine ⟨?_, fun hyx => hboth (hcy.trans hyx.1)⟩
      rintro rfl
      exact hboth hcy

/-! ## The tour of the tree -/

/-- A tour that came from one state to another through some blocks.  The stretch of a block is its subtree,
of a depth that goes down by one with every level; `bound` is a lower bound for the depth and the number of
the block together. -/
structure Toured (childLists : Table (List BlockId)) (number : BlockId → Nat) (bound : Nat) (s s' : Tour)
    (bs : List BlockId) : Prop where
  blocks_eq : s'.blocks.toList = s.blocks.toList ++ bs
  outside : ∀ x ∉ bs, s'.first.get x.index = s.first.get x.index ∧ s'.last.get x.index = s.last.get x.index
  inside : ∀ x ∈ bs, ∃ l r depth, bs = l ++ subtree childLists depth x ++ r ∧
    s'.first.get x.index = s.blocks.size + l.length ∧
    s'.last.get x.index + 1 = s.blocks.size + l.length + (subtree childLists depth x).length ∧
    bound ≤ depth + number x

namespace Toured

variable {childLists : Table (List BlockId)} {number : BlockId → Nat} {bound bound' : Nat} {s s' s'' : Tour}
  {bs bs' : List BlockId}

/-- A tour adds the blocks that it goes through. -/
theorem size_eq (h : Toured childLists number bound s s' bs) : s'.blocks.size = s.blocks.size + bs.length := by
  rw [← Array.length_toList, h.blocks_eq, List.length_append, Array.length_toList]

/-- A tour through nothing adds nothing. -/
theorem same (s : Tour) : Toured childLists number bound s s [] := ⟨by simp, by simp, by simp⟩

/-- A tour above a bound is one above a lower bound. -/
theorem mono (h : Toured childLists number bound s s' bs) (hle : bound' ≤ bound) :
    Toured childLists number bound' s s' bs := by
  refine ⟨h.blocks_eq, h.outside, fun x hx => ?_⟩
  obtain ⟨l, r, depth, hbs, hfirst, hlast, hbound⟩ := h.inside x hx
  exact ⟨l, r, depth, hbs, hfirst, hlast, by omega⟩

/-- Two tours one after the other. -/
theorem append (h : Toured childLists number bound s s' bs) (h' : Toured childLists number bound s' s'' bs')
    (hnodup : (bs ++ bs').Nodup) : Toured childLists number bound s s'' (bs ++ bs') := by
  have hdisjoint := (List.nodup_append.1 hnodup).2.2
  refine ⟨by rw [h'.blocks_eq, h.blocks_eq, List.append_assoc], fun x hx => ?_, fun x hx => ?_⟩
  · rw [List.mem_append, not_or] at hx
    rw [(h'.outside x hx.2).1, (h'.outside x hx.2).2]
    exact h.outside x hx.1
  · rcases List.mem_append.1 hx with hx | hx
    · have hx' : x ∉ bs' := fun hx' => hdisjoint x hx x hx' rfl
      obtain ⟨l, r, depth, hbs, hfirst, hlast, hbound⟩ := h.inside x hx
      refine ⟨l, r ++ bs', depth, by rw [hbs]; simp, ?_, ?_, hbound⟩
      · rw [(h'.outside x hx').1, hfirst]
      · rw [(h'.outside x hx').2, hlast]
    · obtain ⟨l, r, depth, hbs, hfirst, hlast, hbound⟩ := h'.inside x hx
      have hsize := h.size_eq
      refine ⟨bs ++ l, r, depth, by rw [hbs]; simp, ?_, ?_, hbound⟩
      · rw [hfirst, List.length_append]
        omega
      · rw [hlast, List.length_append]
        omega

/-- Coming to a block, going through everything below it, and leaving it. -/
theorem around {depth : Nat} (hbs : subtree childLists depth b = b :: bs) (hb : b ∉ bs)
    (h : Toured childLists number bound (s.enter b) s' bs) (hbound : bound ≤ depth + number b) :
    Toured childLists number bound s (s'.leave b) (b :: bs) := by
  have hsize := h.size_eq
  simp only [Tour.enter, Array.size_push] at hsize
  refine ⟨by simp [Tour.leave, h.blocks_eq, Tour.enter], fun x hx => ?_, fun x hx => ?_⟩
  · rw [List.mem_cons, not_or] at hx
    have hne : x.index ≠ b.index := fun heq => hx.1 (BlockId.index_inj.1 heq)
    simp only [Tour.leave, Table.get_set_ne _ _ hne, h.outside x hx.2, Tour.enter]
    trivial
  · rcases List.mem_cons.1 hx with rfl | hx
    · refine ⟨[], [], depth, by simp [hbs], ?_, ?_, hbound⟩
      · simp [Tour.leave, h.outside x hb, Tour.enter]
      · simp only [Tour.leave, Table.get_set_self, hbs, List.length_cons, List.length_nil]
        omega
    · have hne : x.index ≠ b.index := fun heq => hb (BlockId.index_inj.1 heq ▸ hx)
      obtain ⟨l, r, depth', hbs', hfirst, hlast, hbound'⟩ := h.inside x hx
      refine ⟨b :: l, r, depth', by rw [hbs']; simp, ?_, ?_, hbound'⟩
      · simp only [Tour.leave, hfirst, Tour.enter, Array.size_push, List.length_cons]
        omega
      · simp only [Tour.leave, Table.get_set_ne _ _ hne, hlast, Tour.enter, Array.size_push, List.length_cons]
        omega

/-- A fold of tours, each through the blocks of one member. -/
theorem foldl {f : Tour → BlockId → Tour} {sub : BlockId → List BlockId} {cs : List BlockId}
    (hf : ∀ c ∈ cs, ∀ s, (sub c).Nodup → Toured childLists number bound s (f s c) (sub c))
    (hnodup : (cs.flatMap sub).Nodup) (s : Tour) :
    Toured childLists number bound s (cs.foldl f s) (cs.flatMap sub) := by
  induction cs generalizing s with
  | nil => exact same s
  | cons c cs ih =>
    rw [List.flatMap_cons] at hnodup ⊢
    obtain ⟨hc, hcs, -⟩ := List.nodup_append.1 hnodup
    exact (hf c List.mem_cons_self s hc).append
      (ih (fun x hx => hf x (List.mem_cons_of_mem _ hx)) hcs _) hnodup

/-- The tour through a subtree. -/
theorem visit (hlt : ∀ b, ∀ c ∈ childLists.get b.index, number b < number c) (depth : Nat) (s : Tour)
    (b : BlockId) (hnodup : (subtree childLists depth b).Nodup) :
    Toured childLists number (depth + number b) s (Tour.visit childLists depth s b)
      (subtree childLists depth b) := by
  induction depth generalizing s b with
  | zero => exact same s
  | succ depth ih =>
    rw [Tour.visit]
    have hroot : subtree childLists (depth + 1) b =
        b :: (childLists.get b.index).flatMap (subtree childLists depth) := rfl
    rw [hroot] at hnodup ⊢
    obtain ⟨hb, hnodup⟩ := List.nodup_cons.1 hnodup
    refine around hroot hb ?_ (Nat.le_refl _)
    refine foldl (fun c hc s hnodup => (ih s c hnodup).mono ?_) hnodup _
    have hbc := hlt b c hc
    omega

end Toured

/-- Numbers grow from parents to children. -/
theorem number_lt_of_child (hg : g.Consistent) (h : ofGraph g = .ok t) (hc : c ∈ t.childLists.get b.index) :
    t.number b < t.number c := by
  have hspec := (idom?_spec hg h ((mem_children hg h).1 hc)).1
  obtain ⟨m, hm⟩ := List.mem_iff_getElem?.1 ((mem_rpo hg h).2 hspec.1.left)
  obtain ⟨n, hn⟩ := List.mem_iff_getElem?.1 ((mem_rpo hg h).2 hspec.1.1)
  rw [number_eq h hm, number_eq h hn]
  exact rpo_lt_of_sdom h hspec hm hn

/-- The tour of the tree goes through the subtree of the entry. -/
theorem toured (hg : g.Consistent) (h : ofGraph g = .ok t) :
    Toured t.childLists t.number (t.rpo.length + t.number g.entry) .start
      (Tour.visit t.childLists t.rpo.length .start g.entry) (subtree t.childLists t.rpo.length g.entry) := by
  refine .visit (fun b c => number_lt_of_child hg h) _ _ _ ?_
  exact (pairwise_subtree hg h _ reachable_entry).imp fun hxy => hxy.1

/-! ## The loops end by themselves -/

/-- The tour without a bound: it goes through everything below one block after the other until none is left.
A derivation is a tour that comes to an end. -/
inductive Tour.Runs (childLists : Table (List BlockId)) : List BlockId → Tour → Tour → Prop
  | done {s : Tour} : Tour.Runs childLists [] s s
  | visit {b : BlockId} {bs : List BlockId} {s s₁ s' : Tour} :
    Tour.Runs childLists (childLists.get b.index) (s.enter b) s₁ → Tour.Runs childLists bs (s₁.leave b) s' →
    Tour.Runs childLists (b :: bs) s s'

/-- Where numbers grow from parents to children, and the depth reaches from a number to the largest one, it is
not the depth that ends a tour. -/
theorem Tour.runs_foldl_visit {childLists : Table (List BlockId)} {number : BlockId → Nat} {bound : Nat}
    (hlt : ∀ b, ∀ c ∈ childLists.get b.index, number b < number c ∧ number c < bound) (depth : Nat)
    (bs : List BlockId) (hbs : ∀ b ∈ bs, number b < bound ∧ bound ≤ depth + number b) (s : Tour) :
    Tour.Runs childLists bs s (bs.foldl (Tour.visit childLists depth) s) := by
  induction depth generalizing bs s with
  | zero =>
    cases bs with
    | nil => exact .done
    | cons b bs =>
      have := hbs b (by simp)
      omega
  | succ depth ih =>
    induction bs generalizing s with
    | nil => exact .done
    | cons b bs ihbs =>
      rw [List.foldl_cons]
      have hb := hbs b (by simp)
      refine .visit (ih _ (fun c hc => ?_) _) (ihbs (fun c hc => hbs c (List.mem_cons_of_mem _ hc)) _)
      have hbc := hlt b c hc
      omega

/-- The loops that make a tree, without a bound on any of them, come to an end and leave the tree: the search
from the entry, the sweeps with their meetings, of which the last one reports no change, and the tour. -/
structure Finished (g : Graph) (t : DomTree) : Prop where
  search : ∃ s, Search.Runs g.succs [g.entry] (.avoiding []) s ∧ s.done = t.rpo
  sweeps : ∃ k parents, k ≤ t.rpo.length * t.rpo.length + 1 ∧
    Settles t.number g.entry g.preds t.rpo k (seed g.entry) parents ∧ t.idoms = parents.set g.entry.index none
  tour : ∃ s, Tour.Runs t.childLists [g.entry] .start s ∧ s.blocks.toList = t.preorder ∧ s.first = t.first ∧
    s.last = t.last

/-- A tree that is computed is what the loops leave when nothing bounds them. -/
theorem finished (hg : g.Consistent) (h : ofGraph g = .ok t) : t.Finished g := by
  obtain ⟨hrpo, -, hidoms, hpreorder, hfirst, hlast⟩ := ofGraph_inv h
  obtain ⟨par, ho⟩ := exists_ordered hg h
  refine ⟨hrpo ▸ hg.exists_runs_reachable (entry_mem_of_ofGraph h), ?_, ?_⟩
  · rw [hidoms]
    exact exists_settles_idomsOf hg ho
  · have hlt : ∀ b, ∀ c ∈ t.childLists.get b.index, t.number b < t.number c ∧ t.number c < t.rpo.length :=
      fun b c hc => ⟨number_lt_of_child hg h hc,
        ho.number_lt (idom?_spec hg h ((mem_children hg h).1 hc)).1.1.1⟩
    refine ⟨_, Tour.runs_foldl_visit hlt t.rpo.length [g.entry] (fun b hb => ⟨?_, Nat.le_add_right _ _⟩) .start,
      hpreorder.symm, hfirst.symm, hlast.symm⟩
    rw [List.mem_singleton.1 hb]
    exact ho.number_lt reachable_entry

/-! ## Pre-order -/

/-- Pre-order is the subtree of the entry. -/
theorem preorder_eq (hg : g.Consistent) (h : ofGraph g = .ok t) :
    t.preorder = subtree t.childLists t.rpo.length g.entry := by
  rw [(ofGraph_inv h).2.2.2.1, (toured hg h).blocks_eq]
  simp [Tour.start]

/-- Pre-order lists the reachable blocks. -/
theorem mem_preorder (hg : g.Consistent) (h : ofGraph g = .ok t) :
    b ∈ t.preorder ↔ g.Reachable b := by
  rw [preorder_eq hg h]
  constructor
  · exact fun hb => (dom_of_mem_subtree hg h reachable_entry hb).1
  · intro hb
    obtain ⟨m, hm⟩ := List.mem_iff_getElem?.1 ((mem_rpo hg h).2 reachable_entry)
    obtain ⟨n, hn⟩ := List.mem_iff_getElem?.1 ((mem_rpo hg h).2 hb)
    have hlt := (List.getElem?_eq_some_iff.1 hn).1
    exact subtree_mono (by omega) (mem_subtree hg h hm hn (dom_entry hb))

/-- In pre-order no block comes twice, and none comes before one that dominates it. -/
theorem pairwise_preorder (hg : g.Consistent) (h : ofGraph g = .ok t) :
    t.preorder.Pairwise fun x y => x ≠ y ∧ ¬ g.SDom y x := by
  rw [preorder_eq hg h]
  exact pairwise_subtree hg h _ reachable_entry

/-- Pre-order lists each block once. -/
theorem nodup_preorder (hg : g.Consistent) (h : ofGraph g = .ok t) : t.preorder.Nodup :=
  (pairwise_preorder hg h).imp fun hxy => hxy.1

/-- In pre-order, what strictly dominates a block comes before it. -/
theorem mem_of_preorder_eq (hg : g.Consistent) (h : ofGraph g = .ok t) {l r : List BlockId}
    (hl : t.preorder = l ++ b :: r) (hab : g.SDom a b) : a ∈ l := by
  have ha := (mem_preorder hg h).2 hab.1.left
  have horder := pairwise_preorder hg h
  rw [hl] at ha horder
  rcases List.mem_append.1 ha with ha | ha
  · exact ha
  rcases List.mem_cons.1 ha with ha | ha
  · exact absurd ha hab.2
  · have hcons := (List.pairwise_append.1 horder).2.1
    exact absurd hab ((List.pairwise_cons.1 hcons).1 a ha).2

/-! ## Stretches of the pre-order -/

/-- The blocks that a block dominates stand together in pre-order, the block itself first, and its two
numbers are those of the first and of the last of them. -/
theorem exists_stretch (hg : g.Consistent) (h : ofGraph g = .ok t) (ha : g.Reachable a) :
    ∃ l below r, t.preorder = l ++ a :: below ++ r ∧ t.first.get a.index = l.length ∧
      t.last.get a.index = l.length + below.length ∧ ∀ b, b ∈ a :: below ↔ g.Dom a b := by
  obtain ⟨m, hm⟩ := List.mem_iff_getElem?.1 ((mem_rpo hg h).2 ha)
  have hmlt := (List.getElem?_eq_some_iff.1 hm).1
  have hmem := (mem_preorder hg h).2 ha
  rw [preorder_eq hg h] at hmem
  obtain ⟨l, r, depth, hsplit, hfirst, hlast, hdepth⟩ := (toured hg h).inside a hmem
  rw [number_eq h hm] at hdepth
  obtain ⟨depth, rfl⟩ : ∃ k, depth = k + 1 := ⟨depth - 1, by omega⟩
  obtain ⟨-, -, -, -, hfirst', hlast'⟩ := ofGraph_inv h
  rw [← hfirst'] at hfirst
  rw [← hlast'] at hlast
  refine ⟨l, (t.childLists.get a.index).flatMap (subtree t.childLists depth), r, ?_, ?_, ?_, fun b => ?_⟩
  · rw [preorder_eq hg h, hsplit, subtree]
  · simpa [Tour.start] using hfirst
  · simp only [Tour.start, List.size_toArray, List.length_nil, subtree, List.length_cons] at hlast
    omega
  · rw [← subtree]
    constructor
    · exact dom_of_mem_subtree hg h ha
    · intro hab
      obtain ⟨n, hn⟩ := List.mem_iff_getElem?.1 ((mem_rpo hg h).2 hab.1)
      have hnlt := (List.getElem?_eq_some_iff.1 hn).1
      exact subtree_mono (by omega) (mem_subtree hg h hm hn hab)

/-- A block stands at the first of its numbers. -/
theorem getElem?_first (hg : g.Consistent) (h : ofGraph g = .ok t) (ha : g.Reachable a) :
    t.preorder[t.first.get a.index]? = some a := by
  obtain ⟨l, below, r, hsplit, hfirst, -, -⟩ := exists_stretch hg h ha
  rw [hsplit, hfirst]
  simp

/-- The blocks that stand between the numbers of a block are those it dominates. -/
theorem dom_iff_place (hg : g.Consistent) (h : ofGraph g = .ok t) (ha : g.Reachable a) {k : Nat}
    (hk : t.preorder[k]? = some b) :
    g.Dom a b ↔ t.first.get a.index ≤ k ∧ k ≤ t.last.get a.index := by
  obtain ⟨l, below, r, hsplit, hfirst, hlast, hdom⟩ := exists_stretch hg h ha
  rw [← hdom, hfirst, hlast]
  constructor
  · intro hb
    obtain ⟨j, hj⟩ := List.mem_iff_getElem?.1 hb
    have hjlt := (List.getElem?_eq_some_iff.1 hj).1
    have hplace : t.preorder[l.length + j]? = some b := by
      rw [hsplit, List.append_assoc, List.getElem?_append_right (by omega), Nat.add_sub_cancel_left,
        List.getElem?_append_left hjlt, hj]
    have heq := (List.getElem?_inj (List.getElem?_eq_some_iff.1 hk).1 (nodup_preorder hg h)).1
      (hk.trans hplace.symm)
    rw [List.length_cons] at hjlt
    omega
  · rintro ⟨hle, hle'⟩
    rw [hsplit, List.append_assoc, List.getElem?_append_right hle,
      List.getElem?_append_left (by rw [List.length_cons]; omega)] at hk
    exact List.mem_of_getElem? hk

/-- Dominance, as the tree answers it, is dominance over paths. -/
theorem dominates_iff (hg : g.Consistent) (h : ofGraph g = .ok t) :
    t.dominates a b = true ↔ g.Dom a b := by
  simp only [dominates, Bool.and_eq_true, isReachable_iff hg h, decide_eq_true_eq]
  have hself : ∀ {x}, g.Reachable x → t.first.get x.index ≤ t.last.get x.index := fun hx =>
    ((dom_iff_place hg h hx (getElem?_first hg h hx)).1 (.refl hx)).2
  constructor
  · rintro ⟨⟨⟨ha, hb⟩, hfirst⟩, hlast⟩
    exact (dom_iff_place hg h ha (getElem?_first hg h hb)).2 ⟨hfirst, (hself hb).trans hlast⟩
  · intro hab
    have hfirst := ((dom_iff_place hg h hab.left (getElem?_first hg h hab.1)).1 hab).1
    refine ⟨⟨⟨hab.left, hab.1⟩, hfirst⟩, ?_⟩
    -- the last block below `b` is also below `a`
    obtain ⟨l, below, r, hsplit, -, hlast, -⟩ := exists_stretch hg h hab.1
    obtain ⟨y, hy⟩ : ∃ y, t.preorder[t.last.get b.index]? = some y := by
      refine ⟨_, List.getElem?_eq_getElem ?_⟩
      rw [hsplit, hlast]
      simp only [List.length_append, List.length_cons]
      omega
    have hby := (dom_iff_place hg h hab.1 hy).2 ⟨hself hab.1, Nat.le_refl _⟩
    exact ((dom_iff_place hg h hab.left hy).1 (hab.trans hby)).2

end DomTree

end Midend
