import Midend.Proofs.SettledKnowledge
import Midend.Proofs.Trimming
import Midend.Proofs.Walks

/-!
# In pre-order, the sources of forward edges come first

Passes that carry facts from block to block visit the blocks in pre-order of the dominator tree.  A block
can start from what is known at the end of its predecessors only if they were visited before it.  That is
so for every edge that goes forward in reverse post-order, and if flow is reducible it is so for every
edge that is not a back edge.

## Shape of the argument

The children of a block stand in its child list by their numbers in reverse post-order.  An edge from the
subtree of one child into the subtree of another leads to the other child itself, because what a child
strictly dominates is entered through the child only.  So an edge that goes back from one subtree to an
earlier one goes from a block with a larger number to a child with a smaller one.
-/

namespace Midend

namespace DomTree

open Midend.Graph

variable {g : Graph} {t : DomTree} {a b p : BlockId} {m n : Nat}

/-- The blocks are numbered in the order of the list. -/
theorem pairwise_rpo_number (h : ofGraph g = .ok t) :
    t.rpo.Pairwise fun x y => ∀ m n : Nat, t.rpo[m]? = some x → t.rpo[n]? = some y → m < n := by
  rw [List.pairwise_iff_getElem]
  intro i j hi hj hij m n hm hn
  have hnodup := nodup_rpo h
  have him := (List.getElem?_inj hi hnodup).1 ((List.getElem?_eq_getElem hi).trans hm.symm)
  have hjn := (List.getElem?_inj hj hnodup).1 ((List.getElem?_eq_getElem hj).trans hn.symm)
  omega

/-- An edge that goes back in a subtree goes back in reverse post-order. -/
theorem pairwise_subtree_edges (hg : g.Consistent) (h : ofGraph g = .ok t) (depth : Nat)
    (ha : g.Reachable a) :
    (subtree t.childLists depth a).Pairwise fun x y => x ∈ g.succs y →
      ∀ m n : Nat, t.rpo[m]? = some x → t.rpo[n]? = some y → m ≤ n := by
  induction depth generalizing a with
  | zero => exact .nil
  | succ depth ih =>
    have hchild : ∀ c ∈ t.childLists.get a.index, t.idom? c = some a := fun c hc =>
      (mem_children hg h).1 hc
    have hbelow : ∀ c ∈ t.childLists.get a.index, ∀ x ∈ subtree t.childLists depth c, g.Dom c x :=
      fun c hc x hx => dom_of_mem_subtree hg h (idom?_spec hg h (hchild c hc)).1.1.1 hx
    rw [subtree, List.pairwise_cons]
    refine ⟨fun y hy _ m n hm hn => ?_, ?_⟩
    · obtain ⟨c, hc, hy⟩ := List.mem_flatMap.1 hy
      exact rpo_le_of_dom h ((idom?_spec hg h (hchild c hc)).1.1.trans (hbelow c hc y hy)) hm hn
    · rw [List.pairwise_flatMap]
      refine ⟨fun c hc => ih (idom?_spec hg h (hchild c hc)).1.1.1, ?_⟩
      have hnumbers := (pairwise_rpo_number h).filter fun b => t.idom? b = some a
      have hnodup := (nodup_rpo h).filter fun b => t.idom? b = some a
      rw [← children_eq h] at hnumbers hnodup
      refine (hnumbers.and hnodup).imp_of_mem fun {c c'} hc hc' hcc' x hx y hy hedge m n hm hn => ?_
      have hcx := hbelow c hc x hx
      have hcy := hbelow c' hc' y hy
      -- the later subtree has no way into the earlier one but through its root
      have hroot : c = x := by
        by_contra hne
        exact not_dom_both hg h (hchild c hc) (hchild c' hc') hcc'.2 (hcx.of_succ hne hcy.1 hedge) hcy
      subst hroot
      obtain ⟨k, hk⟩ := List.mem_iff_getElem?.1 ((mem_rpo hg h).2 hcy.left)
      have hmk := hcc'.1 m k hm hk
      have hkn := rpo_le_of_dom h hcy hk hn
      omega

/-- The source of an edge that goes forward in reverse post-order comes first in pre-order. -/
theorem mem_of_preorder_eq_of_edge (hg : g.Consistent) (h : ofGraph g = .ok t) {l r : List BlockId}
    (hl : t.preorder = l ++ b :: r) (hedge : b ∈ g.succs p) (hm : t.rpo[m]? = some p)
    (hn : t.rpo[n]? = some b) (hmn : m < n) : p ∈ l := by
  have hp := (mem_preorder hg h).2 ((mem_rpo hg h).1 (List.mem_of_getElem? hm))
  have horder := pairwise_subtree_edges hg h t.rpo.length reachable_entry
  rw [← preorder_eq hg h, hl] at horder
  rw [hl] at hp
  rcases List.mem_append.1 hp with hp | hp
  · exact hp
  have hle : n ≤ m := by
    rcases List.mem_cons.1 hp with rfl | hp
    · exact rpo_le_of_dom h (.refl ((mem_rpo hg h).1 (List.mem_of_getElem? hm))) hn hm
    · exact (List.pairwise_cons.1 (List.pairwise_append.1 horder).2.1).1 p hp hedge n m hn hm
  omega

/-- The same, said of the whole list. -/
theorem sublist_preorder (hg : g.Consistent) (h : ofGraph g = .ok t) (hedge : b ∈ g.succs p)
    (hm : t.rpo[m]? = some p) (hn : t.rpo[n]? = some b) (hmn : m < n) : [p, b].Sublist t.preorder := by
  have hb := (mem_preorder hg h).2 ((mem_rpo hg h).1 (List.mem_of_getElem? hn))
  obtain ⟨l, r, hl⟩ := List.append_of_mem hb
  have hp := mem_of_preorder_eq_of_edge hg h hl hedge hm hn hmn
  rw [hl]
  exact (List.singleton_sublist.2 hp).append (by simp : [b].Sublist (b :: r))

end DomTree

/-! ## Reducible flow -/

namespace LoopForest

open Midend.Graph

variable {g : Graph} {t : DomTree} {b p : BlockId}

/-- One more header makes the forest irreducible if an edge into it does. -/
theorem isIrreducible_addHeader (f : LoopForest) (h : BlockId) : (addHeader g t f h).isIrreducible =
    (f.isIrreducible || (g.preds h).any (isIrreducibleEdge t · h)) := by
  unfold addHeader
  split <;> rfl

/-- Flow is irreducible when some edge to a reachable block is. -/
theorem isIrreducible_ofGraph : (ofGraph g t).isIrreducible =
    t.rpo.any fun h => (g.preds h).any (isIrreducibleEdge t · h) := by
  have key : ∀ (hs : List BlockId) (f : LoopForest), (hs.foldl (addHeader g t) f).isIrreducible =
      (f.isIrreducible || hs.any fun h => (g.preds h).any (isIrreducibleEdge t · h)) := by
    intro hs
    induction hs with
    | nil => simp
    | cons h hs ih =>
      intro f
      rw [List.foldl_cons, ih, isIrreducible_addHeader, List.any_cons, Bool.or_assoc]
  rw [ofGraph, key]
  rfl

/-- In reducible flow an edge is a back edge or goes forward in reverse post-order. -/
theorem rpo_lt_of_reducible (hg : g.Consistent) (ht : DomTree.ofGraph g = .ok t)
    (hred : (ofGraph g t).isIrreducible = false) (hp : g.Reachable p) (hedge : b ∈ g.succs p)
    (hdom : ¬ g.Dom b p) : ∃ m n : Nat, t.rpo[m]? = some p ∧ t.rpo[n]? = some b ∧ m < n := by
  obtain ⟨m, hm⟩ := List.mem_iff_getElem?.1 ((DomTree.mem_rpo hg ht).2 hp)
  obtain ⟨n, hn⟩ := List.mem_iff_getElem?.1 ((DomTree.mem_rpo hg ht).2 (hp.succ hedge))
  rw [isIrreducible_ofGraph, List.any_eq_false] at hred
  have hpreds := hred b (List.mem_of_getElem? hn)
  rw [Bool.not_eq_true, List.any_eq_false] at hpreds
  have hforward := hpreds p (hg.mem_preds_iff.2 hedge)
  have hnot : t.dominates b p = false := by
    rw [Bool.eq_false_iff, ne_eq, DomTree.dominates_iff hg ht]
    exact hdom
  rw [isIrreducibleEdge, (DomTree.isReachable_iff hg ht).2 hp, hnot, (DomTree.rpoNumber?_eq ht m).2 hm,
    (DomTree.rpoNumber?_eq ht n).2 hn] at hforward
  exact ⟨m, n, hm, hn, by simpa using hforward⟩

end LoopForest

/-! ## The blocks that load/store elimination has left -/

namespace LoadStore

open Midend.Graph

variable {g : Graph} {t : DomTree} {summary : EffectSummary} {s s' : State}
  {b p : BlockId} {is : List InstId} {bs : List BlockId}

/-- Instructions leave the exits alone. -/
theorem exits_visitAll {st st' : State × Knowledge} (h : visitAll g summary st is = .ok st') :
    st'.1.exits = st.1.exits := by
  induction is generalizing st with
  | nil =>
    cases h
    rfl
  | cons i is ih =>
    rw [visitAll, Checked.bind_eq_ok] at h
    obtain ⟨st₁, hvisit, h⟩ := h
    obtain ⟨inst, throws, -, -, hvisited⟩ := visit_eq_ok hvisit
    rw [ih h]
    exact hvisited.frame.1.trans (State.beforeThrow_frame _ _ _).1

/-- A block that was visited has an exit, and the other exits stay. -/
theorem exit?_visitBlock (h : visitBlock g t summary s b = .ok s') :
    ∃ k, ∀ p, s'.exit? p = if p = b then some k else s.exit? p := by
  simp only [visitBlock, Checked.bind_eq_ok, Checked.pure_eq_ok] at h
  obtain ⟨block, -, ⟨s₁, k₁⟩, hall, rfl⟩ := h
  obtain ⟨xs, hxs⟩ := enter_state g t summary s b
  have hexits : s₁.exits = s.exits := by
    rw [exits_visitAll hall, hxs]
    rfl
  refine ⟨k₁, fun p => (leave_exit? p).trans ?_⟩
  rw [State.exit?, hexits]
  rfl

/-- All blocks that were visited have an exit. -/
theorem exists_exit?_of_visits (h : bs.foldlM (visitBlock g t summary) s = .ok s')
    (hp : p ∈ bs ∨ ∃ k, s.exit? p = some k) : ∃ k, s'.exit? p = some k := by
  induction bs generalizing s with
  | nil =>
    cases h
    simpa using hp
  | cons b bs ih =>
    rw [List.foldlM_cons, Checked.bind_eq_ok] at h
    obtain ⟨s₁, hvisit, h⟩ := h
    obtain ⟨k, hk⟩ := exit?_visitBlock hvisit
    refine ih h ?_
    by_cases hpb : p = b
    · exact .inr ⟨k, by rw [hk, if_pos hpb]⟩
    · rw [hk, if_neg hpb]
      exact hp.imp_left fun hmem => (List.mem_cons.1 hmem).resolve_left hpb

/-- Pre-order lists the reachable blocks once each, and the source of every edge that goes forward in
reverse post-order before its target.  If flow is reducible, so it lists every reachable predecessor that a
block does not dominate before the block, and load/store elimination has left all the predecessors whose
knowledge flows into a block when it comes to the block. -/
theorem forward_preds_visited_first (hg : g.Mirrored) (hentry : g.entry ∈ g.blockIds) :
    ∃ t, DomTree.ofGraph g = .ok t ∧ t.preorder.Nodup ∧ (∀ b, b ∈ t.preorder ↔ g.Reachable b) ∧
      (∀ p b m n, b ∈ g.succs p → t.rpoNumber? p = some m → t.rpoNumber? b = some n → m < n →
        [p, b].Sublist t.preorder) ∧
      ((LoopForest.ofGraph g t).isIrreducible = false →
        (∀ p b, p ∈ g.preds b → g.Reachable p → ¬ g.Dom b p → [p, b].Sublist t.preorder) ∧
        ∀ summary done b rest s s', summary.loops = LoopForest.ofGraph g t →
          t.preorder = done ++ b :: rest → done.foldlM (visitBlock g t summary) s = .ok s' →
          ∀ p ∈ forwardPreds g t summary.loops b, ∃ k, s'.exit? p = some k) := by
  have hs := hg.consistent_skeleton
  obtain ⟨t, ht⟩ := DomTree.ofGraph_eq_ok (g := g.skeleton) (by simpa [mem_blockIds, skeleton] using hentry)
  have hloops : LoopForest.ofGraph g.skeleton t = LoopForest.ofGraph g t :=
    LoopForest.ofGraph_congr t (by simp [skeleton]) preds_skeleton
  refine ⟨t, ofGraph_skeleton ht, DomTree.nodup_preorder hs ht, fun b => ?_, ?_, fun hred => ⟨?_, ?_⟩⟩
  · rw [DomTree.mem_preorder hs ht, reachable_skeleton]
  · intro p b m n hedge hm hn hmn
    rw [DomTree.rpoNumber?_eq ht] at hm hn
    exact DomTree.sublist_preorder hs ht (by rwa [succs_skeleton]) hm hn hmn
  · intro p b hedge hp hdom
    rw [← preds_skeleton, hs.mem_preds_iff] at hedge
    obtain ⟨m, n, hm, hn, hmn⟩ := LoopForest.rpo_lt_of_reducible hs ht (hloops ▸ hred)
      (reachable_skeleton.2 hp) hedge (mt dom_skeleton.1 hdom)
    exact DomTree.sublist_preorder hs ht hedge hm hn hmn
  · intro summary done b rest s s' hsummary horder hvisits p hp
    rw [hsummary, ← hloops, forwardPreds, ← preds_skeleton, ← forwardPreds, mem_forwardPreds hs ht] at hp
    obtain ⟨hreach, hedge, hdom⟩ := hp
    obtain ⟨m, n, hm, hn, hmn⟩ :=
      LoopForest.rpo_lt_of_reducible hs ht (hloops ▸ hred) hreach hedge hdom
    have hdone := DomTree.mem_of_preorder_eq_of_edge hs ht horder hedge hm hn hmn
    exact exists_exit?_of_visits hvisits (.inl hdone)

/-- A loop whose body splits and joins again; the block behind the loop has two ways in. -/
def joinInLoop : Graph := .ofEdits "joinInLoop" [
  .setStatic true, .createBlock, .createBlock, .createBlock, .createBlock, .createBlock,
  .createInst (.param 0) .bool [], .appendInst ⟨0⟩ ⟨0⟩,
  .createInst .branch .void [⟨0⟩], .appendInst ⟨0⟩ ⟨1⟩, .addEdge ⟨0⟩ ⟨1⟩, .addEdge ⟨0⟩ ⟨5⟩,
  .createInst .branch .void [⟨0⟩], .appendInst ⟨1⟩ ⟨2⟩, .addEdge ⟨1⟩ ⟨2⟩, .addEdge ⟨1⟩ ⟨3⟩,
  .createInst .jump .void [], .appendInst ⟨2⟩ ⟨3⟩, .addEdge ⟨2⟩ ⟨4⟩,
  .createInst .jump .void [], .appendInst ⟨3⟩ ⟨4⟩, .addEdge ⟨3⟩ ⟨4⟩,
  .createInst .branch .void [⟨0⟩], .appendInst ⟨4⟩ ⟨5⟩, .addEdge ⟨4⟩ ⟨1⟩, .addEdge ⟨4⟩ ⟨5⟩,
  .createInst .retVoid .void [], .appendInst ⟨5⟩ ⟨6⟩]

/-- In `joinInLoop` both sides of the split have been visited before the join. -/
theorem forward_preds_visited_first_joinInLoop :
    joinInLoop.Mirrored ∧ joinInLoop.entry ∈ joinInLoop.blockIds ∧
      ∃ t s, DomTree.ofGraph joinInLoop = .ok t ∧ (LoopForest.ofGraph joinInLoop t).isIrreducible = false ∧
        List.foldlM (visitBlock joinInLoop t (.start (LoopForest.ofGraph joinInLoop t))) State.empty
          [⟨0⟩, ⟨1⟩, ⟨3⟩, ⟨2⟩] = .ok s ∧
        [⟨4⟩, ⟨5⟩].Sublist t.preorder ∧ (∃ k, s.exit? ⟨2⟩ = some k) ∧ ∃ k, s.exit? ⟨3⟩ = some k := by
  have hg : joinInLoop.Consistent := by decide +kernel
  obtain ⟨t, ht, -, -, hforward, hreducible⟩ :=
    forward_preds_visited_first (g := joinInLoop) hg.edges (by decide)
  have hrun : (do
      let t ← DomTree.ofGraph joinInLoop
      let loops := LoopForest.ofGraph joinInLoop t
      let _ ← List.foldlM (visitBlock joinInLoop t (.start loops)) State.empty [⟨0⟩, ⟨1⟩, ⟨3⟩, ⟨2⟩]
      pure (t.preorder, forwardPreds joinInLoop t loops ⟨4⟩, loops.isIrreducible, t.rpoNumber? ⟨4⟩,
        t.rpoNumber? ⟨5⟩)) =
        .ok ([⟨0⟩, ⟨1⟩, ⟨3⟩, ⟨2⟩, ⟨4⟩, ⟨5⟩], [⟨2⟩, ⟨3⟩], false, some 4, some 5) := by
    decide +kernel
  simp only [ht, Checked.bind_eq_ok, Except.ok.injEq, exists_eq_left', Checked.pure_eq_ok, Prod.mk.injEq]
    at hrun
  obtain ⟨s, hvisits, horder, hpreds, hred, hfour, hfive⟩ := hrun
  have hexits : ∀ p ∈ forwardPreds joinInLoop t (LoopForest.ofGraph joinInLoop t) ⟨4⟩,
      ∃ k, s.exit? p = some k :=
    (hreducible hred).2 (.start (LoopForest.ofGraph joinInLoop t)) [⟨0⟩, ⟨1⟩, ⟨3⟩, ⟨2⟩] ⟨4⟩ [⟨5⟩]
      State.empty s rfl horder hvisits
  rw [hpreds] at hexits
  refine ⟨hg.edges, by decide, t, s, ht, hred, hvisits, ?_, hexits ⟨2⟩ (by decide), hexits ⟨3⟩ (by decide)⟩
  exact hforward ⟨4⟩ ⟨5⟩ 4 5 (by decide) hfour hfive (by decide)

end LoadStore

end Midend
