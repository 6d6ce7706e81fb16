import Midend.Proofs.LoopNest
import Midend.Proofs.Trimming
import Midend.Proofs.Walks

/-!
# The loop forest is the forest of natural loops

The forest has one loop for each block that dominates one of its predecessors, and its tables answer the
questions they are for: which loops hold a block, in which order they lie in each other, and which loop is
the next one around a loop.  Nothing is asked of the graph but that its edges are recorded at both ends.

## Shape of the argument

A loop that holds the header of another holds all of the other, and more.  A block of the inner loop reaches
the inner header without meeting the outer one, for otherwise the outer header would lie in the inner loop
and the two headers would dominate each other.  So two loops with a block in common lie in each other, the
one with the smaller number outside, and the parent links lead from each loop to the next larger one.
-/

namespace Midend

namespace Graph

variable {g : Graph} {b h h' : BlockId}

/-- A header is not in a loop whose header is in its own. -/
theorem InLoop.not_inLoop (hh : g.InLoop h h') (hne : h ≠ h') : ¬ g.InLoop h' h :=
  fun hh' => hne (hh.dom.antisymm hh'.dom)

/-- A loop that holds the header of another holds all of the other. -/
theorem InLoop.trans (hh : g.InLoop h h') (hne : h ≠ h') (hb : g.InLoop h' b) : g.InLoop h b := by
  obtain ⟨hreach, latch', hback', rfl | hpath'⟩ := id hb
  · exact hh
  obtain ⟨-, latch, hback, heq | hpath⟩ := id hh
  · exact absurd heq.symm hne
  have hclear : Path g.succs (· ≠ h) b latch' := by
    rcases hpath'.avoid_two_or_last hne with hp | hp | hp
    · exact hp.mono fun _ hx => hx.2.1
    · exact absurd ⟨hh.dom.left, latch', hback', .inr (hp.mono fun _ hx => hx.2)⟩ (hh.not_inLoop hne)
    · exact absurd rfl hp.left.1
  exact ⟨hreach, latch, hback, .inr ((hclear.tail hback'.1 (Ne.symm hne)).trans hpath)⟩

end Graph

namespace LoopForest

open Midend.Graph

/-- One loop lies in another, which has more blocks. -/
def Inside (loops : Array Loop) (inner outer : Nat) : Prop :=
  (∀ b, Holds loops inner b → Holds loops outer b) ∧ ∃ b, Holds loops outer b ∧ ¬ Holds loops inner b

/-- Loops are inside each other transitively. -/
theorem Inside.trans {loops : Array Loop} {l m n : Nat} (hlm : Inside loops l m) (hmn : Inside loops m n) :
    Inside loops l n := by
  obtain ⟨b, hb, hnot⟩ := hmn.2
  exact ⟨fun b hb => hmn.1 b (hlm.1 b hb), b, hb, fun hl => hnot (hlm.1 b hl)⟩

section Forest

variable {g : Graph} {t : DomTree} {b : BlockId} {m n : Nat} {loop other : Loop}
variable (hg : g.Consistent) (ht : DomTree.ofGraph g = .ok t)

/-! ## Which blocks have loops -/

include ht in
/-- No block heads two loops. -/
theorem nodup_headers : ((ofGraph g t).loops.toList.map (·.header)).Nodup := by
  rw [(built_ofGraph ht).headers]
  exact (DomTree.nodup_rpo ht).filter _

include ht in
/-- Different loops have different headers. -/
theorem eq_of_header_eq (hm : (ofGraph g t).loops[m]? = some other)
    (hn : (ofGraph g t).loops[n]? = some loop) (heq : other.header = loop.header) : m = n := by
  have hother := ((built_ofGraph ht).header_loop loop.header ⟨m⟩).2 ⟨other, hm, heq⟩
  have hloop := ((built_ofGraph ht).header_loop loop.header ⟨n⟩).2 ⟨loop, hn, rfl⟩
  rw [hother] at hloop
  exact congrArg LoopId.index (Option.some.inj hloop)

include hg ht

/-- The headers are the blocks that dominate one of their predecessors. -/
theorem mem_headers {h : BlockId} : h ∈ (ofGraph g t).loops.toList.map (·.header) ↔
    g.Reachable h ∧ ∃ p ∈ g.preds h, g.Reachable p ∧ g.Dom h p := by
  rw [(built_ofGraph ht).headers, List.mem_filter, DomTree.mem_rpo hg ht, decide_eq_true_eq]
  refine and_congr_right fun _ => ?_
  constructor
  · intro hne
    obtain ⟨p, hp⟩ := List.exists_mem_of_ne_nil _ hne
    obtain ⟨hedge, hdom⟩ := (mem_latchesOf hg ht).1 hp
    exact ⟨p, hg.mem_preds_iff.2 hedge, hdom.1, hdom⟩
  · rintro ⟨p, hp, -, hdom⟩
    exact List.ne_nil_of_mem ((mem_latchesOf hg ht).2 ⟨hg.mem_preds_iff.1 hp, hdom⟩)

/-- The latches of a loop are the reachable predecessors of its header that the header dominates. -/
theorem mem_latches (hn : (ofGraph g t).loops[n]? = some loop) {p : BlockId} :
    p ∈ loop.latches ↔ p ∈ g.preds loop.header ∧ g.Reachable p ∧ g.Dom loop.header p := by
  rw [(built_ofGraph ht).latches n loop hn, mem_latchesOf hg ht, BackEdge, hg.mem_preds_iff]
  exact and_congr_right fun _ => ⟨fun hdom => ⟨hdom.1, hdom⟩, fun hdom => hdom.2⟩

/-- A header is in its loop. -/
theorem inLoop_header (hn : (ofGraph g t).loops[n]? = some loop) : g.InLoop loop.header loop.header := by
  obtain ⟨p, hp⟩ := List.exists_mem_of_ne_nil _ (latchesOf_ne_nil ht hn)
  have hback := (mem_latchesOf hg ht).1 hp
  exact ⟨hback.2.left, p, hback, .inl rfl⟩

/-- The blocks of a loop, over paths. -/
theorem mem_blocks_iff_path (hn : (ofGraph g t).loops[n]? = some loop) : b ∈ loop.blocks ↔
    b = loop.header ∨
      (g.Reachable b ∧ ∃ latch ∈ loop.latches, Path g.succs (· ≠ loop.header) b latch) := by
  rw [mem_blocks hg ht hn]
  have hlatch : ∀ p, p ∈ loop.latches ↔ g.BackEdge p loop.header := fun p => by
    rw [(built_ofGraph ht).latches n loop hn, mem_latchesOf hg ht]
  constructor
  · rintro ⟨hreach, latch, hback, rfl | hpath⟩
    · exact .inl rfl
    · exact .inr ⟨hreach, latch, (hlatch latch).2 hback, hpath⟩
  · rintro (rfl | ⟨hreach, latch, hmem, hpath⟩)
    · exact inLoop_header hg ht hn
    · exact ⟨hreach, latch, (hlatch latch).1 hmem, .inr hpath⟩

/-! ## How loops lie in each other -/

/-- A loop that holds the header of another has the smaller number. -/
theorem lt_of_holds_header (hn : (ofGraph g t).loops[n]? = some loop)
    (hm : Holds (ofGraph g t).loops m loop.header) (hne : m ≠ n) : m < n := by
  by_contra hle
  obtain ⟨outer, houter, hmem⟩ := id hm
  have hself : Holds (ofGraph g t).loops n loop.header :=
    ⟨loop, hn, (mem_blocks hg ht hn).2 (inLoop_header hg ht hn)⟩
  obtain ⟨loop', hn', hback⟩ := holds_header hg ht (by omega : n < m) houter hself hmem
  obtain rfl : loop' = loop := Option.some.inj (hn'.symm.trans hn)
  rw [mem_blocks hg ht houter] at hmem
  rw [mem_blocks hg ht hn] at hback
  exact hmem.not_inLoop (fun heq => hne (eq_of_header_eq ht houter hn heq)) hback

/-- A loop is inside any other that holds its header. -/
theorem inside_of_holds_header (hn : (ofGraph g t).loops[n]? = some loop)
    (hm : Holds (ofGraph g t).loops m loop.header) (hne : m ≠ n) : Inside (ofGraph g t).loops n m := by
  obtain ⟨outer, houter, hmem⟩ := hm
  rw [mem_blocks hg ht houter] at hmem
  have hheaders : outer.header ≠ loop.header := fun heq => hne (eq_of_header_eq ht houter hn heq)
  refine ⟨?_, outer.header, ⟨outer, houter, (mem_blocks hg ht houter).2 (inLoop_header hg ht houter)⟩, ?_⟩
  · rintro b ⟨loop', hn', hb⟩
    obtain rfl : loop' = loop := Option.some.inj (hn'.symm.trans hn)
    rw [mem_blocks hg ht hn] at hb
    exact ⟨outer, houter, (mem_blocks hg ht houter).2 (hmem.trans hheaders hb)⟩
  · rintro ⟨loop', hn', hb⟩
    obtain rfl : loop' = loop := Option.some.inj (hn'.symm.trans hn)
    rw [mem_blocks hg ht hn] at hb
    exact hmem.not_inLoop hheaders hb

/-- Of two loops with a block in common, the one with the larger number lies in the other. -/
theorem inside_of_common (hm : Holds (ofGraph g t).loops m b) (hn : Holds (ofGraph g t).loops n b)
    (hmn : m < n) : Inside (ofGraph g t).loops n m := by
  obtain ⟨loop, hloop, hb⟩ := hn
  exact inside_of_holds_header hg ht hloop (holds_header hg ht hmn hloop hm hb) (Nat.ne_of_lt hmn)

/-- Two loops lie in each other or have nothing in common. -/
theorem disjoint_or_inside (hne : m ≠ n) :
    (∀ b, ¬ (Holds (ofGraph g t).loops m b ∧ Holds (ofGraph g t).loops n b)) ∨
      Inside (ofGraph g t).loops m n ∨ Inside (ofGraph g t).loops n m := by
  by_cases hcommon : ∃ b, Holds (ofGraph g t).loops m b ∧ Holds (ofGraph g t).loops n b
  · obtain ⟨b, hm, hn⟩ := hcommon
    rcases Nat.lt_or_gt_of_ne hne with hlt | hlt
    · exact .inr (.inr (inside_of_common hg ht hm hn hlt))
    · exact .inr (.inl (inside_of_common hg ht hn hm hlt))
  · exact .inl (not_exists.1 hcommon)

/-! ## Parents, and the way outward -/

/-- The parent of a loop is the smallest of the other loops that hold its header. -/
theorem parent_least (hn : (ofGraph g t).loops[n]? = some loop) {p : LoopId} (hp : loop.parent = some p) :
    p.index ≠ n ∧ Holds (ofGraph g t).loops p.index loop.header ∧
      ∀ m, m ≠ n → Holds (ofGraph g t).loops m loop.header →
        m = p.index ∨ Inside (ofGraph g t).loops p.index m := by
  have hlast := (built_ofGraph ht).parent n loop hn
  rw [hp] at hlast
  obtain ⟨hlt, hholds, hmax⟩ := hlast
  refine ⟨Nat.ne_of_lt hlt, hholds, fun m hne hm => ?_⟩
  rcases Nat.eq_or_lt_of_le (hmax m (lt_of_holds_header hg ht hn hm hne) hm) with heq | hmp
  · exact .inl heq
  · exact .inr (inside_of_common hg ht hm hholds hmp)

/-- A loop without a parent has a header that no other loop holds. -/
theorem parent_eq_none_iff (hn : (ofGraph g t).loops[n]? = some loop) :
    loop.parent = none ↔ ∀ m, m ≠ n → ¬ Holds (ofGraph g t).loops m loop.header := by
  constructor
  · intro hnone m hne hm
    have hlast := (built_ofGraph ht).parent n loop hn
    rw [hnone] at hlast
    exact hlast m (lt_of_holds_header hg ht hn hm hne) hm
  · intro hall
    rw [Option.eq_none_iff_forall_ne_some]
    intro p hp
    obtain ⟨hne, hholds, -⟩ := parent_least hg ht hn hp
    exact hall p.index hne hholds

/-- The parent of a loop is the smallest other loop that holds its header. -/
theorem parent_eq_some_iff (hn : (ofGraph g t).loops[n]? = some loop) (p : LoopId) :
    loop.parent = some p ↔ p.index ≠ n ∧ Holds (ofGraph g t).loops p.index loop.header ∧
      ∀ m, m ≠ n → Holds (ofGraph g t).loops m loop.header →
        ∀ b, Holds (ofGraph g t).loops p.index b → Holds (ofGraph g t).loops m b := by
  constructor
  · intro hp
    obtain ⟨hne, hholds, hleast⟩ := parent_least hg ht hn hp
    refine ⟨hne, hholds, fun m hmn hm b hb => ?_⟩
    rcases hleast m hmn hm with rfl | hinside
    · exact hb
    · exact hinside.1 b hb
  · rintro ⟨hne, hholds, hleast⟩
    cases hq : loop.parent with
    | none => exact absurd hholds ((parent_eq_none_iff hg ht hn).1 hq p.index hne)
    | some q =>
      obtain ⟨hqn, hqholds, hqleast⟩ := parent_least hg ht hn hq
      -- two smallest loops have the same blocks, so neither lies in the other
      rcases hqleast p.index hne hholds with heq | hinside
      · exact congrArg (fun i => some (LoopId.mk i)) heq.symm
      · obtain ⟨b, hb, hnot⟩ := hinside.2
        exact absurd (hleast q.index hqn hqholds b hb) hnot

/-- Going outward from a loop one meets larger and larger loops. -/
theorem pairwise_outward (hn : (ofGraph g t).loops[n]? = some loop) :
    (∀ l ∈ (ofGraph g t).outward ⟨n⟩, l.index = n ∨ Inside (ofGraph g t).loops n l.index) ∧
      ((ofGraph g t).outward ⟨n⟩).Pairwise fun l l' => Inside (ofGraph g t).loops l.index l'.index := by
  induction n using Nat.strongRecOn generalizing loop with
  | ind n ih =>
    rw [outward, hn]
    cases hp : loop.parent with
    | none => simp [hp]
    | some p =>
      have hlt := (built_ofGraph ht).parent n loop hn
      rw [hp] at hlt
      obtain ⟨hne, hholds, -⟩ := parent_least hg ht hn hp
      obtain ⟨outer, houter, -⟩ := id hholds
      obtain ⟨hmem, hpair⟩ := ih p.index hlt.1 houter
      have hinside := inside_of_holds_header hg ht hn hholds hne
      have hrest : ∀ l ∈ (ofGraph g t).outward p, Inside (ofGraph g t).loops n l.index := by
        intro l hl
        rcases hmem l hl with heq | hl
        · exact heq ▸ hinside
        · exact hinside.trans hl
      simp only [hp, if_pos hlt.1]
      refine ⟨fun l hl => ?_, List.pairwise_cons.2 ⟨hrest, hpair⟩⟩
      rcases List.mem_cons.1 hl with rfl | hl
      · exact .inl rfl
      · exact .inr (hrest l hl)

/-- The loops around a block are those that hold it, inner ones first. -/
theorem enclosing_spec (b : BlockId) :
    (∀ l : LoopId, l ∈ (ofGraph g t).enclosing b ↔ Holds (ofGraph g t).loops l.index b) ∧
      ((ofGraph g t).enclosing b).Pairwise fun l l' => Inside (ofGraph g t).loops l.index l'.index := by
  have hmem : ∀ l : LoopId, Holds (ofGraph g t).loops l.index b → l ∈ (ofGraph g t).enclosing b := by
    rintro l ⟨loop, hloop, hb⟩
    exact mem_enclosing hg ht hloop ((mem_blocks hg ht hloop).1 hb)
  have hinner := (built_ofGraph ht).innermost b
  cases hl : (ofGraph g t).innermost? b with
  | none =>
    rw [hl] at hinner
    have hnil : (ofGraph g t).enclosing b = [] := by rw [enclosing, hl]
    rw [hnil]
    refine ⟨fun l => ⟨fun h => (List.not_mem_nil h).elim, fun h => absurd h (hinner _ h.lt)⟩, .nil⟩
  | some inner =>
    rw [hl] at hinner
    obtain ⟨-, hholds, -⟩ := hinner
    obtain ⟨loop, hloop, -⟩ := id hholds
    obtain ⟨houtward, hpair⟩ := pairwise_outward hg ht hloop
    have heq : (ofGraph g t).enclosing b = (ofGraph g t).outward inner := by rw [enclosing, hl]
    rw [heq] at hmem ⊢
    refine ⟨fun l => ⟨fun h => ?_, hmem l⟩, hpair⟩
    rcases houtward l h with heq | hinside
    · exact heq ▸ hholds
    · exact hinside.1 b hholds

end Forest

/-- The forest of a graph has one loop for each reachable block that dominates a reachable predecessor.  The
latches of a loop are those predecessors; its blocks are listed once each, are the header and what reaches a
latch without passing through it, and are dominated by the header.  Two loops have no block in common or one
lies strictly in the other.  The loops listed around a block are those that hold it, strictly from the
innermost outward, and the parent of a loop is the smallest other loop that holds its header. -/
theorem ofGraph_finds_natural_loops {g : Graph} (hg : g.Mirrored) (hentry : g.entry ∈ g.blockIds) :
    ∃ t f, DomTree.ofGraph g = .ok t ∧ LoopForest.ofGraph g t = f ∧
      (f.loops.toList.map (·.header)).Nodup ∧
      (∀ h, h ∈ f.loops.toList.map (·.header) ↔
        g.Reachable h ∧ ∃ p ∈ g.preds h, g.Reachable p ∧ g.Dom h p) ∧
      (∀ n loop, f.loops[n]? = some loop →
        (∀ p, p ∈ loop.latches ↔ p ∈ g.preds loop.header ∧ g.Reachable p ∧ g.Dom loop.header p) ∧
        loop.blocks.Nodup ∧
        (∀ b, b ∈ loop.blocks ↔ b = loop.header ∨
          (g.Reachable b ∧ ∃ latch ∈ loop.latches, Path g.succs (· ≠ loop.header) b latch)) ∧
        (∀ b ∈ loop.blocks, g.Dom loop.header b) ∧
        (loop.parent = none ↔ ∀ m, m ≠ n → ¬ Holds f.loops m loop.header) ∧
        ∀ p, loop.parent = some p ↔ p.index ≠ n ∧ Holds f.loops p.index loop.header ∧
          ∀ m, m ≠ n → Holds f.loops m loop.header → ∀ b, Holds f.loops p.index b → Holds f.loops m b) ∧
      (∀ m n, m ≠ n → (∀ b, ¬ (Holds f.loops m b ∧ Holds f.loops n b)) ∨
        Inside f.loops m n ∨ Inside f.loops n m) ∧
      (∀ b, (∀ l, l ∈ f.enclosing b ↔ Holds f.loops l.index b) ∧
        (f.enclosing b).Pairwise fun l l' => Inside f.loops l.index l'.index) ∧
      ∀ l b, f.contains l b = true ↔ Holds f.loops l.index b := by
  have hs := hg.consistent_skeleton
  obtain ⟨t, ht⟩ := DomTree.ofGraph_eq_ok (g := g.skeleton) (by simpa [mem_blockIds, skeleton] using hentry)
  have hloops : LoopForest.ofGraph g.skeleton t = LoopForest.ofGraph g t :=
    LoopForest.ofGraph_congr t (by simp [skeleton]) preds_skeleton
  refine ⟨t, LoopForest.ofGraph g.skeleton t, ofGraph_skeleton ht, hloops.symm, nodup_headers ht, ?_, ?_,
    fun m n hne => disjoint_or_inside hs ht hne, enclosing_spec hs ht, fun l b => ?_⟩
  · intro h
    rw [mem_headers hs ht]
    simp only [reachable_skeleton, preds_skeleton, dom_skeleton]
  · intro n loop hn
    refine ⟨fun p => ?_, ?_, fun b => ?_, fun b hb => ?_, parent_eq_none_iff hs ht hn,
      parent_eq_some_iff hs ht hn⟩
    · rw [mem_latches hs ht hn]
      simp only [reachable_skeleton, preds_skeleton, dom_skeleton]
    · rw [(built_ofGraph ht).blocks n loop hn]
      exact (DomTree.nodup_rpo ht).filter _
    · rw [mem_blocks_iff_path hs ht hn]
      simp only [reachable_skeleton, succs_skeleton]
    · exact dom_skeleton.1 ((mem_blocks hs ht hn).1 hb).dom
  · rw [contains, List.contains_iff_mem, (enclosing_spec hs ht b).1]

/-- A loop with two edges from its latch and a loop of one block in it; a block that nothing leads to has an
edge into the inner loop. -/
def loopInLoop : Graph := .ofEdits "loopInLoop" [
  .setStatic true, .createBlock, .createBlock, .createBlock, .createBlock, .createBlock,
  .createInst (.param 0) .bool [], .appendInst ⟨0⟩ ⟨0⟩,
  .createInst .jump .void [], .appendInst ⟨0⟩ ⟨1⟩, .addEdge ⟨0⟩ ⟨1⟩,
  .createInst .branch .void [⟨0⟩], .appendInst ⟨1⟩ ⟨2⟩, .addEdge ⟨1⟩ ⟨2⟩, .addEdge ⟨1⟩ ⟨4⟩,
  .createInst .branch .void [⟨0⟩], .appendInst ⟨2⟩ ⟨3⟩, .addEdge ⟨2⟩ ⟨2⟩, .addEdge ⟨2⟩ ⟨3⟩,
  .createInst .branch .void [⟨0⟩], .appendInst ⟨3⟩ ⟨4⟩, .addEdge ⟨3⟩ ⟨1⟩, .addEdge ⟨3⟩ ⟨1⟩,
  .createInst .retVoid .void [], .appendInst ⟨4⟩ ⟨5⟩,
  .createInst .jump .void [], .appendInst ⟨5⟩ ⟨6⟩, .addEdge ⟨5⟩ ⟨2⟩]

/-- In `loopInLoop` the outer loop lists its latch once for each edge, and is the parent of the inner loop. -/
theorem ofGraph_finds_natural_loops_loopInLoop :
    loopInLoop.Mirrored ∧ loopInLoop.entry ∈ loopInLoop.blockIds ∧
      ∃ t f, DomTree.ofGraph loopInLoop = .ok t ∧ LoopForest.ofGraph loopInLoop t = f ∧
        f.loops = #[⟨⟨1⟩, [⟨3⟩, ⟨3⟩], [⟨1⟩, ⟨2⟩, ⟨3⟩], none⟩, ⟨⟨2⟩, [⟨2⟩], [⟨2⟩], some ⟨0⟩⟩] ∧
        (∀ m, m ≠ 0 → ¬ Holds f.loops m ⟨1⟩) ∧ Inside f.loops 1 0 ∧
        (loopInLoop.Reachable ⟨3⟩ ∧ ∃ latch ∈ [⟨3⟩, ⟨3⟩], Path loopInLoop.succs (· ≠ ⟨1⟩) ⟨3⟩ latch) := by
  have hg : loopInLoop.Consistent := by decide +kernel
  obtain ⟨t, f, ht, hf, -, -, hloop, hnest, -, -⟩ :=
    ofGraph_finds_natural_loops (g := loopInLoop) hg.edges (by decide)
  have hloops : (DomTree.ofGraph loopInLoop).map (fun t => (LoopForest.ofGraph loopInLoop t).loops) =
      .ok #[⟨⟨1⟩, [⟨3⟩, ⟨3⟩], [⟨1⟩, ⟨2⟩, ⟨3⟩], none⟩, ⟨⟨2⟩, [⟨2⟩], [⟨2⟩], some ⟨0⟩⟩] := by
    decide +kernel
  simp only [ht, Except.map, hf, Except.ok.injEq] at hloops
  obtain ⟨-, -, hblocks, -, hnone, -⟩ := hloop 0 _ (by rw [hloops]; rfl)
  refine ⟨hg.edges, by decide, t, f, ht, hf, hloops, hnone.1 rfl, ?_, ?_⟩
  · rcases hnest 1 0 (by decide) with hdisjoint | hinside | ⟨hinside, -⟩
    · have hboth : Holds f.loops 1 ⟨2⟩ ∧ Holds f.loops 0 ⟨2⟩ := by
        rw [hloops]
        exact ⟨⟨_, rfl, by decide⟩, ⟨_, rfl, by decide⟩⟩
      exact absurd hboth (hdisjoint ⟨2⟩)
    · exact hinside
    · have houter : Holds f.loops 0 ⟨1⟩ := by
        rw [hloops]
        exact ⟨_, rfl, by decide⟩
      exact absurd (hinside ⟨1⟩ houter) (hnone.1 rfl 1 (by decide))
  · exact ((hblocks ⟨3⟩).1 (by decide)).resolve_left (by decide)

end LoopForest

end Midend
