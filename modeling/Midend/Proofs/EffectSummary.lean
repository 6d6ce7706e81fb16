import Midend.Heap.Summary
import Midend.Proofs.LoopNest
import Midend.Proofs.WellFormed

/-!
# What an effect summary says

A finished summary gives every instruction of a reachable block its own effect, and a loop header at
least the effects of all instructions of its loop, those of inner loops included.

## Shape of the argument

Effects are ordered by inclusion, and every step of the summary only adds.  The effect of a block
includes its instructions'; it is added to every loop that is met going outward from the block, and
these are all loops the block is in (`LoopForest.mem_enclosing`).
-/

namespace Midend

namespace Category

/-- A larger set touches no less memory. -/
theorem isTouched_or (k : Category) (x y : CategorySet) :
    k.isTouched (x ||| y) = (k.isTouched x || k.isTouched y) := by
  have hzero : ∀ x y : CategorySet, (x ||| y != 0#28) = (x != 0#28 || y != 0#28) := by
    intro x y
    rw [Bool.eq_iff_iff]
    simp only [bne_iff_ne, Bool.or_eq_true, ne_eq, BitVec.or_eq_zero_iff, not_and_or]
  rw [isTouched, isTouched, isTouched]
  split
  · exact hzero x y
  · rw [← hzero, ← BitVec.and_or_distrib_right]

end Category

namespace Effects

/-- A union may write what one of its parts may. -/
theorem mayWrite_union (a b : Effects) (k : Category) :
    (a.union b).mayWrite k = (a.mayWrite k || b.mayWrite k) := by
  rw [mayWrite, writes_union, k.isTouched_or]
  rfl

theorem mayWrite_write (k : Category) : (write k).mayWrite k = true := by
  cases k with
  | instanceField ty => cases ty <;> decide
  | staticField ty => cases ty <;> decide
  | arrayElement ty => cases ty <;> decide
  | unknown => decide

theorem mayWrite_all (k : Category) : all.mayWrite k = true := by
  cases k with
  | instanceField ty => cases ty <;> decide
  | staticField ty => cases ty <;> decide
  | arrayElement ty => cases ty <;> decide
  | unknown => decide

end Effects

namespace EffectSummary

open Midend.Graph

variable {g : Graph} {t : DomTree} {s s' : EffectSummary} {b : BlockId} {i : InstId}

theorem ofInst_set (e : Effects) (x : InstId) :
    ({ s with insts := s.insts.set x.index e }).ofInst i = if i = x then e else s.ofInst i := by
  simp only [ofInst, Table.get_set, InstId.index_inj]

/-- The instructions of a block get their effects, which the sum includes. -/
theorem addInst_fold {body : List InstId} {e e' : Effects}
    (h : body.foldlM (addInst g) (s, e) = .ok (s', e')) :
    (∀ i ∈ body, g.effectsOf i = .ok (s'.ofInst i) ∧
      ∀ k, (s'.ofInst i).mayWrite k = true → e'.mayWrite k = true) ∧
    (∀ i, i ∉ body → s'.ofInst i = s.ofInst i) ∧ s'.blocks = s.blocks ∧ s'.loops = s.loops := by
  refine Checked.foldlM_prefix (P := fun done st =>
    (∀ i ∈ done, g.effectsOf i = .ok (st.1.ofInst i) ∧
      ∀ k, (st.1.ofInst i).mayWrite k = true → st.2.mayWrite k = true) ∧
    (∀ i, i ∉ done → st.1.ofInst i = s.ofInst i) ∧ st.1.blocks = s.blocks ∧ st.1.loops = s.loops)
    h (by simp) ?_
  rintro done x rest ⟨s₁, e₁⟩ st - ⟨hdone, hothers, hblocks, hloops⟩ hstep
  simp only [addInst, Checked.bind_eq_ok, Checked.pure_eq_ok] at hstep
  obtain ⟨e, he, rfl⟩ := hstep
  refine ⟨fun i hi => ?_, fun i hi => ?_, hblocks, hloops⟩
  · simp only [ofInst_set, Effects.mayWrite_union, Bool.or_eq_true]
    by_cases hix : i = x
    · subst hix
      simp only [if_true]
      exact ⟨he, fun k hk => .inr hk⟩
    · simp only [if_neg hix]
      obtain ⟨heff, hwrite⟩ := hdone i (by simpa [hix] using hi)
      exact ⟨heff, fun k hk => .inl (hwrite k hk)⟩
  · have hix : i ≠ x := fun h => hi (by simp [h])
    rw [ofInst_set, if_neg hix]
    exact hothers i fun h => hi (List.mem_append_left _ h)

/-- A summary that has taken some blocks into account. -/
structure Covers (g : Graph) (done : List BlockId) (s : EffectSummary) : Prop where
  insts : ∀ b ∈ done, ∀ block i, g.block b = .ok block → i ∈ block.body →
    g.effectsOf i = .ok (s.ofInst i)
  blocks : ∀ b ∈ done, ∀ block i k, g.block b = .ok block → i ∈ block.body →
    (s.ofInst i).mayWrite k = true → (s.ofBlock b).mayWrite k = true

/-- One more block is covered, with its instructions. -/
theorem Covers.addBlock {done : List BlockId} (hs : Covers g done s) (h : addBlock g s b = .ok s') :
    Covers g (done ++ [b]) s' ∧ s'.loops = s.loops := by
  simp only [EffectSummary.addBlock, Checked.bind_eq_ok, Checked.pure_eq_ok] at h
  obtain ⟨block, hblock, ⟨s₁, e⟩, hfold, rfl⟩ := h
  obtain ⟨hbody, hothers, hblocks, hloops⟩ := addInst_fold hfold
  -- an effect noted twice is the same effect
  have hsame : ∀ b' ∈ done, ∀ block' i, g.block b' = .ok block' → i ∈ block'.body →
      s₁.ofInst i = s.ofInst i := by
    intro b' hb' block' i hblock' hi
    by_cases hmem : i ∈ block.body
    · exact Except.ok.inj ((hbody i hmem).1.symm.trans (hs.insts b' hb' block' i hblock' hi))
    · exact hothers i hmem
  have hofBlock : ∀ b', ({ s₁ with blocks := s₁.blocks.set b.index e }).ofBlock b' =
      if b' = b then e else s.ofBlock b' := by
    intro b'
    simp only [ofBlock, Table.get_set, BlockId.index_inj, hblocks]
  refine ⟨⟨fun b' hb' block' i hblock' hi => ?_, fun b' hb' block' i k hblock' hi hk => ?_⟩, hloops⟩
  · by_cases hmem : b' ∈ done
    · have hi' := hs.insts b' hmem block' i hblock' hi
      rwa [← hsame b' hmem block' i hblock' hi] at hi'
    · obtain rfl : b' = b := by simpa [hmem] using hb'
      rw [hblock] at hblock'
      cases hblock'
      exact (hbody i hi).1
  · rw [hofBlock]
    by_cases hb : b' = b
    · subst hb
      rw [hblock] at hblock'
      cases hblock'
      rw [if_pos rfl]
      exact (hbody i hi).2 k hk
    · have hmem : b' ∈ done := by simpa [hb] using hb'
      rw [if_neg hb]
      refine hs.blocks b' hmem block' i k hblock' hi ?_
      rw [← hsame b' hmem block' i hblock' hi]
      exact hk

/-! ## Adding up the loops -/

/-- Only the effects of loop headers have grown. -/
structure Grown (s s' : EffectSummary) : Prop where
  insts : s'.insts = s.insts
  blocks : s'.blocks = s.blocks
  loops : s'.loops = s.loops
  headers : ∀ h k, (s.ofHeader h).mayWrite k = true → (s'.ofHeader h).mayWrite k = true

theorem Grown.refl (s : EffectSummary) : Grown s s := ⟨rfl, rfl, rfl, fun _ _ h => h⟩

theorem Grown.trans {s₁ s₂ s₃ : EffectSummary} (h : Grown s₁ s₂) (h' : Grown s₂ s₃) : Grown s₁ s₃ :=
  ⟨h'.insts.trans h.insts, h'.blocks.trans h.blocks, h'.loops.trans h.loops,
    fun x k hk => h'.headers x k (h.headers x k hk)⟩

/-- Going on for a list only adds effects. -/
theorem grown_foldl {α : Type} {f : EffectSummary → α → EffectSummary} (hf : ∀ s x, Grown s (f s x))
    (xs : List α) (s : EffectSummary) : Grown s (xs.foldl f s) := by
  induction xs generalizing s with
  | nil => exact .refl s
  | cons x xs ih => exact (hf s x).trans (ih _)

theorem ofHeader_modify (e : Effects) (x h : BlockId) :
    ({ s with headers := s.headers.modify x.index (·.union e) }).ofHeader h =
      if h = x then (s.ofHeader x).union e else s.ofHeader h := by
  simp only [ofHeader, Table.modify, Table.get_set, BlockId.index_inj]

theorem grown_addToLoop (e : Effects) (s : EffectSummary) (l : LoopId) : Grown s (addToLoop e s l) := by
  rw [addToLoop]
  split
  · refine ⟨rfl, rfl, rfl, fun h k hk => ?_⟩
    rw [ofHeader_modify]
    split
    · next hh =>
      rw [Effects.mayWrite_union, ← hh, hk, Bool.true_or]
    · exact hk
  · exact .refl s

/-- After its effects are added a loop may write what they may. -/
theorem mayWrite_addToLoop {e : Effects} {l : LoopId} {loop : Loop} {k : Category}
    (hl : s.loops.loops[l.index]? = some loop) (hk : e.mayWrite k = true) :
    ((addToLoop e s l).ofHeader loop.header).mayWrite k = true := by
  rw [addToLoop, hl]
  simp only [ofHeader_modify, if_true, Effects.mayWrite_union, hk, Bool.or_true]

/-- One block adds its effect to every loop around it. -/
theorem mayWrite_addToLoops {e : Effects} {ls : List LoopId} {l : LoopId} {loop : Loop} {k : Category}
    (hmem : l ∈ ls) (hl : s.loops.loops[l.index]? = some loop) (hk : e.mayWrite k = true) :
    ((ls.foldl (addToLoop e) s).ofHeader loop.header).mayWrite k = true := by
  obtain ⟨pre, post, rfl⟩ := List.append_of_mem hmem
  rw [List.foldl_append, List.foldl_cons]
  have hpre := grown_foldl (grown_addToLoop e) pre s
  refine (grown_foldl (grown_addToLoop e) post _).headers _ k (mayWrite_addToLoop ?_ hk)
  rw [hpre.loops]
  exact hl

theorem grown_addToEnclosing (s : EffectSummary) (b : BlockId) :
    Grown s ((s.loops.enclosing b).foldl (addToLoop (s.ofBlock b)) s) :=
  grown_foldl (grown_addToLoop _) _ s

/-- The finished summary has the effect of a block at the header of every loop around the block. -/
theorem mayWrite_finish {l : LoopId} {loop : Loop} {k : Category} (hb : b ∈ g.blockIds)
    (hmem : l ∈ s.loops.enclosing b) (hl : s.loops.loops[l.index]? = some loop)
    (hk : (s.ofBlock b).mayWrite k = true) :
    ((finish g s).ofHeader loop.header).mayWrite k = true := by
  obtain ⟨pre, post, hsplit⟩ := List.append_of_mem hb
  rw [finish, hsplit, List.foldl_append, List.foldl_cons]
  have hpre := grown_foldl grown_addToEnclosing pre s
  refine (grown_foldl grown_addToEnclosing post _).headers _ k (mayWrite_addToLoops (l := l) ?_ ?_ ?_)
  · rw [hpre.loops]
    exact hmem
  · rw [hpre.loops]
    exact hl
  · rw [ofBlock, hpre.blocks]
    exact hk

/-- Adding the effects of blocks to their loops only adds effects. -/
theorem grown_finish (s : EffectSummary) : Grown s (finish g s) :=
  (grown_foldl grown_addToEnclosing g.blockIds s).trans ⟨rfl, rfl, rfl, fun _ _ h => h⟩

/-- A summary says of every instruction of a reachable block what it does, and of a loop at least what
its instructions write. -/
structure Summarizes (g : Graph) (t : DomTree) (s : EffectSummary) : Prop where
  loops : s.loops = LoopForest.ofGraph g t
  insts : ∀ b block i, g.Reachable b → g.block b = .ok block → i ∈ block.body →
    g.effectsOf i = .ok (s.ofInst i)
  headers : ∀ h b block i k, g.InLoop h b → g.block b = .ok block → i ∈ block.body →
    (s.ofInst i).mayWrite k = true → (s.ofHeader h).mayWrite k = true

/-- Adding the reachable blocks and finishing makes such a summary. -/
theorem summarizes_finish (hg : g.Consistent) (ht : DomTree.ofGraph g = .ok t)
    (h : t.rpo.foldlM (EffectSummary.addBlock g) (start (LoopForest.ofGraph g t)) = .ok s) :
    Summarizes g t (finish g s) := by
  have hcovers : Covers g t.rpo s ∧ s.loops = LoopForest.ofGraph g t := by
    refine Checked.foldlM_prefix (P := fun done s => Covers g done s ∧ s.loops = LoopForest.ofGraph g t)
      h ⟨⟨by simp, by simp⟩, rfl⟩ ?_
    rintro done b rest s₁ s₂ - ⟨hs, hloops⟩ hstep
    obtain ⟨hs', hloops'⟩ := hs.addBlock hstep
    exact ⟨hs', hloops'.trans hloops⟩
  obtain ⟨hs, hloops⟩ := hcovers
  have hgrown := grown_finish (g := g) s
  have hinst : ∀ i, (finish g s).ofInst i = s.ofInst i := fun i => by rw [ofInst, hgrown.insts, ofInst]
  refine ⟨hgrown.loops.trans hloops, fun b block i hb hblock hi => ?_,
    fun h b block i k hloop hblock hi hk => ?_⟩
  · rw [hinst]
    exact hs.insts b ((DomTree.mem_rpo hg ht).2 hb) block i hblock hi
  · rw [hinst] at hk
    obtain ⟨hreach, latch, hback, -⟩ := id hloop
    obtain ⟨l, loop, -, hl, rfl⟩ := LoopForest.isHeader_of_backEdge hg ht hback
    have hmem := LoopForest.mem_enclosing hg ht hl hloop
    rw [← hloops] at hl hmem
    exact mayWrite_finish (mem_blockIds_iff.2 ⟨block, hblock⟩) hmem hl
      (hs.blocks b ((DomTree.mem_rpo hg ht).2 hreach) block i k hblock hi hk)

end EffectSummary

end Midend
