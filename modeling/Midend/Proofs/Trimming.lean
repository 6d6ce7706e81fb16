import Midend.Proofs.Pruning
import Midend.Proofs.Reduction

/-!
# What the passes leave alone

The passes change a graph in two ways only: uses of a value are moved to another, and instructions without
uses are removed.  Neither touches the blocks and their edges, so the dominator tree and the loops stay.
Neither breaks the books of the graph, nor the layout of its instructions.

Beyond that, null-check elimination and the removal of dead code are prunings, so what is known about
nullability stays as well.

## Shape of the argument

`Trimmed` holds of one edit and is transitive; each pass is a fold of edits.  For dead code the fold is
followed with the list of what is gone: nothing dead can throw, so it dereferences nothing.
-/

namespace Midend

open Midend.Graph

/-! ## Loops -/

/-- The loops depend on the tree, the number of blocks and the edges alone. -/
theorem LoopForest.ofGraph_congr {g g' : Graph} (t : DomTree) (hsize : g'.blocks.size = g.blocks.size)
    (hpreds : g'.preds = g.preds) : LoopForest.ofGraph g' t = LoopForest.ofGraph g t := by
  have hreach : g'.reaching = g.reaching := by
    funext closed targets
    rw [reaching, reaching, hsize, hpreds]
  have hbody : LoopForest.bodyOf g' = LoopForest.bodyOf g := by
    funext t header latches
    rw [LoopForest.bodyOf, LoopForest.bodyOf, hreach]
  have hlatches : LoopForest.latchesOf g' = LoopForest.latchesOf g := by
    funext t header
    rw [LoopForest.latchesOf, LoopForest.latchesOf, hpreds]
  have hadd : LoopForest.addHeader g' = LoopForest.addHeader g := by
    funext t forest header
    rw [LoopForest.addHeader, LoopForest.addHeader, hbody, hlatches, hpreds]
  rw [LoopForest.ofGraph, LoopForest.ofGraph, hadd]

namespace Graph

variable {g g' g'' : Graph} {i old value : InstId}

/-! ## Trimmed graphs -/

/-- A graph with the blocks and edges of another, whose books and layout are right if they were. -/
structure Trimmed (g g' : Graph) : Prop where
  entry : g'.entry = g.entry
  isStatic : g'.isStatic = g.isStatic
  size : g'.blocks.size = g.blocks.size
  succs : g'.succs = g.succs
  preds : g'.preds = g.preds
  intact : g.Intact → g'.Intact
  furnished : g.Intact → g.Furnished → g'.Furnished

theorem Trimmed.refl (g : Graph) : Trimmed g g := ⟨rfl, rfl, rfl, rfl, rfl, id, fun _ => id⟩

theorem Trimmed.trans (h : Trimmed g g') (h' : Trimmed g' g'') : Trimmed g g'' where
  entry := h'.entry.trans h.entry
  isStatic := h'.isStatic.trans h.isStatic
  size := h'.size.trans h.size
  succs := h'.succs.trans h.succs
  preds := h'.preds.trans h.preds
  intact hg := h'.intact (h.intact hg)
  furnished hg hl := h'.furnished (h.intact hg) (h.furnished hg hl)

/-- A trimmed graph has the same dominator tree. -/
theorem Trimmed.dominators (h : Trimmed g g') {t : DomTree} (ht : DomTree.ofGraph g = .ok t) :
    DomTree.ofGraph g' = .ok t :=
  DomTree.ofGraph_congr h.entry h.size h.succs h.preds ht

/-- A trimmed graph has the same loops. -/
theorem Trimmed.loops (h : Trimmed g g') (t : DomTree) :
    LoopForest.ofGraph g' t = LoopForest.ofGraph g t :=
  LoopForest.ofGraph_congr t h.size h.preds

theorem trimmed_replaceUses (g : Graph) (old value : InstId) : Trimmed g (g.replaceUses old value) := by
  by_cases hne : value = old
  · rw [replaceUses, if_pos hne.symm]
    exact .refl g
  obtain ⟨hentry, hblocks, -, hinsts, -⟩ := replaceUses_spec (g := g) hne
  have hstatic := congrArg (fun d => d.2.1) (declared_replaceUses (g := g) hne)
  refine ⟨hentry, hstatic, by rw [hblocks], ?_, ?_, fun hg => hg.replaceUses old value, fun _ hl => ?_⟩
  · funext b
    rw [Graph.succs, Graph.succs, hblocks]
  · funext b
    rw [Graph.preds, Graph.preds, hblocks]
  · have hatt : (g.replaceUses old value).attached = g.attached := by rw [attached, attached, hblocks]
    have hblock : ∀ b, (g.replaceUses old value).block b = g.block b := fun b => by
      rw [Graph.block, Graph.block, hblocks]
    refine ⟨fun i inst' hi hinst' => ?_, fun b block i inst' hb hi hinst' => ?_,
      fun b block i inst' hb hi hinst' => ?_⟩
    all_goals obtain ⟨inst, hinst, rfl⟩ := (inst_replaceUses hne).1 hinst'
    · rw [Inst.redirect, List.length_mapIdx]
      exact hl.operands i inst (hatt ▸ hi) hinst
    · exact hl.phis b block i inst (hblock b ▸ hb) hi hinst
    · exact hl.insts b block i inst (hblock b ▸ hb) hi hinst

/-- Removing an instruction leaves the others with the operands that they need. -/
theorem Intact.furnished_removeInst (hg : g.Intact) (h : g.removeInst i = .ok g') (hl : g.Furnished) :
    g'.Furnished := by
  obtain ⟨inst, -, -, hblocks, hslots, -⟩ := hg.removeInst_spec h
  have hblock : ∀ b block', g'.block b = .ok block' → ∃ block, g.block b = .ok block ∧
      block' = block.without [i] := by
    intro b block' hb
    rw [block_eq_ok, hblocks, Option.map_eq_some_iff] at hb
    obtain ⟨block, hb, rfl⟩ := hb
    exact ⟨block, block_eq_ok.2 hb, rfl⟩
  have hother : ∀ j, j ∉ [i] → g'.inst j = g.inst j := fun j hj => by
    rw [Graph.inst, Graph.inst, hslots, if_neg (fun hji => hj (by simp [hji]))]
  have hatt : ∀ j ∈ g'.attached, j ∉ [i] ∧ j ∈ g.attached := by
    intro j hj
    obtain ⟨b, block', hb, hj⟩ := mem_attached.1 hj
    obtain ⟨block, hold, rfl⟩ := hblock b block' hb
    obtain ⟨hj, hne⟩ := Block.mem_body_without.1 hj
    exact ⟨hne, mem_attached.2 ⟨b, block, hold, hj⟩⟩
  refine ⟨fun j inst' hj hinst' => ?_, fun b block' j inst' hb hj hinst' => ?_,
    fun b block' j inst' hb hj hinst' => ?_⟩
  · obtain ⟨hne, hj⟩ := hatt j hj
    exact hl.operands j inst' hj (hother j hne ▸ hinst')
  · obtain ⟨block, hold, rfl⟩ := hblock b block' hb
    obtain ⟨hj, hne⟩ := List.mem_filter.1 hj
    exact hl.phis b block j inst' hold hj (hother j (of_decide_eq_true hne) ▸ hinst')
  · obtain ⟨block, hold, rfl⟩ := hblock b block' hb
    obtain ⟨hj, hne⟩ := List.mem_filter.1 hj
    exact hl.insts b block j inst' hold hj (hother j (of_decide_eq_true hne) ▸ hinst')

theorem trimmed_removeInst (hg : g.Intact) (h : g.removeInst i = .ok g') : Trimmed g g' := by
  obtain ⟨inst, -, hentry, hblocks, -⟩ := hg.removeInst_spec h
  have hsame : g'.blocks = g.blocks.map (Block.without [i]) :=
    Array.ext_getElem? fun n => by simpa using hblocks ⟨n⟩
  have hstatic := congrArg (fun d => d.2.1) (removeInst_unchanged h).1
  refine ⟨hentry, hstatic, by rw [hsame, Array.size_map], ?_, ?_, fun _ => hg.removeInst h,
    fun _ => hg.furnished_removeInst h⟩
  · funext b
    rw [Graph.succs, Graph.succs, hblocks, Option.map_map]
    rfl
  · funext b
    rw [Graph.preds, Graph.preds, hblocks, Option.map_map]
    rfl

/-- A fold of trimmings is one. -/
theorem trimmed_foldl {α : Type} {f : Graph → α → Graph} (hf : ∀ g a, Trimmed g (f g a)) (xs : List α)
    (g : Graph) : Trimmed g (xs.foldl f g) := by
  induction xs generalizing g with
  | nil => exact .refl g
  | cons a xs ih => exact (hf g a).trans (ih (f g a))

/-- Steps that trim the graph trim it one after another. -/
theorem trimmed_foldlM {α : Type} {f : Graph → α → Checked Graph} {xs : List α} (hg : g.Intact)
    (hf : ∀ g a g', g.Intact → f g a = .ok g' → Trimmed g g') (h : xs.foldlM f g = .ok g') :
    Trimmed g g' :=
  Checked.foldlM_prefix (P := fun _ g₁ => Trimmed g g₁) h (.refl g)
    fun _ a _ g₁ g₂ _ h₁ hstep => h₁.trans (hf g₁ a g₂ (h₁.intact hg) hstep)

end Graph

/-! ## Loads and stores -/

namespace LoadStore

variable {g g' : Graph} {s : State}

/-- Applying what load/store elimination found trims the graph. -/
theorem trimmed_applyTo (hg : g.Intact) (h : applyTo s g = .ok g') : Trimmed g g' := by
  simp only [applyTo, Checked.bind_eq_ok] at h
  obtain ⟨g₂, hloads, hstores⟩ := h
  have hmoved := trimmed_foldl (fun g load => trimmed_replaceUses g load (s.resolve load)) s.removedLoads g
  have hremoved := trimmed_foldlM (hmoved.intact hg) (fun _ _ _ => trimmed_removeInst) hloads
  have hboth := hmoved.trans hremoved
  exact hboth.trans (trimmed_foldlM (hboth.intact hg) (fun _ _ _ => trimmed_removeInst) hstores)

/-- With nothing to remove the graph stays. -/
theorem applyTo_eq_self (hloads : s.removedLoads = []) (hstores : removableStores s = [])
    (h : applyTo s g = .ok g') : g' = g := by
  simp only [applyTo, hloads, hstores, List.foldl_nil, List.foldlM_nil, Checked.bind_eq_ok,
    Checked.pure_eq_ok] at h
  obtain ⟨_, rfl, rfl⟩ := h
  rfl

end LoadStore

/-! ## Null checks -/

namespace NullCheck

variable {g g' : Graph} {t : DomTree} {f : NullFacts} {pairs : List (InstId × InstId)} {c o : InstId}

/-- Removing a check trims the graph. -/
theorem trimmed_removeCheck (hg : g.Intact) {p : InstId × InstId} (h : removeCheck g p = .ok g') :
    Trimmed g g' := by
  have hmoved := trimmed_replaceUses g p.1 p.2
  exact hmoved.trans (trimmed_removeInst (hmoved.intact hg) h)

section Redundant

variable (hw : g.WellFormed) (hg : g.Consistent) (hl : g.Furnished) (hf : NullFacts.Represents g f)
  (h : redundant g t f = .ok pairs)
include hw hg hf h

/-- A check that is found checks a value that is not null where it stands. -/
theorem mem_redundant (hc : (c, o) ∈ pairs) : c ∈ g.attached ∧ g.CheckOf c o ∧
    (NullFacts.NonNull g o ∨ ∃ d, NullFacts.Live g d ∧ NullFacts.Derefs g d o ∧ d ≠ c ∧
      t.instDominates g d c = .ok true) := by
  obtain ⟨q, hq, rfl⟩ := Checked.filterMapM_eq_ok.1 h
  obtain ⟨c', hc', hqc⟩ := List.mem_filterMap.1 hc
  have hstep := hq c' hc'
  obtain ⟨inst, hinst⟩ := hw.exists_inst hc'
  rw [kind_eq_ok.2 ⟨inst, hinst, rfl⟩, hqc] at hstep
  simp only [Checked.bind_eq_ok, Except.ok.injEq, exists_eq_left'] at hstep
  split at hstep
  · next hkind =>
    simp only [Checked.bind_eq_ok, Checked.pure_eq_ok, input_eq_ok] at hstep
    obtain ⟨o', ⟨_, hinst', ho⟩, r, hr, hpair⟩ := hstep
    rw [hinst] at hinst'
    cases hinst'
    cases r with
    | false => cases hpair
    | true =>
      cases hpair
      have hcheck : inst.kind = .nullCheck := by
        cases hk : inst.kind <;> simp_all [Kind.isNullCheck]
      obtain ⟨r, hr', hiff⟩ := hf.isNonNullAt_spec (t := t) hw hg
        (hw.operand c inst 0 o hc' hinst ho).1 hinst
      rw [hr] at hr'
      cases hr'
      exact ⟨hc', ⟨inst, hinst, hcheck, ho⟩, hiff.1 rfl⟩
  · simp at hstep

include hl

theorem found_of_redundant : Found g pairs := by
  have hmem := fun c o => mem_redundant (c := c) (o := o) hw hg hf h
  refine ⟨?_, fun c o hc => (hmem c o hc).2.1, fun c o hc => ?_⟩
  · obtain ⟨q, hq, rfl⟩ := Checked.filterMapM_eq_ok.1 h
    refine ⟨_, map_fst_filterMap fun c hc c' o hp => ?_⟩
    have hstep := hq c hc
    obtain ⟨inst, hinst⟩ := hw.exists_inst hc
    rw [kind_eq_ok.2 ⟨inst, hinst, rfl⟩, hp] at hstep
    simp only [Checked.bind_eq_ok, Except.ok.injEq, exists_eq_left'] at hstep
    split at hstep
    · simp only [Checked.bind_eq_ok, Checked.pure_eq_ok] at hstep
      obtain ⟨o', -, r, -, hpair⟩ := hstep
      cases r <;> cases hpair
      rfl
    · simp at hstep
  · obtain ⟨-, -, hnn | ⟨d, hlive, hderefs, -⟩⟩ := hmem c o hc
    · exact hnn.live
    · obtain ⟨b, n, hb, hat⟩ := hlive
      obtain ⟨r, hr, ho⟩ := (derefs_iff hw hg hl hb hat).1 hderefs
      have hset : g.Settled b n o := by
        rcases ho with rfl | hroot
        · exact hr.settled hw hg hl hb hat
        · exact settled_of_checks hw hg hl hb (hr.settled hw hg hl hb hat) hroot.1
      obtain ⟨a, m, hato, ha⟩ := hset.exists_at hb
      exact ⟨a, m, ha, hato⟩

/-- Removing the checks that are found prunes the graph. -/
theorem exists_pruned (hi : g.Intact) (ht : DomTree.ofGraph g = .ok t) :
    ∃ g', pairs.foldlM removeCheck g = .ok g' ∧ Pruned g (subst pairs) (pairs.map Prod.fst) g' := by
  have hfound := found_of_redundant hw hg hl hf h
  obtain ⟨g', hfold, hrewired⟩ := hfound.rewired hw hg hl
  have htrimmed := trimmed_foldlM hi (fun _ _ _ hg h => trimmed_removeCheck hg h) hfold
  refine ⟨g', hfold, hrewired, htrimmed.isStatic, fun x => ?_, fun c hc o ho => ?_⟩
  · refine Relation.ReflTransGen.mono (fun c o hco => ?_) _ _ (behind_subst (fun _ h => h) x)
    exact ⟨mem_keys.2 ⟨o, hco⟩, (mem_redundant hw hg hf h hco).2.1⟩
  · obtain ⟨o', hc⟩ := mem_keys.1 hc
    obtain ⟨-, hcheck, hwhy⟩ := mem_redundant hw hg hf h hc
    -- a check dereferences the value it checks
    obtain rfl : o = o' := by
      obtain ⟨inst, k, hinst, hk, hget⟩ := ho
      obtain ⟨inst', hinst', hkind, hget'⟩ := hcheck
      rw [hinst] at hinst'
      cases hinst'
      rw [hkind] at hk
      cases hk
      exact Option.some.inj (hget.symm.trans hget')
    refine ⟨hcheck, fun b n hb hat => hwhy.imp_right ?_⟩
    rintro ⟨d, ⟨a, m, -, hatd⟩, hderefs, hne, hdom⟩
    exact ⟨d, hw.settled_of_instDominates hg ht hatd hat hne hdom, hderefs⟩

end Redundant

end NullCheck

/-! ## Dead code -/

/-- What cannot throw dereferences nothing. -/
theorem Kind.dereferencedInput?_eq_none {k : Kind} (h : k.canThrow = false) :
    k.dereferencedInput? = none := by
  cases k <;> simp_all [canThrow, dereferencedInput?]

namespace DeadCode

variable {g g₁ g₂ : Graph} {i : InstId} {b : BlockId}

/-- A graph came from another by taking out instructions that cannot throw and that nothing uses. -/
structure Cleared (g : Graph) (gone : List InstId) (g₁ : Graph) : Prop where
  rewired : Rewired g id gone g₁
  idle : ∀ c ∈ gone, ∀ inst, g.inst c = .ok inst → inst.kind.canThrow = false ∧ inst.kind.isTerminator = false
  unused : ∀ c ∈ gone, g₁.uses c = []
  trimmed : Trimmed g g₁

theorem Cleared.pruned {gone : List InstId} (h : Cleared g gone g₁) : Pruned g id gone g₁ := by
  refine ⟨h.rewired, h.trimmed.isStatic, fun x => .refl, fun c hc o ⟨inst, k, hinst, hk, _⟩ => ?_⟩
  rw [Kind.dereferencedInput?_eq_none (h.idle c hc inst hinst).1] at hk
  cases hk

/-- What is left reads nothing that is gone. -/
theorem Cleared.wellFormed {gone : List InstId} (h : Cleared g gone g₁) (hw : g.WellFormed)
    (hg : g.Consistent) : g₁.WellFormed := by
  refine h.rewired.wellFormed hw hg (fun i hi inst hinst => (h.idle i hi inst hinst).2) (fun _ => id)
    (fun _ _ _ _ => id) fun i inst x hi hgone hinst hx hmem => ?_
  obtain ⟨xs, hinst', hxs⟩ := h.rewired.kept i inst hgone hinst
  obtain rfl := hxs hi
  obtain ⟨k, hk⟩ := List.mem_iff_getElem?.1 (List.mem_map_of_mem hx)
  have hused := h.rewired.operand i _ k _ hi hgone hinst' hk
  rw [h.unused _ hmem] at hused
  cases hused

section Sweeps

variable (hw : g.WellFormed) (hi : g.Intact)
include hw hi

/-- One instruction of the graph that is still there. -/
theorem Cleared.removeIfDead {gone : List InstId} {n n' : Nat} (h : Cleared g gone g₁)
    (hatt : i ∈ g.attached) (hgone : i ∉ gone) (hstep : removeIfDead (g₁, n) i = .ok (g₂, n')) :
    (g₂ = g₁ ∧ n' = n) ∨ Cleared g (gone ++ [i]) g₂ ∧ n' = n + 1 := by
  simp only [DeadCode.removeIfDead, Checked.bind_eq_ok] at hstep
  obtain ⟨dead, hdead, hstep⟩ := hstep
  cases dead with
  | false =>
    simp only [Bool.false_eq_true, if_false, Checked.pure_eq_ok, Prod.mk.injEq] at hstep
    exact .inl ⟨hstep.1.symm, hstep.2.symm⟩
  | true =>
    simp only [if_true, Checked.bind_eq_ok, Checked.pure_eq_ok, Prod.mk.injEq] at hstep
    obtain ⟨g₃, hremove, rfl, rfl⟩ := hstep
    obtain ⟨huses, inst₁, hinst₁, hterminator, -, hthrow, -⟩ := isDead_eq_true hdead
    obtain ⟨g₄, hg₄, hrewired⟩ := h.rewired.removeInst hw hatt hgone huses
    obtain rfl : g₃ = g₄ := Except.ok.inj (hremove.symm.trans hg₄)
    have hintact := h.trimmed.intact hi
    refine .inr ⟨⟨hrewired, fun c hc inst hinst => ?idle, fun c hc => ?unused,
      h.trimmed.trans (trimmed_removeInst hintact hremove)⟩, rfl⟩
    case idle =>
      rcases List.mem_append.1 hc with hc | hc
      · exact h.idle c hc inst hinst
      · obtain rfl := List.mem_singleton.1 hc
        obtain ⟨inst', hinst', heq, -⟩ := h.rewired.exists_inst hgone hinst₁
        obtain rfl : inst = inst' := Except.ok.inj (hinst.symm.trans hinst')
        rw [heq] at hterminator hthrow
        exact ⟨hthrow, hterminator⟩
    case unused =>
      obtain ⟨_, -, -, -, -, hfewer⟩ := hintact.removeInst_spec hremove
      refine List.eq_nil_iff_forall_not_mem.2 fun u hu => ?_
      have hu := ((hfewer c u).1 hu).1
      rcases List.mem_append.1 hc with hc | hc
      · rw [h.unused c hc] at hu
        cases hu
      · rw [List.mem_singleton.1 hc, huses] at hu
        cases hu

/-- One block.  Something is removed exactly when the count goes up. -/
theorem Cleared.sweepBlock {gone : List InstId} {n n' : Nat} (h : Cleared g gone g₁)
    (hstep : sweepBlock (g₁, n) b = .ok (g₂, n')) :
    ∃ gone', Cleared g gone' g₂ ∧ n ≤ n' ∧ (n' = n → g₂ = g₁) := by
  simp only [DeadCode.sweepBlock, Checked.bind_eq_ok] at hstep
  obtain ⟨block, hblock, hstep⟩ := hstep
  have hnodup : block.body.reverse.Nodup := by
    rw [List.nodup_reverse, ← bodyOf_eq hblock]
    exact (h.trimmed.intact hi).body_nodup b
  have hbody : ∀ i ∈ block.body.reverse, i ∈ g.attached ∧ i ∉ gone := by
    intro i hmem
    rw [← h.rewired.mem_attached, mem_attached]
    exact ⟨b, block, hblock, List.mem_reverse.1 hmem⟩
  -- what is still to come has not been removed
  have key := Checked.foldlM_prefix (P := fun done (st : Graph × Nat) =>
      ∃ gone', Cleared g gone' st.1 ∧ (∀ i ∈ gone', i ∈ gone ∨ i ∈ done) ∧ n ≤ st.2 ∧
        (st.2 = n → st.1 = g₁)) hstep
    ⟨gone, h, fun i hi => .inl hi, Nat.le_refl n, fun _ => rfl⟩ ?_
  · obtain ⟨gone', hcleared, -, hle, hsame⟩ := key
    exact ⟨gone', hcleared, hle, hsame⟩
  rintro done i rest ⟨c₁, k₁⟩ ⟨c₂, k₂⟩ hsplit ⟨gone', hcleared, hdone, hle, hsame⟩ hone
  obtain ⟨hatt, hgone⟩ := hbody i (by simp [hsplit])
  have hgone' : i ∉ gone' := by
    intro hmem
    rcases hdone i hmem with hmem | hmem
    · exact hgone hmem
    · rw [hsplit] at hnodup
      exact List.disjoint_of_nodup_append hnodup hmem (by simp)
  rcases hcleared.removeIfDead hw hi hatt hgone' hone with ⟨rfl, rfl⟩ | ⟨hcleared', rfl⟩
  · exact ⟨gone', hcleared, fun j hj => (hdone j hj).imp_right (List.mem_append_left _), hle, hsame⟩
  · refine ⟨gone' ++ [i], hcleared', fun j hj => ?_, Nat.le_succ_of_le hle, fun heq => ?_⟩
    · rcases List.mem_append.1 hj with hj | hj
      · exact (hdone j hj).imp_right (List.mem_append_left _)
      · exact .inr (List.mem_append_right _ hj)
    · simp only at heq hle
      omega

/-- All sweeps. -/
theorem Cleared.sweepAll {gone : List InstId} {blocks : List BlockId} {left done removed : Nat}
    {outcome : Outcome} (h : Cleared g gone g₁)
    (hstep : sweepAll blocks left done removed g₁ = .ok (g₂, outcome)) :
    ∃ gone', Cleared g gone' g₂ ∧ removed ≤ outcome.removed ∧ (outcome.removed = removed → g₂ = g₁) := by
  induction left generalizing gone done removed g₁ with
  | zero =>
    obtain ⟨rfl, rfl⟩ := Prod.mk.inj (Except.ok.inj hstep)
    exact ⟨gone, h, Nat.le_refl _, fun _ => rfl⟩
  | succ left ih =>
    simp only [DeadCode.sweepAll, Checked.bind_eq_ok] at hstep
    obtain ⟨⟨c, n⟩, hsweep, hstep⟩ := hstep
    have hone := Checked.foldlM_prefix (P := fun _ (st : Graph × Nat) =>
        ∃ gone', Cleared g gone' st.1 ∧ (st.2 = 0 → st.1 = g₁)) hsweep ⟨gone, h, fun _ => rfl⟩ ?_
    swap
    · rintro _ b _ ⟨c₁, k₁⟩ ⟨c₂, k₂⟩ _ ⟨gone₁, h₁, hsame₁⟩ hblock
      obtain ⟨gone₂, h₂, hle, hsame₂⟩ := h₁.sweepBlock hw hi hblock
      refine ⟨gone₂, h₂, fun hzero => ?_⟩
      simp only at hzero
      have hk₁ : k₁ = 0 := by omega
      exact (hsame₂ (hzero.trans hk₁.symm)).trans (hsame₁ hk₁)
    obtain ⟨gone₁, h₁, hsame₁⟩ := hone
    split at hstep
    · next hzero =>
      obtain ⟨rfl, rfl⟩ := Prod.mk.inj (Except.ok.inj hstep)
      exact ⟨gone₁, h₁, Nat.le_refl _, fun _ => hsame₁ hzero⟩
    · next hpos =>
      obtain ⟨gone₂, h₂, hle, -⟩ := ih h₁ hstep
      exact ⟨gone₂, h₂, by omega, fun heq => by omega⟩

/-- Removing dead code clears the graph of instructions that cannot throw, and leaves it as it is if
nothing is counted. -/
theorem cleared_eliminate {maxSweeps : Nat} {outcome : Outcome}
    (h : eliminate g maxSweeps = .ok (g₁, outcome)) :
    ∃ gone, Cleared g gone g₁ ∧ (outcome.removed = 0 → g₁ = g) := by
  simp only [eliminate, Checked.bind_eq_ok] at h
  obtain ⟨t, -, h⟩ := h
  have hstart : Cleared g [] g := ⟨hw.rewired, fun c hc => by simp at hc, fun c hc => by simp at hc, .refl g⟩
  obtain ⟨gone, hcleared, -, hsame⟩ := hstart.sweepAll hw hi h
  exact ⟨gone, hcleared, hsame⟩

end Sweeps

end DeadCode

end Midend
