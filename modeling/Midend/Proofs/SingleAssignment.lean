import Midend.Proofs.Arena

/-!
# Single-assignment form, over executions

The checker looks at places, a dominator tree and use chains.  What it means is said here without them:
on every walk from the entry, what an instruction reads has been executed before it, and what a phi
reads when it is entered from a block has been executed by the end of that block.

## Shape of the argument

Both sides are compared with `WellFormed`.  That a value has been executed at a place on every walk there
is that it is settled there, which is what the checker's comparison of positions and dominators comes to.
The tests on use chains and recorded blocks say nothing about executions; a graph made by edits passes
them, provided that nothing that was removed reads a value.
-/

namespace Midend

namespace Graph

variable {g : Graph}

/-- Everything a walk has executed at the end of the block where it stands. -/
def executedThrough (g : Graph) (w : List BlockId) (p : BlockId) : List InstId :=
  (w ++ [p]).flatMap g.bodyOf

/-- A graph in single-assignment form: blocks end as they must, and nothing is read before it was
executed. -/
structure SingleAssignment (g : Graph) : Prop where
  entry : ∃ block, g.block g.entry = .ok block ∧ block.preds = []
  ends : ∀ b block, g.block b = .ok block → g.EndsWell block
  phi_inputs : ∀ b block i inst, g.block b = .ok block → i ∈ block.phis → g.inst i = .ok inst →
    inst.inputs.length = block.preds.length
  unremoved : ∀ i inst x, i ∈ g.attached → g.inst i = .ok inst → x ∈ inst.inputs → g.isRemoved x = false
  /-- When an instruction is executed, its operands have been. -/
  executed : ∀ w b n i inst x, g.Walk w b → g.At i b n → g.inst i = .ok inst → inst.kind ≠ .phi →
    x ∈ inst.inputs → x ∈ g.executed w b n
  /-- When a phi is entered from a block, its operand for that block has been executed. -/
  phi_executed : ∀ w p b block i inst (k : Nat) x, g.Walk w p → g.block b = .ok block →
    i ∈ block.phis → g.inst i = .ok inst → block.preds[k]? = some p → inst.inputs[k]? = some x →
    x ∈ g.executedThrough w p

/-! ## Both forms -/

section Compare

variable {w : List BlockId} {b p : BlockId} {i x : InstId} {n : Nat} {block : Block} {inst : Inst}
  (hg : g.Intact)
include hg

omit hg in
/-- What was executed through a block is what was executed before its end. -/
theorem executedThrough_eq (hblock : g.block p = .ok block) :
    g.executedThrough w p = g.executed w p block.body.length := by
  rw [executedThrough, Graph.executed, bodyOf_eq hblock, List.take_length, List.flatMap_append,
    List.flatMap_singleton, bodyOf_eq hblock]

/-- A value is settled at a place when every walk there has executed it. -/
theorem Intact.settled_iff (hb : g.Reachable b) :
    g.Settled b n x ↔ ∀ w, g.Walk w b → x ∈ g.executed w b n :=
  settled_iff_executed hb fun _ _ _ _ hx hx' => hg.at_unique hx hx'

theorem Intact.reachable_of_mem_preds (hp : g.Reachable p) (hblock : g.block b = .ok block)
    (hmem : p ∈ block.preds) : g.Reachable b := by
  rw [← preds_eq hblock, hg.consistent.mem_preds_iff] at hmem
  exact hp.tail hmem trivial

/-- A graph that is well-formed assigns each value once, before it is used. -/
theorem WellFormed.singleAssignment (hw : g.WellFormed) : g.SingleAssignment where
  entry := hw.entry
  ends := hw.ends
  phi_inputs := hw.phi_inputs
  unremoved i inst x hi hinst hx := by
    obtain ⟨k, hk⟩ := List.mem_iff_getElem?.1 hx
    exact (hw.operand i inst k x hi hinst hk).1
  executed w b n i inst x hwalk hi hinst hkind hx := by
    have hb := reachable_iff_walk.2 ⟨w, hwalk⟩
    obtain ⟨k, hk⟩ := List.mem_iff_getElem?.1 hx
    have hset := hw.settled_operand_at hg.consistent hb hi
      (fun block hblock hphi => hkind (hg.kind_of_mem_phis hblock hphi hinst)) hinst hk
    exact (hg.settled_iff hb).1 hset w hwalk
  phi_executed w p b block i inst k x hwalk hblock hi hinst hk hx := by
    have hp := reachable_iff_walk.2 ⟨w, hwalk⟩
    obtain ⟨pred, hpred⟩ := hw.exists_block hg.consistent hp
    have hb := hg.reachable_of_mem_preds hp hblock (List.mem_of_getElem? hk)
    have hset := hw.settled_phi_operand hg.consistent hb hblock hi hinst hx hk hp hpred
    rw [executedThrough_eq hpred]
    exact (hg.settled_iff hp).1 hset w hwalk

/-- If each value is assigned once, before it is used, the graph is well-formed. -/
theorem SingleAssignment.wellFormed (hs : g.SingleAssignment)
    (hcleared : ∀ i inst, g.inst i = .ok inst → inst.removed = true → inst.inputs = [])
    (hinsts : ∀ b block i inst, g.block b = .ok block → i ∈ block.insts → g.inst i = .ok inst →
      inst.kind ≠ .phi) : g.WellFormed where
  entry := hs.entry
  listed b block i hblock hi := hg.inst_of_mem_body hblock hi
  phi_inputs := hs.phi_inputs
  ends := hs.ends
  operand i inst k x hi hinst hx := by
    refine ⟨hs.unremoved i inst x hi hinst (List.mem_of_getElem? hx), ?_⟩
    rw [hg.used, operandsOf_eq hinst]
    exact hx
  use x u _ hu := by
    rw [hg.used, getElem?_operandsOf] at hu
    obtain ⟨inst, hinst, hx⟩ := hu
    refine ⟨?_, inst, hinst, hx⟩
    rw [isRemoved_eq hinst, Bool.eq_false_iff]
    intro hremoved
    rw [hcleared u.user inst hinst hremoved] at hx
    cases hx
  phi_defined b block i inst k x p _ hblock hi hinst hx hk hp := by
    obtain ⟨pred, hpred⟩ : ∃ pred, g.block p = .ok pred := by
      rw [← mem_blockIds_iff]
      refine mem_blockIds_of_mem_succs (g := g) (b := b) ?_
      rw [← hg.consistent.mem_preds_iff, preds_eq hblock]
      exact List.mem_of_getElem? hk
    have hset : g.Settled p pred.body.length x := by
      rw [hg.settled_iff hp]
      intro w hwalk
      rw [← executedThrough_eq hpred]
      exact hs.phi_executed w p b block i inst k x hwalk hblock hi hinst hk hx
    exact hset.definedAtEnd hp fun d block hd hmem => hg.inst_of_mem_body hd hmem
  defined b block i inst k x hb hblock hi hinst hx := by
    obtain ⟨n, hn⟩ := List.mem_iff_getElem?.1 hi
    have hat := at_insts hblock hn
    have hset : g.Settled b (block.phis.length + n) x := by
      rw [hg.settled_iff hb]
      intro w hwalk
      exact hs.executed w b _ i inst x hwalk hat hinst (hinsts b block i inst hblock hi hinst)
        (List.mem_of_getElem? hx)
    exact hg.consistent.definedBefore (fun d block hd hmem => hg.inst_of_mem_body hd hmem) hset hat

end Compare

/-- The checker finds nothing wrong exactly with the graphs in single-assignment form, among all that
edits come to, if nothing that was removed reads a value and no phi was put among ordinary
instructions. -/
theorem violations_eq_nil_iff_singleAssignment (hg : g.Built)
    (hcleared : ∀ i inst, g.inst i = .ok inst → inst.removed = true → inst.inputs = [])
    (hinsts : ∀ b block i inst, g.block b = .ok block → i ∈ block.insts → g.inst i = .ok inst →
      inst.kind ≠ .phi) :
    g.violations = .ok [] ↔ g.SingleAssignment := by
  rw [hg.intact.consistent.violations_eq_nil_iff]
  exact ⟨fun hw => hw.singleAssignment hg.intact,
    fun hs => hs.wellFormed hg.intact hcleared hinsts⟩

/-- A loop counting down to zero, with a constant that is removed again. -/
def countdown : Graph := .ofEdits "countdown" [
  .setStatic true, .createBlock, .createBlock,
  .createInst (.param 0) .int [], .appendInst ⟨0⟩ ⟨0⟩,
  .createInst .jump .void [], .appendInst ⟨0⟩ ⟨1⟩, .addEdge ⟨0⟩ ⟨1⟩,
  .createInst .phi .int [⟨0⟩], .appendPhi ⟨1⟩ ⟨2⟩,
  .createInst (.const 1) .int [], .appendInst ⟨1⟩ ⟨3⟩,
  .createInst (.const 2) .int [], .insertBefore ⟨3⟩ ⟨4⟩,
  .createInst (.binary .sub) .int [⟨2⟩, ⟨4⟩], .appendInst ⟨1⟩ ⟨5⟩,
  .createInst .branch .void [⟨5⟩], .appendInst ⟨1⟩ ⟨6⟩, .addEdge ⟨1⟩ ⟨1⟩, .addEdge ⟨1⟩ ⟨2⟩,
  .pushInput ⟨2⟩ ⟨5⟩, .replaceUses ⟨4⟩ ⟨3⟩, .removeInst ⟨4⟩,
  .createInst .ret .void [⟨5⟩], .appendInst ⟨2⟩ ⟨7⟩]

/-- `countdown` is accepted, and assigns each value once. -/
theorem violations_eq_nil_iff_singleAssignment_countdown :
    countdown.Built ∧
      (∀ i inst, countdown.inst i = .ok inst → inst.removed = true → inst.inputs = []) ∧
      (∀ b block i inst, countdown.block b = .ok block → i ∈ block.insts → countdown.inst i = .ok inst →
        inst.kind ≠ .phi) ∧
      countdown.violations = .ok [] ∧
      (countdown.violations = .ok [] ↔ countdown.SingleAssignment) := by
  have hbuilt : countdown.Built := built_ofEdits _ _
  have hcleared : ∀ inst ∈ countdown.insts.toList, inst.removed = true → inst.inputs = [] := by
    decide +kernel
  have hinsts : ∀ block ∈ countdown.blocks.toList, ∀ i ∈ block.insts,
      countdown.kind? i ≠ some .phi := by decide +kernel
  have hcleared' : ∀ i inst, countdown.inst i = .ok inst → inst.removed = true → inst.inputs = [] := by
    intro i inst hinst
    exact hcleared inst (Array.mem_toList_iff.2 (Array.mem_of_getElem? (inst_eq_ok.1 hinst)))
  have hinsts' : ∀ b block i inst, countdown.block b = .ok block → i ∈ block.insts →
      countdown.inst i = .ok inst → inst.kind ≠ .phi := by
    intro b block i inst hblock hi hinst hkind
    refine hinsts block (Array.mem_toList_iff.2 (Array.mem_of_getElem? (block_eq_ok.1 hblock))) i hi ?_
    rw [kind?_eq hinst, hkind]
  exact ⟨hbuilt, hcleared', hinsts', by decide +kernel,
    violations_eq_nil_iff_singleAssignment hbuilt hcleared' hinsts'⟩

end Graph

end Midend
