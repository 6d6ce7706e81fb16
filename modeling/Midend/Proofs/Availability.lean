import Midend.Heap.Location
import Midend.Proofs.WellFormed

/-!
# Settled values

An instruction is settled at a point of the graph when every path from the entry to the point has passed
it, and it stands strictly before the point: earlier in the same block, or in a block that strictly
dominates it.

## Shape of the argument

A settled instruction is not executed by the step that leaves the point, nor is it a phi of the block
that an edge leads to; so what a run knows about settled values it keeps, whatever loops it goes round.
Going forward a point gains at most the instruction just executed; going along an edge it gains nothing
but the phis.  In a well-formed graph the operands of an instruction are settled where it stands, and
what is settled where a settled instruction stands is settled too.
-/

namespace Midend

namespace Graph

variable {g : Graph} {b p d : BlockId} {m n : Nat} {i x y : InstId} {block : Block}

/-- Every path to place `n` of a block has passed the instruction, and cannot pass it again without
leaving the part of the graph that the instruction dominates. -/
def Settled (g : Graph) (b : BlockId) (n : Nat) (x : InstId) : Prop :=
  ∃ d m, g.At x d m ∧ ((d = b ∧ m < n) ∨ g.SDom d b)

/-- What is settled at a place is settled at later places of the block. -/
theorem Settled.mono (h : g.Settled b m x) (hmn : m ≤ n) : g.Settled b n x := by
  obtain ⟨d, k, hx, ⟨rfl, hk⟩ | hdom⟩ := h
  · exact ⟨d, k, hx, .inl ⟨rfl, by omega⟩⟩
  · exact ⟨d, k, hx, .inr hdom⟩

/-- Going forward by one instruction settles that instruction and no other. -/
theorem Settled.of_succ (h : g.Settled b (n + 1) x) (hi : g.At i b n) (hne : x ≠ i) :
    g.Settled b n x := by
  obtain ⟨d, k, hx, ⟨rfl, hk⟩ | hdom⟩ := h
  · refine ⟨d, k, hx, .inl ⟨rfl, ?_⟩⟩
    rcases Nat.lt_succ_iff_lt_or_eq.1 hk with hk | rfl
    · exact hk
    · obtain ⟨block, hb, hi⟩ := hi
      rw [at_iff_of_block hb, hi] at hx
      exact absurd (Option.some.inj hx).symm hne
  · exact ⟨d, k, hx, .inr hdom⟩

/-- What stands in a block that dominates another is settled at the other's end. -/
theorem At.settled_end (hx : g.At x d m) (hdom : g.Dom d p) (hblock : g.block p = .ok block) :
    g.Settled p block.body.length x := by
  refine ⟨d, m, hx, ?_⟩
  by_cases hdp : d = p
  · subst hdp
    exact .inl ⟨rfl, (List.getElem?_eq_some_iff.1 ((at_iff_of_block hblock).1 hx)).1⟩
  · exact .inr ⟨hdom, hdp⟩

/-- What is settled where a block starts is settled at the end of every block with an edge to it. -/
theorem Settled.of_edge (h : g.Settled b 0 x) (hp : g.Reachable p) (hedge : b ∈ g.succs p)
    (hblock : g.block p = .ok block) : g.Settled p block.body.length x := by
  obtain ⟨d, k, hx, ⟨-, hk⟩ | hdom⟩ := h
  · omega
  · exact hx.settled_end (hdom.1.of_succ hdom.2 hp hedge) hblock

/-- A settled instruction stands in a reachable block. -/
theorem Settled.exists_at (h : g.Settled b n x) (hb : g.Reachable b) :
    ∃ d m, g.At x d m ∧ g.Reachable d := by
  obtain ⟨d, m, hx, ⟨rfl, -⟩ | hdom⟩ := h
  · exact ⟨d, m, hx, hb⟩
  · exact ⟨d, m, hx, hdom.1.left⟩

/-- What is settled in a block is defined in one that dominates it. -/
theorem Settled.dom (h : g.Settled b n x) (hb : g.Reachable b) (hx : g.At x d m)
    (hunique : ∀ {d' m'}, g.At x d' m' → d' = d) : g.Dom d b := by
  obtain ⟨d', m', hx', ⟨rfl, -⟩ | hdom⟩ := h
  · obtain rfl := hunique hx'
    exact .refl hb
  · obtain rfl := hunique hx'
    exact hdom.1

theorem Consistent.exists_at_block (hg : g.Consistent) {inst : Inst} (hinst : g.inst x = .ok inst)
    (hd : inst.block = some d) : ∃ m, g.At x d m := by
  obtain ⟨block, hblock, hx⟩ := hg.listed x inst d hinst hd
  exact exists_at hblock hx

theorem at_insts (hblock : g.block b = .ok block) (hi : block.insts[n]? = some i) :
    g.At i b (block.phis.length + n) := by
  refine ⟨block, hblock, ?_⟩
  rw [Block.body, List.getElem?_append_right (by omega), Nat.add_sub_cancel_left]
  exact hi

theorem at_phis (hblock : g.block b = .ok block) (hi : i ∈ block.phis) :
    ∃ n, n < block.phis.length ∧ g.At i b n := by
  obtain ⟨n, hn⟩ := List.mem_iff_getElem?.1 hi
  have hlt := (List.getElem?_eq_some_iff.1 hn).1
  refine ⟨n, hlt, block, hblock, ?_⟩
  rw [Block.body, List.getElem?_append_left hlt]
  exact hn

section WellFormed

variable (hw : g.WellFormed) (hg : g.Consistent)
include hw hg

/-- No instruction is settled before itself. -/
theorem WellFormed.not_settled_self (hi : g.At i b n) : ¬ g.Settled b n i := by
  rintro ⟨d, m, hi', ⟨rfl, hm⟩ | hdom⟩
  · obtain ⟨-, rfl⟩ := hw.at_unique hg hi hi'
    omega
  · obtain ⟨rfl, -⟩ := hw.at_unique hg hi hi'
    exact hdom.2 rfl

/-- What is settled where a settled instruction stands is settled. -/
theorem WellFormed.settled_trans (hy : g.At y d m) (hx : g.Settled d m x) (h : g.Settled b n y) :
    g.Settled b n x := by
  obtain ⟨d', m', hy', hpos⟩ := h
  obtain ⟨rfl, rfl⟩ := hw.at_unique hg hy hy'
  obtain ⟨e, k, hx, hpos'⟩ := hx
  refine ⟨e, k, hx, ?_⟩
  rcases hpos with ⟨rfl, hm⟩ | hdom <;> rcases hpos' with ⟨rfl, hk⟩ | hdom'
  · exact .inl ⟨rfl, by omega⟩
  · exact .inr hdom'
  · exact .inr hdom
  · refine .inr ⟨hdom'.1.trans hdom.1, ?_⟩
    rintro rfl
    exact hdom.2 (hdom.1.antisymm hdom'.1)

/-- What is settled at the end of every block from which control comes first is settled where a block
starts. -/
theorem WellFormed.settled_of_forward_preds (hb : g.Reachable b) (hne : b ≠ g.entry)
    (hall : ∀ p block, g.Reachable p → b ∈ g.succs p → ¬ g.Dom b p → g.block p = .ok block →
      g.Settled p block.body.length x) : g.Settled b 0 x := by
  obtain ⟨p, hp, hedge, hfwd⟩ := exists_forward_pred hb hne
  obtain ⟨block, hblock⟩ := hw.exists_block hg hp
  obtain ⟨d, m, hx, -⟩ := hall p block hp hedge hfwd hblock
  refine ⟨d, m, hx, .inr (sdom_of_forward_preds hb hne fun q hq hedge hfwd => ?_)⟩
  obtain ⟨block, hblock⟩ := hw.exists_block hg hq
  exact (hall q block hq hedge hfwd hblock).dom hq hx fun hx' => (hw.at_unique hg hx' hx).1

/-- The operands of an instruction are settled where it stands. -/
theorem WellFormed.settled_operand {inst : Inst} {k : Nat} (hb : g.Reachable b)
    (hblock : g.block b = .ok block) (hi : block.insts[n]? = some i) (hinst : g.inst i = .ok inst)
    (hx : inst.inputs[k]? = some x) : g.Settled b (block.phis.length + n) x := by
  have hat := at_insts hblock hi
  obtain ⟨def_x, d, hdef, hd, hbefore⟩ :=
    hw.defined b block i inst k x hb hblock (List.mem_of_getElem? hi) hinst hx
  obtain ⟨m, hm⟩ := hg.exists_at_block hdef hd
  refine ⟨d, m, hm, ?_⟩
  by_cases hdb : d = b
  · rw [if_pos hdb, hg.positions_eq hm, hg.positions_eq hat] at hbefore
    exact .inl ⟨hdb, hbefore⟩
  · rw [if_neg hdb] at hbefore
    exact .inr ⟨hbefore, hdb⟩

/-- The operands of an instruction that is no phi are settled before it. -/
theorem WellFormed.settled_operand_at {inst : Inst} {k : Nat} (hb : g.Reachable b) (hi : g.At i b n)
    (hphi : ∀ block, g.block b = .ok block → i ∉ block.phis) (hinst : g.inst i = .ok inst)
    (hx : inst.inputs[k]? = some x) : g.Settled b n x := by
  obtain ⟨block, hblock, hi⟩ := hi
  rcases Nat.lt_or_ge n block.phis.length with hn | hn
  · rw [Block.body, List.getElem?_append_left hn] at hi
    exact absurd (List.mem_of_getElem? hi) (hphi block hblock)
  · rw [Block.body, List.getElem?_append_right hn] at hi
    have hset := hw.settled_operand hg hb hblock hi hinst hx
    rwa [Nat.add_sub_cancel' hn] at hset

/-- The operand of a phi is settled at the end of its predecessor. -/
theorem WellFormed.settled_phi_operand {inst : Inst} {k : Nat} {pred : Block} (hb : g.Reachable b)
    (hblock : g.block b = .ok block) (hi : i ∈ block.phis) (hinst : g.inst i = .ok inst)
    (hx : inst.inputs[k]? = some x) (hk : block.preds[k]? = some p) (hp : g.Reachable p)
    (hpred : g.block p = .ok pred) : g.Settled p pred.body.length x := by
  obtain ⟨def_x, d, hdef, hd, hdom⟩ := hw.phi_defined b block i inst k x p hb hblock hi hinst hx hk hp
  obtain ⟨m, hm⟩ := hg.exists_at_block hdef hd
  exact hm.settled_end hdom hpred

theorem WellFormed.position?_eq (hi : g.At i b n) : g.position? i = .ok (some n) := by
  obtain ⟨block, hblock, hget⟩ := id hi
  obtain ⟨inst, hinst, hrec⟩ := hw.listed b block i hblock (List.mem_of_getElem? hget)
  have hblockOf : g.blockOf i = .ok (some b) := blockOf_eq_ok.2 ⟨inst, hinst, hrec⟩
  simp only [position?, hblockOf, hblock, Checked.bind_eq_ok, Except.ok.injEq, exists_eq_left',
    Checked.pure_eq_ok]
  cases hfind : block.body.findIdx? (· = i) with
  | none =>
    have hnone := List.findIdx?_eq_none_iff.1 hfind i (List.mem_of_getElem? hget)
    simp at hnone
  | some m =>
    obtain ⟨hlt, hm, -⟩ := List.findIdx?_eq_some_iff_getElem.1 hfind
    have hat : g.At i b m := ⟨block, hblock, by simpa [List.getElem?_eq_getElem hlt] using hm⟩
    rw [(hw.at_unique hg hat hi).2]

/-- Whether a listed instruction dominates another one has an answer. -/
theorem WellFormed.exists_instDominates {t : DomTree} {inst : Inst} (hx : g.At x d m)
    (hinst : g.inst i = .ok inst) : ∃ r, t.instDominates g x i = .ok r := by
  obtain ⟨block, hblock, hget⟩ := id hx
  have hxblock : g.blockOf x = .ok (some d) :=
    blockOf_eq_ok.2 (hw.listed d block x hblock (List.mem_of_getElem? hget))
  rw [DomTree.instDominates, hxblock, blockOf_eq_ok.2 ⟨inst, hinst, rfl⟩]
  cases hb : inst.block with
  | none => exact ⟨false, rfl⟩
  | some c =>
    by_cases hdc : d = c
    · subst hdc
      obtain ⟨n, hi⟩ := hg.exists_at_block hinst hb
      rw [hw.position?_eq hg hx, hw.position?_eq hg hi]
      exact ⟨_, by simp; rfl⟩
    · exact ⟨_, by simp [hdc]; rfl⟩

/-- An instruction that dominates another is settled where the other stands. -/
theorem WellFormed.settled_of_instDominates {t : DomTree} (ht : DomTree.ofGraph g = .ok t)
    (hx : g.At x d m) (hi : g.At i b n) (hne : x ≠ i) (h : t.instDominates g x i = .ok true) :
    g.Settled b n x := by
  obtain ⟨dblock, hdblock, hgetx⟩ := id hx
  obtain ⟨block, hblock, hgeti⟩ := id hi
  obtain ⟨xinst, hxinst, hxrec⟩ := hw.listed d dblock x hdblock (List.mem_of_getElem? hgetx)
  obtain ⟨inst, hinst, hrec⟩ := hw.listed b block i hblock (List.mem_of_getElem? hgeti)
  have hblockx : g.blockOf x = .ok (some d) := blockOf_eq_ok.2 ⟨xinst, hxinst, hxrec⟩
  have hblocki : g.blockOf i = .ok (some b) := blockOf_eq_ok.2 ⟨inst, hinst, hrec⟩
  simp only [DomTree.instDominates, hblockx, hblocki, hw.position?_eq hg hx, hw.position?_eq hg hi,
    Checked.bind_eq_ok, Except.ok.injEq, exists_eq_left'] at h
  refine ⟨d, m, hx, ?_⟩
  by_cases hdb : d = b
  · subst hdb
    simp only [ne_eq, not_true_eq_false, if_false, Checked.bind_eq_ok, Except.ok.injEq, exists_eq_left',
      Checked.pure_eq_ok, decide_eq_true_eq] at h
    refine .inl ⟨rfl, Nat.lt_of_le_of_ne h ?_⟩
    rintro rfl
    rw [at_iff_of_block hdblock] at hx hi
    exact hne (Option.some.inj (hx.symm.trans hi))
  · simp only [ne_eq, hdb, not_false_eq_true, if_true, Checked.pure_eq_ok] at h
    exact .inr ⟨(DomTree.dominates_iff hg ht).1 h, hdb⟩

end WellFormed

/-! ## Behind null checks -/

/-- Looking through null checks follows operands of null checks, and so keeps what is closed under
them. -/
theorem unchecked_induction {P : InstId → Prop} (h : g.unchecked x = .ok y) (hx : P x)
    (step : ∀ z inst z', P z → g.inst z = .ok inst → inst.kind = .nullCheck →
      inst.inputs[0]? = some z' → P z') : P y := by
  rw [unchecked] at h
  generalize g.insts.size + 1 = depth at h
  induction depth generalizing x with
  | zero =>
    obtain rfl : x = y := by simpa [uncheckedWithin] using h
    exact hx
  | succ depth ih =>
    simp only [uncheckedWithin, Checked.bind_eq_ok, kind_eq_ok] at h
    obtain ⟨_, ⟨inst, hinst, rfl⟩, h⟩ := h
    split at h
    · next hcheck =>
      have hkind : inst.kind = .nullCheck := by
        cases hk : inst.kind <;> simp_all [Kind.isNullCheck]
      simp only [Checked.bind_eq_ok, input_eq_ok] at h
      obtain ⟨z, ⟨_, hinst', hz⟩, h⟩ := h
      rw [hinst] at hinst'
      cases hinst'
      exact ih (step x inst z hx hinst hkind hz) h
    · obtain rfl : x = y := by simpa using h
      exact hx

/-- The operand of a settled null check is settled. -/
theorem WellFormed.settled_checked (hw : g.WellFormed) (hg : g.Consistent) (hl : g.Furnished)
    {inst : Inst} (hb : g.Reachable b) (hx : g.Settled b n x) (hinst : g.inst x = .ok inst)
    (hkind : inst.kind = .nullCheck) (hy : inst.inputs[0]? = some y) : g.Settled b n y := by
  obtain ⟨d, m, hat, hd⟩ := hx.exists_at hb
  have hset := hw.settled_operand_at hg hd hat
    (fun _ h => hl.not_mem_phis hinst (by simp [hkind]) h) hinst hy
  exact hw.settled_trans hg hat hset hx

/-- If a value is settled, so is what its checks lead to. -/
theorem WellFormed.settled_unchecked (hw : g.WellFormed) (hg : g.Consistent) (hl : g.Furnished)
    (hb : g.Reachable b) (hx : g.Settled b n x) (h : g.unchecked x = .ok y) : g.Settled b n y :=
  unchecked_induction h hx fun _ _ _ hz hinst hkind hz' =>
    hw.settled_checked hg hl hb hz hinst hkind hz'

/-- Looking through null checks comes to an end where every check has its operand. -/
theorem exists_unchecked_of {P : InstId → Prop} (hx : P x) (step : ∀ z, P z → ∃ inst, g.inst z = .ok inst ∧
    (inst.kind = .nullCheck → ∃ z', inst.inputs[0]? = some z' ∧ P z')) : ∃ y, g.unchecked x = .ok y := by
  rw [unchecked]
  generalize g.insts.size + 1 = depth
  induction depth generalizing x with
  | zero => exact ⟨x, rfl⟩
  | succ depth ih =>
    obtain ⟨inst, hinst, hoperand⟩ := step x hx
    have hkind : g.kind x = .ok inst.kind := kind_eq_ok.2 ⟨inst, hinst, rfl⟩
    simp only [uncheckedWithin, hkind, Checked.bind_eq_ok, Except.ok.injEq, exists_eq_left']
    by_cases hcheck : inst.kind = .nullCheck
    · obtain ⟨y, hy, hP⟩ := hoperand hcheck
      obtain ⟨z, hz⟩ := ih hP
      refine ⟨z, ?_⟩
      rw [hcheck]
      simp only [Kind.isNullCheck, if_true, Checked.bind_eq_ok]
      exact ⟨y, input_eq_ok.2 ⟨inst, hinst, hy⟩, hz⟩
    · refine ⟨x, ?_⟩
      have hno : inst.kind.isNullCheck = false := by
        cases hk : inst.kind <;> simp_all [Kind.isNullCheck]
      simp [hno]

/-- Looking through null checks comes to an end in reachable blocks. -/
theorem WellFormed.exists_unchecked (hw : g.WellFormed) (hg : g.Consistent) (hl : g.Furnished)
    (hb : g.Reachable b) (hx : g.At x b n) : ∃ y, g.unchecked x = .ok y := by
  refine exists_unchecked_of (P := fun z => ∃ b n, g.Reachable b ∧ g.At z b n) ⟨b, n, hb, hx⟩ ?_
  rintro z ⟨b, n, hb, hz⟩
  obtain ⟨inst, hinst⟩ := hw.exists_inst hz.mem_attached
  refine ⟨inst, hinst, fun hcheck => ?_⟩
  obtain ⟨y, hy⟩ := hl.exists_dereferenced hz.mem_attached hinst (k := 0) (by rw [hcheck]; rfl)
  have hset := hw.settled_operand_at hg hb hz
    (fun _ h => hl.not_mem_phis hinst (by simp [hcheck]) h) hinst hy
  obtain ⟨d, m, hat, hd⟩ := hset.exists_at hb
  exact ⟨y, hy, d, m, hd, hat⟩

end Graph

end Midend
