import Midend.Checker
import Midend.Proofs.Dominance

/-!
# What the checker accepts

The checker finds nothing wrong with a graph exactly when the graph is well formed, a property that is
stated here without the checker: over paths instead of the dominator tree, and over the places of
instructions in their blocks instead of a table.

## Shape of the argument

Each list of violations is a traversal, so it is empty exactly when every member passes its own test.
The tests are read off one by one, and put together at the end.
-/

namespace Midend

namespace Graph

variable {g : Graph} {b : BlockId} {i : InstId} {block : Block} {inst : Inst}

/-- Asking for an instruction succeeds when its slot is there. -/
theorem inst_eq_ok : g.inst i = .ok inst ↔ g.insts[i.index]? = some inst := by
  rw [Graph.inst, Checked.ofOption_eq_ok]

/-- Asking for a block succeeds when its slot is there. -/
theorem block_eq_ok : g.block b = .ok block ↔ g.blocks[b.index]? = some block := by
  rw [Graph.block, Checked.ofOption_eq_ok]

/-- The kind of an instruction is asked of its slot. -/
theorem kind_eq_ok {k : Kind} : g.kind i = .ok k ↔ ∃ inst, g.inst i = .ok inst ∧ inst.kind = k := by
  rw [kind, Checked.bind_eq_ok]
  simp only [Checked.pure_eq_ok]

/-- The type of an instruction is asked of its slot. -/
theorem ty_eq_ok {t : Ty} : g.ty i = .ok t ↔ ∃ inst, g.inst i = .ok inst ∧ inst.ty = t := by
  rw [ty, Checked.bind_eq_ok]
  simp only [Checked.pure_eq_ok]

/-- The operands of an instruction are asked of its slot. -/
theorem inputs_eq_ok {xs : List InstId} :
    g.inputs i = .ok xs ↔ ∃ inst, g.inst i = .ok inst ∧ inst.inputs = xs := by
  rw [inputs, Checked.bind_eq_ok]
  simp only [Checked.pure_eq_ok]

/-- The block of an instruction is asked of its slot. -/
theorem blockOf_eq_ok {o : Option BlockId} :
    g.blockOf i = .ok o ↔ ∃ inst, g.inst i = .ok inst ∧ inst.block = o := by
  rw [blockOf, Checked.bind_eq_ok]
  simp only [Checked.pure_eq_ok]

/-- An operand is asked of the slot and its list of operands. -/
theorem input_eq_ok {k : Nat} {x : InstId} :
    g.input i k = .ok x ↔ ∃ inst, g.inst i = .ok inst ∧ inst.inputs[k]? = some x := by
  rw [input, Checked.bind_eq_ok]
  simp only [inputs_eq_ok, Checked.ofOption_eq_ok]
  constructor
  · rintro ⟨_, ⟨inst, hinst, rfl⟩, hx⟩
    exact ⟨inst, hinst, hx⟩
  · rintro ⟨inst, hinst, hx⟩
    exact ⟨_, ⟨inst, hinst, rfl⟩, hx⟩

/-- The successors of a block are those in its slot. -/
theorem succs_eq (h : g.block b = .ok block) : g.succs b = block.succs := by
  rw [block_eq_ok] at h
  rw [succs, h]
  rfl

/-- The predecessors of a block are those in its slot. -/
theorem preds_eq (h : g.block b = .ok block) : g.preds b = block.preds := by
  rw [block_eq_ok] at h
  rw [preds, h]
  rfl

/-- The blocks of a graph are the slots that are there. -/
theorem mem_blockIds_iff : b ∈ g.blockIds ↔ ∃ block, g.block b = .ok block := by
  simp only [mem_blockIds, block_eq_ok]
  constructor
  · intro h
    exact ⟨_, Array.getElem?_eq_getElem h⟩
  · rintro ⟨block, h⟩
    exact (Array.getElem?_eq_some_iff.1 h).1

/-- What is listed is listed by some block. -/
theorem mem_attached : i ∈ g.attached ↔ ∃ b block, g.block b = .ok block ∧ i ∈ block.body := by
  simp only [attached, List.mem_flatMap, Array.mem_toList_iff, Array.mem_iff_getElem?, block_eq_ok]
  constructor
  · rintro ⟨block, ⟨n, hn⟩, hi⟩
    exact ⟨⟨n⟩, block, hn, hi⟩
  · rintro ⟨b, block, hb, hi⟩
    exact ⟨block, ⟨b.index, hb⟩, hi⟩

/-! ## Places -/

/-- An instruction stands at a place of a block, phis counted first. -/
def At (g : Graph) (i : InstId) (b : BlockId) (n : Nat) : Prop :=
  ∃ block, g.block b = .ok block ∧ block.body[n]? = some i

/-- What a block lists stands at some place of it. -/
theorem exists_at (hb : g.block b = .ok block) (hi : i ∈ block.body) : ∃ n, g.At i b n := by
  obtain ⟨n, hn⟩ := List.mem_iff_getElem?.1 hi
  exact ⟨n, block, hb, hn⟩

/-- What stands at a place is listed. -/
theorem At.mem_attached {n : Nat} (h : g.At i b n) : i ∈ g.attached := by
  obtain ⟨block, hb, hi⟩ := h
  exact Graph.mem_attached.2 ⟨b, block, hb, List.mem_of_getElem? hi⟩

/-- A place is looked up in the slot of the block. -/
theorem at_iff_of_block (hb : g.block b = .ok block) {n : Nat} :
    g.At i b n ↔ block.body[n]? = some i := by
  constructor
  · rintro ⟨block', hb', hi⟩
    rw [hb] at hb'
    cases hb'
    exact hi
  · exact fun hi => ⟨block, hb, hi⟩

/-- The table of places finds every listed instruction where it stands. -/
theorem Consistent.positions_eq (hg : g.Consistent) {n : Nat} (h : g.At i b n) :
    (Checker.positions g).get i.index = n := by
  obtain ⟨block, hb, hi⟩ := h
  rw [block_eq_ok] at hb
  have hflat : Checker.positions g = (g.blocks.toList.flatMap (·.body.zipIdx)).foldl
      (fun t x => t.set x.1.index x.2) Table.empty := by
    rw [List.foldl_flatMap]
    rfl
  have hmem : (i, n) ∈ g.blocks.toList.flatMap (·.body.zipIdx) := by
    rw [List.mem_flatMap]
    exact ⟨block, Array.mem_toList_iff.2 (Array.mem_of_getElem? hb),
      List.mk_mem_zipIdx_iff_getElem?.2 hi⟩
  have hfst : (g.blocks.toList.flatMap (·.body.zipIdx)).map Prod.fst = g.attached := by
    rw [List.map_flatMap, attached]
    simp
  have hinj := List.inj_on_of_nodup_map (hfst ▸ hg.listed_once)
  rw [hflat]
  refine Table.get_foldl_set_of_mem (k := fun x : InstId × Nat => x.1.index) (v := (·.2)) hmem ?_
  intro y hy hidx
  rw [hinj hy hmem (InstId.index_inj.1 hidx)]

/-! ## Well-formed graphs -/

/-- A block ends with its only terminator, and has as many successors as that asks for. -/
def EndsWell (g : Graph) (block : Block) : Prop :=
  ∃ init last, block.insts = init ++ [last] ∧
    (∀ i ∈ init, ∃ inst, g.inst i = .ok inst ∧ inst.kind.isTerminator = false) ∧
    ∃ inst, g.inst last = .ok inst ∧ inst.kind.successorCount? = some block.succs.length

/-- An instruction is defined at the end of a block. -/
def DefinedAtEnd (g : Graph) (x : InstId) (p : BlockId) : Prop :=
  ∃ inst d, g.inst x = .ok inst ∧ inst.block = some d ∧ g.Dom d p

/-- An instruction is defined before another of some block. -/
def DefinedBefore (g : Graph) (x user : InstId) (b : BlockId) : Prop :=
  ∃ inst d, g.inst x = .ok inst ∧ inst.block = some d ∧
    if d = b then (Checker.positions g).get x.index < (Checker.positions g).get user.index
    else g.Dom d b

/-- A graph in which the edges, the use chains and the definitions are as they should be. -/
structure WellFormed (g : Graph) : Prop where
  entry : ∃ block, g.block g.entry = .ok block ∧ block.preds = []
  listed : ∀ b block i, g.block b = .ok block → i ∈ block.body →
    ∃ inst, g.inst i = .ok inst ∧ inst.block = some b
  phi_inputs : ∀ b block i inst, g.block b = .ok block → i ∈ block.phis → g.inst i = .ok inst →
    inst.inputs.length = block.preds.length
  ends : ∀ b block, g.block b = .ok block → g.EndsWell block
  operand : ∀ i inst (k : Nat) x, i ∈ g.attached → g.inst i = .ok inst → inst.inputs[k]? = some x →
    g.isRemoved x = false ∧ ⟨i, k⟩ ∈ g.uses x
  use : ∀ x u, x ∈ g.attached → u ∈ g.uses x → g.isRemoved u.user = false ∧
    ∃ inst, g.inst u.user = .ok inst ∧ inst.inputs[u.index]? = some x
  phi_defined : ∀ b block i inst (k : Nat) x p, g.Reachable b → g.block b = .ok block → i ∈ block.phis →
    g.inst i = .ok inst → inst.inputs[k]? = some x → block.preds[k]? = some p → g.Reachable p →
    g.DefinedAtEnd x p
  defined : ∀ b block i inst (k : Nat) x, g.Reachable b → g.block b = .ok block → i ∈ block.insts →
    g.inst i = .ok inst → inst.inputs[k]? = some x → g.DefinedBefore x i b

/-- What is listed is there. -/
theorem WellFormed.exists_inst (hw : g.WellFormed) (hi : i ∈ g.attached) :
    ∃ inst, g.inst i = .ok inst := by
  obtain ⟨b, block, hb, hi⟩ := mem_attached.1 hi
  obtain ⟨inst, hinst, -⟩ := hw.listed b block i hb hi
  exact ⟨inst, hinst⟩

/-- A reachable block is there. -/
theorem WellFormed.exists_block (hw : g.WellFormed) (hg : g.Consistent) (hb : g.Reachable b) :
    ∃ block, g.block b = .ok block := by
  rw [← mem_blockIds_iff]
  cases hb with
  | refl =>
    obtain ⟨block, hentry, -⟩ := hw.entry
    exact mem_blockIds_iff.2 ⟨block, hentry⟩
  | tail _ hedge => exact mem_blockIds_of_mem_preds (hg.mem_preds_iff.2 hedge)

/-- An instruction has one place. -/
theorem WellFormed.at_unique (hw : g.WellFormed) (hg : g.Consistent) {b' : BlockId} {n n' : Nat}
    (h : g.At i b n) (h' : g.At i b' n') : b = b' ∧ n = n' := by
  refine ⟨?_, (hg.positions_eq h).symm.trans (hg.positions_eq h')⟩
  obtain ⟨block, hb, hi⟩ := h
  obtain ⟨block', hb', hi'⟩ := h'
  obtain ⟨inst, hinst, hrec⟩ := hw.listed b block i hb (List.mem_of_getElem? hi)
  obtain ⟨inst', hinst', hrec'⟩ := hw.listed b' block' i hb' (List.mem_of_getElem? hi')
  rw [hinst] at hinst'
  cases hinst'
  exact Option.some.inj (hrec.symm.trans hrec')

end Graph

/-! ## The operands of each kind -/

/-- How many operands an instruction has; `none` where its kind does not say. -/
def Kind.arity? : Kind → Option Nat
  | .param _ | .const _ | .null | .newInstance _ | .staticGet _ | .jump | .retVoid => some 0
  | .newArray _ | .instanceGet _ | .staticSet _ | .arrayLength | .nullCheck | .monitorEnter
  | .monitorExit | .branch | .ret | .raise => some 1
  | .binary _ | .compare _ | .instanceSet _ | .arrayGet => some 2
  | .arraySet => some 3
  | .phi | .invoke _ _ | .unknown _ => none

/-- How many of its operands an instruction is asked for by the passes. -/
def Kind.needs : Kind → Nat
  | .instanceGet _ | .instanceSet _ | .staticSet _ | .arrayLength | .nullCheck | .monitorEnter
  | .monitorExit => 1
  | .invoke mode _ => if mode.hasReceiver then 1 else 0
  | .arrayGet => 2
  | .arraySet => 3
  | _ => 0

/-- Only the first operand is ever dereferenced, and the kinds that do so are asked for it. -/
theorem Kind.dereferencedInput?_eq_some {k : Kind} {n : Nat} (h : k.dereferencedInput? = some n) :
    n = 0 ∧ 0 < k.needs := by
  cases k with
  | invoke mode callee =>
    simp only [dereferencedInput?] at h
    split at h
    · next hmode => exact ⟨(Option.some.inj h).symm, by simp [needs, hmode]⟩
    · cases h
  | instanceGet | instanceSet | arrayGet | arraySet | arrayLength | nullCheck | monitorEnter | monitorExit =>
    exact ⟨(Option.some.inj h).symm, by simp [needs]⟩
  | _ => cases h

/-- Every listed instruction has the operands its kind asks for, and phis stand among phis. -/
structure Graph.Layout (g : Graph) : Prop where
  arity : ∀ i inst n, i ∈ g.attached → g.inst i = .ok inst → inst.kind.arity? = some n →
    inst.inputs.length = n
  receiver : ∀ i inst, i ∈ g.attached → g.inst i = .ok inst → inst.kind.hasReceiver = true →
    inst.inputs ≠ []
  phis : ∀ b block i inst, g.block b = .ok block → i ∈ block.phis → g.inst i = .ok inst →
    inst.kind = .phi
  insts : ∀ b block i inst, g.block b = .ok block → i ∈ block.insts → g.inst i = .ok inst →
    inst.kind ≠ .phi

/-- Every listed instruction has the operands that it is asked for, and phis stand among phis. -/
structure Graph.Furnished (g : Graph) : Prop where
  operands : ∀ i inst, i ∈ g.attached → g.inst i = .ok inst → inst.kind.needs ≤ inst.inputs.length
  phis : ∀ b block i inst, g.block b = .ok block → i ∈ block.phis → g.inst i = .ok inst →
    inst.kind = .phi
  insts : ∀ b block i inst, g.block b = .ok block → i ∈ block.insts → g.inst i = .ok inst →
    inst.kind ≠ .phi

namespace Graph

variable {g : Graph} {i : InstId} {inst : Inst}

/-- Documented operands are more than the passes ask for. -/
theorem Layout.furnished (hl : g.Layout) : g.Furnished where
  operands i inst hi hinst := by
    have harity := hl.arity i inst
    have hreceiver := hl.receiver i inst hi hinst
    cases hk : inst.kind with
    | invoke mode callee =>
      rw [Kind.needs]
      split
      · next hmode => exact List.length_pos_iff.2 (hreceiver (by rw [hk]; exact hmode))
      · exact Nat.zero_le _
    | arrayGet | arraySet | instanceGet | instanceSet | staticSet | arrayLength | nullCheck | monitorEnter
    | monitorExit =>
      rw [harity _ hi hinst (by rw [hk]; rfl)]
      simp [Kind.needs]
    | _ => exact Nat.zero_le _
  phis := hl.phis
  insts := hl.insts

instance : CoeOut g.Layout g.Furnished := ⟨Layout.furnished⟩

/-- An operand that is asked for is there. -/
theorem Furnished.exists_operand (hl : g.Furnished) (hi : i ∈ g.attached) (hinst : g.inst i = .ok inst)
    {k : Nat} (hk : k < inst.kind.needs) : ∃ x, inst.inputs[k]? = some x :=
  ⟨_, List.getElem?_eq_getElem (Nat.lt_of_lt_of_le hk (hl.operands i inst hi hinst))⟩

/-- An instruction that dereferences an operand has it. -/
theorem Furnished.exists_dereferenced (hl : g.Furnished) (hi : i ∈ g.attached) (hinst : g.inst i = .ok inst)
    {k : Nat} (hk : inst.kind.dereferencedInput? = some k) : ∃ x, inst.inputs[k]? = some x := by
  obtain ⟨rfl, hneeds⟩ := Kind.dereferencedInput?_eq_some hk
  exact hl.exists_operand hi hinst hneeds

/-- A listed instruction that is no phi is in no list of phis. -/
theorem Furnished.not_mem_phis (hl : g.Furnished) (hinst : g.inst i = .ok inst) (hkind : inst.kind ≠ .phi)
    {b : BlockId} {block : Block} (hb : g.block b = .ok block) : i ∉ block.phis :=
  fun hi => hkind (hl.phis b block i inst hb hi hinst)

/-! Both kinds of hypothesis can be tested: only the slots of the graph matter. -/

/-- Consistency can be checked slot by slot. -/
theorem Consistent.iff_slots : g.Consistent ↔
    (∀ a ∈ g.blockIds, (∀ b ∈ g.blockIds, (g.succs a).count b = (g.preds b).count a) ∧
      (∀ b ∈ g.succs a, b ∈ g.blockIds) ∧ ∀ b ∈ g.preds a, b ∈ g.blockIds) ∧
    g.attached.Nodup ∧
    ∀ i ∈ g.instIds, ∀ inst ∈ g.insts[i.index]?, ∀ b ∈ inst.block,
      ∃ block ∈ g.blocks[b.index]?, i ∈ block.body := by
  constructor
  · intro hg
    refine ⟨fun a ha => ⟨fun b _ => hg.edges a b, fun b hb => ?_, fun b hb => ?_⟩, hg.listed_once, ?_⟩
    · exact mem_blockIds_of_mem_preds (hg.mem_preds_iff.2 hb)
    · exact mem_blockIds_of_mem_succs (hg.mem_preds_iff.1 hb)
    · intro i _ inst hinst b hb
      obtain ⟨block, hblock, hi⟩ := hg.listed i inst b (inst_eq_ok.2 hinst) hb
      exact ⟨block, block_eq_ok.1 hblock, hi⟩
  · rintro ⟨hedges, honce, hlisted⟩
    refine ⟨fun a b => ?_, honce, fun i inst b hinst hb => ?_⟩
    · by_cases ha : a ∈ g.blockIds
      · by_cases hb : b ∈ g.blockIds
        · exact (hedges a ha).1 b hb
        · rw [List.count_eq_zero_of_not_mem fun h => hb ((hedges a ha).2.1 b h),
            List.count_eq_zero_of_not_mem fun h => hb (mem_blockIds_of_mem_preds h)]
      · rw [List.count_eq_zero_of_not_mem fun h => ha (mem_blockIds_of_mem_succs h),
          List.count_eq_zero_of_not_mem fun h => ha ((hedges b (mem_blockIds_of_mem_preds h)).2.2 a h)]
    · rw [inst_eq_ok] at hinst
      have hi : i ∈ g.instIds := by
        rw [instIds, List.mem_map]
        exact ⟨i.index, List.mem_range.2 (Array.getElem?_eq_some_iff.1 hinst).1, rfl⟩
      obtain ⟨block, hblock, hmem⟩ := hlisted i hi inst hinst b hb
      exact ⟨block, block_eq_ok.2 hblock, hmem⟩

instance : Decidable g.Consistent := decidable_of_iff _ Consistent.iff_slots.symm

/-- The documented operands can be checked slot by slot. -/
theorem Layout.iff_slots : g.Layout ↔
    (∀ i ∈ g.attached, ∀ inst ∈ g.insts[i.index]?,
      (∀ n ∈ inst.kind.arity?, inst.inputs.length = n) ∧
      (inst.kind.hasReceiver = true → inst.inputs ≠ [])) ∧
    ∀ b ∈ g.blockIds, ∀ block ∈ g.blocks[b.index]?,
      (∀ i ∈ block.phis, ∀ inst ∈ g.insts[i.index]?, inst.kind = .phi) ∧
      ∀ i ∈ block.insts, ∀ inst ∈ g.insts[i.index]?, inst.kind ≠ .phi := by
  constructor
  · intro hl
    refine ⟨fun i hi inst hinst => ⟨fun n hn => ?_, ?_⟩, fun b _ block hb => ⟨fun i hi inst hinst => ?_,
      fun i hi inst hinst => ?_⟩⟩
    · exact hl.arity i inst n hi (inst_eq_ok.2 hinst) hn
    · exact hl.receiver i inst hi (inst_eq_ok.2 hinst)
    · exact hl.phis b block i inst (block_eq_ok.2 hb) hi (inst_eq_ok.2 hinst)
    · exact hl.insts b block i inst (block_eq_ok.2 hb) hi (inst_eq_ok.2 hinst)
  · rintro ⟨hinsts, hblocks⟩
    refine ⟨fun i inst n hi hinst hn => ?_, fun i inst hi hinst => ?_, fun b block i inst hb hi hinst => ?_,
      fun b block i inst hb hi hinst => ?_⟩
    · exact (hinsts i hi inst (inst_eq_ok.1 hinst)).1 n hn
    · exact (hinsts i hi inst (inst_eq_ok.1 hinst)).2
    · exact (hblocks b (mem_blockIds_iff.2 ⟨block, hb⟩) block (block_eq_ok.1 hb)).1 i hi inst
        (inst_eq_ok.1 hinst)
    · exact (hblocks b (mem_blockIds_iff.2 ⟨block, hb⟩) block (block_eq_ok.1 hb)).2 i hi inst
        (inst_eq_ok.1 hinst)

instance : Decidable g.Layout := decidable_of_iff _ Layout.iff_slots.symm

/-- What is no phi does not stand among phis. -/
theorem Layout.not_mem_phis (hl : g.Layout) (hinst : g.inst i = .ok inst) (hkind : inst.kind ≠ .phi)
    {b : BlockId} {block : Block} (hb : g.block b = .ok block) : i ∉ block.phis :=
  hl.furnished.not_mem_phis hinst hkind hb

end Graph

/-! ## The tests of the checker, one by one -/

namespace Checker

open Midend.Graph

variable {g : Graph} {t : DomTree} {b : BlockId} {i : InstId} {block : Block}

/-- The entry is fine when nothing leads to it. -/
theorem entryViolations_eq_nil :
    entryViolations g = .ok [] ↔ ∃ block, g.block g.entry = .ok block ∧ block.preds = [] := by
  simp only [entryViolations, Checked.bind_eq_ok, Checked.pure_eq_ok]
  refine exists_congr fun block => and_congr_right fun _ => ?_
  cases block.preds <;> simp

/-- What a block lists is fine when it is there and says so. -/
theorem membershipViolations_eq_nil :
    membershipViolations g b block = .ok [] ↔
      ∀ i ∈ block.body, ∃ inst, g.inst i = .ok inst ∧ inst.block = some b := by
  rw [membershipViolations, Checked.filterMapM_eq_nil]
  refine forall₂_congr fun i _ => ?_
  simp only [Checked.bind_eq_ok, Checked.pure_eq_ok, blockOf_eq_ok]
  constructor
  · rintro ⟨_, ⟨inst, hinst, rfl⟩, h⟩
    refine ⟨inst, hinst, ?_⟩
    by_contra hne
    simp [hne] at h
  · rintro ⟨inst, hinst, h⟩
    exact ⟨_, ⟨inst, hinst, rfl⟩, by simp [h]⟩

/-- The phis of a block are fine when they have an operand for each way in. -/
theorem phiViolations_eq_nil :
    phiViolations g b block = .ok [] ↔
      ∀ i ∈ block.phis, ∃ inst, g.inst i = .ok inst ∧ inst.inputs.length = block.preds.length := by
  rw [phiViolations, Checked.filterMapM_eq_nil]
  refine forall₂_congr fun i _ => ?_
  simp only [Checked.bind_eq_ok, Checked.pure_eq_ok, inputs_eq_ok]
  constructor
  · rintro ⟨_, ⟨inst, hinst, rfl⟩, h⟩
    refine ⟨inst, hinst, ?_⟩
    by_contra hne
    simp [hne] at h
  · rintro ⟨inst, hinst, h⟩
    exact ⟨_, ⟨inst, hinst, rfl⟩, by simp [h]⟩

/-- The end of a block is fine when it is its only terminator and leads to as many blocks as it says. -/
theorem endViolations_eq_nil : endViolations g b block = .ok [] ↔ g.EndsWell block := by
  rw [endViolations, EndsWell]
  rcases List.eq_nil_or_concat block.insts with hnil | ⟨init, last, hinsts⟩
  · simp [hnil]
  rw [List.concat_eq_append] at hinsts
  have hlast : block.insts.getLast? = some last := by rw [hinsts]; simp
  have hinit : block.insts.dropLast = init := by rw [hinsts]; simp
  have hmisplaced : (init.filterMapM fun i => do
        return if (← g.kind i).isTerminator then some (Violation.misplacedTerminator i b) else none) =
        .ok [] ↔ ∀ i ∈ init, ∃ inst, g.inst i = .ok inst ∧ inst.kind.isTerminator = false := by
    rw [Checked.filterMapM_eq_nil]
    refine forall₂_congr fun i _ => ?_
    simp only [Checked.bind_eq_ok, Checked.pure_eq_ok, kind_eq_ok]
    constructor
    · rintro ⟨_, ⟨inst, hinst, rfl⟩, h⟩
      refine ⟨inst, hinst, ?_⟩
      by_contra hne
      simp [hne] at h
    · rintro ⟨inst, hinst, h⟩
      exact ⟨_, ⟨inst, hinst, rfl⟩, by simp [h]⟩
  rw [hlast, hinit]
  simp only [Checked.bind_eq_ok, kind_eq_ok]
  constructor
  · rintro ⟨misplaced, hm, _, ⟨inst, hinst, rfl⟩, h⟩
    cases hc : inst.kind.successorCount? with
    | none => simp [hc] at h
    | some expected =>
      simp only [hc, Checked.pure_eq_ok, List.append_eq_nil_iff] at h
      obtain ⟨rfl, hcount⟩ := h
      refine ⟨init, last, hinsts, hmisplaced.1 hm, inst, hinst, ?_⟩
      rw [hc]
      by_contra hne
      simp [Ne.symm (fun he => hne (congrArg some he))] at hcount
  · rintro ⟨init', last', hinsts', hall, inst, hinst, hcount⟩
    obtain ⟨rfl, hl⟩ := List.append_inj' (hinsts.symm.trans hinsts') rfl
    obtain rfl : last = last' := by simpa using hl
    exact ⟨[], hmisplaced.2 hall, _, ⟨inst, hinst, rfl⟩, by simp [hcount]⟩

/-- A block is fine when its lists, its phis and its end are. -/
theorem blockViolations_eq_nil :
    blockViolations g b = .ok [] ↔ ∃ block, g.block b = .ok block ∧
      (∀ i ∈ block.body, ∃ inst, g.inst i = .ok inst ∧ inst.block = some b) ∧
      (∀ i ∈ block.phis, ∃ inst, g.inst i = .ok inst ∧ inst.inputs.length = block.preds.length) ∧
      g.EndsWell block := by
  simp only [blockViolations, Checked.bind_eq_ok, Checked.pure_eq_ok, List.append_eq_nil_iff]
  refine exists_congr fun block => and_congr_right fun _ => ?_
  rw [← membershipViolations_eq_nil, ← phiViolations_eq_nil (b := b), ← endViolations_eq_nil (b := b)]
  constructor
  · rintro ⟨_, hm, _, hp, _, he, ⟨rfl, rfl⟩, rfl⟩
    exact ⟨hm, hp, he⟩
  · rintro ⟨hm, hp, he⟩
    exact ⟨_, hm, _, hp, _, he, ⟨rfl, rfl⟩, rfl⟩

/-- An operand is fine when it is there and knows its user. -/
theorem inputViolation?_eq_none {x : InstId} {k : Nat} :
    inputViolation? g i (x, k) = none ↔ g.isRemoved x = false ∧ ⟨i, k⟩ ∈ g.uses x := by
  rw [inputViolation?]
  cases g.isRemoved x <;> simp

/-- A use is fine when the user is there and reads the value. -/
theorem useViolation?_eq_none {u : Use} :
    useViolation? g i u = .ok none ↔ g.isRemoved u.user = false ∧
      ∃ inst, g.inst u.user = .ok inst ∧ inst.inputs[u.index]? = some i := by
  rw [useViolation?]
  cases g.isRemoved u.user with
  | true => simp
  | false =>
    simp only [Bool.false_eq_true, if_false, Checked.bind_eq_ok, Checked.pure_eq_ok, inputs_eq_ok,
      true_and]
    constructor
    · rintro ⟨_, ⟨inst, hinst, rfl⟩, h⟩
      refine ⟨inst, hinst, ?_⟩
      by_contra hne
      simp [hne] at h
    · rintro ⟨inst, hinst, h⟩
      exact ⟨_, ⟨inst, hinst, rfl⟩, by simp [h]⟩

/-- An instruction is fine when its operands and its uses are. -/
theorem useViolations_eq_nil :
    useViolations g i = .ok [] ↔ ∃ inst, g.inst i = .ok inst ∧
      (∀ (k : Nat) x, inst.inputs[k]? = some x → g.isRemoved x = false ∧ ⟨i, k⟩ ∈ g.uses x) ∧
      ∀ u ∈ g.uses i, g.isRemoved u.user = false ∧
        ∃ inst, g.inst u.user = .ok inst ∧ inst.inputs[u.index]? = some i := by
  simp only [← useViolation?_eq_none, ← Checked.filterMapM_eq_nil, useViolations, Checked.bind_eq_ok,
    inputs_eq_ok, Checked.pure_eq_ok, List.append_eq_nil_iff, List.filterMap_eq_nil_iff, Prod.forall,
    inputViolation?_eq_none, List.mk_mem_zipIdx_iff_getElem?]
  constructor
  · rintro ⟨_, ⟨inst, hinst, rfl⟩, _, huses, hinputs, rfl⟩
    exact ⟨inst, hinst, fun k x hx => hinputs x k hx, huses⟩
  · rintro ⟨inst, hinst, hinputs, huses⟩
    exact ⟨_, ⟨inst, hinst, rfl⟩, _, huses, fun x k hx => hinputs k x hx, rfl⟩

/-- The operand of a phi is fine when it is defined at the end of its predecessor, if that is reachable. -/
theorem phiInputViolation?_eq_none (hg : g.Consistent) (ht : DomTree.ofGraph g = .ok t) {x : InstId}
    {p : BlockId} {k : Nat} (hx : g.isRemoved x = false) :
    phiInputViolation? g t i ((x, p), k) = .ok none ↔ (g.Reachable p → g.DefinedAtEnd x p) := by
  rw [phiInputViolation?, DefinedAtEnd, ← DomTree.isReachable_iff hg ht]
  cases t.isReachable p with
  | false => simp
  | true =>
    simp only [hx, Bool.not_true, Bool.or_self, Bool.false_eq_true, if_false, Checked.bind_eq_ok,
      blockOf_eq_ok, true_implies, ← DomTree.dominates_iff hg ht]
    constructor
    · rintro ⟨_, ⟨inst, hinst, rfl⟩, h⟩
      cases hd : inst.block with
      | none => simp [hd] at h
      | some d =>
        refine ⟨inst, d, hinst, hd, ?_⟩
        by_contra hne
        simp [hd, hne] at h
    · rintro ⟨inst, d, hinst, hd, h⟩
      exact ⟨_, ⟨inst, hinst, rfl⟩, by simp [hd, h]⟩

/-- Any other operand is fine when it is defined before its user. -/
theorem operandViolation?_eq_none (hg : g.Consistent) (ht : DomTree.ofGraph g = .ok t) {x : InstId}
    {k : Nat} {inst : Inst} (hi : g.inst i = .ok inst) (hb : inst.block = some b)
    (hx : g.isRemoved x = false) :
    operandViolation? g t (positions g) i (x, k) = .ok none ↔ g.DefinedBefore x i b := by
  rw [operandViolation?, DefinedBefore, definedBefore]
  simp only [hx, Bool.false_eq_true, if_false, Checked.bind_eq_ok, Checked.pure_eq_ok, blockOf_eq_ok,
    hi, Except.ok.injEq, ← DomTree.dominates_iff hg ht]
  constructor
  · rintro ⟨before, ⟨_, ⟨d, hd, rfl⟩, _, ⟨_, rfl, rfl⟩, h⟩, hnone⟩
    cases hblock : d.block with
    | none =>
      simp only [hblock, Checked.pure_eq_ok] at h
      simp [← h] at hnone
    | some db =>
      simp only [hblock, hb, Checked.pure_eq_ok] at h
      refine ⟨d, db, hd, hblock, ?_⟩
      subst h
      by_contra hne
      split at hne <;> simp_all
  · rintro ⟨d, db, hd, hblock, h⟩
    refine ⟨true, ⟨_, ⟨d, hd, rfl⟩, _, ⟨inst, rfl, rfl⟩, ?_⟩, by simp⟩
    simp only [hblock, hb, Checked.pure_eq_ok]
    split at h <;> simp_all

/-- The tests on definitions, for a block whose operands have not been removed. -/
theorem definitionViolations_eq_nil (hg : g.Consistent) (ht : DomTree.ofGraph g = .ok t)
    (hblock : g.block b = .ok block)
    (hlisted : ∀ i ∈ block.body, ∃ inst, g.inst i = .ok inst ∧ inst.block = some b)
    (hkept : ∀ i ∈ block.body, ∀ inst, g.inst i = .ok inst → ∀ x ∈ inst.inputs, g.isRemoved x = false) :
    definitionViolations g t (positions g) b = .ok [] ↔
      (∀ i ∈ block.phis, ∀ inst, g.inst i = .ok inst → ∀ (k : Nat) x p, inst.inputs[k]? = some x →
        block.preds[k]? = some p → g.Reachable p → g.DefinedAtEnd x p) ∧
      ∀ i ∈ block.insts, ∀ inst, g.inst i = .ok inst → ∀ (k : Nat) x, inst.inputs[k]? = some x →
        g.DefinedBefore x i b := by
  have hphi : ∀ i ∈ block.phis, ((do
      ((← g.inputs i).zip block.preds).zipIdx.filterMapM (phiInputViolation? g t i)) = .ok [] ↔
        ∀ inst, g.inst i = .ok inst → ∀ (k : Nat) x p, inst.inputs[k]? = some x →
          block.preds[k]? = some p → g.Reachable p → g.DefinedAtEnd x p) := by
    intro i hi
    have hbody : i ∈ block.body := List.mem_append_left _ hi
    obtain ⟨inst, hinst, -⟩ := hlisted i hbody
    have hinputs : g.inputs i = .ok inst.inputs := inputs_eq_ok.2 ⟨inst, hinst, rfl⟩
    simp only [hinputs, hinst, Checked.bind_eq_ok, Except.ok.injEq, exists_eq_left', forall_eq',
      Checked.filterMapM_eq_nil, Prod.forall, List.mk_mem_zipIdx_iff_getElem?,
      List.getElem?_zip_eq_some]
    constructor
    · intro h k x p hx hp
      exact (phiInputViolation?_eq_none hg ht (hkept i hbody inst hinst x (List.mem_of_getElem? hx))).1
        (h x p k ⟨hx, hp⟩)
    · rintro h x p k ⟨hx, hp⟩
      exact (phiInputViolation?_eq_none hg ht (hkept i hbody inst hinst x (List.mem_of_getElem? hx))).2
        (h k x p hx hp)
  have hinst : ∀ i ∈ block.insts, ((do
      (← g.inputs i).zipIdx.filterMapM (operandViolation? g t (positions g) i)) = .ok [] ↔
        ∀ inst, g.inst i = .ok inst → ∀ (k : Nat) x, inst.inputs[k]? = some x →
          g.DefinedBefore x i b) := by
    intro i hi
    have hbody : i ∈ block.body := List.mem_append_right _ hi
    obtain ⟨inst, hinst, hrec⟩ := hlisted i hbody
    have hinputs : g.inputs i = .ok inst.inputs := inputs_eq_ok.2 ⟨inst, hinst, rfl⟩
    simp only [hinputs, hinst, Checked.bind_eq_ok, Except.ok.injEq, exists_eq_left', forall_eq',
      Checked.filterMapM_eq_nil, Prod.forall, List.mk_mem_zipIdx_iff_getElem?]
    constructor
    · intro h k x hx
      exact (operandViolation?_eq_none hg ht hinst hrec
        (hkept i hbody inst hinst x (List.mem_of_getElem? hx))).1 (h x k hx)
    · intro h x k hx
      exact (operandViolation?_eq_none hg ht hinst hrec
        (hkept i hbody inst hinst x (List.mem_of_getElem? hx))).2 (h k x hx)
  have hphis := forall₂_congr hphi
  have hinsts := forall₂_congr hinst
  rw [← Checked.mapM_flatten_eq_nil] at hphis hinsts
  rw [← hphis, ← hinsts]
  simp only [definitionViolations, hblock, Checked.bind_eq_ok, Except.ok.injEq, exists_eq_left',
    Checked.pure_eq_ok, List.append_eq_nil_iff]
  constructor
  · rintro ⟨ps, hps, is, his, hnil, hnil'⟩
    exact ⟨⟨ps, hps, hnil⟩, is, his, hnil'⟩
  · rintro ⟨⟨ps, hps, hnil⟩, is, his, hnil'⟩
    exact ⟨ps, hps, is, his, hnil, hnil'⟩

end Checker

namespace Graph

variable {g : Graph}

/-- Nothing is wrong with a graph when each part of the check finds nothing. -/
theorem violations_eq_nil :
    g.violations = .ok [] ↔ Checker.entryViolations g = .ok [] ∧
      (∀ b ∈ g.blockIds, Checker.blockViolations g b = .ok []) ∧
      (∀ i ∈ g.attached, Checker.useViolations g i = .ok []) ∧
      ∃ t, DomTree.ofGraph g = .ok t ∧
        ∀ b ∈ t.preorder, Checker.definitionViolations g t (Checker.positions g) b = .ok [] := by
  simp only [violations, Checked.bind_eq_ok, Checked.pure_eq_ok, List.append_eq_nil_iff,
    ← Checked.mapM_flatten_eq_nil]
  constructor
  · rintro ⟨_, hentry, bs, hbs, us, hus, t, ht, ds, hds, ⟨⟨rfl, hbnil⟩, hunil⟩, hdnil⟩
    exact ⟨hentry, ⟨bs, hbs, hbnil⟩, ⟨us, hus, hunil⟩, t, ht, ds, hds, hdnil⟩
  · rintro ⟨hentry, ⟨bs, hbs, hbnil⟩, ⟨us, hus, hunil⟩, t, ht, ds, hds, hdnil⟩
    exact ⟨_, hentry, bs, hbs, us, hus, t, ht, ds, hds, ⟨⟨rfl, hbnil⟩, hunil⟩, hdnil⟩

/-- A graph the checker finds nothing wrong with is well formed. -/
theorem Consistent.wellFormed (hg : g.Consistent) (hv : g.violations = .ok []) : g.WellFormed := by
  simp only [violations_eq_nil, Checker.entryViolations_eq_nil, Checker.blockViolations_eq_nil,
    Checker.useViolations_eq_nil] at hv
  obtain ⟨hentry, hblocks, huses, t, ht, hdefs⟩ := hv
  have hblock : ∀ b block, g.block b = .ok block →
      (∀ i ∈ block.body, ∃ inst, g.inst i = .ok inst ∧ inst.block = some b) ∧
      (∀ i ∈ block.phis, ∃ inst, g.inst i = .ok inst ∧ inst.inputs.length = block.preds.length) ∧
      g.EndsWell block := by
    intro b block hb
    obtain ⟨block', hb', h⟩ := hblocks b (mem_blockIds_iff.2 ⟨block, hb⟩)
    rw [hb] at hb'
    cases hb'
    exact h
  have hoperand : ∀ i inst (k : Nat) x, i ∈ g.attached → g.inst i = .ok inst →
      inst.inputs[k]? = some x → g.isRemoved x = false ∧ ⟨i, k⟩ ∈ g.uses x := by
    intro i inst k x hi hinst hx
    obtain ⟨inst', hinst', h, -⟩ := huses i hi
    rw [hinst] at hinst'
    cases hinst'
    exact h k x hx
  have hkept : ∀ b block, g.block b = .ok block → ∀ i ∈ block.body, ∀ inst, g.inst i = .ok inst →
      ∀ x ∈ inst.inputs, g.isRemoved x = false := by
    intro b block hb i hi inst hinst x hx
    obtain ⟨k, hk⟩ := List.mem_iff_getElem?.1 hx
    exact (hoperand i inst k x (mem_attached.2 ⟨b, block, hb, hi⟩) hinst hk).1
  have hdef := fun b block (hreach : g.Reachable b) (hb : g.block b = .ok block) =>
    (Checker.definitionViolations_eq_nil hg ht hb (hblock b block hb).1 (hkept b block hb)).1
      (hdefs b ((DomTree.mem_preorder hg ht).2 hreach))
  exact {
    entry := hentry
    listed := fun b block i hb => (hblock b block hb).1 i
    phi_inputs := fun b block i inst hb hi hinst => by
      obtain ⟨inst', hinst', h⟩ := (hblock b block hb).2.1 i hi
      rw [hinst] at hinst'
      cases hinst'
      exact h
    ends := fun b block hb => (hblock b block hb).2.2
    operand := hoperand
    use := fun x u hx hu => by
      obtain ⟨_, -, -, h⟩ := huses x hx
      exact h u hu
    phi_defined := fun b block i inst k x p hreach hb hi hinst hx hp =>
      (hdef b block hreach hb).1 i hi inst hinst k x p hx hp
    defined := fun b block i inst k x hreach hb hi hinst hx =>
      (hdef b block hreach hb).2 i hi inst hinst k x hx }

/-- A well-formed graph has a dominator tree. -/
theorem WellFormed.exists_tree (hw : g.WellFormed) : ∃ t, DomTree.ofGraph g = .ok t := by
  obtain ⟨entry, hentry, -⟩ := hw.entry
  exact DomTree.ofGraph_eq_ok (mem_blockIds_iff.2 ⟨entry, hentry⟩)

/-- The checker answers for a well-formed graph, and finds nothing wrong. -/
theorem WellFormed.violations_eq (hw : g.WellFormed) (hg : g.Consistent) : g.violations = .ok [] := by
  simp only [violations_eq_nil, Checker.entryViolations_eq_nil, Checker.blockViolations_eq_nil,
    Checker.useViolations_eq_nil]
  obtain ⟨entry, hentry, hpreds⟩ := hw.entry
  obtain ⟨t, ht⟩ := DomTree.ofGraph_eq_ok (mem_blockIds_iff.2 ⟨entry, hentry⟩)
  refine ⟨hw.entry, ?_, ?_, t, ht, ?_⟩
  · intro b hb
    obtain ⟨block, hb⟩ := mem_blockIds_iff.1 hb
    refine ⟨block, hb, fun i => hw.listed b block i hb, fun i hi => ?_, hw.ends b block hb⟩
    obtain ⟨inst, hinst, -⟩ := hw.listed b block i hb (List.mem_append_left _ hi)
    exact ⟨inst, hinst, hw.phi_inputs b block i inst hb hi hinst⟩
  · intro i hi
    obtain ⟨inst, hinst⟩ := hw.exists_inst hi
    exact ⟨inst, hinst, fun k x => hw.operand i inst k x hi hinst, fun u => hw.use i u hi⟩
  · intro b hb
    have hreach := (DomTree.mem_preorder hg ht).1 hb
    obtain ⟨block, hb⟩ := hw.exists_block hg hreach
    rw [Checker.definitionViolations_eq_nil hg ht hb (fun i => hw.listed b block i hb)]
    · exact ⟨fun i hi inst hinst k x p => hw.phi_defined b block i inst k x p hreach hb hi hinst,
        fun i hi inst hinst k x => hw.defined b block i inst k x hreach hb hi hinst⟩
    · intro i hi inst hinst x hx
      obtain ⟨k, hk⟩ := List.mem_iff_getElem?.1 hx
      exact (hw.operand i inst k x (mem_attached.2 ⟨b, block, hb, hi⟩) hinst hk).1

/-- The checker finds nothing wrong exactly with the well-formed graphs. -/
theorem Consistent.violations_eq_nil_iff (hg : g.Consistent) :
    g.violations = .ok [] ↔ g.WellFormed :=
  ⟨hg.wellFormed, fun hw => hw.violations_eq hg⟩

end Graph

end Midend
