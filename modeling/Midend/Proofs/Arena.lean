import Midend.Proofs.Rewiring
import Midend.Proofs.Walks

/-!
# Graphs made by edits

What every graph keeps that is made from an empty one by edits, in whatever order they come: edges are
recorded at both ends, an instruction is listed once and where it says, a use is recorded exactly when
an operand reads the value, what has been removed is listed nowhere, and phis alone stand among phis.

Nothing more is true of all of them.  A detached instruction can be fed, a removed one too, an operand
can name an instruction that does not exist yet, and any block can be made the entry, existing or not.

## Shape of the argument

The facts are about six questions that have an answer for any name: the edges of a block at both ends,
its body and its phis, the block and the operands that an instruction records.  An edit changes the
answers for one name, or to one question, so what it keeps is seen from the change alone.  The three
edits that place an instruction are one case.
-/

namespace Midend

namespace Graph

variable {g g' : Graph} {a b s t : BlockId} {i j x : InstId} {u : Use} {n : Nat} {block : Block}
  {inst : Inst}

/-! ## Questions with an answer for any name -/

/-- The phis of a block. -/
def phisOf (g : Graph) (b : BlockId) : List InstId := (g.blocks[b.index]?.map (·.phis)).getD []

/-- The block that an instruction records. -/
def placeOf (g : Graph) (i : InstId) : Option BlockId := g.insts[i.index]?.bind (·.block)

/-- The operands of an instruction. -/
def operandsOf (g : Graph) (i : InstId) : List InstId := (g.insts[i.index]?.map (·.inputs)).getD []

/-- An instruction has a place when its slot says so. -/
theorem placeOf_eq_some : g.placeOf i = some b ↔ ∃ inst, g.inst i = .ok inst ∧ inst.block = some b := by
  simp only [placeOf, Option.bind_eq_some_iff, inst_eq_ok]

/-- The place of an instruction is what its slot says. -/
theorem placeOf_eq (h : g.inst i = .ok inst) : g.placeOf i = inst.block := by
  rw [placeOf, inst_eq_ok.1 h]
  rfl

/-- The operands of an instruction are those in its slot. -/
theorem operandsOf_eq (h : g.inst i = .ok inst) : g.operandsOf i = inst.inputs := by
  rw [operandsOf, inst_eq_ok.1 h]
  rfl

/-- The kind of an instruction is the one in its slot. -/
theorem kind?_eq (h : g.inst i = .ok inst) : g.kind? i = some inst.kind := by
  rw [kind?, inst_eq_ok.1 h]
  rfl

/-- An operand of an instruction is one of its slot. -/
theorem getElem?_operandsOf :
    (g.operandsOf i)[n]? = some x ↔ ∃ inst, g.inst i = .ok inst ∧ inst.inputs[n]? = some x := by
  simp only [operandsOf, inst_eq_ok]
  cases g.insts[i.index]? with
  | none => simp
  | some inst => simp

/-- What a block lists is what its slot lists. -/
theorem mem_bodyOf : i ∈ g.bodyOf b ↔ ∃ block, g.block b = .ok block ∧ i ∈ block.body := by
  simp only [bodyOf, block_eq_ok]
  cases g.blocks[b.index]? with
  | none => simp
  | some block => simp

/-- The phis of a block are those of its slot. -/
theorem mem_phisOf : i ∈ g.phisOf b ↔ ∃ block, g.block b = .ok block ∧ i ∈ block.phis := by
  simp only [phisOf, block_eq_ok]
  cases g.blocks[b.index]? with
  | none => simp
  | some block => simp

/-- The slots after one of them was changed. -/
theorem getElem?_modify_inst (f : Inst → Inst) (h : g.inst i = .ok inst) (j : InstId) :
    (g.insts.modify i.index f)[j.index]? = if j = i then some (f inst) else g.insts[j.index]? := by
  simp only [Array.getElem?_modify, InstId.index_inj, eq_comm (a := i)]
  split
  · next hj => rw [hj, inst_eq_ok.1 h]; rfl
  · rfl

/-- Changing one block leaves the others. -/
theorem getElem?_modify_block (f : Block → Block) (h : g.block b = .ok block) (c : BlockId) :
    (g.blocks.modify b.index f)[c.index]? = if c = b then some (f block) else g.blocks[c.index]? := by
  simp only [Array.getElem?_modify, BlockId.index_inj, eq_comm (a := b)]
  split
  · next hc => rw [hc, block_eq_ok.1 h]; rfl
  · rfl

/-- What is listed, block by block. -/
theorem attached_eq_flatMap : g.attached = g.blockIds.flatMap g.bodyOf := by
  have hblocks : g.blocks.toList = g.blockIds.map fun b => (g.blocks[b.index]?).getD Block.empty := by
    refine List.ext_getElem (by simp [blockIds]) fun n hn _ => ?_
    simp [blockIds, Array.getElem?_eq_getElem (by simpa using hn)]
  rw [attached, hblocks, List.flatMap_map]
  refine List.flatMap_congr fun b hb => ?_
  obtain ⟨block, hblock⟩ := mem_blockIds_iff.1 hb
  rw [bodyOf_eq hblock, block_eq_ok.1 hblock]
  rfl

/-- No instruction reads one that has no value. -/
def ReadsValues (g : Graph) : Prop :=
  ∀ i ∈ g.attached, ∀ inst ∈ g.insts[i.index]?, ∀ v ∈ inst.inputs, g.ty v ≠ .ok .void

instance (g : Graph) : Decidable g.ReadsValues :=
  inferInstanceAs (Decidable (∀ i ∈ g.attached, ∀ inst ∈ g.insts[i.index]?, ∀ v ∈ inst.inputs,
    g.ty v ≠ .ok .void))

/-! ## What edits keep -/

/-- A graph whose books agree with each other. -/
structure Intact (g : Graph) : Prop where
  edges : g.Mirrored
  body_nodup : ∀ b, (g.bodyOf b).Nodup
  listed : ∀ i b, i ∈ g.bodyOf b ↔ g.placeOf i = some b
  used : ∀ x u, u ∈ g.uses x ↔ (g.operandsOf u.user)[u.index]? = some x
  removed : ∀ i, g.isRemoved i = true → g.placeOf i = none
  phis : ∀ b, ∀ i ∈ g.phisOf b, g.kind? i = some .phi

/-- A new graph has nothing to keep in order. -/
theorem intact_new (name : String) : (Graph.new name).Intact := by
  have hblock : ∀ b block, (Graph.new name).block b = .ok block → block = Block.empty := by
    intro b block h
    rw [block_eq_ok, new, Array.getElem?_singleton] at h
    split at h
    · exact (Option.some.inj h).symm
    · cases h
  have hsuccs : ∀ b, (Graph.new name).succs b = [] := fun b => by
    cases h : (Graph.new name).blocks[b.index]? with
    | none => simp [succs, h]
    | some block => rw [succs_eq (block_eq_ok.2 h), hblock b block (block_eq_ok.2 h)]; rfl
  have hpreds : ∀ b, (Graph.new name).preds b = [] := fun b => by
    cases h : (Graph.new name).blocks[b.index]? with
    | none => simp [preds, h]
    | some block => rw [preds_eq (block_eq_ok.2 h), hblock b block (block_eq_ok.2 h)]; rfl
  have hbody : ∀ b, (Graph.new name).bodyOf b = [] := fun b => by
    rw [List.eq_nil_iff_forall_not_mem]
    intro i hi
    obtain ⟨block, h, hi⟩ := mem_bodyOf.1 hi
    rw [hblock b block h] at hi
    cases hi
  refine ⟨fun a b => by rw [hsuccs, hpreds]; rfl, fun b => by rw [hbody]; exact List.nodup_nil,
    fun i b => ?_, fun x u => ?_, fun i _ => rfl, fun b i hi => ?_⟩
  · rw [hbody]
    simp [placeOf, new]
  · simp [uses, operandsOf, new, Table.get_empty, default]
  · obtain ⟨block, h, hi⟩ := mem_phisOf.1 hi
    rw [hblock b block h] at hi
    cases hi

/-- An edit that changes no answer keeps everything. -/
theorem Intact.congr (h : g.Intact) (hsuccs : g'.succs = g.succs) (hpreds : g'.preds = g.preds)
    (hbody : g'.bodyOf = g.bodyOf) (hphis : g'.phisOf = g.phisOf) (hinsts : g'.insts = g.insts)
    (huses : g'.useChains = g.useChains) : g'.Intact where
  edges a b := by rw [hsuccs, hpreds, h.edges]
  body_nodup b := hbody ▸ h.body_nodup b
  listed i b := by rw [hbody, placeOf, hinsts]; exact h.listed i b
  used x u := by rw [uses, operandsOf, huses, hinsts]; exact h.used x u
  removed i := by rw [isRemoved, placeOf, hinsts]; exact h.removed i
  phis b i := by rw [hphis, kind?, hinsts]; exact h.phis b i

/-! ### Blocks and edges -/

/-- A new block lists nothing and has no edges. -/
theorem getElem?_push_empty {α : Type} (f : Block → List α) (hf : f Block.empty = []) :
    (((g.blocks.push Block.empty)[n]?).map f).getD [] = ((g.blocks[n]?).map f).getD [] := by
  rw [Array.getElem?_push]
  split
  · next hn => simp [hn, hf]
  · rfl

/-- A new block keeps the books. -/
theorem Intact.createBlock (h : g.Intact) : g.createBlock.1.Intact :=
  h.congr (funext fun _ => getElem?_push_empty _ rfl) (funext fun _ => getElem?_push_empty _ rfl)
    (funext fun _ => getElem?_push_empty _ rfl) (funext fun _ => getElem?_push_empty _ rfl) rfl rfl

/-- An edge changes the lists of its two ends. -/
theorem blocks_link : (g.link s t).blocks[b.index]? = g.blocks[b.index]?.map fun block =>
    { block with succs := block.succs ++ if b = s then [t] else [],
                 preds := block.preds ++ if b = t then [s] else [] } := by
  simp only [link, modifyBlock, Array.getElem?_modify, BlockId.index_inj]
  cases g.blocks[b.index]? with
  | none => simp
  | some block => by_cases hs : s = b <;> by_cases ht : t = b <;> simp [hs, ht, eq_comm (a := b)]

/-- An edge adds a successor to its start. -/
theorem succs_link (hs : s ∈ g.blockIds) :
    (g.link s t).succs b = g.succs b ++ if b = s then [t] else [] := by
  rw [succs, succs, blocks_link, Option.map_map]
  cases hb : g.blocks[b.index]? with
  | some block => rfl
  | none =>
    obtain ⟨block, hblock⟩ := mem_blockIds_iff.1 hs
    have hne : b ≠ s := by
      rintro rfl
      rw [block_eq_ok, hb] at hblock
      cases hblock
    simp [hne]

/-- An edge adds a predecessor to its end. -/
theorem preds_link (ht : t ∈ g.blockIds) :
    (g.link s t).preds b = g.preds b ++ if b = t then [s] else [] := by
  rw [preds, preds, blocks_link, Option.map_map]
  cases hb : g.blocks[b.index]? with
  | some block => rfl
  | none =>
    obtain ⟨block, hblock⟩ := mem_blockIds_iff.1 ht
    have hne : b ≠ t := by
      rintro rfl
      rw [block_eq_ok, hb] at hblock
      cases hblock
    simp [hne]

/-- An edge keeps the books: it is entered at both ends. -/
theorem Intact.link (h : g.Intact) (hs : s ∈ g.blockIds) (ht : t ∈ g.blockIds) :
    (g.link s t).Intact := by
  have hbody : (g.link s t).bodyOf = g.bodyOf := by
    funext b
    rw [bodyOf, bodyOf, blocks_link, Option.map_map]
    rfl
  have hphis : (g.link s t).phisOf = g.phisOf := by
    funext b
    rw [phisOf, phisOf, blocks_link, Option.map_map]
    rfl
  refine ⟨fun a b => ?_, fun b => hbody ▸ h.body_nodup b, fun i b => ?_, h.used, h.removed, fun b => ?_⟩
  · rw [succs_link hs, preds_link ht, List.count_append, List.count_append, h.edges]
    by_cases ha : a = s <;> by_cases hb : b = t <;> simp [ha, hb, Ne.symm]
  · rw [hbody]
    exact h.listed i b
  · rw [hphis]
    exact h.phis b

/-! ### Instructions -/

/-- Recording the operands of an instruction, one after the other. -/
theorem foldl_addUse (i : InstId) (ps : List (InstId × Nat)) (g : Graph) :
    ∃ g', ps.foldl (fun g (p : InstId × Nat) => g.addUse p.1 ⟨i, p.2⟩) g = g' ∧ g'.blocks = g.blocks ∧
      g'.insts = g.insts ∧ g'.entry = g.entry ∧
      ∀ x u, u ∈ g'.uses x ↔ u ∈ g.uses x ∨ u.user = i ∧ (x, u.index) ∈ ps := by
  induction ps generalizing g with
  | nil => exact ⟨g, rfl, rfl, rfl, rfl, by simp⟩
  | cons p ps ih =>
    obtain ⟨input, k⟩ := p
    obtain ⟨g', hg', hblocks, hinsts, hentry, huses⟩ := ih (g.addUse input ⟨i, k⟩)
    refine ⟨g', hg', hblocks, hinsts, hentry, fun x u => ?_⟩
    have hu : u = ⟨i, k⟩ ↔ u.user = i ∧ u.index = k := by
      cases u
      simp
    rw [huses, uses_addUse]
    by_cases hx : x = input
    · simp only [hx, if_true, List.mem_append, hu, List.mem_cons, Prod.mk.injEq, true_and]
      tauto
    · simp [hx]

/-- A new instruction is detached, and its operands are recorded as its uses. -/
theorem addInst_spec (kind : Kind) (ty : Ty) (inputs : List InstId) :
    (g.addInst kind ty inputs).2 = ⟨g.insts.size⟩ ∧
      (g.addInst kind ty inputs).1.blocks = g.blocks ∧
      (g.addInst kind ty inputs).1.entry = g.entry ∧
      (g.addInst kind ty inputs).1.insts = g.insts.push ⟨kind, ty, inputs, none, false⟩ ∧
      ∀ x u, u ∈ (g.addInst kind ty inputs).1.uses x ↔
        u ∈ g.uses x ∨ u.user = ⟨g.insts.size⟩ ∧ inputs[u.index]? = some x := by
  obtain ⟨g', hg', hblocks, hinsts, hentry, huses⟩ := foldl_addUse ⟨g.insts.size⟩ inputs.zipIdx
    { g with insts := g.insts.push ⟨kind, ty, inputs, none, false⟩ }
  have heq : (g.addInst kind ty inputs).1 = g' := hg'
  simp only [List.mk_mem_zipIdx_iff_getElem?] at huses
  rw [heq]
  exact ⟨rfl, hblocks, hentry, hinsts, huses⟩

/-- A new instruction keeps the books: it is a new user of its operands. -/
theorem Intact.addInst (h : g.Intact) (kind : Kind) (ty : Ty) (inputs : List InstId) :
    (g.addInst kind ty inputs).1.Intact := by
  obtain ⟨-, hblocks, -, hinsts, huses⟩ := addInst_spec (g := g) kind ty inputs
  generalize (g.addInst kind ty inputs).1 = g' at hblocks hinsts huses
  have hslot : ∀ i : InstId, g'.insts[i.index]? = if i = ⟨g.insts.size⟩ then
      some ⟨kind, ty, inputs, none, false⟩ else g.insts[i.index]? := fun i => by
    simp only [hinsts, Array.getElem?_push, ← InstId.index_inj]
  have hplace : ∀ i, g'.placeOf i = g.placeOf i := fun i => by
    rw [placeOf, placeOf, hslot]
    split
    · next hi => simp [hi]
    · rfl
  refine ⟨fun a b => ?_, fun b => ?_, fun i b => ?_, fun x u => ?_, fun i hi => ?_, fun b i hi => ?_⟩
  · rw [succs, preds, hblocks]
    exact h.edges a b
  · rw [bodyOf, hblocks]
    exact h.body_nodup b
  · rw [hplace, bodyOf, hblocks]
    exact h.listed i b
  · rw [huses, h.used, operandsOf, operandsOf, hslot]
    split
    · next hu => simp [hu]
    · next hu => simp [hu]
  · rw [isRemoved, hslot] at hi
    rw [hplace]
    split at hi
    · cases hi
    · exact h.removed i hi
  · rw [phisOf, hblocks] at hi
    have hkind := h.phis b i hi
    rw [kind?] at hkind
    rw [kind?, hslot, if_neg, hkind]
    rintro rfl
    simp at hkind

/-- What placing a detached instruction in a block does to a graph, whatever its place there. -/
structure Places (g : Graph) (i : InstId) (b : BlockId) (g' : Graph) : Prop where
  succs : g'.succs = g.succs
  preds : g'.preds = g.preds
  uses : g'.useChains = g.useChains
  insts : g'.insts = g.insts.modify i.index ({ · with block := some b })
  body : (g'.bodyOf b).Perm (i :: g.bodyOf b)
  bodies : ∀ c, c ≠ b → g'.bodyOf c = g.bodyOf c
  phis : ∀ c, ∀ j ∈ g'.phisOf c, j ∈ g.phisOf c ∨ j = i ∧ g.kind? i = some .phi

/-- Putting an instruction into a block keeps the books, if it was in none. -/
theorem Intact.places (h : g.Intact) (hp : g.Places i b g') (hinst : g.inst i = .ok inst)
    (hnone : inst.block = none) (hremoved : g.isRemoved i = false) : g'.Intact := by
  have hslot : ∀ j : InstId, g'.insts[j.index]? = if j = i then some { inst with block := some b } else
      g.insts[j.index]? := fun j => by
    rw [hp.insts, getElem?_modify_inst _ hinst]
  have hplace : ∀ j, g'.placeOf j = if j = i then some b else g.placeOf j := fun j => by
    rw [placeOf, placeOf, hslot]
    split <;> rfl
  have hi : ∀ c, i ∉ g.bodyOf c := fun c hc => by
    rw [h.listed, placeOf_eq hinst, hnone] at hc
    cases hc
  refine ⟨fun a c => by rw [hp.succs, hp.preds, h.edges], fun c => ?_, fun j c => ?_, fun x u => ?_,
    fun j hj => ?_, fun c j hj => ?_⟩
  · by_cases hc : c = b
    · rw [hc, hp.body.nodup_iff, List.nodup_cons]
      exact ⟨hi b, h.body_nodup b⟩
    · rw [hp.bodies c hc]
      exact h.body_nodup c
  · rw [hplace]
    by_cases hc : c = b
    · rw [hc, hp.body.mem_iff, List.mem_cons, h.listed]
      by_cases hj : j = i <;> simp [hj]
    · rw [hp.bodies c hc]
      by_cases hj : j = i
      · simp [hj, hi c, Ne.symm hc]
      · rw [if_neg hj, h.listed]
  · have hops : g'.operandsOf u.user = g.operandsOf u.user := by
      rw [operandsOf, operandsOf, hslot]
      split
      · next hu => rw [hu, inst_eq_ok.1 hinst]; rfl
      · rfl
    rw [hops, ← h.used, Graph.uses, Graph.uses, hp.uses]
  · by_cases hji : j = i
    · rw [isRemoved, hslot, if_pos hji] at hj
      rw [isRemoved_eq hinst] at hremoved
      rw [show inst.removed = true from hj] at hremoved
      cases hremoved
    · rw [isRemoved, hslot, if_neg hji] at hj
      rw [hplace, if_neg hji]
      exact h.removed j hj
  · have hkind : g'.kind? j = g.kind? j := by
      rw [kind?, kind?, hslot]
      split
      · next hji => rw [hji, inst_eq_ok.1 hinst]; rfl
      · rfl
    rw [hkind]
    rcases hp.phis c j hj with hj | ⟨rfl, hj⟩
    · exact h.phis c j hj
    · exact hj

/-- Replacing the lists of one block. -/
theorem places_of_modifyBlock {f : Block → Block} (hblock : g.block b = .ok block)
    (hsuccs : (f block).succs = block.succs) (hpreds : (f block).preds = block.preds)
    (hbody : ((f block).body).Perm (i :: block.body))
    (hphis : ∀ j ∈ (f block).phis, j ∈ block.phis ∨ j = i ∧ g.kind? i = some .phi) :
    g.Places i b ((g.modifyInst i ({ · with block := some b })).modifyBlock b f) := by
  generalize hg' : (g.modifyInst i ({ · with block := some b })).modifyBlock b f = g'
  have hslot : ∀ c : BlockId, g'.blocks[c.index]? = if c = b then some (f block) else g.blocks[c.index]? := by
    intro c
    rw [← hg']
    exact getElem?_modify_block f hblock c
  have hb : g'.block b = .ok (f block) := by rw [block_eq_ok, hslot, if_pos rfl]
  have hold : g.blocks[b.index]? = some block := block_eq_ok.1 hblock
  refine ⟨funext fun c => ?_, funext fun c => ?_, by rw [← hg']; rfl, by rw [← hg']; rfl, ?_,
    fun c hc => ?_, fun c j hj => ?_⟩
  · rw [succs, succs, hslot]
    split
    · next hc => rw [hc, hold]; exact hsuccs
    · rfl
  · rw [preds, preds, hslot]
    split
    · next hc => rw [hc, hold]; exact hpreds
    · rfl
  · rw [bodyOf_eq hb, bodyOf_eq hblock]
    exact hbody
  · rw [bodyOf, bodyOf, hslot, if_neg hc]
  · obtain ⟨block', hblock', hj⟩ := mem_phisOf.1 hj
    rw [block_eq_ok, hslot] at hblock'
    split at hblock'
    · next hc =>
      cases hblock'
      rw [hc]
      exact (hphis j hj).imp_left fun hj => mem_phisOf.2 ⟨block, hblock, hj⟩
    · exact .inl (mem_phisOf.2 ⟨block', block_eq_ok.2 hblock', hj⟩)

/-- Only an instruction that is in no block and was not removed may be put into one. -/
theorem requireDetached_eq_ok {edit : Placement} (h : g.requireDetached edit i = .ok inst) :
    g.isRemoved i = false ∧ g.inst i = .ok inst ∧ inst.block = none := by
  simp only [requireDetached, Checked.bind_eq_ok, Checked.require_eq_ok, Bool.not_eq_true'] at h
  obtain ⟨-, hremoved, inst', hinst, h⟩ := h
  cases hblock : inst'.block with
  | some b => simp [hblock] at h
  | none =>
    simp only [hblock, Checked.pure_eq_ok] at h
    subst h
    exact ⟨hremoved, hinst, hblock⟩

/-- Appending an instruction keeps the books. -/
theorem Intact.appendInst (h : g.Intact) (hg' : g.appendInst b i = .ok g') : g'.Intact := by
  simp only [Graph.appendInst, Checked.bind_eq_ok, Checked.pure_eq_ok] at hg'
  obtain ⟨inst, hdetached, -, -, block, hblock, rfl⟩ := hg'
  obtain ⟨hremoved, hinst, hnone⟩ := requireDetached_eq_ok hdetached
  refine h.places (places_of_modifyBlock hblock rfl rfl ?_ fun j hj => .inl hj) hinst hnone hremoved
  rw [Block.body, ← List.append_assoc]
  exact List.perm_append_singleton i _

/-- Appending a phi keeps the books. -/
theorem Intact.appendPhi (h : g.Intact) (hg' : g.appendPhi b i = .ok g') : g'.Intact := by
  simp only [Graph.appendPhi, Checked.bind_eq_ok, Checked.pure_eq_ok, Checked.require_eq_ok] at hg'
  obtain ⟨inst, hdetached, -, hphi, block, hblock, rfl⟩ := hg'
  obtain ⟨hremoved, hinst, hnone⟩ := requireDetached_eq_ok hdetached
  have hkind : inst.kind = .phi := by
    generalize inst.kind = k at hphi
    cases k <;> first | rfl | cases hphi
  refine h.places (places_of_modifyBlock hblock rfl rfl ?_ fun j hj => ?_) hinst hnone hremoved
  · rw [Block.body, List.append_assoc]
    exact List.perm_middle
  · rw [List.mem_append, List.mem_singleton] at hj
    exact hj.imp_right fun hj => ⟨hj, by rw [kind?_eq hinst, hkind]⟩

/-- Inserting an instruction before another keeps the books. -/
theorem Intact.insertBefore (h : g.Intact) (hg' : g.insertBefore j i = .ok g') : g'.Intact := by
  simp only [Graph.insertBefore, Checked.bind_eq_ok] at hg'
  obtain ⟨inst, hdetached, place, -, hg'⟩ := hg'
  obtain ⟨hremoved, hinst, hnone⟩ := requireDetached_eq_ok hdetached
  cases place with
  | none => simp at hg'
  | some b =>
    simp only [Checked.bind_eq_ok] at hg'
    obtain ⟨block, hblock, hg'⟩ := hg'
    cases hfind : block.insts.findIdx? (· = j) with
    | none => simp [hfind] at hg'
    | some k =>
      simp only [hfind, Checked.pure_eq_ok] at hg'
      have hp : g.Places i b g' := by
        rw [← hg']
        refine places_of_modifyBlock (f := fun block =>
          { block with insts := block.insts.take k ++ i :: block.insts.drop k }) hblock rfl rfl ?_
          fun j hj => .inl hj
        exact (List.perm_middle.append_left block.phis).trans (by
          rw [List.take_append_drop]
          exact List.perm_middle)
      exact h.places hp hinst hnone hremoved

/-! ### Operands -/

/-- One more operand keeps the books: it has one more use. -/
theorem Intact.feed (h : g.Intact) (hinst : g.inst i = .ok inst) (value : InstId) :
    (g.feed i value).Intact := by
  have hold : g.insts[i.index]? = some inst := inst_eq_ok.1 hinst
  have hslot : ∀ j : InstId, (g.feed i value).insts[j.index]? =
      if j = i then some { inst with inputs := inst.inputs ++ [value] } else g.insts[j.index]? := fun j =>
    getElem?_modify_inst _ hinst j
  have hplace : ∀ j, (g.feed i value).placeOf j = g.placeOf j := fun j => by
    rw [placeOf, placeOf, hslot]
    split
    · next hj => rw [hj, hold]; rfl
    · rfl
  have huses : ∀ x, (g.feed i value).uses x =
      if x = value then g.uses x ++ [⟨i, inst.inputs.length⟩] else g.uses x := fun x => by
    simp only [Graph.feed, hold, Option.map_some, Option.getD_some]
    exact uses_addUse
  refine ⟨h.edges, h.body_nodup, fun j b => ?_, fun x u => ?_, fun j hj => ?_, fun b j hj => ?_⟩
  · rw [hplace]
    exact h.listed j b
  · have hold' : u ∈ g.uses x ↔ (g.operandsOf u.user)[u.index]? = some x := h.used x u
    obtain ⟨user, k⟩ := u
    by_cases hu : user = i
    · subst hu
      have hops : (g.feed user value).operandsOf user = inst.inputs ++ [value] := by
        rw [operandsOf, hslot, if_pos rfl]
        rfl
      rw [operandsOf_eq hinst] at hold'
      rw [huses, hops, List.getElem?_append]
      have hsome : inst.inputs[k]? = some x → k < inst.inputs.length := fun hk =>
        (List.getElem?_eq_some_iff.1 hk).1
      by_cases hx : x = value
      · subst hx
        rw [if_pos rfl, List.mem_append, hold', List.mem_singleton, Use.mk.injEq]
        split
        · next hk => simp [Nat.ne_of_lt hk]
        · next hk =>
          have hge : inst.inputs.length ≤ k := Nat.le_of_not_lt hk
          simp only [List.getElem?_eq_none hge, reduceCtorEq, false_or, true_and,
            List.getElem?_singleton, Option.ite_none_right_eq_some, and_true]
          omega
      · rw [if_neg hx, hold']
        split
        · rfl
        · next hk =>
          rw [List.getElem?_singleton, List.getElem?_eq_none (Nat.le_of_not_lt hk)]
          split
          · simp [Ne.symm hx]
          · rfl
    · have hops : (g.feed i value).operandsOf user = g.operandsOf user := by
        rw [operandsOf, operandsOf, hslot, if_neg hu]
      rw [hops, ← hold', huses]
      split <;> simp [hu]
  · rw [hplace]
    refine h.removed j ?_
    rw [← hj, isRemoved, isRemoved, hslot]
    split
    · next hji => rw [hji, hold]; rfl
    · rfl
  · have hkind : (g.feed i value).kind? j = g.kind? j := by
      rw [kind?, kind?, hslot]
      split
      · next hji => rw [hji, hold]; rfl
      · rfl
    rw [hkind]
    exact h.phis b j hj

/-! ### Removal and replacement -/

/-- A removal takes the instruction out of the block that lists it, clears its slot and its operands' use
chains. -/
theorem Intact.removeInst_spec (h : g.Intact) (hg' : g.removeInst i = .ok g') :
    ∃ inst, g.inst i = .ok inst ∧ g'.entry = g.entry ∧
      (∀ b : BlockId, g'.blocks[b.index]? = g.blocks[b.index]?.map (Block.without [i])) ∧
      (∀ j : InstId, g'.insts[j.index]? = if j = i then
        some { inst with block := none, inputs := [], removed := true } else g.insts[j.index]?) ∧
      ∀ x u, u ∈ g'.uses x ↔ u ∈ g.uses x ∧ ¬ (u.user = i ∧ inst.inputs[u.index]? = some x) := by
  have hnone : g.uses i = [] := by
    simp only [Graph.removeInst, Checked.bind_eq_ok, Checked.require_eq_ok, List.isEmpty_iff] at hg'
    exact hg'.choose_spec.1
  obtain ⟨inst, hinst⟩ : ∃ inst, g.inst i = .ok inst := by
    simp only [Graph.removeInst, Checked.bind_eq_ok] at hg'
    obtain ⟨-, -, inst, hinst, -⟩ := hg'
    exact ⟨inst, hinst⟩
  obtain ⟨g₁, hg₁, hentry, hblocks, hinsts, huses⟩ := Graph.removeInst_spec hnone hinst
  obtain rfl : g' = g₁ := Except.ok.inj (hg'.symm.trans hg₁)
  refine ⟨inst, hinst, hentry, fun b => ?_, fun j => by rw [hinsts, getElem?_modify_inst _ hinst], huses⟩
  -- the block that lists the instruction is the only one that changes
  cases hb : g.blocks[b.index]? with
  | none =>
    rw [hblocks]
    split
    · exact hb
    · rw [Array.getElem?_modify, hb]
      simp
  | some block =>
    have hmem : inst.block ≠ some b → block.without [i] = block := fun hne => by
      refine Block.without_of_not_mem fun hi => hne ?_
      have hlisted := (h.listed i b).1 (mem_bodyOf.2 ⟨block, block_eq_ok.2 hb, hi⟩)
      rwa [placeOf_eq hinst] at hlisted
    rw [hblocks]
    split
    · next hnone => rw [Option.map_some, hmem (by simp [hnone]), hb]
    · next c hc =>
      rw [Array.getElem?_modify, hb]
      split
      · rfl
      · next hne =>
        rw [Option.map_some, hmem]
        rw [hc]
        simpa using fun hcb => hne (congrArg _ hcb)

/-- Removing an instruction keeps the books: nothing uses it, and it uses nothing any more. -/
theorem Intact.removeInst (h : g.Intact) (hg' : g.removeInst i = .ok g') : g'.Intact := by
  obtain ⟨inst, hinst, -, hblock, hslot, huses⟩ := h.removeInst_spec hg'
  have hplace : ∀ j, g'.placeOf j = if j = i then none else g.placeOf j := fun j => by
    rw [placeOf, placeOf, hslot]
    split <;> rfl
  have hbody : ∀ b, g'.bodyOf b = (g.bodyOf b).filter (· ∉ [i]) := fun b => by
    rw [bodyOf, bodyOf, hblock]
    cases g.blocks[b.index]? with
    | none => rfl
    | some block => exact Block.body_without
  refine ⟨fun a b => ?_, fun b => ?_, fun j b => ?_, fun x u => ?_, fun j hj => ?_, fun b j hj => ?_⟩
  · have hsuccs : g'.succs a = g.succs a := by
      rw [succs, succs, hblock, Option.map_map]
      rfl
    have hpreds : g'.preds b = g.preds b := by
      rw [preds, preds, hblock, Option.map_map]
      rfl
    rw [hsuccs, hpreds, h.edges]
  · rw [hbody]
    exact (h.body_nodup b).filter _
  · rw [hbody, hplace, List.mem_filter, h.listed]
    by_cases hj : j = i <;> simp [hj]
  · rw [huses, h.used]
    by_cases hu : u.user = i
    · have hops : g'.operandsOf u.user = [] := by
        rw [operandsOf, hslot, if_pos hu]
        rfl
      rw [hops, hu, operandsOf_eq hinst]
      simp
    · have hops : g'.operandsOf u.user = g.operandsOf u.user := by
        rw [operandsOf, operandsOf, hslot, if_neg hu]
      rw [hops]
      simp [hu]
  · rw [hplace]
    split
    · rfl
    · next hji =>
      rw [isRemoved, hslot, if_neg hji] at hj
      exact h.removed j hj
  · have hkind : g'.kind? j = g.kind? j := by
      rw [kind?, kind?, hslot]
      split
      · next hji => rw [hji, inst_eq_ok.1 hinst]; rfl
      · rfl
    rw [hkind]
    obtain ⟨block', hblock', hj⟩ := mem_phisOf.1 hj
    rw [block_eq_ok, hblock, Option.map_eq_some_iff] at hblock'
    obtain ⟨block, hb, rfl⟩ := hblock'
    exact h.phis b j (mem_phisOf.2 ⟨block, block_eq_ok.2 hb, (List.mem_filter.1 hj).1⟩)

/-- Redirecting uses keeps the books: operands and uses change together. -/
theorem Intact.replaceUses (h : g.Intact) (old new : InstId) : (g.replaceUses old new).Intact := by
  by_cases hne : new = old
  · rw [Graph.replaceUses, if_pos hne.symm]
    exact h
  obtain ⟨-, hblocks, -, hinsts, huses⟩ := replaceUses_spec (g := g) hne
  generalize g.replaceUses old new = g' at hblocks hinsts huses
  have hplace : ∀ j, g'.placeOf j = g.placeOf j := fun j => by
    rw [placeOf, placeOf, hinsts]
    cases g.insts[j.index]? <;> rfl
  refine ⟨fun a b => ?_, fun b => ?_, fun j b => ?_, fun x u => ?_, fun j hj => ?_, fun b j hj => ?_⟩
  · rw [succs, preds, hblocks]
    exact h.edges a b
  · rw [bodyOf, hblocks]
    exact h.body_nodup b
  · rw [hplace, bodyOf, hblocks]
    exact h.listed j b
  · have hops : (g'.operandsOf u.user)[u.index]? = (g.operandsOf u.user)[u.index]?.map fun y =>
        if u ∈ g.uses old then new else y := by
      rw [operandsOf, operandsOf, hinsts]
      cases g.insts[u.user.index]? with
      | none => rfl
      | some inst => simp [Inst.redirect]
    rw [hops, huses, Option.map_eq_some_iff]
    -- a position that is recorded as a use of the old value reads nothing else
    have hold := h.used old u
    have hx := h.used x u
    by_cases hu : u ∈ g.uses old
    · have hget := hold.1 hu
      simp only [hget, Option.some.injEq, exists_eq_left', hu, if_true] at hx ⊢
      by_cases hxn : x = new
      · simp [hxn, hu]
      · by_cases hxo : x = old
        · simp [hxo, hne, Ne.symm hne]
        · simp [hxn, hxo, hx, Ne.symm hxn, Ne.symm hxo]
    · simp only [hu, if_false, exists_eq_right]
      rw [← hx]
      split
      · simp [hu]
      · split
        · next hxo => simp [hxo, hu]
        · rfl
  · rw [hplace]
    refine h.removed j ?_
    rw [← hj, isRemoved, isRemoved, hinsts]
    cases g.insts[j.index]? <;> rfl
  · have hkind : g'.kind? j = g.kind? j := by
      rw [kind?, kind?, hinsts]
      cases g.insts[j.index]? <;> rfl
    rw [phisOf, hblocks] at hj
    rw [hkind]
    exact h.phis b j hj

end Graph

/-! ## Sequences of edits -/

/-- One of the operations that change a graph. -/
inductive Edit where
  | setStatic (flag : Bool)
  | setSynchronized (flag : Bool)
  | setEntry (b : BlockId)
  | createBlock
  | addEdge (source target : BlockId)
  | internField (f : Field)
  | createInst (kind : Kind) (ty : Ty) (inputs : List InstId)
  | appendInst (b : BlockId) (i : InstId)
  | appendPhi (b : BlockId) (i : InstId)
  | insertBefore (anchor i : InstId)
  | pushInput (i value : InstId)
  | removeInst (i : InstId)
  | replaceUses (old new : InstId)

/-- Carry out an edit. -/
def Edit.apply (g : Graph) : Edit → Checked Graph
  | setStatic flag => return { g with isStatic := flag }
  | setSynchronized flag => return { g with isSynchronized := flag }
  | setEntry b => return g.setEntry b
  | createBlock => return g.createBlock.1
  | addEdge s t => g.addEdge s t
  | internField f => return (g.internField f).1
  | createInst kind ty inputs => return (← g.createInst kind ty inputs).1
  | appendInst b i => g.appendInst b i
  | appendPhi b i => g.appendPhi b i
  | insertBefore anchor i => g.insertBefore anchor i
  | pushInput i value => g.pushInput i value
  | removeInst i => g.removeInst i
  | replaceUses old new => return g.replaceUses old new

namespace Graph

variable {g g' : Graph}

/-- A graph is built when edits of an empty one came to it, and none of them was refused. -/
def Built (g : Graph) : Prop :=
  ∃ (name : String) (edits : List Edit), edits.foldlM Edit.apply (Graph.new name) = .ok g

/-- The graph that edits come to, or the empty one if any of them is refused. -/
def ofEdits (name : String) (edits : List Edit) : Graph :=
  (edits.foldlM Edit.apply (Graph.new name)).toOption.getD (Graph.new name)

/-- A graph that edits come to is built. -/
theorem built_ofEdits (name : String) (edits : List Edit) : (ofEdits name edits).Built := by
  cases h : edits.foldlM Edit.apply (Graph.new name) with
  | ok g => exact ⟨name, edits, by rw [ofEdits, h]; rfl⟩
  | error fault => exact ⟨name, [], by rw [ofEdits, h]; rfl⟩

/-- One edit keeps the books. -/
theorem Intact.edit (h : g.Intact) {e : Edit} (hg' : e.apply g = .ok g') : g'.Intact := by
  cases e with
  | setStatic | setSynchronized | setEntry =>
    cases hg'
    exact h.congr rfl rfl rfl rfl rfl rfl
  | createBlock =>
    cases hg'
    exact h.createBlock
  | addEdge s t =>
    simp only [Edit.apply, addEdge, Checked.bind_eq_ok, Checked.pure_eq_ok] at hg'
    obtain ⟨_, hs, _, ht, rfl⟩ := hg'
    exact h.link (mem_blockIds_iff.2 ⟨_, hs⟩) (mem_blockIds_iff.2 ⟨_, ht⟩)
  | internField f =>
    cases hg'
    rw [internField]
    split
    · exact h
    · exact h.congr rfl rfl rfl rfl rfl rfl
  | createInst kind ty inputs =>
    simp only [Edit.apply, createInst, Checked.bind_eq_ok, Checked.pure_eq_ok] at hg'
    obtain ⟨_, ⟨_, -, rfl⟩, rfl⟩ := hg'
    exact h.addInst kind ty inputs
  | appendInst b i => exact h.appendInst hg'
  | appendPhi b i => exact h.appendPhi hg'
  | insertBefore anchor i => exact h.insertBefore hg'
  | pushInput i value =>
    simp only [Edit.apply, pushInput, Checked.bind_eq_ok, Checked.pure_eq_ok] at hg'
    obtain ⟨inst, hinst, rfl⟩ := hg'
    exact h.feed hinst value
  | removeInst i => exact h.removeInst hg'
  | replaceUses old new =>
    cases hg'
    exact h.replaceUses old new

/-- Any sequence of edits keeps the books. -/
theorem Built.intact (h : g.Built) : g.Intact := by
  obtain ⟨name, edits, hedits⟩ := h
  exact Checked.foldlM_prefix (P := fun _ g => g.Intact) hedits (intact_new name)
    fun _ _ _ _ _ _ hc hstep => hc.edit hstep

/-! ## Where instructions stand -/

section Places

variable {b b' : BlockId} {i : InstId} {n n' : Nat} (h : g.Intact)
include h

/-- An instruction has one place. -/
theorem Intact.at_unique (hi : g.At i b n) (hi' : g.At i b' n') : b' = b ∧ n' = n := by
  rw [at_iff] at hi hi'
  have hb := (h.listed i b).1 (List.mem_of_getElem? hi)
  rw [(h.listed i b').1 (List.mem_of_getElem? hi')] at hb
  obtain rfl := Option.some.inj hb
  refine ⟨rfl, ?_⟩
  exact (List.getElem?_inj (List.getElem?_eq_some_iff.1 hi').1 (h.body_nodup b')).1 (hi'.trans hi.symm)

/-- Different blocks list different instructions. -/
theorem Intact.nodup_flatMap_bodyOf {bs : List BlockId} (hbs : bs.Nodup) : (bs.flatMap g.bodyOf).Nodup := by
  rw [List.nodup_flatMap]
  refine ⟨fun b _ => h.body_nodup b, hbs.imp fun {a b} hab => ?_⟩
  intro i hi hi'
  rw [h.listed] at hi hi'
  exact hab (Option.some.inj (hi.symm.trans hi'))

/-- No instruction is listed twice. -/
theorem Intact.attached_nodup : g.attached.Nodup := by
  rw [attached_eq_flatMap]
  refine h.nodup_flatMap_bodyOf ?_
  rw [blockIds]
  exact List.nodup_range.map fun a b hab => by cases hab; rfl

/-- A graph whose books are in order is consistent. -/
theorem Intact.consistent : g.Consistent where
  edges := h.edges
  listed_once := h.attached_nodup
  listed i inst b hinst hb := by
    rw [← mem_bodyOf, h.listed, placeOf_eq hinst, hb]

/-- What stands in a list of phis is a phi. -/
theorem Intact.kind_of_mem_phis {block : Block} {inst : Inst} (hblock : g.block b = .ok block)
    (hi : i ∈ block.phis) (hinst : g.inst i = .ok inst) : inst.kind = .phi := by
  have hkind := h.phis b i (mem_phisOf.2 ⟨block, hblock, hi⟩)
  rwa [kind?_eq hinst, Option.some.injEq] at hkind

/-- What is listed records the block. -/
theorem Intact.inst_of_mem_body {block : Block} (hblock : g.block b = .ok block) (hi : i ∈ block.body) :
    ∃ inst, g.inst i = .ok inst ∧ inst.block = some b := by
  rw [← placeOf_eq_some, ← h.listed]
  exact mem_bodyOf.2 ⟨block, hblock, hi⟩

/-- What is listed is there. -/
theorem Intact.exists_inst (hi : i ∈ g.attached) : ∃ inst, g.inst i = .ok inst := by
  obtain ⟨b, block, hblock, hi⟩ := mem_attached.1 hi
  obtain ⟨inst, hinst, -⟩ := h.inst_of_mem_body hblock hi
  exact ⟨inst, hinst⟩

/-- What is in a block has not been removed. -/
theorem Intact.isRemoved_eq_false (hi : i ∈ g.attached) : g.isRemoved i = false := by
  obtain ⟨b, block, hblock, hi⟩ := mem_attached.1 hi
  have hplace := (h.listed i b).1 (mem_bodyOf.2 ⟨block, hblock, hi⟩)
  by_contra hremoved
  rw [h.removed i (by simpa using hremoved)] at hplace
  cases hplace

end Places

end Graph

end Midend
