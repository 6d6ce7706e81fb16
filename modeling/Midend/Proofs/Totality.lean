import Midend.Proofs.Trimming

/-!
# Questions that have answers

Asking a graph for something that is not there is a fault.  A graph that was read from a text refers only to
what is there, and it stays so while passes take instructions out of it.  On such a graph the checker comes to
a verdict, whatever that is; the effects of its instructions can be told if they have the operands they are
asked for; and dead code can be swept.

## Shape of the argument

`InRange` says what is there, and `Reduced` keeps it, so each function is followed once, over any graph with
that property, whatever the verdict of the checker.  Where the verdict is known, less needs to be there: what a
reachable instruction reads is, and only the fields that instructions name must be declared.
-/

namespace Midend

namespace Graph

variable {g g' : Graph} {gone : List InstId} {i v : InstId} {inst : Inst} {b : BlockId} {block : Block}

/-- The fields that instructions name are among those of the graph. -/
def FieldsDeclared (g : Graph) : Prop :=
  ∀ i ∈ g.attached, ∀ inst ∈ g.insts[i.index]?, ∀ f ∈ inst.kind.field?, f.index < g.fields.size

instance (g : Graph) : Decidable g.FieldsDeclared :=
  inferInstanceAs (Decidable (∀ i ∈ g.attached, ∀ inst ∈ g.insts[i.index]?, ∀ f ∈ inst.kind.field?,
    f.index < g.fields.size))

/-- The field that an instruction names is there. -/
theorem FieldsDeclared.exists_field {f : FieldId} (h : g.FieldsDeclared) (hi : i ∈ g.attached)
    (hinst : g.inst i = .ok inst) (hf : inst.kind.field? = some f) : ∃ field, g.field f = .ok field :=
  ⟨_, Checked.ofOption_eq_ok.2 (Array.getElem?_eq_getElem (h i hi inst (inst_eq_ok.1 hinst) f hf))⟩

/-- What a graph refers to is there, and what has not been removed is in a block. -/
structure InRange (g : Graph) : Prop where
  entry : g.entry ∈ g.blockIds
  fields : g.FieldsDeclared
  operands : ∀ v, g.IsRead v → ∃ inst, g.inst v = .ok inst
  placed : ∀ i inst, g.inst i = .ok inst → inst.removed = false → i ∈ g.attached

/-- No instruction reads what a store gives. -/
def StoresUnread (g : Graph) : Prop :=
  ∀ i ∈ g.attached, ∀ v ∈ g.operandsOf i, ∀ inst ∈ g.insts[v.index]?, inst.kind.isStore = false

instance (g : Graph) : Decidable g.StoresUnread :=
  inferInstanceAs (Decidable (∀ i ∈ g.attached, ∀ v ∈ g.operandsOf i, ∀ inst ∈ g.insts[v.index]?,
    inst.kind.isStore = false))

/-- No store is read, said of what is read. -/
theorem storesUnread_iff : g.StoresUnread ↔
    ∀ v inst, g.IsRead v → g.inst v = .ok inst → inst.kind.isStore = false :=
  ⟨fun h v inst ⟨i, hi, hv⟩ hinst => h i hi v hv inst (inst_eq_ok.1 hinst),
    fun h i hi v hv inst hinst => h v inst ⟨i, hi, hv⟩ (inst_eq_ok.2 hinst)⟩

/-- Stores have no uses. -/
def StoresUnused (g : Graph) : Prop :=
  ∀ i ∈ g.attached, ∀ inst ∈ g.insts[i.index]?, inst.kind.isStore = true → g.uses i = []

instance (g : Graph) : Decidable g.StoresUnused :=
  inferInstanceAs (Decidable (∀ i ∈ g.attached, ∀ inst ∈ g.insts[i.index]?, inst.kind.isStore = true →
    g.uses i = []))

/-- Every store to an array in a reachable block has the value that it stores. -/
def ArraysSupplied (g : Graph) : Prop :=
  ∀ b i inst, g.Reachable b → i ∈ g.bodyOf b → g.inst i = .ok inst → inst.kind = .arraySet →
    3 ≤ inst.inputs.length

/-- A store to an array with the documented operands has three. -/
theorem Furnished.three_le_length (hl : g.Furnished) (hi : i ∈ g.attached) (hinst : g.inst i = .ok inst)
    (hk : inst.kind = .arraySet) : 3 ≤ inst.inputs.length := by
  have hneeds := hl.operands i inst hi hinst
  rwa [hk] at hneeds

/-- With the documented operands, no store to an array lacks one. -/
theorem Furnished.arraysSupplied (hl : g.Furnished) : g.ArraysSupplied := by
  intro b i inst _ hi hinst hk
  obtain ⟨block, hblock, hmem⟩ := mem_bodyOf.1 hi
  exact hl.three_le_length (mem_attached.2 ⟨b, block, hblock, hmem⟩) hinst hk

/-- An operand of what is listed is read. -/
theorem isRead_of_mem (hi : i ∈ g.attached) (hinst : g.inst i = .ok inst) (hv : v ∈ inst.inputs) : g.IsRead v :=
  ⟨i, hi, by rwa [operandsOf_eq hinst]⟩

namespace Reduced

variable (h : Reduced g gone g')
include h

/-- Slots stay when instructions are taken out. -/
theorem exists_inst_of_slot (hinst : g.inst i = .ok inst) : ∃ inst', g'.inst i = .ok inst' := by
  have hlt := (Array.getElem?_eq_some_iff.1 (inst_eq_ok.1 hinst)).1
  exact ⟨_, inst_eq_ok.2 (Array.getElem?_eq_getElem (h.slots ▸ hlt))⟩

/-- Fields stay declared when instructions are taken out. -/
theorem fieldsDeclared (hg : g.FieldsDeclared) : g'.FieldsDeclared := by
  intro i hi inst' hinst' f hf
  obtain ⟨hatt, hgone⟩ := h.mem_attached.1 hi
  obtain ⟨inst, hinst, heq, -⟩ := h.exists_inst hgone (inst_eq_ok.2 hinst')
  rw [heq] at hf
  rw [h.fields]
  exact hg i hatt inst (inst_eq_ok.1 hinst) f hf

/-- Whatever is named stays in range when instructions are taken out. -/
theorem inRange (hg : g.InRange) : g'.InRange where
  entry := by
    rw [h.entry, blockIds, h.size]
    exact hg.entry
  fields := h.fieldsDeclared hg.fields
  operands v hv := by
    rcases h.sourced v hv with hv | ⟨⟨-, inst, hinst, -⟩, -⟩
    · obtain ⟨inst, hinst⟩ := hg.operands v hv
      exact h.exists_inst_of_slot hinst
    · exact h.exists_inst_of_slot hinst
  placed i inst' hinst' hremoved := by
    have hgone : i ∉ gone := by
      intro hi
      have hr := h.removed i hi
      rw [isRemoved_eq hinst', hremoved] at hr
      cases hr
    obtain ⟨inst, hinst, heq, -⟩ := h.exists_inst hgone hinst'
    rw [heq] at hremoved
    exact h.mem_attached.2 ⟨hg.placed i inst hinst hremoved, hgone⟩

/-- Operands stay as documented when instructions are taken out. -/
theorem furnished (hg : g.Furnished) : g'.Furnished where
  operands i inst' hi hinst' := by
    obtain ⟨hatt, hgone⟩ := h.mem_attached.1 hi
    obtain ⟨inst, hinst, heq, hlength⟩ := h.exists_inst hgone hinst'
    rw [hlength, heq]
    exact hg.operands i inst hatt hinst
  phis b block' i inst' hb hi hinst' := by
    obtain ⟨block, hblock, rfl⟩ := h.block_eq_ok.1 hb
    obtain ⟨hi, hgone⟩ := List.mem_filter.1 hi
    obtain ⟨inst, hinst, heq, -⟩ := h.exists_inst (of_decide_eq_true hgone) hinst'
    rw [heq]
    exact hg.phis b block i inst hblock hi hinst
  insts b block' i inst' hb hi hinst' := by
    obtain ⟨block, hblock, rfl⟩ := h.block_eq_ok.1 hb
    obtain ⟨hi, hgone⟩ := List.mem_filter.1 hi
    obtain ⟨inst, hinst, heq, -⟩ := h.exists_inst (of_decide_eq_true hgone) hinst'
    rw [heq]
    exact hg.insts b block i inst hblock hi hinst

/-- What can be reached stays when instructions are taken out. -/
theorem reachable : g'.Reachable b ↔ g.Reachable b := by rw [Reachable, Reachable, h.succs, h.entry]

/-- Stores to arrays keep their operands when others are taken out. -/
theorem arraysSupplied (hg : g.ArraysSupplied) : g'.ArraysSupplied := by
  intro b i inst' hb hi hinst' hk
  rw [h.bodyOf] at hi
  obtain ⟨hi, hgone⟩ := List.mem_filter.1 hi
  obtain ⟨inst, hinst, heq, hlength⟩ := h.exists_inst (of_decide_eq_true hgone) hinst'
  rw [heq] at hk
  rw [hlength]
  exact hg b i inst (h.reachable.1 hb) hi hinst hk

/-- What comes to be read is no store that is still there. -/
theorem not_isRead_of_isStore (hg : g.StoresUnread) (hv : v ∈ g'.attached) (hinst' : g'.inst v = .ok inst)
    (hstore : inst.kind.isStore = true) : ¬ g'.IsRead v := by
  intro hread
  obtain ⟨inst₀, hinst₀, heq, -⟩ := h.exists_inst (h.mem_attached.1 hv).2 hinst'
  rw [heq] at hstore
  rcases h.sourced v hread with hread | ⟨⟨-, inst₁, hinst₁, hload⟩, -⟩
  · rw [storesUnread_iff.1 hg v inst₀ hread hinst₀] at hstore
    cases hstore
  · obtain rfl : inst₀ = inst₁ := Except.ok.inj (hinst₀.symm.trans hinst₁)
    rw [Kind.isStore_eq_false hload] at hstore
    cases hstore

end Reduced

/-! ## The checker -/

section Answers

variable (hi : g.Intact) (hr : g.InRange)
include hi hr

omit hi in
/-- A graph with an entry has a dominator tree. -/
theorem InRange.exists_tree : ∃ t, DomTree.ofGraph g = .ok t := DomTree.ofGraph_eq_ok hr.entry

omit hr in
/-- A reachable block is there. -/
theorem Intact.exists_block (hentry : g.entry ∈ g.blockIds) (hb : g.Reachable b) :
    ∃ block, g.block b = .ok block := by
  rw [← mem_blockIds_iff]
  cases hb with
  | refl => exact hentry
  | tail _ hedge => exact mem_blockIds_of_mem_preds (hi.consistent.mem_preds_iff.2 hedge)

/-- So it is in a graph where everything named is in range. -/
theorem InRange.exists_block (hb : g.Reachable b) : ∃ block, g.block b = .ok block :=
  hi.exists_block hr.entry hb

omit hr in
/-- What a block lists is there. -/
theorem Intact.exists_inst_of_body (hb : g.block b = .ok block) (hmem : i ∈ block.body) :
    ∃ inst, g.inst i = .ok inst :=
  hi.exists_inst (mem_attached.2 ⟨b, block, hb, hmem⟩)

omit hr in
/-- A block is checked without a fault. -/
theorem exists_blockViolations (hb : b ∈ g.blockIds) : ∃ vs, Checker.blockViolations g b = .ok vs := by
  obtain ⟨block, hblock⟩ := mem_blockIds_iff.1 hb
  have hbody : ∀ i ∈ block.body, ∃ inst, g.inst i = .ok inst := fun i => hi.exists_inst_of_body hblock
  have hinsts : ∀ i ∈ block.insts, ∃ k, g.kind i = .ok k := by
    intro i hmem
    obtain ⟨inst, hinst⟩ := hbody i (List.mem_append_right _ hmem)
    exact ⟨_, kind_eq_ok.2 ⟨inst, hinst, rfl⟩⟩
  refine Checked.bind_total_of_eq hblock ?_
  refine Checked.bind_total ?membership fun _ _ => Checked.bind_total ?phis fun _ _ =>
    Checked.bind_total ?ends fun _ _ => ⟨_, rfl⟩
  case membership =>
    refine Checked.filterMapM_total fun i hmem => ?_
    obtain ⟨inst, hinst⟩ := hbody i hmem
    exact Checked.bind_total ⟨_, blockOf_eq_ok.2 ⟨inst, hinst, rfl⟩⟩ fun _ _ => ⟨_, rfl⟩
  case phis =>
    refine Checked.filterMapM_total fun i hmem => ?_
    obtain ⟨inst, hinst⟩ := hbody i (List.mem_append_left _ hmem)
    exact Checked.bind_total ⟨_, inputs_eq_ok.2 ⟨inst, hinst, rfl⟩⟩ fun _ _ => ⟨_, rfl⟩
  case ends =>
    unfold Checker.endViolations
    cases hlast : block.insts.getLast? with
    | none => exact ⟨_, rfl⟩
    | some last =>
      refine Checked.bind_total (Checked.filterMapM_total fun i hmem => ?_) fun misplaced _ => ?_
      · exact Checked.bind_total (hinsts i (List.dropLast_subset _ hmem)) fun _ _ => ⟨_, rfl⟩
      · refine Checked.bind_total (hinsts last (List.mem_of_getLast? hlast)) fun kind _ => ?_
        cases kind.successorCount? with
        | none => exact ⟨_, rfl⟩
        | some n => exact ⟨_, rfl⟩

omit hr in
/-- The uses of an instruction are checked without a fault. -/
theorem exists_useViolations (hmem : i ∈ g.attached) : ∃ vs, Checker.useViolations g i = .ok vs := by
  obtain ⟨inst, hinst⟩ := hi.exists_inst hmem
  refine Checked.bind_total ⟨_, inputs_eq_ok.2 ⟨inst, hinst, rfl⟩⟩ fun _ _ =>
    Checked.bind_total (Checked.filterMapM_total fun u hu => ?_) fun _ _ => ⟨_, rfl⟩
  unfold Checker.useViolation?
  split
  · exact ⟨_, rfl⟩
  · -- a recorded use is made by an instruction that exists
    have huser := (hi.used i u).1 hu
    unfold operandsOf at huser
    cases hslot : g.insts[u.user.index]? with
    | none => simp [hslot] at huser
    | some user =>
      exact Checked.bind_total ⟨_, inputs_eq_ok.2 ⟨user, inst_eq_ok.2 hslot, rfl⟩⟩ fun _ _ => ⟨_, rfl⟩

/-- The definitions of a block are checked without a fault. -/
theorem exists_definitionViolations (t : DomTree) (places : Table Nat) (hb : g.Reachable b) :
    ∃ vs, Checker.definitionViolations g t places b = .ok vs := by
  obtain ⟨block, hblock⟩ := hr.exists_block hi hb
  have hbody : ∀ i ∈ block.body, ∃ inst, g.inst i = .ok inst ∧ ∀ v ∈ inst.inputs, ∃ o, g.blockOf v = .ok o := by
    intro i hmem
    obtain ⟨inst, hinst⟩ := hi.exists_inst_of_body hblock hmem
    refine ⟨inst, hinst, fun v hv => ?_⟩
    obtain ⟨inst', hinst'⟩ := hr.operands v (isRead_of_mem (mem_attached.2 ⟨b, block, hblock, hmem⟩) hinst hv)
    exact ⟨_, blockOf_eq_ok.2 ⟨inst', hinst', rfl⟩⟩
  refine Checked.bind_total_of_eq hblock ?_
  refine Checked.bind_total (Checked.mapM_total fun phi hphi => ?phis) fun _ _ =>
    Checked.bind_total (Checked.mapM_total fun user huser => ?insts) fun _ _ => ⟨_, rfl⟩
  case phis =>
    obtain ⟨inst, hinst, hoperands⟩ := hbody phi (List.mem_append_left _ hphi)
    refine Checked.bind_total_of_eq (inputs_eq_ok.2 ⟨inst, hinst, rfl⟩) ?_
    refine Checked.filterMapM_total fun x hx => ?_
    obtain ⟨⟨v, p⟩, k⟩ := x
    have hv : v ∈ inst.inputs := (List.of_mem_zip (List.fst_mem_of_mem_zipIdx hx)).1
    rw [Checker.phiInputViolation?]
    split
    · exact ⟨_, rfl⟩
    · refine Checked.bind_total (hoperands v hv) fun o _ => ?_
      cases o with
      | none => exact ⟨_, rfl⟩
      | some d => exact ⟨_, rfl⟩
  case insts =>
    obtain ⟨inst, hinst, hoperands⟩ := hbody user (List.mem_append_right _ huser)
    refine Checked.bind_total_of_eq (inputs_eq_ok.2 ⟨inst, hinst, rfl⟩) ?_
    refine Checked.filterMapM_total fun x hx => ?_
    obtain ⟨v, k⟩ := x
    rw [Checker.operandViolation?]
    split
    · exact ⟨_, rfl⟩
    · refine Checked.bind_total ?_ fun _ _ => ⟨_, rfl⟩
      refine Checked.bind_total (hoperands v (List.fst_mem_of_mem_zipIdx hx)) fun d _ =>
        Checked.bind_total ⟨_, blockOf_eq_ok.2 ⟨inst, hinst, rfl⟩⟩ fun u _ => ?_
      cases d <;> cases u <;> exact ⟨_, rfl⟩

/-- The checker comes to a verdict. -/
theorem exists_violations : ∃ vs, g.violations = .ok vs := by
  obtain ⟨entry, hentry⟩ := mem_blockIds_iff.1 hr.entry
  obtain ⟨t, ht⟩ := hr.exists_tree
  refine Checked.bind_total (Checked.bind_total ⟨entry, hentry⟩ fun _ _ => ⟨_, rfl⟩) fun _ _ =>
    Checked.bind_total (Checked.mapM_total fun b hb => exists_blockViolations hi hb) fun _ _ =>
    Checked.bind_total (Checked.mapM_total fun i hmem => exists_useViolations hi hmem) fun _ _ =>
    Checked.bind_total_of_eq ht (Checked.bind_total (Checked.mapM_total fun b hb => ?_) fun _ _ => ⟨_, rfl⟩)
  exact exists_definitionViolations hi hr t _ ((DomTree.mem_preorder hi.consistent ht).1 hb)

/-! ## Effects -/

omit hi hr in
/-- The effects of an instruction can be told if its field is declared and the value that it stores to an
array is there. -/
theorem exists_effectsOf (hinst : g.inst i = .ok inst)
    (hdeclared : ∀ f, inst.kind.field? = some f → ∃ field, g.field f = .ok field)
    (hstored : inst.kind = .arraySet → ∃ v value, inst.inputs[2]? = some v ∧ g.inst v = .ok value) :
    ∃ e, g.effectsOf i = .ok e := by
  have hfield : ∀ f access, inst.kind.field? = some f → ∃ e, g.fieldEffects f access = .ok e :=
    fun f access hf =>
    Checked.bind_total (hdeclared f hf) fun _ _ => ⟨_, rfl⟩
  refine Checked.bind_total_of_eq (kind_eq_ok.2 ⟨inst, hinst, rfl⟩) ?_
  cases hk : inst.kind with
  | instanceGet f | staticGet f | instanceSet f | staticSet f => exact hfield f _ (by rw [hk]; rfl)
  | arrayGet => exact Checked.bind_total ⟨_, ty_eq_ok.2 ⟨inst, hinst, rfl⟩⟩ fun _ _ => ⟨_, rfl⟩
  | arraySet =>
    obtain ⟨v, value, hv, hvalue⟩ := hstored hk
    refine Checked.bind_total_of_eq (input_eq_ok.2 ⟨inst, hinst, hv⟩) ?_
    exact Checked.bind_total ⟨_, ty_eq_ok.2 ⟨value, hvalue, rfl⟩⟩ fun _ _ => ⟨_, rfl⟩
  | _ => exact ⟨_, rfl⟩

omit hi hr in
/-- A block is summarized if the effects of its instructions can be told. -/
theorem exists_addBlock (s : EffectSummary) (hblock : g.block b = .ok block)
    (heffects : ∀ i ∈ block.body, ∃ e, g.effectsOf i = .ok e) : ∃ s', s.addBlock g b = .ok s' := by
  refine Checked.bind_total_of_eq hblock ?_
  refine Checked.bind_total ?_ fun _ _ => ⟨_, rfl⟩
  refine Exists.imp (fun _ => And.left)
    (Checked.foldlM_total (P := fun _ => True) trivial fun i hmem st _ => ?_)
  exact (Checked.bind_total (heffects i hmem) fun _ _ => ⟨_, rfl⟩).imp fun _ hst => ⟨hst, trivial⟩

omit hr in
/-- The effects of an instruction can be told if what it refers to is there. -/
theorem Intact.exists_effectsOf (hf : g.FieldsDeclared)
    (hoperands : ∀ v, g.IsRead v → ∃ inst, g.inst v = .ok inst) (hatt : i ∈ g.attached)
    (harray : ∀ inst, g.inst i = .ok inst → inst.kind = .arraySet → 3 ≤ inst.inputs.length) :
    ∃ e, g.effectsOf i = .ok e := by
  obtain ⟨inst, hinst⟩ := hi.exists_inst hatt
  refine Graph.exists_effectsOf hinst (fun f => hf.exists_field hatt hinst) fun hk => ?_
  obtain ⟨v, hv⟩ : ∃ v, inst.inputs[2]? = some v := ⟨_, List.getElem?_eq_getElem (harray inst hinst hk)⟩
  obtain ⟨value, hvalue⟩ := hoperands v (isRead_of_mem hatt hinst (List.mem_of_getElem? hv))
  exact ⟨v, value, hv, hvalue⟩

omit hr in
/-- A reachable block is summarized if what its instructions refer to is there. -/
theorem Intact.exists_addBlock (hentry : g.entry ∈ g.blockIds) (hf : g.FieldsDeclared)
    (hoperands : ∀ v, g.IsRead v → ∃ inst, g.inst v = .ok inst) (harrays : g.ArraysSupplied) (s : EffectSummary)
    (hb : g.Reachable b) : ∃ s', s.addBlock g b = .ok s' := by
  obtain ⟨block, hblock⟩ := hi.exists_block hentry hb
  refine Graph.exists_addBlock s hblock fun i hmem => ?_
  exact hi.exists_effectsOf hf hoperands (mem_attached.2 ⟨b, block, hblock, hmem⟩) fun inst =>
    harrays b i inst hb (mem_bodyOf.2 ⟨block, hblock, hmem⟩)

/-- A block is summarized without a fault, if no store to an array lacks an operand. -/
theorem InRange.exists_addBlock (harrays : g.ArraysSupplied) (s : EffectSummary) (hb : g.Reachable b) :
    ∃ s', s.addBlock g b = .ok s' :=
  hi.exists_addBlock hr.entry hr.fields hr.operands harrays s hb

omit hi hr in
/-- So is a block of a well-formed graph with the documented operands. -/
theorem WellFormed.exists_addBlock (hw : g.WellFormed) (hg : g.Consistent) (hl : g.Furnished)
    (hf : g.FieldsDeclared) (s : EffectSummary) (hb : g.Reachable b) : ∃ s', s.addBlock g b = .ok s' := by
  obtain ⟨block, hblock⟩ := hw.exists_block hg hb
  refine Graph.exists_addBlock s hblock fun i hmem => ?_
  have hatt := mem_attached.2 ⟨b, block, hblock, hmem⟩
  obtain ⟨inst, hinst⟩ := hw.exists_inst hatt
  refine exists_effectsOf hinst (fun f => hf.exists_field hatt hinst) fun hk => ?_
  have hi : i ∈ block.insts := by
    refine (List.mem_append.1 hmem).resolve_left fun hphi => ?_
    rw [hl.phis b block i inst hblock hphi hinst] at hk
    cases hk
  exact exists_attached_operand hw hg hl hb hblock hi hinst (by rw [hk]; decide)

end Answers

end Graph

/-! ## Dead code -/

namespace DeadCode

open Midend.Graph

variable {g g' : Graph} {i : InstId} {b : BlockId}

section Sweeps

variable (hi : g.Intact) (hr : g.InRange)
include hi hr

/-- Whether an instruction is dead is found without a fault. -/
theorem exists_isDead (hmem : i ∈ g.attached) : ∃ dead, isDead g i = .ok dead := by
  obtain ⟨inst, hinst⟩ := hi.exists_inst hmem
  refine Checked.bind_total_of_eq (kind_eq_ok.2 ⟨inst, hinst, rfl⟩) ?_
  split
  · exact ⟨_, rfl⟩
  · next hcond =>
    refine Checked.bind_total (exists_effectsOf hinst (fun f => hr.fields.exists_field hmem hinst) fun hk => ?_)
      fun _ _ => ⟨_, rfl⟩
    simp [hk, Kind.canThrow] at hcond

/-- One instruction is visited without a fault. -/
theorem exists_removeIfDead (n : Nat) (hmem : i ∈ g.attached) : ∃ st, removeIfDead (g, n) i = .ok st := by
  refine Checked.bind_total (exists_isDead hi hr hmem) fun dead hdead => ?_
  cases dead with
  | false => exact ⟨_, rfl⟩
  | true =>
    obtain ⟨huses, inst, hinst, -⟩ := isDead_eq_true hdead
    obtain ⟨g', hg', -⟩ := removeInst_spec huses hinst
    exact Checked.bind_total ⟨g', hg'⟩ fun _ _ => ⟨_, rfl⟩

/-- A block is swept without a fault. -/
theorem exists_sweepBlock (n : Nat) (hb : g.Reachable b) : ∃ st, sweepBlock (g, n) b = .ok st := by
  obtain ⟨block, hblock⟩ := hr.exists_block hi hb
  refine Checked.bind_total_of_eq hblock ?_
  have hnodup : block.body.reverse.Nodup := by
    rw [List.nodup_reverse, ← bodyOf_eq hblock]
    exact hi.body_nodup b
  -- what is still to come is in its block
  refine Exists.imp (fun _ => And.left) (Checked.foldlM_total_prefix
    (P := fun done (st : Graph × Nat) => ∃ gone, Reduced g gone st.1 ∧ gone ⊆ done)
    ⟨[], hi.reduced, List.nil_subset _⟩ ?_)
  rintro done i rest ⟨g₁, n₁⟩ hsplit ⟨gone, hreduced, hdone⟩
  have hatt : i ∈ g₁.attached := by
    refine hreduced.mem_attached.2 ⟨mem_attached.2 ⟨b, block, hblock, ?_⟩, fun hmem => ?_⟩
    · rw [← List.mem_reverse, hsplit]
      simp
    · rw [hsplit] at hnodup
      exact List.disjoint_of_nodup_append hnodup (hdone hmem) List.mem_cons_self
  obtain ⟨⟨g₂, n₂⟩, hstep⟩ := exists_removeIfDead hreduced.intact (hreduced.inRange hr) n₁ hatt
  refine ⟨(g₂, n₂), hstep, ?_⟩
  rcases reduced_removeIfDead hreduced hatt hstep with ⟨rfl, -⟩ | ⟨hreduced', -⟩
  · exact ⟨gone, hreduced, fun j hj => List.mem_append_left _ (hdone hj)⟩
  · exact ⟨gone ++ [i], hreduced', List.append_subset.2
      ⟨fun j hj => List.mem_append_left _ (hdone hj), List.subset_append_right _ _⟩⟩

end Sweeps

/-- All sweeps end without a fault, by induction on how many are left. -/
theorem exists_sweepAll {blocks : List BlockId} (left done removed : Nat) (hi : g.Intact) (hr : g.InRange)
    (hblocks : ∀ b ∈ blocks, g.Reachable b) : ∃ r, sweepAll blocks left done removed g = .ok r := by
  induction left generalizing done removed g with
  | zero => exact ⟨_, rfl⟩
  | succ left ih =>
    have hreach : ∀ {gone g₁}, Reduced g gone g₁ → ∀ b ∈ blocks, g₁.Reachable b := by
      intro gone g₁ hreduced b hb
      rw [Reachable, hreduced.succs, hreduced.entry]
      exact hblocks b hb
    have hsweep : ∃ st, blocks.foldlM sweepBlock (g, 0) = .ok st ∧ ∃ gone, Reduced g gone st.1 := by
      refine Checked.foldlM_total ⟨[], hi.reduced⟩ ?_
      rintro b hb ⟨g₁, n⟩ ⟨gone, hreduced⟩
      obtain ⟨⟨g₂, n₂⟩, hstep⟩ := exists_sweepBlock hreduced.intact (hreduced.inRange hr) n
        (hreach hreduced b hb)
      obtain ⟨count, ⟨gone', hreduced', -⟩, -⟩ := swept_sweepBlock hreduced.intact hstep
      exact ⟨(g₂, n₂), hstep, gone ++ gone', hreduced.trans hreduced'⟩
    obtain ⟨⟨g₁, n⟩, hsweep, gone, hreduced⟩ := hsweep
    refine Checked.bind_total_of_eq hsweep ?_
    show ∃ r, (if n = 0 then _ else _) = _
    split
    · exact ⟨_, rfl⟩
    · exact ih _ _ hreduced.intact (hreduced.inRange hr) (hreach hreduced)

/-- Dead code is swept without a fault, whether the graph is well formed or not. -/
theorem exists_eliminate (maxSweeps : Nat) (hi : g.Intact) (hr : g.InRange) :
    ∃ r, eliminate g maxSweeps = .ok r := by
  obtain ⟨t, ht⟩ := hr.exists_tree
  refine Checked.bind_total_of_eq ht ?_
  refine exists_sweepAll _ _ _ hi hr fun b hb => ?_
  rw [DomTree.postorder, List.mem_reverse] at hb
  exact (DomTree.mem_rpo hi.consistent ht).1 hb

end DeadCode

end Midend
