import Mathlib.Data.List.Perm.Subperm
import Midend.Pass.DeadCode
import Midend.Proofs.Arena
import Midend.Proofs.CheckElimination
import Midend.Proofs.Knowledge

/-!
# What passes take out of a graph

The passes move uses from one value to another and take instructions out.  Whatever they do in whatever
order, the declarations and the edges of the graph stay, what is left stays in its order, each instruction
that is gone is of a kind that may go, and a value that comes to be read is a load with a type that was read
before.

## Shape of the argument

`Reduced` says what came of a graph, and lists what is gone.  Each of the two edits keeps it, so each fold
of edits that a pass makes does; nothing is assumed about operands, so it does not matter whether the graph
is well formed in between.  The list has no repetition, which makes its length the number of instructions
that are missing.  Load/store elimination alone makes values be read that were not: what it knows memory to
hold are loads and what was read before (`LoadStore.Sourced`).
-/

namespace Midend

/-- A fold leaves alone what none of its steps changes. -/
theorem foldl_unchanged {α β γ : Type} {f : β → α → β} {p : β → γ} (hf : ∀ b a, p (f b a) = p b)
    (xs : List α) (b : β) : p (xs.foldl f b) = p b := by
  induction xs generalizing b with
  | nil => rfl
  | cons a xs ih => exact (ih (f b a)).trans (hf b a)

namespace Graph

variable {g g' g₁ g₂ : Graph} {gone : List InstId} {i old value : InstId} {inst inst' : Inst} {b : BlockId}
  {block : Block}

/-! ## What may be removed -/

/-- What passes may remove: plain accesses to memory, null checks, and what neither ends a block, nor is a
parameter, nor throws, nor writes memory. -/
inductive Removable (g : Graph) (i : InstId) : Prop
  | access {inst : Inst} : g.inst i = .ok inst → inst.kind.isLoad = true ∨ inst.kind.isStore = true →
    (∀ f, inst.kind.field? = some f → g.isVolatile f = false) → Removable g i
  | check {inst : Inst} : g.inst i = .ok inst → inst.kind = .nullCheck → Removable g i
  | idle {inst : Inst} : g.inst i = .ok inst → inst.kind.isTerminator = false →
    inst.kind.isParam = false → inst.kind.canThrow = false → inst.kind.isStore = false →
    g.isOpen inst.kind = false → Removable g i

/-- What an instruction that cannot throw does to memory depends on its kind and the fields alone. -/
theorem effectsOf_congr (hinst : g.inst i = .ok inst) (hinst' : g'.inst i = .ok inst')
    (hkind : inst'.kind = inst.kind) (hfields : g'.fields = g.fields) (hthrow : inst.kind.canThrow = false) :
    g'.effectsOf i = g.effectsOf i := by
  have hfield : g'.fieldEffects = g.fieldEffects := by
    funext f access
    rw [fieldEffects, fieldEffects, field, field, hfields]
  rw [effectsOf, effectsOf, kind_eq_ok.2 ⟨inst, hinst, rfl⟩, kind_eq_ok.2 ⟨inst', hinst', hkind⟩, hfield]
  generalize inst.kind = k at hthrow
  cases k with
  | arrayGet | arraySet => cases hthrow
  | _ => rfl

/-- Whether an instruction may be removed depends on its kind and the fields alone. -/
theorem Removable.congr (h : g'.Removable i) (hinst : g.inst i = .ok inst) (hinst' : g'.inst i = .ok inst')
    (hkind : inst'.kind = inst.kind) (hfields : g'.fields = g.fields) : g.Removable i := by
  have hslot : ∀ {inst₁ : Inst}, g'.inst i = .ok inst₁ → inst₁.kind = inst.kind := by
    intro inst₁ hinst₁
    obtain rfl : inst' = inst₁ := Except.ok.inj (hinst'.symm.trans hinst₁)
    exact hkind
  cases h with
  | access hinst₁ haccess hplain =>
    rw [hslot hinst₁, isVolatile_congr hfields] at hplain
    exact .access hinst (hslot hinst₁ ▸ haccess) hplain
  | check hinst₁ hcheck => exact .check hinst (hslot hinst₁ ▸ hcheck)
  | idle hinst₁ hends hparam hthrow hstore hopen =>
    rw [hslot hinst₁] at hends hparam hthrow hstore hopen
    exact .idle hinst hends hparam hthrow hstore (isOpen_congr hfields ▸ hopen)

/-- The end of a block stays. -/
theorem Removable.isTerminator_eq_false (h : g.Removable i) (hinst : g.inst i = .ok inst) :
    inst.kind.isTerminator = false := by
  have hslot : ∀ {inst'}, g.inst i = .ok inst' → inst = inst' := fun h => Except.ok.inj (hinst.symm.trans h)
  cases h with
  | access hinst' haccess =>
    rw [← hslot hinst'] at haccess
    cases hk : inst.kind <;> simp_all [Kind.isLoad, Kind.isStore, Kind.isTerminator, Kind.successorCount?]
  | check hinst' hcheck =>
    rw [hslot hinst', hcheck]
    rfl
  | idle hinst' hends =>
    rw [hslot hinst']
    exact hends

/-- An access that has a location may be removed. -/
theorem removable_of_location? {l : Location} (hinst : g.inst i = .ok inst)
    (hkind : inst.kind.isLoad = true ∨ inst.kind.isStore = true) (hloc : g.location? i = .ok (some l)) :
    g.Removable i := by
  refine .access hinst hkind fun f hf => ?_
  cases location?_eq_some hinst hloc with
  | field hk hplain =>
    rcases hk with hk | hk <;> (rw [hk] at hf; cases hf; exact hplain)
  | static hk hplain =>
    rcases hk with hk | hk <;> (rw [hk] at hf; cases hf; exact hplain)
  | element hk =>
    rcases hk with ⟨hk, -⟩ | ⟨hk, -⟩ <;> (rw [hk] at hf; cases hf)

/-! ## What is read -/

/-- Some instruction in a block reads a value. -/
def IsRead (g : Graph) (v : InstId) : Prop := ∃ i ∈ g.attached, v ∈ g.operandsOf i

/-- A value is the result of a load in a block. -/
def IsLoaded (g : Graph) (v : InstId) : Prop :=
  v ∈ g.attached ∧ ∃ inst, g.inst v = .ok inst ∧ inst.kind.isLoad = true

/-- No operand is of a type without values, said of what is read. -/
theorem readsValues_iff : g.ReadsValues ↔ ∀ v, g.IsRead v → g.ty v ≠ .ok .void := by
  constructor
  · rintro h v ⟨i, hi, hv⟩
    unfold operandsOf at hv
    cases hinst : g.insts[i.index]? with
    | none => simp [hinst] at hv
    | some inst => exact h i hi inst hinst v (by simpa [hinst] using hv)
  · intro h i hi inst hinst v hv
    exact h v ⟨i, hi, by rw [operandsOf_eq (inst_eq_ok.2 hinst)]; exact hv⟩

/-- Where uses are moved, the new value is read in place of the old one, by instructions outside of blocks
too. -/
theorem Intact.operandsOf_replaceUses (hg : g.Intact) (i : InstId) :
    (g.replaceUses old value).operandsOf i = (g.operandsOf i).map fun x => if x = old then value else x := by
  by_cases hne : value = old
  · have hsame : (fun x => if x = old then value else x) = id := by
      funext x
      split
      · next hx => rw [hne, hx, id]
      · rfl
    rw [Graph.replaceUses, if_pos hne.symm, hsame, List.map_id]
  obtain ⟨-, -, -, hslots, -⟩ := replaceUses_spec (g := g) hne
  refine List.ext_getElem? fun k => ?_
  have hmoved : ((g.replaceUses old value).operandsOf i)[k]? =
      (g.operandsOf i)[k]?.map fun x => if (⟨i, k⟩ : Use) ∈ g.uses old then value else x := by
    rw [operandsOf, operandsOf, hslots]
    cases g.insts[i.index]? with
    | none => rfl
    | some inst => simp [Inst.redirect]
  rw [hmoved, List.getElem?_map]
  cases hx : (g.operandsOf i)[k]? with
  | none => rfl
  | some x =>
    have huse : (⟨i, k⟩ : Use) ∈ g.uses old ↔ x = old := by
      rw [hg.used, hx, Option.some.injEq]
    simp only [Option.map_some, huse]

/-- Where uses are moved, the new value is read if the old one was. -/
theorem isRead_replaceUses {v : InstId} (hg : g.Intact) (h : (g.replaceUses old value).IsRead v) :
    g.IsRead v ∨ v = value ∧ g.IsRead old := by
  by_cases hne : value = old
  · rw [replaceUses, if_pos hne.symm] at h
    exact .inl h
  obtain ⟨-, hblocks, -, -, -⟩ := replaceUses_spec (g := g) hne
  obtain ⟨i, hi, hv⟩ := h
  have hi : i ∈ g.attached := by rwa [attached, hblocks] at hi
  rw [hg.operandsOf_replaceUses] at hv
  obtain ⟨x, hx, rfl⟩ := List.mem_map.1 hv
  split
  · next hold => exact .inr ⟨rfl, i, hi, hold ▸ hx⟩
  · exact .inl ⟨i, hi, hx⟩

/-! ## Reduced graphs -/

/-- What a graph is declared with. -/
def declared (g : Graph) : String × Bool × Bool × Array Field × BlockId :=
  (g.name, g.isStatic, g.isSynchronized, g.fields, g.entry)

/-- Redirecting uses leaves what the method declares. -/
theorem declared_replaceUses (hne : value ≠ old) : (g.replaceUses old value).declared = g.declared := by
  rw [replaceUses, if_neg (Ne.symm hne)]
  apply foldl_unchanged
  exact fun _ _ => rfl

/-- Moving uses does not change types. -/
theorem ty_replaceUses (hne : value ≠ old) : (g.replaceUses old value).ty = g.ty := by
  obtain ⟨-, -, -, hinsts, -⟩ := replaceUses_spec (g := g) hne
  funext i
  rw [ty, ty, inst, inst, hinsts]
  cases g.insts[i.index]? <;> rfl

/-- Removing an instruction leaves what the method declares, and the slot. -/
theorem removeInst_unchanged (h : g.removeInst i = .ok g') :
    g'.declared = g.declared ∧ g'.insts.size = g.insts.size := by
  simp only [removeInst, Checked.bind_eq_ok, Checked.pure_eq_ok] at h
  obtain ⟨-, -, inst, -, rfl⟩ := h
  constructor
  · show declared (inst.inputs.zipIdx.foldl _ _) = g.declared
    rw [foldl_unchanged (p := declared)]
    · cases inst.block <;> rfl
    · exact fun _ _ => rfl
  · rw [modifyInst, Array.size_modify]
    rw [foldl_unchanged (p := fun g : Graph => g.insts.size)]
    · cases inst.block <;> rfl
    · exact fun _ _ => rfl

/-- A removal only takes uses away. -/
theorem uses_removeInst_sublist (hg' : g.removeInst i = .ok g') (x : InstId) :
    (g'.uses x).Sublist (g.uses x) := by
  have hfold : ∀ (ps : List (InstId × Nat)) (g : Graph), ((ps.foldl (fun g p =>
      { g with useChains := g.useChains.modify p.1.index (·.filter (· ≠ ⟨i, p.2⟩)) }) g).uses x).Sublist
        (g.uses x) := by
    intro ps
    induction ps with
    | nil => exact fun g => .refl _
    | cons p ps ih =>
      intro g
      refine (ih _).trans ?_
      simp only [uses, Table.modify, Table.get_set]
      split
      · next hx => rw [hx]; exact List.filter_sublist
      · exact .refl _
  simp only [removeInst, Checked.bind_eq_ok, Checked.pure_eq_ok] at hg'
  obtain ⟨-, -, inst, -, rfl⟩ := hg'
  refine (hfold _ _).trans ?_
  cases inst.block <;> exact .refl _

/-- A graph came from another by moving uses and taking out instructions. -/
structure Reduced (g : Graph) (gone : List InstId) (g' : Graph) : Prop where
  intact : g'.Intact
  declared : g'.declared = g.declared
  blocks : ∀ b : BlockId, g'.blocks[b.index]? = g.blocks[b.index]?.map (Block.without gone)
  slots : g'.insts.size = g.insts.size
  kept : ∀ i inst, i ∉ gone → g.inst i = .ok inst →
    ∃ xs, g'.inst i = .ok { inst with inputs := xs } ∧ xs.length = inst.inputs.length
  nodup : gone.Nodup
  listed : ∀ i ∈ gone, i ∈ g.attached
  removable : ∀ i ∈ gone, g.Removable i
  removed : ∀ i ∈ gone, g'.isRemoved i = true
  types : g'.ty = g.ty
  /-- What is read was read before, or it is a load that stands for something that was. -/
  sourced : ∀ v, g'.IsRead v → g.IsRead v ∨ g.IsLoaded v ∧ ∃ w, g.IsRead w ∧ g.ty v = g.ty w

/-- A graph is what is left of itself when nothing is taken out. -/
theorem Intact.reduced (h : g.Intact) : Reduced g [] g where
  intact := h
  declared := rfl
  blocks b := by
    cases g.blocks[b.index]? with
    | none => rfl
    | some block => simp [Block.without_nil]
  slots := rfl
  kept i inst _ hinst := ⟨inst.inputs, hinst, rfl⟩
  nodup := List.nodup_nil
  listed i hi := by cases hi
  removable i hi := by cases hi
  removed i hi := by cases hi
  types := rfl
  sourced _ hv := .inl hv

namespace Reduced

variable (h : Reduced g gone g')
include h

/-- Fields stay. -/
theorem fields : g'.fields = g.fields := congrArg (·.2.2.2.1) h.declared

/-- The entry stays. -/
theorem entry : g'.entry = g.entry := congrArg (·.2.2.2.2) h.declared

/-- A block is what is left of the block that was there. -/
theorem block_eq_ok : g'.block b = .ok block ↔ ∃ old, g.block b = .ok old ∧ block = old.without gone := by
  simp only [Graph.block_eq_ok, h.blocks, Option.map_eq_some_iff, eq_comm (b := block)]

/-- Blocks stay. -/
theorem size : g'.blocks.size = g.blocks.size := by
  have hblocks : g'.blocks = g.blocks.map (Block.without gone) :=
    Array.ext_getElem? fun n => by simpa using h.blocks ⟨n⟩
  rw [hblocks, Array.size_map]

/-- Edges stay as they were. -/
theorem succs : g'.succs = g.succs := by
  funext b
  rw [Graph.succs, Graph.succs, h.blocks, Option.map_map]
  rfl

/-- So do the ways into a block. -/
theorem preds : g'.preds = g.preds := by
  funext b
  rw [Graph.preds, Graph.preds, h.blocks, Option.map_map]
  rfl

/-- A block executes what is left of it. -/
theorem bodyOf : g'.bodyOf b = (g.bodyOf b).filter (· ∉ gone) := by
  rw [Graph.bodyOf, Graph.bodyOf, h.blocks]
  cases g.blocks[b.index]? with
  | none => rfl
  | some block => exact Block.body_without

/-- What stays listed is what was not taken out, in the same order. -/
theorem attached : g'.attached = g.attached.filter (· ∉ gone) := by
  rw [attached_eq_flatMap, attached_eq_flatMap, List.filter_flatMap, blockIds, blockIds, h.size]
  exact List.flatMap_congr fun b _ => h.bodyOf

/-- An instruction is still listed if it was and was not taken out. -/
theorem mem_attached : i ∈ g'.attached ↔ i ∈ g.attached ∧ i ∉ gone := by
  rw [h.attached, List.mem_filter, decide_eq_true_eq]

/-- What is left is there as it was, apart from what its operands are. -/
theorem exists_inst (hi : i ∉ gone) (hinst' : g'.inst i = .ok inst') :
    ∃ inst, g.inst i = .ok inst ∧ inst' = { inst with inputs := inst'.inputs } ∧
      inst'.inputs.length = inst.inputs.length := by
  have hlt : i.index < g.insts.size := h.slots ▸ (Array.getElem?_eq_some_iff.1 (inst_eq_ok.1 hinst')).1
  have hinst : g.inst i = .ok g.insts[i.index] := inst_eq_ok.2 (Array.getElem?_eq_getElem hlt)
  obtain ⟨xs, hxs, hlength⟩ := h.kept i _ hi hinst
  obtain rfl := Except.ok.inj (hinst'.symm.trans hxs)
  exact ⟨_, hinst, rfl, hlength⟩

/-- As many instructions are missing as are said to be gone. -/
theorem length_attached (hg : g.Intact) : g'.attached.length + gone.length = g.attached.length := by
  have hgone : (g.attached.filter (· ∈ gone)).Perm gone := by
    refine (List.perm_ext_iff_of_nodup (hg.attached_nodup.filter _) h.nodup).2 fun i => ?_
    rw [List.mem_filter, decide_eq_true_eq]
    exact ⟨And.right, fun hi => ⟨h.listed i hi, hi⟩⟩
  have hsplit := List.length_eq_length_filter_add (l := g.attached) (· ∈ gone)
  rw [hgone.length_eq] at hsplit
  rw [h.attached, hsplit, Nat.add_comm]
  simp

/-! ### Edits -/

/-- Redirecting the uses of a value to one of the same type, loaded before or read anyway, takes out
nothing. -/
theorem replaceUses (hvalue : g.IsRead value ∨ g.IsLoaded value ∧ g.ty value = g.ty old) :
    Reduced g gone (g'.replaceUses old value) := by
  by_cases hne : value = old
  · rw [Graph.replaceUses, if_pos hne.symm]
    exact h
  obtain ⟨-, hblocks, hsize, hslots, -⟩ := replaceUses_spec (g := g') hne
  refine { h with intact := h.intact.replaceUses old value,
                  declared := (declared_replaceUses hne).trans h.declared,
                  blocks := fun b => by rw [hblocks, h.blocks], slots := hsize.trans h.slots,
                  kept := fun i inst hi hinst => ?kept, removed := fun i hi => ?removed,
                  types := (ty_replaceUses hne).trans h.types, sourced := fun v hv => ?sourced }
  case kept =>
    obtain ⟨xs, hinst', hlength⟩ := h.kept i inst hi hinst
    refine ⟨_, (inst_replaceUses hne).2 ⟨_, hinst', rfl⟩, ?_⟩
    rw [List.length_mapIdx, hlength]
  case removed =>
    rw [← h.removed i hi, isRemoved, isRemoved, hslots]
    cases g'.insts[i.index]? <;> rfl
  case sourced =>
    rcases isRead_replaceUses h.intact hv with hv | ⟨rfl, hold⟩
    · exact h.sourced v hv
    · refine hvalue.imp id fun hloaded => ⟨hloaded.1, ?_⟩
      have hty := hloaded.2
      rcases h.sourced old hold with hread | ⟨-, w, hw, hsame⟩
      · exact ⟨old, hread, hty⟩
      · exact ⟨w, hw, hty.trans hsame⟩

/-- What may be removed from what is left could be removed before. -/
theorem removable_left (hi : i ∈ g'.attached) (hr : g'.Removable i) : g.Removable i := by
  obtain ⟨-, hgone⟩ := h.mem_attached.1 hi
  obtain ⟨inst', hinst'⟩ : ∃ inst', g'.inst i = .ok inst' := by
    cases hr with
    | access hinst | check hinst | idle hinst => exact ⟨_, hinst⟩
  obtain ⟨inst, hinst, heq, -⟩ := h.exists_inst hgone hinst'
  exact hr.congr hinst hinst' (by rw [heq]) h.fields

/-- Taking out one more instruction that may be removed. -/
theorem removeInst (hi : i ∈ g'.attached) (hr : g.Removable i) (hremove : g'.removeInst i = .ok g₂) :
    Reduced g (gone ++ [i]) g₂ := by
  obtain ⟨hatt, hgone⟩ := h.mem_attached.1 hi
  obtain ⟨inst', hinst', -, hblocks, hslots, -⟩ := h.intact.removeInst_spec hremove
  obtain ⟨hdeclared, hsize⟩ := removeInst_unchanged hremove
  refine { intact := h.intact.removeInst hremove, declared := hdeclared.trans h.declared,
           blocks := fun b => ?blocks, slots := hsize.trans h.slots, kept := fun j inst₁ hj hinst₁ => ?kept,
           nodup := ?nodup, listed := ?listed, removable := ?removable, removed := ?removed,
           types := ?types, sourced := ?sourced }
  case blocks =>
    rw [hblocks, h.blocks, Option.map_map]
    refine congrArg (Option.map · _) (funext fun block => ?_)
    exact (Block.without_append _).symm
  case kept =>
    rw [List.mem_append, List.mem_singleton, not_or] at hj
    obtain ⟨xs, hxs, hlength⟩ := h.kept j inst₁ hj.1 hinst₁
    refine ⟨xs, ?_, hlength⟩
    rw [inst_eq_ok, hslots, if_neg hj.2, ← inst_eq_ok]
    exact hxs
  case nodup =>
    exact h.nodup.append (List.nodup_singleton i) (List.disjoint_singleton.2 hgone)
  case listed =>
    rw [List.forall_mem_append]
    exact ⟨h.listed, List.forall_mem_singleton.2 hatt⟩
  case removable =>
    rw [List.forall_mem_append]
    exact ⟨h.removable, List.forall_mem_singleton.2 hr⟩
  case removed =>
    intro j hj
    rw [isRemoved, hslots]
    split
    · rfl
    · next hne =>
      exact h.removed j ((List.mem_append.1 hj).resolve_right fun hj => hne (List.mem_singleton.1 hj))
  case types =>
    rw [← h.types]
    funext j
    rw [ty, ty, inst, inst, hslots]
    split
    · next hj =>
      subst hj
      rw [inst_eq_ok.1 hinst']
      rfl
    · rfl
  case sourced =>
    rintro v ⟨j, hj, hv⟩
    refine h.sourced v ⟨j, ?_, ?_⟩
    · obtain ⟨b, block, hblock, hj⟩ := Graph.mem_attached.1 hj
      rw [Graph.block_eq_ok, hblocks, Option.map_eq_some_iff] at hblock
      obtain ⟨block', hblock', rfl⟩ := hblock
      exact Graph.mem_attached.2 ⟨b, block', Graph.block_eq_ok.2 hblock', (Block.mem_body_without.1 hj).1⟩
    · rw [operandsOf, hslots] at hv
      split at hv
      · cases hv
      · exact hv

/-- Taking out several instructions that may be removed, one after the other. -/
theorem removeInsts {xs : List InstId} (hxs : (gone ++ xs).Nodup) (hatt : ∀ i ∈ xs, i ∈ g.attached)
    (hr : ∀ i ∈ xs, g.Removable i) (hremove : xs.foldlM Graph.removeInst g' = .ok g₂) :
    Reduced g (gone ++ xs) g₂ := by
  refine Checked.foldlM_prefix (P := fun done g₁ => Reduced g (gone ++ done) g₁) hremove (by simpa using h) ?_
  intro done i rest g₁ g₂ hsplit h₁ hstep
  have hi : i ∈ xs := by simp [hsplit]
  have hnew : i ∉ gone ++ done := by
    rw [hsplit, ← List.append_assoc] at hxs
    exact fun hmem => List.disjoint_of_nodup_append hxs hmem List.mem_cons_self
  rw [← List.append_assoc]
  exact h₁.removeInst (h₁.mem_attached.2 ⟨hatt i hi, hnew⟩) (hr i hi) hstep

/-- One reduction after another. -/
theorem trans {gone' : List InstId} (h' : Reduced g' gone' g₂) : Reduced g (gone ++ gone') g₂ where
  intact := h'.intact
  declared := h'.declared.trans h.declared
  blocks b := by
    rw [h'.blocks, h.blocks, Option.map_map]
    refine congrArg (Option.map · _) (funext fun block => ?_)
    exact (Block.without_append _).symm
  slots := h'.slots.trans h.slots
  kept i inst hi hinst := by
    rw [List.mem_append, not_or] at hi
    obtain ⟨xs, hxs, hlength⟩ := h.kept i inst hi.1 hinst
    obtain ⟨ys, hys, hlength'⟩ := h'.kept i _ hi.2 hxs
    exact ⟨ys, hys, hlength'.trans hlength⟩
  nodup := h.nodup.append h'.nodup fun i hi hi' => (h.mem_attached.1 (h'.listed i hi')).2 hi
  listed := by
    rw [List.forall_mem_append]
    exact ⟨h.listed, fun i hi => (h.mem_attached.1 (h'.listed i hi)).1⟩
  removable := by
    rw [List.forall_mem_append]
    exact ⟨h.removable, fun i hi => h.removable_left (h'.listed i hi) (h'.removable i hi)⟩
  removed i hi := by
    by_cases hi' : i ∈ gone'
    · exact h'.removed i hi'
    · have hgone : i ∈ gone := (List.mem_append.1 hi).resolve_right hi'
      have hremoved := h.removed i hgone
      unfold isRemoved at hremoved
      cases hslot : g'.insts[i.index]? with
      | none => rw [hslot] at hremoved; cases hremoved
      | some inst =>
        obtain ⟨xs, hxs, -⟩ := h'.kept i inst hi' (inst_eq_ok.2 hslot)
        rw [hslot] at hremoved
        rw [isRemoved_eq hxs]
        exact hremoved
  types := h'.types.trans h.types
  sourced v hv := by
    rcases h'.sourced v hv with hv | ⟨⟨hatt, inst', hinst', hload⟩, w, hw, hty⟩
    · exact h.sourced v hv
    · obtain ⟨hatt, hgone⟩ := h.mem_attached.1 hatt
      obtain ⟨inst, hinst, heq, -⟩ := h.exists_inst hgone hinst'
      rw [heq] at hload
      rw [h.types] at hty
      refine .inr ⟨⟨hatt, inst, hinst, hload⟩, ?_⟩
      rcases h.sourced w hw with hw | ⟨-, w', hw', hty'⟩
      · exact ⟨w, hw, hty⟩
      · exact ⟨w', hw', hty.trans hty'⟩

/-- What is read has values, if this was so before. -/
theorem readsValues (hg : g.ReadsValues) : g'.ReadsValues := by
  rw [readsValues_iff] at hg ⊢
  intro v hv
  rw [h.types]
  rcases h.sourced v hv with hv | ⟨-, w, hw, hty⟩
  · exact hg v hv
  · rw [hty]
    exact hg w hw

end Reduced

end Graph

open Midend.Graph

/-! ## Loads and stores -/

namespace LoadStore

variable {g g' : Graph} {summary : EffectSummary} {s s' : State} {k k' : Knowledge} {i : InstId} {inst : Inst}
  {throws : Bool} {st : State × Knowledge} {visited : List InstId} {t : DomTree} {b : BlockId}

/-- The loads and stores that the pass may come to remove. -/
def State.marked (s : State) : List InstId := s.removedLoads ++ s.redundant ++ s.candidates

/-- The pass has marked some of the instructions it visited, each of them once. -/
structure Marks (g : Graph) (visited : List InstId) (s : State) : Prop where
  visited : s.marked.Subperm visited
  removable : ∀ i ∈ s.marked, g.Removable i

/-- What is marked does not depend on the rest of the state. -/
theorem Marks.congr (h : Marks g visited s) (hs : s'.marked = s.marked) : Marks g visited s' :=
  ⟨hs ▸ h.visited, hs ▸ h.removable⟩

/-- Marks within some instructions are marks within more. -/
theorem Marks.mono (h : Marks g visited s) {more : List InstId} (hsub : visited.Subperm more) :
    Marks g more s :=
  ⟨h.visited.trans hsub, h.removable⟩

/-- Visiting an instruction marks it or nothing. -/
theorem Visited.marked (h : Visited g summary s k i inst throws st) (hinst : g.inst i = .ok inst) :
    st.1.marked = s.marked ∨ st.1.marked.Perm (i :: s.marked) ∧ g.Removable i := by
  cases h with
  | forward hload hloc =>
    refine .inr ⟨?_, removable_of_location? hinst (.inl hload) hloc⟩
    simp only [State.marked, List.append_assoc, List.singleton_append]
    exact List.perm_middle
  | redundant hstore hloc =>
    refine .inr ⟨?_, removable_of_location? hinst (.inr hstore) hloc⟩
    simp only [State.marked, List.append_assoc, List.singleton_append]
    rw [← List.append_assoc, ← List.append_assoc]
    exact List.perm_middle
  | store hstore hloc =>
    refine .inr ⟨?_, removable_of_location? hinst (.inr hstore) hloc⟩
    simp only [State.marked, State.keep, ← List.append_assoc]
    exact List.perm_append_singleton _ _
  | load | other => exact .inl rfl

/-- Visiting an instruction marks it at most. -/
theorem Marks.visit {next : Option InstId} (h : Marks g visited s)
    (hstep : visit g summary (s, k) i next = .ok (s', k')) : Marks g (visited ++ [i]) s' := by
  obtain ⟨inst, throws, hinst, -, hvisited⟩ := visit_eq_ok hstep
  have hbefore : (s.beforeThrow k throws).marked = s.marked := by
    cases throws <;> rfl
  rcases hvisited.marked hinst with heq | ⟨hperm, hr⟩
  · exact (h.congr (heq.trans hbefore)).mono (List.sublist_append_left _ _).subperm
  · rw [hbefore] at hperm
    refine ⟨(hperm.subperm.trans ((List.subperm_cons i).2 h.visited)).trans ?_, fun j hj => ?_⟩
    · exact (List.perm_append_singleton i visited).symm.subperm
    · rcases List.mem_cons.1 (hperm.mem_iff.1 hj) with rfl | hj
      · exact hr
      · exact h.removable j hj

/-- Visiting instructions in order marks some of them, each once. -/
theorem Marks.visitAll {is : List InstId} (h : Marks g visited s)
    (hstep : visitAll g summary (s, k) is = .ok (s', k')) : Marks g (visited ++ is) s' := by
  induction is generalizing s k visited with
  | nil =>
    cases hstep
    simpa using h
  | cons i is ih =>
    rw [LoadStore.visitAll, Checked.bind_eq_ok] at hstep
    obtain ⟨⟨s₁, k₁⟩, hvisit, hrest⟩ := hstep
    have hall := ih (h.visit hvisit) hrest
    rwa [List.append_assoc] at hall

/-- Visiting a block marks some of its instructions. -/
theorem Marks.visitBlock (h : Marks g visited s) (hstep : visitBlock g t summary s b = .ok s') :
    Marks g (visited ++ g.bodyOf b) s' := by
  simp only [LoadStore.visitBlock, Checked.bind_eq_ok, Checked.pure_eq_ok] at hstep
  obtain ⟨block, hblock, ⟨s₁, k₁⟩, hall, rfl⟩ := hstep
  obtain ⟨xs, hxs⟩ := enter_state g t summary s b
  have hentered : Marks g visited (enter g t summary s b).1 := h.congr (by rw [hxs]; rfl)
  have hsub : block.insts.Sublist (g.bodyOf b) := by
    rw [bodyOf_eq hblock]
    exact List.sublist_append_right _ _
  refine ((hentered.visitAll hall).mono ?_).congr ?_
  · exact ((List.Sublist.refl visited).append hsub).subperm
  · split <;> rfl

/-- Over all blocks, the pass marks instructions of the graph, each of them once. -/
theorem marks_of_visitBlocks {bs : List BlockId} (hs : s.marked = [])
    (h : bs.foldlM (LoadStore.visitBlock g t summary) s = .ok s') : Marks g (bs.flatMap g.bodyOf) s' := by
  refine Checked.foldlM_prefix (P := fun done s' => Marks g (done.flatMap g.bodyOf) s') h ?_ ?_
  · exact ⟨by rw [hs]; exact List.nil_subperm, by simp [hs]⟩
  · intro done b rest s₁ s₂ _ hmarks hstep
    rw [List.flatMap_append, List.flatMap_singleton]
    exact hmarks.visitBlock hstep

/-! ### What memory is known to hold -/

/-- What memory is known to hold are loads and what is read somewhere, and so is what replaces a load; that has
the type of the load. -/
structure Sourced (g : Graph) (s : State) (k : Knowledge) : Prop where
  known : ∀ e ∈ k, g.IsRead e.2.value ∨ g.IsLoaded e.2.value
  exits : ∀ b k, s.exit? b = some k → ∀ e ∈ k, g.IsRead e.2.value ∨ g.IsLoaded e.2.value
  substitutes : ∀ i v : InstId, s.substitutions.get i.index = some v →
    (g.IsRead v ∨ g.IsLoaded v) ∧ g.ty v = g.ty i

/-- Keeping stores changes nothing that is known. -/
theorem Sourced.keep (h : Sourced g s k) (xs : List InstId) : Sourced g (s.keep xs) k :=
  ⟨h.known, h.exits, h.substitutes⟩

/-- Forgetting keeps what is left sourced. -/
theorem Sourced.sub (h : Sourced g s k) (hsub : ∀ e ∈ k', e ∈ k) : Sourced g s k' :=
  ⟨fun e he => h.known e (hsub e he), h.exits, h.substitutes⟩

/-- Learning a value that is read or loaded keeps knowledge sourced. -/
theorem Sourced.insert {l : Location} {known : Known} (h : Sourced g s k)
    (hvalue : g.IsRead known.value ∨ g.IsLoaded known.value) : Sourced g s (k.insert l known) := by
  refine ⟨fun e he => ?_, h.exits, h.substitutes⟩
  rcases Knowledge.mem_insert he with rfl | ⟨he, -⟩
  · exact hvalue
  · exact h.known e he

/-- So is what a value resolves to, unless that is the value itself. -/
theorem Sourced.resolve (h : Sourced g s k) (v : InstId) : s.resolve v = v ∨
    (g.IsRead (s.resolve v) ∨ g.IsLoaded (s.resolve v)) ∧ g.ty (s.resolve v) = g.ty v := by
  refine State.resolveWithin_induction (P := fun x => x = v ∨ (g.IsRead x ∨ g.IsLoaded x) ∧ g.ty x = g.ty v)
    (.inl rfl) (fun x y hx hy => .inr ?_) _
  obtain ⟨hvalue, hty⟩ := h.substitutes x y hy
  rcases hx with rfl | ⟨-, hx⟩
  · exact ⟨hvalue, hty⟩
  · exact ⟨hvalue, hty.trans hx⟩

/-- Resolving a value that is read or loaded gives such a value. -/
theorem Sourced.resolve_of_held {v : InstId} (h : Sourced g s k) (hv : g.IsRead v ∨ g.IsLoaded v) :
    g.IsRead (s.resolve v) ∨ g.IsLoaded (s.resolve v) := by
  rcases h.resolve v with heq | ⟨hvalue, -⟩
  · rwa [heq]
  · exact hvalue

/-- Each way of visiting an instruction keeps knowledge sourced. -/
theorem Visited.sourced (h : Visited g summary s k i inst throws st) (hs : Sourced g s k)
    (hinst : g.inst i = .ok inst) (hi : i ∈ g.attached) : Sourced g st.1 st.2 := by
  cases h with
  | @forward l known hload hloc hknown hty =>
    refine ⟨hs.known, hs.exits, fun j v hv => ?_⟩
    have hvalue := hs.resolve_of_held (hs.known _ (Knowledge.mem_of_get? hknown))
    rw [Table.get_set] at hv
    split at hv
    · next hj =>
      cases hv
      obtain rfl : j = i := InstId.index_inj.1 hj
      exact ⟨hvalue, hty⟩
    · exact hs.substitutes j v hv
  | load hload => exact (hs.keep _).insert (.inr ⟨hi, inst, hinst, hload⟩)
  | redundant => exact ⟨hs.known, hs.exits, hs.substitutes⟩
  | store hstore hloc hoperand =>
    have hread : g.IsRead _ := ⟨i, hi, by rw [operandsOf_eq hinst]; exact List.mem_of_getLast? hoperand⟩
    refine Sourced.insert ⟨fun e he => hs.known e (Knowledge.mem_forget.1 he).1, hs.exits, hs.substitutes⟩ ?_
    exact hs.resolve_of_held (.inl hread)
  | other => exact (hs.keep _).sub fun e he => (Knowledge.mem_forget.1 he).1

/-- Visiting an instruction keeps knowledge sourced. -/
theorem Sourced.visit {next : Option InstId} (h : Sourced g s k) (hi : i ∈ g.attached)
    (hstep : visit g summary (s, k) i next = .ok (s', k')) : Sourced g s' k' := by
  obtain ⟨inst, throws, hinst, -, hvisited⟩ := visit_eq_ok hstep
  refine hvisited.sourced ?_ hinst hi
  cases throws with
  | false => exact h
  | true => exact h.keep _

/-- Visiting instructions in order keeps knowledge sourced. -/
theorem Sourced.visitAll {is : List InstId} (h : Sourced g s k) (his : ∀ i ∈ is, i ∈ g.attached)
    (hstep : visitAll g summary (s, k) is = .ok (s', k')) : Sourced g s' k' := by
  induction is generalizing s k with
  | nil =>
    cases hstep
    exact h
  | cons i is ih =>
    rw [LoadStore.visitAll, Checked.bind_eq_ok] at hstep
    obtain ⟨⟨s₁, k₁⟩, hvisit, hrest⟩ := hstep
    rw [List.forall_mem_cons] at his
    exact ih (h.visit his.1 hvisit) his.2 hrest

/-- What is known where a block is entered is sourced. -/
theorem Sourced.enter (h : Sourced g s []) : Sourced g (enter g t summary s b).1 (enter g t summary s b).2 := by
  obtain ⟨xs, hxs⟩ := enter_state g t summary s b
  rw [hxs]
  refine ⟨fun ⟨l, known⟩ he => ?_, h.exits, h.substitutes⟩
  obtain ⟨hne, hpreds, -⟩ := mem_enter he
  obtain ⟨p, hp⟩ := List.exists_mem_of_ne_nil _ hne
  obtain ⟨k, x, hexit, hx, hvalue, -⟩ := hpreds p hp
  exact hvalue ▸ h.exits p k hexit _ hx

/-- Visiting a block keeps knowledge sourced. -/
theorem Sourced.visitBlock (h : Sourced g s []) (hstep : visitBlock g t summary s b = .ok s') :
    Sourced g s' [] := by
  simp only [LoadStore.visitBlock, Checked.bind_eq_ok, Checked.pure_eq_ok] at hstep
  obtain ⟨block, hblock, ⟨s₁, k₁⟩, hall, rfl⟩ := hstep
  have hdone := h.enter.visitAll
    (fun i hi => mem_attached.2 ⟨b, block, hblock, List.mem_append_right _ hi⟩) hall
  refine ⟨fun e he => absurd he List.not_mem_nil, fun c k hk => ?_, ?_⟩
  · rw [State.exit?, Table.get_set] at hk
    split at hk
    · cases hk
      exact hdone.known
    · refine hdone.exits c k ?_
      split at hk <;> exact hk
  · intro i v hv
    refine hdone.substitutes i v ?_
    split at hv <;> exact hv

/-- Where nothing is known, everything known is sourced. -/
theorem sourced_start (hexits : ∀ b, s.exit? b = none)
    (hsubstitutions : ∀ i : InstId, s.substitutions.get i.index = none) : Sourced g s [] := by
  refine ⟨fun e he => absurd he List.not_mem_nil, fun b k hk => ?_, fun i v hv => ?_⟩
  · rw [hexits] at hk
    cases hk
  · rw [hsubstitutions] at hv
    cases hv

/-- Over all blocks, what replaces a load is a load or is read somewhere. -/
theorem sourced_of_visitBlocks {bs : List BlockId} (hs : Sourced g s [])
    (h : bs.foldlM (LoadStore.visitBlock g t summary) s = .ok s') : Sourced g s' [] :=
  Checked.foldlM_prefix (P := fun _ s' => Sourced g s' []) h hs fun _ _ _ _ _ _ hs hstep => hs.visitBlock hstep

/-! ### What is removed -/

/-- What is removed was marked. -/
theorem removed_sublist_marked (s : State) : (s.removedLoads ++ removableStores s).Sublist s.marked := by
  rw [removableStores, ← List.append_assoc]
  exact (List.Sublist.refl _).append List.filter_sublist

/-- No instruction is removed twice. -/
theorem Marks.nodup_removed {bs : List BlockId} (hs : Marks g (bs.flatMap g.bodyOf) s) (hg : g.Intact)
    (hbs : bs.Nodup) : (s.removedLoads ++ removableStores s).Nodup := by
  obtain ⟨l, hperm, hl⟩ := hs.visited
  have hnodup : s.marked.Nodup := hperm.nodup_iff.1 ((hg.nodup_flatMap_bodyOf hbs).sublist hl)
  exact hnodup.sublist (removed_sublist_marked s)

/-- What is removed was listed. -/
theorem Marks.mem_attached {bs : List BlockId} (hs : Marks g (bs.flatMap g.bodyOf) s)
    (hi : i ∈ s.removedLoads ++ removableStores s) : i ∈ g.attached := by
  obtain ⟨b, -, hi⟩ := List.mem_flatMap.1 (hs.visited.subset ((removed_sublist_marked s).subset hi))
  obtain ⟨block, hblock, hi⟩ := mem_bodyOf.1 hi
  exact Graph.mem_attached.2 ⟨b, block, hblock, hi⟩

/-- What the pass removes is what it counts. -/
theorem reduced_applyTo {bs : List BlockId} (hg : g.Intact) (hbs : bs.Nodup)
    (hs : Marks g (bs.flatMap g.bodyOf) s)
    (hsourced : Sourced g s []) (h : applyTo s g = .ok g') :
    Reduced g (s.removedLoads ++ removableStores s) g' := by
  have hnodup := hs.nodup_removed hg hbs
  have hremovable : ∀ i ∈ s.removedLoads ++ removableStores s, g.Removable i := fun i hi =>
    hs.removable i ((removed_sublist_marked s).subset hi)
  simp only [applyTo, Checked.bind_eq_ok] at h
  obtain ⟨g₂, hloads, hstores⟩ := h
  have hmoved : Reduced g [] (s.removedLoads.foldl (fun g load => g.replaceUses load (s.resolve load)) g) := by
    refine List.foldlRecOn _ _ hg.reduced fun g₁ h₁ load _ => ?_
    rcases hsourced.resolve load with heq | ⟨hread | hload, hty⟩
    · rw [heq, Graph.replaceUses, if_pos rfl]
      exact h₁
    · exact h₁.replaceUses (.inl hread)
    · exact h₁.replaceUses (.inr ⟨hload, hty⟩)
  have hremoved := hmoved.removeInsts (hnodup.sublist (List.sublist_append_left _ _))
    (fun i hi => hs.mem_attached (List.mem_append_left _ hi))
    (fun i hi => hremovable i (List.mem_append_left _ hi)) hloads
  exact hremoved.removeInsts hnodup (fun i hi => hs.mem_attached (List.mem_append_right _ hi))
    (fun i hi => hremovable i (List.mem_append_right _ hi)) hstores

end LoadStore

/-! ## Null checks -/

namespace NullCheck

variable {g g' : Graph} {t : DomTree} {f : NullFacts} {pairs : List (InstId × InstId)}

/-- The checks that are found are checks of the graph, each found once and with its operand. -/
theorem redundant_eq_ok (h : redundant g t f = .ok pairs) : (pairs.map Prod.fst).Sublist g.attached ∧
    ∀ c o, (c, o) ∈ pairs → ∃ inst, g.inst c = .ok inst ∧ inst.kind = .nullCheck ∧
      inst.inputs[0]? = some o := by
  obtain ⟨q, hq, rfl⟩ := Checked.filterMapM_eq_ok.1 h
  have hspec : ∀ c ∈ g.attached, ∀ c' o, q c = some (c', o) →
      c' = c ∧ ∃ inst, g.inst c = .ok inst ∧ inst.kind = .nullCheck ∧ inst.inputs[0]? = some o := by
    intro c hc c' o hp
    have hstep := hq c hc
    rw [hp, Checked.bind_eq_ok] at hstep
    obtain ⟨kind, hkind, hstep⟩ := hstep
    obtain ⟨inst, hinst, rfl⟩ := kind_eq_ok.1 hkind
    split at hstep
    · next hcheck =>
      simp only [Checked.bind_eq_ok, Checked.pure_eq_ok, input_eq_ok] at hstep
      obtain ⟨o', ⟨inst', hinst', ho⟩, r, -, hpair⟩ := hstep
      obtain rfl : inst = inst' := Except.ok.inj (hinst.symm.trans hinst')
      cases r with
      | false => cases hpair
      | true =>
        cases hpair
        refine ⟨rfl, inst, hinst, ?_, ho⟩
        cases hk : inst.kind <;> simp_all [Kind.isNullCheck]
    · simp at hstep
  refine ⟨?_, fun c o hc => ?_⟩
  · rw [map_fst_filterMap fun c hc c' o hp => (hspec c hc c' o hp).1]
    exact List.filter_sublist
  · obtain ⟨c', hc', hp⟩ := List.mem_filterMap.1 hc
    obtain ⟨rfl, hcheck⟩ := hspec c' hc' c o hp
    exact hcheck

/-- What is removed are the checks that were found. -/
theorem reduced_removeChecks (hg : g.Intact) (hpairs : redundant g t f = .ok pairs)
    (h : pairs.foldlM removeCheck g = .ok g') : Reduced g (pairs.map Prod.fst) g' := by
  obtain ⟨hsub, hchecks⟩ := redundant_eq_ok hpairs
  have hnodup := hg.attached_nodup.sublist hsub
  refine Checked.foldlM_prefix (P := fun done g₁ => Reduced g (done.map Prod.fst) g₁) h hg.reduced ?_
  rintro done ⟨c, o⟩ rest g₁ g₂ hsplit h₁ hstep
  obtain ⟨inst, hinst, hcheck, ho⟩ := hchecks c o (by simp [hsplit])
  have hatt : c ∈ g.attached := hsub.subset (List.mem_map.2 ⟨(c, o), by simp [hsplit], rfl⟩)
  have hnew : c ∉ done.map Prod.fst := by
    rw [hsplit, List.map_append] at hnodup
    exact fun hmem => List.disjoint_of_nodup_append hnodup hmem List.mem_cons_self
  have hread : g.IsRead o := ⟨c, hatt, by rw [operandsOf_eq hinst]; exact List.mem_of_getElem? ho⟩
  have hmoved : Reduced g (done.map Prod.fst) (g₁.replaceUses c o) := h₁.replaceUses (.inl hread)
  rw [List.map_append]
  exact hmoved.removeInst (hmoved.mem_attached.2 ⟨hatt, hnew⟩) (.check hinst hcheck) hstep

end NullCheck

/-! ## Dead code -/

namespace DeadCode

variable {g g' g₁ g₂ : Graph} {gone : List InstId} {i : InstId} {b : BlockId}

/-- What the pass finds dead is used by nothing and does nothing but come to a value. -/
theorem isDead_eq_true (h : isDead g i = .ok true) : g.uses i = [] ∧ ∃ inst, g.inst i = .ok inst ∧
    inst.kind.isTerminator = false ∧ inst.kind.isParam = false ∧ inst.kind.canThrow = false ∧
    inst.kind.isStore = false ∧ g.isOpen inst.kind = false := by
  simp only [isDead, Checked.bind_eq_ok, kind_eq_ok] at h
  obtain ⟨_, ⟨inst, hinst, rfl⟩, h⟩ := h
  split at h
  · simp at h
  · next hcond =>
    simp only [hasUses, Bool.or_eq_true, not_or, Bool.not_eq_true', Bool.not_eq_true, Bool.not_eq_false,
      List.isEmpty_iff] at hcond
    simp only [Checked.bind_eq_ok, Checked.pure_eq_ok, Bool.not_eq_true'] at h
    obtain ⟨e, he, hwrite⟩ := h
    rw [anyWrite_effectsOf hinst he, Bool.or_eq_false_iff] at hwrite
    exact ⟨hcond.1.2, inst, hinst, hcond.1.1.1, hcond.1.1.2, hcond.2, hwrite⟩

/-- What is found dead may be removed. -/
theorem removable_of_isDead (h : isDead g i = .ok true) : g.Removable i := by
  obtain ⟨-, inst, hinst, hterminator, hparam, hthrow, hstore, hopen⟩ := isDead_eq_true h
  exact .idle hinst hterminator hparam hthrow hstore hopen

/-- A graph came from another by taking out so many instructions, and by nothing else. -/
def Swept (g g' : Graph) (count : Nat) : Prop :=
  ∃ gone, Reduced g gone g' ∧ gone.length = count ∧ (gone = [] → g' = g)

/-- One sweep after another counts both. -/
theorem Swept.trans {m n : Nat} (h : Swept g g₁ m) (h' : Swept g₁ g₂ n) : Swept g g₂ (m + n) := by
  obtain ⟨gone, hreduced, rfl, hsame⟩ := h
  obtain ⟨gone', hreduced', rfl, hsame'⟩ := h'
  refine ⟨gone ++ gone', hreduced.trans hreduced', List.length_append, fun hnil => ?_⟩
  rw [List.append_eq_nil_iff] at hnil
  rw [hsame' hnil.2, hsame hnil.1]

/-- No sweep takes out nothing. -/
theorem swept_self (hg : g.Intact) : Swept g g 0 := ⟨[], hg.reduced, rfl, fun _ => rfl⟩

/-- The books are in order after sweeps. -/
theorem Swept.intact {n : Nat} (h : Swept g g₁ n) : g₁.Intact := by
  obtain ⟨gone, hreduced, -⟩ := h
  exact hreduced.intact

/-- An instruction is removed and counted, or neither. -/
theorem reduced_removeIfDead {n n' : Nat} (h : Reduced g gone g₁) (hi : i ∈ g₁.attached)
    (hstep : removeIfDead (g₁, n) i = .ok (g₂, n')) :
    (g₂ = g₁ ∧ n' = n) ∨ Reduced g (gone ++ [i]) g₂ ∧ n' = n + 1 := by
  simp only [removeIfDead, Checked.bind_eq_ok] at hstep
  obtain ⟨dead, hdead, hstep⟩ := hstep
  cases dead with
  | false =>
    simp only [Bool.false_eq_true, if_false, Checked.pure_eq_ok, Prod.mk.injEq] at hstep
    exact .inl ⟨hstep.1.symm, hstep.2.symm⟩
  | true =>
    simp only [if_true, Checked.bind_eq_ok, Checked.pure_eq_ok, Prod.mk.injEq] at hstep
    obtain ⟨g₃, hremove, rfl, rfl⟩ := hstep
    exact .inr ⟨h.removeInst hi (h.removable_left hi (removable_of_isDead hdead)) hremove, rfl⟩

/-- One block. -/
theorem swept_sweepBlock {n n' : Nat} (hg : g.Intact) (hstep : sweepBlock (g, n) b = .ok (g', n')) :
    ∃ count, Swept g g' count ∧ n' = n + count := by
  simp only [sweepBlock, Checked.bind_eq_ok] at hstep
  obtain ⟨block, hblock, hstep⟩ := hstep
  have hnodup : block.body.reverse.Nodup := by
    rw [List.nodup_reverse, ← bodyOf_eq hblock]
    exact hg.body_nodup b
  -- what is still to come has not been removed
  have key := Checked.foldlM_prefix (P := fun done (st : Graph × Nat) =>
      ∃ gone, Reduced g gone st.1 ∧ gone ⊆ done ∧ st.2 = n + gone.length ∧ (gone = [] → st.1 = g)) hstep
    ⟨[], hg.reduced, List.nil_subset _, rfl, fun _ => rfl⟩ ?_
  · obtain ⟨gone, hreduced, -, hn, hsame⟩ := key
    exact ⟨gone.length, ⟨gone, hreduced, rfl, hsame⟩, hn⟩
  rintro done i rest ⟨g₁, n₁⟩ ⟨g₂, n₂⟩ hsplit ⟨gone, hreduced, hdone, hn, hsame⟩ hone
  have hatt : i ∈ g₁.attached := by
    refine hreduced.mem_attached.2 ⟨mem_attached.2 ⟨b, block, hblock, ?_⟩, fun hmem => ?_⟩
    · rw [← List.mem_reverse, hsplit]
      simp
    · rw [hsplit] at hnodup
      exact List.disjoint_of_nodup_append hnodup (hdone hmem) List.mem_cons_self
  rcases reduced_removeIfDead hreduced hatt hone with ⟨rfl, rfl⟩ | ⟨hreduced', rfl⟩
  · exact ⟨gone, hreduced, fun j hj => List.mem_append_left _ (hdone hj), hn, hsame⟩
  · refine ⟨gone ++ [i], hreduced', List.append_subset.2 ⟨fun j hj => ?_, ?_⟩, ?_, by simp⟩
    · exact List.mem_append_left _ (hdone hj)
    · exact List.subset_append_right _ _
    · rw [List.length_append, ← Nat.add_assoc, ← hn]
      rfl

/-- All sweeps. -/
theorem swept_sweepAll {blocks : List BlockId} {left done removed : Nat} {outcome : Outcome} (hg : g.Intact)
    (hstep : sweepAll blocks left done removed g = .ok (g', outcome)) :
    ∃ count, Swept g g' count ∧ outcome.removed = removed + count := by
  induction left generalizing done removed g with
  | zero =>
    obtain ⟨rfl, rfl⟩ := Prod.mk.inj (Except.ok.inj hstep)
    exact ⟨0, swept_self hg, rfl⟩
  | succ left ih =>
    simp only [sweepAll, Checked.bind_eq_ok] at hstep
    obtain ⟨⟨g₁, n⟩, hsweep, hstep⟩ := hstep
    have hone : Swept g g₁ n := by
      refine Checked.foldlM_prefix (P := fun _ (st : Graph × Nat) => Swept g st.1 st.2) hsweep
        (swept_self hg) ?_
      rintro - b - ⟨g₂, n₂⟩ ⟨g₃, n₃⟩ - hswept hblock
      obtain ⟨count, hcount, rfl⟩ := swept_sweepBlock hswept.intact hblock
      exact hswept.trans hcount
    split at hstep
    · next hzero =>
      obtain ⟨rfl, rfl⟩ := Prod.mk.inj (Except.ok.inj hstep)
      obtain rfl : n = 0 := hzero
      exact ⟨0, hone, rfl⟩
    · obtain ⟨count, hcount, houtcome⟩ := ih hone.intact hstep
      exact ⟨n + count, hone.trans hcount, houtcome.trans (Nat.add_assoc _ _ _)⟩

/-- What the pass removes is what it counts. -/
theorem swept_eliminate {maxSweeps : Nat} {outcome : Outcome} (hg : g.Intact)
    (h : eliminate g maxSweeps = .ok (g', outcome)) : Swept g g' outcome.removed := by
  simp only [eliminate, Checked.bind_eq_ok] at h
  obtain ⟨t, -, hsweeps⟩ := h
  obtain ⟨count, hcount, hremoved⟩ := swept_sweepAll hg hsweeps
  rw [hremoved, Nat.zero_add]
  exact hcount

end DeadCode

end Midend
