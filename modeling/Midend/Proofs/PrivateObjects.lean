import Midend.Proofs.DeadStores
import Midend.Proofs.Joining
import Midend.Proofs.LoadReplacement

/-!
# Private objects in straight-line code

In a method of one block, load/store elimination leaves nothing of the fields of an object that never leaves
the method: every store to them goes, and of the loads at most the first one of each field stays.

## Shape of the argument

A pending store is given up, and what is known of a location forgotten, only by an instruction that may see
the location: through an alias, as an operand, at the end of the method, or because it may throw.  None of
these is the case for the fields of an object that only its own accesses mention.  So what is known of its
fields is made by its own accesses, one after the other (`Passes`), and once a field was accessed it stays
known to the end of the block.
-/

namespace Midend

namespace Graph

variable {g : Graph} {r i : InstId} {inst : Inst} {f : FieldId}

/-- The field of an object that an instruction reads. -/
def readField? (g : Graph) (r i : InstId) : Option FieldId :=
  match g.kind? i with
  | some (.instanceGet f) => if (g.operandsOf i)[0]? = some r then some f else none
  | _ => none

/-- The field of an object that an instruction writes. -/
def writtenField? (g : Graph) (r i : InstId) : Option FieldId :=
  match g.kind? i with
  | some (.instanceSet f) => if (g.operandsOf i)[0]? = some r then some f else none
  | _ => none

/-- An instruction accesses a field of an object. -/
def Touches (g : Graph) (r : InstId) (f : FieldId) (i : InstId) : Prop :=
  g.readField? r i = some f ∨ g.writtenField? r i = some f

/-- An instruction reads a field of the object when it is a load of the field through the object. -/
theorem readField?_eq_some (hinst : g.inst i = .ok inst) :
    g.readField? r i = some f ↔ inst.kind = .instanceGet f ∧ inst.inputs[0]? = some r := by
  rw [readField?, kind?_eq hinst, operandsOf_eq hinst]
  cases inst.kind <;> simp [and_comm]

/-- An instruction writes a field of the object when it is a store to the field through the object. -/
theorem writtenField?_eq_some (hinst : g.inst i = .ok inst) :
    g.writtenField? r i = some f ↔ inst.kind = .instanceSet f ∧ inst.inputs[0]? = some r := by
  rw [writtenField?, kind?_eq hinst, operandsOf_eq hinst]
  cases inst.kind <;> simp [and_comm]

/-- What touches a field of the object is an access to the field through the object. -/
theorem Touches.exists_inst (h : g.Touches r f i) : ∃ inst, g.inst i = .ok inst ∧
    (inst.kind = .instanceGet f ∨ inst.kind = .instanceSet f) ∧ inst.inputs[0]? = some r := by
  cases hslot : g.insts[i.index]? with
  | none => simp [Touches, readField?, writtenField?, kind?, hslot] at h
  | some inst =>
    have hinst := inst_eq_ok.2 hslot
    rw [Touches, readField?_eq_some hinst, writtenField?_eq_some hinst, ← or_and_right] at h
    exact ⟨inst, hinst, h⟩

/-- An instruction touches one field at most. -/
theorem Touches.unique {f' : FieldId} (h : g.Touches r f i) (h' : g.Touches r f' i) : f = f' := by
  obtain ⟨inst, hinst, hkind, -⟩ := h.exists_inst
  obtain ⟨inst', hinst', hkind', -⟩ := h'.exists_inst
  obtain rfl : inst = inst' := Except.ok.inj (hinst.symm.trans hinst')
  rcases hkind with hk | hk <;> rcases hkind' with hk' | hk' <;> rw [hk] at hk' <;> cases hk' <;> rfl

/-- A load writes nothing. -/
theorem writtenField?_of_read (h : g.readField? r i = some f) : g.writtenField? r i = none := by
  rw [Option.eq_none_iff_forall_ne_some]
  intro f' h'
  obtain ⟨inst, hinst, -⟩ := Touches.exists_inst (.inl h)
  have hkind := ((readField?_eq_some hinst).1 h).1
  rw [((writtenField?_eq_some hinst).1 h').1] at hkind
  cases hkind

/-- Field accesses have the types of their fields: a load its own type, a store that of the value it stores. -/
def FieldsTyped (g : Graph) : Prop :=
  ∀ i ∈ g.attached, ∀ inst ∈ g.insts[i.index]?, ∀ f ∈ inst.kind.field?,
    (inst.kind.isLoad = true → inst.ty = g.fieldTy f) ∧
    (inst.kind.isStore = true → ∀ v ∈ inst.inputs.getLast?, g.ty v = .ok (g.fieldTy f))

instance (g : Graph) : Decidable g.FieldsTyped :=
  inferInstanceAs (Decidable (∀ i ∈ g.attached, ∀ inst ∈ g.insts[i.index]?, ∀ f ∈ inst.kind.field?,
    (inst.kind.isLoad = true → inst.ty = g.fieldTy f) ∧
    (inst.kind.isStore = true → ∀ v ∈ inst.inputs.getLast?, g.ty v = .ok (g.fieldTy f))))

/-- A load of a field has the type of the field. -/
theorem FieldsTyped.ty_of_read (ht : g.FieldsTyped) (hi : i ∈ g.attached) (h : g.readField? r i = some f) :
    g.ty i = .ok (g.fieldTy f) := by
  obtain ⟨inst, hinst, -⟩ := Touches.exists_inst (.inl h)
  have hkind := ((readField?_eq_some hinst).1 h).1
  have hty := (ht i hi inst (inst_eq_ok.1 hinst) f (by rw [hkind]; rfl)).1 (by rw [hkind]; rfl)
  exact ty_eq_ok.2 ⟨inst, hinst, hty⟩

/-- A store to a field stores a value of the type of the field. -/
theorem FieldsTyped.ty_of_written {v : InstId} (ht : g.FieldsTyped) (hi : i ∈ g.attached)
    (hinst : g.inst i = .ok inst)
    (h : g.writtenField? r i = some f) (hv : inst.inputs.getLast? = some v) : g.ty v = .ok (g.fieldTy f) := by
  have hkind := ((writtenField?_eq_some hinst).1 h).1
  exact (ht i hi inst (inst_eq_ok.1 hinst) f (by rw [hkind]; rfl)).2 (by rw [hkind]; rfl) v hv

/-- A new object that never leaves the method and has one name in it, whose fields are accessed by plain
accesses only, and which is not written to right before a monitor is released. -/
structure Secluded (g : Graph) (r : InstId) : Prop where
  attached : r ∈ g.attached
  created : ∃ name, g.kind? r = some (.newInstance name)
  isPrivate : (g.escapeOf r).isPrivate = true
  plain : ∀ i ∈ g.attached, (∀ f ∈ g.readField? r i, g.isVolatile f = false) ∧
    ∀ f ∈ g.writtenField? r i, g.isVolatile f = false
  unreleased : ∀ block ∈ g.blocks.toList, ∀ p ∈ block.insts.zip block.insts.tail,
    (g.writtenField? r p.1).isSome = true → g.kind? p.2 ≠ some .monitorExit

end Graph

namespace LoadStore

open Midend.Graph

variable {g : Graph} {t : DomTree} {summary : EffectSummary} {s s' : State} {k k' : Knowledge} {b : BlockId}
  {block : Block} {r i x S : InstId} {inst : Inst} {f : FieldId} {l : Location} {next : Option InstId}
  {st : State × Knowledge} {throws : Bool} {done : List InstId}

/-- The place of a field of an object. -/
def fieldOf (r : InstId) (f : FieldId) : Location := ⟨some r, .instanceField f⟩

/-- Different fields are different locations. -/
theorem fieldOf_inj {f' : FieldId} : fieldOf r f = fieldOf r f' ↔ f = f' := by simp [fieldOf]

/-- A block of the graph is one of its slots. -/
theorem mem_blocks_of_block (hb : g.block b = .ok block) : block ∈ g.blocks.toList :=
  Array.mem_toList_iff.2 (Array.mem_of_getElem? (block_eq_ok.1 hb))

/-! ## What may see the object -/

section Seclusion

variable (hw : g.WellFormed) (hg : g.Consistent) (hl : g.Layout) (hr : g.Secluded r)

include hr in
/-- The table of escapes has the right entry for the object. -/
theorem escapesOf_secluded : (escapesOf g).get r.index = g.escapeOf r := by
  rw [escapesOf, Table.get_foldl_set InstId.index_injective g.escapeOf, if_pos hr.attached]

include hr in
/-- The object is private. -/
theorem isPrivate_secluded : ((escapesOf g).get r.index).isPrivate = true := by
  rw [escapesOf_secluded hr]
  exact hr.isPrivate

include hr in
/-- Nothing is to be looked through before the object. -/
theorem unchecked_secluded : g.unchecked r = .ok r := by
  obtain ⟨name, hkind⟩ := hr.created
  obtain ⟨rinst, hrinst, hkind⟩ := Option.map_eq_some_iff.1 hkind
  have hkind' : g.kind r = .ok (.newInstance name) := kind_eq_ok.2 ⟨rinst, inst_eq_ok.2 hrinst, hkind⟩
  rw [unchecked, uncheckedWithin, hkind']
  rfl

include hw hg hl hr in
/-- No null check stands between the object and its accesses. -/
theorem eq_of_unchecked {n : Nat} (hb : g.Reachable b) (hx : g.Settled b n x) (h : g.unchecked x = .ok r) :
    x = r := by
  have hchain : g.Settled b n r ∧ (r = x ∨ ∃ c cinst, c ∈ g.attached ∧ g.inst c = .ok cinst ∧
      cinst.kind = .nullCheck ∧ cinst.inputs[0]? = some r) := by
    refine unchecked_induction (P := fun z => g.Settled b n z ∧ (z = x ∨ ∃ c cinst, c ∈ g.attached ∧
      g.inst c = .ok cinst ∧ cinst.kind = .nullCheck ∧ cinst.inputs[0]? = some z)) h ⟨hx, .inl rfl⟩ ?_
    rintro z zinst z' ⟨hset, -⟩ hzinst hkind hz'
    obtain ⟨d, m, hat, -⟩ := hset.exists_at hb
    exact ⟨hw.settled_checked hg hl.furnished hb hset hzinst hkind hz',
      .inr ⟨z, zinst, hat.mem_attached, hzinst, hkind, hz'⟩⟩
  rcases hchain.2 with heq | ⟨c, cinst, hc, hcinst, hkind, hread⟩
  · exact heq.symm
  · have hfate := fate_of_isPrivate hw (isPrivate_secluded hr) hc hcinst hread
    rw [hkind] at hfate
    cases hfate

include hr in
/-- An access to the object is at the place of its field. -/
theorem location?_of_touches (hf : g.FieldsDeclared) (hi : i ∈ g.attached) (h : g.Touches r f i) :
    g.location? i = .ok (some (fieldOf r f)) := by
  obtain ⟨inst, hinst, hkind, hread⟩ := h.exists_inst
  have hvolatile : g.isVolatile f = false :=
    h.elim ((hr.plain i hi).1 f) ((hr.plain i hi).2 f)
  have hnamed : inst.kind.field? = some f := by rcases hkind with hk | hk <;> rw [hk] <;> rfl
  obtain ⟨field, hfield⟩ := hf.exists_field hi hinst hnamed
  have hplain : field.isVolatile = false := by
    rw [isVolatile, Checked.ofOption_eq_ok.1 hfield] at hvolatile
    exact hvolatile
  have hobject : (do return some (← g.unchecked (← g.input i 0)) : Checked (Option InstId)) = .ok (some r) := by
    rw [input_eq_ok.2 ⟨inst, hinst, hread⟩]
    show (do return some (← g.unchecked r) : Checked (Option InstId)) = _
    rw [unchecked_secluded hr]
    rfl
  have hlocation : g.fieldLocation? f (do return some (← g.unchecked (← g.input i 0))) .instanceField =
      .ok (some (fieldOf r f)) := by
    rw [fieldLocation?, hfield, hobject]
    show (if field.isVolatile = true then _ else _) = _
    rw [hplain]
    rfl
  rw [location?, kind_eq_ok.2 ⟨inst, hinst, rfl⟩]
  rcases hkind with hk | hk <;> rw [hk] <;> exact hlocation

include hr in
/-- What a store to the object is pending at is the place of its field. -/
theorem eq_fieldOf_of_written (h : g.writtenField? r S = some f) (hloc : g.location? S = .ok (some l)) :
    l = fieldOf r f := by
  obtain ⟨inst, hinst, -⟩ := Touches.exists_inst (.inr h)
  obtain ⟨hkind, hread⟩ := (writtenField?_eq_some hinst).1 h
  cases location?_eq_some hinst hloc with
  | @field f' y r' hk hvol hy hr' =>
    obtain rfl : r = y := Option.some.inj (hread.symm.trans hy)
    obtain rfl : r = r' := Except.ok.inj ((unchecked_secluded hr).symm.trans hr')
    rw [hkind] at hk
    rcases hk with hk | hk <;> cases hk
    rfl
  | static hk => rcases hk with hk | hk <;> rw [hkind] at hk <;> cases hk
  | element hk => rcases hk with ⟨hk, -⟩ | ⟨hk, -⟩ <;> rw [hkind] at hk <;> cases hk

include hw hg hl hr in
/-- What is at the place of a field of the object is an access to it. -/
theorem touches_of_location? {n : Nat} (hreach : g.Reachable b) (hb : g.block b = .ok block)
    (hi : block.insts[n]? = some i) (hinst : g.inst i = .ok inst)
    (hloc : g.location? i = .ok (some (fieldOf r f))) :
    (inst.kind.isLoad = true → g.readField? r i = some f) ∧
      (inst.kind.isStore = true → g.writtenField? r i = some f) := by
  cases location?_eq_some hinst hloc with
  | @field _ y _ hk hvol hy hr' =>
    obtain rfl := eq_of_unchecked hw hg hl hr hreach (hw.settled_operand hg hreach hb hi hinst hy) hr'
    rcases hk with hk | hk
    · exact ⟨fun _ => (readField?_eq_some hinst).2 ⟨hk, hy⟩, by simp [hk, Kind.isStore]⟩
    · exact ⟨by simp [hk, Kind.isLoad], fun _ => (writtenField?_eq_some hinst).2 ⟨hk, hy⟩⟩

include hr in
/-- An access to the object does not throw. -/
theorem mayThrow_of_touches (h : g.Touches r f i) : mayThrow g k i = .ok false := by
  obtain ⟨inst, hinst, hkind, hread⟩ := h.exists_inst
  obtain ⟨name, hcreated⟩ := hr.created
  obtain ⟨rinst, hrinst, hcreated⟩ := Option.map_eq_some_iff.1 hcreated
  have hnonnull : isKnownNonNull g k r = .ok true := by
    rw [isKnownNonNull, kind_eq_ok.2 ⟨rinst, inst_eq_ok.2 hrinst, hcreated⟩]
    rfl
  have hobject : (do return !(← isKnownNonNull g k (← g.unchecked (← g.input i 0))) : Checked Bool) =
      .ok false := by
    rw [input_eq_ok.2 ⟨inst, hinst, hread⟩]
    show (do return !(← isKnownNonNull g k (← g.unchecked r)) : Checked Bool) = _
    rw [unchecked_secluded hr]
    show (do return !(← isKnownNonNull g k r) : Checked Bool) = _
    rw [hnonnull]
    rfl
  rw [mayThrow, kind_eq_ok.2 ⟨inst, hinst, rfl⟩]
  rcases hkind with hk | hk <;> rw [hk] <;> exact hobject

include hr in
/-- No monitor is released right after a store to the object. -/
theorem not_released_after {n : Nat} (hb : g.block b = .ok block) (hi : block.insts[n]? = some i)
    (h : g.writtenField? r i = some f) :
    (block.insts[n + 1]?.any fun j => decide (g.kind? j = some .monitorExit)) = false := by
  rw [Option.any_eq_false]
  intro j hj
  rw [decide_eq_false_iff_not]
  have hpair : (i, j) ∈ block.insts.zip block.insts.tail := by
    refine List.mem_of_getElem? (List.getElem?_zip_eq_some.2 ⟨hi, ?_⟩)
    rw [List.getElem?_tail]
    exact hj
  exact hr.unreleased block (mem_blocks_of_block hb) (i, j) hpair (by rw [h]; rfl)

include hw hl hr in
/-- What is handed the object and is no plain access has no effect on memory. -/
theorem effectsOf_of_operand (hf : g.FieldsDeclared) (hi : i ∈ g.attached) (hinst : g.inst i = .ok inst)
    (hloc : g.location? i = .ok none) (hread : r ∈ inst.inputs) : g.effectsOf i = .ok .none := by
  obtain ⟨m, hm⟩ := List.mem_iff_getElem?.1 hread
  have hlt := (List.getElem?_eq_some_iff.1 hm).1
  have hfate := fate_of_isPrivate hw (isPrivate_secluded hr) hi hinst hm
  have harity := fun n => hl.arity i inst n hi hinst
  have hfirst : ∀ {f}, inst.kind = .instanceGet f ∨ inst.kind = .instanceSet f → m ≠ 0 := by
    rintro f hk rfl
    have htouches : g.Touches r f i := by
      rw [Touches, readField?_eq_some hinst, writtenField?_eq_some hinst, ← or_and_right]
      exact ⟨hk, hm⟩
    rw [location?_of_touches hr hf hi htouches] at hloc
    cases hloc
  have hkind := kind_eq_ok.2 ⟨inst, hinst, rfl⟩
  rw [effectsOf, hkind]
  cases hk : inst.kind with
  | invoke | unknown | monitorEnter | monitorExit | staticSet =>
    rw [hk] at hfate
    cases hfate
  | instanceGet f =>
    have hone := harity 1 (by rw [hk]; rfl)
    exact absurd (by omega) (hfirst (.inl hk))
  | instanceSet f =>
    -- the second operand of a store is what it stores, and so is shared
    have htwo := harity 2 (by rw [hk]; rfl)
    have hsecond : m ≠ 1 := by
      rintro rfl
      rw [hk] at hfate
      cases hfate
    exact absurd (by omega) (hfirst (.inr hk))
  | staticGet f =>
    have hnone := harity 0 (by rw [hk]; rfl)
    omega
  | arrayGet | arraySet =>
    rw [location?, hkind, hk] at hloc
    simp [Checked.bind_eq_ok] at hloc
  | _ => rfl

end Seclusion

/-! ## Places that nothing else may be -/

/-- A location may alias a field of the object only if it is that field. -/
theorem mayAlias_fieldOf (hs : s.isSingleton r = true) :
    l.mayAlias g s.isSingleton (fieldOf r f) = true ↔ l = fieldOf r f := by
  obtain ⟨object, slot⟩ := l
  cases slot with
  | instanceField f' => cases object <;> simp [Location.mayAlias, Location.slotsOverlap, fieldOf, hs, and_comm]
  | staticField | arrayElement => simp [Location.mayAlias, Location.slotsOverlap, fieldOf]

/-- Nor does a field of the object alias any other location. -/
theorem fieldOf_mayAlias (hs : s.isSingleton r = true) :
    (fieldOf r f).mayAlias g s.isSingleton l = true ↔ l = fieldOf r f := by
  obtain ⟨object, slot⟩ := l
  cases slot with
  | instanceField f' =>
    cases object <;>
      simp [Location.mayAlias, Location.slotsOverlap, fieldOf, hs, and_comm, eq_comm (a := f), eq_comm (a := r)]
  | staticField | arrayElement => simp [Location.mayAlias, Location.slotsOverlap, fieldOf]

/-! ## What one instruction does -/

/-- What is known of the fields of an object, and which stores to them count as observed, before and after an
instruction. -/
structure Passes (g : Graph) (r i : InstId) (s : State) (k : Knowledge)
    (s' : State) (k' : Knowledge) : Prop where
  unobserved : ∀ S f, g.writtenField? r S = some f → s'.Keeps S → s.Keeps S
  elsewhere : ∀ f, ¬ g.Touches r f i → k'.get? (fieldOf r f) = k.get? (fieldOf r f)
  here : ∀ f, g.Touches r f i → ∃ known, k'.get? (fieldOf r f) = some known ∧
    g.ty known.value = .ok (g.fieldTy f)
  load : ∀ f, g.readField? r i = some f → s'.removedLoads =
    if (k.get? (fieldOf r f)).isSome then s.removedLoads ++ [i] else s.removedLoads
  store : ∀ f, g.writtenField? r i = some f → i ∈ s'.redundant ++ s'.candidates

/-- An instruction that touches no field of the object passes by what is known of it. -/
theorem Passes.of_not_touches (hno : ∀ f, ¬ g.Touches r f i)
    (hkept : ∀ S f, g.writtenField? r S = some f → s'.Keeps S → s.Keeps S)
    (hknown : ∀ f, k'.get? (fieldOf r f) = k.get? (fieldOf r f)) : Passes g r i s k s' k' where
  unobserved := hkept
  elsewhere f _ := hknown f
  here f h := absurd h (hno f)
  load f h := absurd (.inl h) (hno f)
  store f h := absurd (.inr h) (hno f)

/-- An instruction that touches a field of the object changes what is known of that field alone. -/
theorem Passes.of_touches (h : g.Touches r f i)
    (hkept : ∀ S f, g.writtenField? r S = some f → s'.Keeps S → s.Keeps S)
    (hothers : ∀ f', f' ≠ f → k'.get? (fieldOf r f') = k.get? (fieldOf r f'))
    (hknown : ∃ known, k'.get? (fieldOf r f) = some known ∧ g.ty known.value = .ok (g.fieldTy f))
    (hload : g.readField? r i = some f → s'.removedLoads =
      if (k.get? (fieldOf r f)).isSome then s.removedLoads ++ [i] else s.removedLoads)
    (hstore : g.writtenField? r i = some f → i ∈ s'.redundant ++ s'.candidates) : Passes g r i s k s' k' where
  unobserved := hkept
  elsewhere f' h' := hothers f' fun heq => h' (heq ▸ h)
  here f' h' := h'.unique h ▸ hknown
  load f' h' := by
    obtain rfl : f' = f := Touches.unique (.inl h') h
    exact hload h'
  store f' h' := by
    obtain rfl : f' = f := Touches.unique (.inr h') h
    exact hstore h'

/-- What is known of memory while a private object is in use. -/
structure Shields (g : Graph) (r : InstId) (s : State) (k : Knowledge) : Prop where
  sourced : Sourced g s k
  escapes : s.escapes = escapesOf g
  typed : ∀ f known, k.get? (fieldOf r f) = some known → g.ty known.value = .ok (g.fieldTy f)
  proper : k.Proper g

/-- Keeping stores changes nothing about the object. -/
theorem Shields.keep (h : Shields g r s k) (xs : List InstId) : Shields g r (s.keep xs) k :=
  ⟨h.sourced.keep xs, h.escapes, h.typed, h.proper⟩

/-- Resolving a value keeps its type. -/
theorem Shields.ty_resolve (h : Shields g r s k) (v : InstId) : g.ty (s.resolve v) = g.ty v :=
  Sourced.ty_resolve (h.sourced.sub fun _ he => absurd he List.not_mem_nil) v

section Step

variable (hw : g.WellFormed) (hg : g.Consistent) (hl : g.Layout) (hf : g.FieldsDeclared) (ht : g.FieldsTyped)
  (hr : g.Secluded r) (h : Shields g r s k)

include hr h in
/-- The object is private in every state of the pass. -/
theorem Shields.isPrivate : (s.escapes.get r.index).isPrivate = true := by
  rw [h.escapes]
  exact isPrivate_secluded hr

include hr h in
/-- So are its fields. -/
theorem Shields.isPrivate_fieldOf (f : FieldId) : s.isPrivate (fieldOf r f) = true := h.isPrivate hr

include hr h in
/-- The object is a singleton in every state of the pass. -/
theorem Shields.isSingleton : s.isSingleton r = true := by
  rw [State.isSingleton, h.escapes, escapesOf_secluded hr]
  exact single_of_isPrivate (isPrivate_secluded hr)

include hr h in
/-- Only what is pending at the places of its fields are stores to the object. -/
theorem Shields.not_mem_pendingWhere {p : Location → Bool} (hp : ∀ f, p (fieldOf r f) = false)
    (hS : g.writtenField? r S = some f) : S ∉ k.pendingWhere p := by
  intro hmem
  obtain ⟨l, v, hentry, hl⟩ := Knowledge.mem_pendingWhere.1 hmem
  rw [eq_fieldOf_of_written hr hS (h.proper.pending l v S hentry), hp f] at hl
  cases hl

include hr hf in
/-- An access at another place does not touch the object. -/
theorem not_touches_of_location? (hi : i ∈ g.attached) {o : Option Location} (hloc : g.location? i = .ok o)
    (ho : ∀ f, o ≠ some (fieldOf r f)) (f : FieldId) : ¬ g.Touches r f i := by
  intro htouches
  rw [location?_of_touches hr hf hi htouches] at hloc
  exact ho f (Except.ok.inj hloc).symm

include ht hr h in
/-- A load of a field of the object gives way to what is known of the field. -/
theorem Shields.passes_ownLoad (hi : i ∈ g.attached) (hread : g.readField? r i = some f)
    (hstep : visitLoad g (s, k) i (fieldOf r f) = .ok (s', k')) : Passes g r i s k s' k' := by
  have hty := ht.ty_of_read hi hread
  have hnostore : g.writtenField? r i ≠ some f := by simp [writtenField?_of_read hread]
  rcases visitLoad_eq_ok hstep with ⟨known, hknown, -, heq⟩ | ⟨hdiffer, heq⟩
  · cases heq
    refine .of_touches (.inl hread) (fun _ _ _ hkept => hkept) (fun _ _ => rfl)
      ⟨known, hknown, h.typed f known hknown⟩
      (fun _ => ?_) fun hwritten => absurd hwritten hnostore
    rw [hknown]
    rfl
  · cases heq
    -- the types agree, so the field cannot have been known
    have hnone : k.get? (fieldOf r f) = none := by
      rw [Option.eq_none_iff_forall_ne_some]
      intro known hknown
      exact hdiffer known hknown ((h.ty_resolve _).trans ((h.typed f known hknown).trans hty.symm))
    refine .of_touches (.inl hread) (fun S f' hS hkept => ?_) (fun f' hne => ?_)
      ⟨⟨i, none⟩, ?_, hty⟩ (fun _ => ?_)
      fun hwritten => absurd hwritten hnostore
    · refine (State.keeps_keep.1 hkept).resolve_left fun hmem => ?_
      obtain ⟨l, v, hentry, halias⟩ := Knowledge.mem_pendingWhere.1 hmem
      rw [(mayAlias_fieldOf (h.isSingleton hr)).1 halias, h.proper.functional.mem_iff, hnone] at hentry
      cases hentry
    · rw [Knowledge.get?_insert, if_neg fun heq => hne (fieldOf_inj.1 heq)]
    · rw [Knowledge.get?_insert, if_pos rfl]
    · rw [hnone]
      rfl

include hw hg hl hf ht hr h in
/-- Visiting a load passes by the object, or learns the field that it reads. -/
theorem Shields.passes_visitLoad {n : Nat} (hreach : g.Reachable b) (hb : g.block b = .ok block)
    (hi : block.insts[n]? = some i) (hinst : g.inst i = .ok inst) (hload : inst.kind.isLoad = true)
    (hloc : g.location? i = .ok (some l)) (hstep : visitLoad g (s, k) i l = .ok (s', k')) :
    Passes g r i s k s' k' := by
  have hatt := (at_insts hb hi).mem_attached
  by_cases hplace : ∃ f, l = fieldOf r f
  · obtain ⟨f, rfl⟩ := hplace
    exact h.passes_ownLoad ht hr hatt ((touches_of_location? hw hg hl hr hreach hb hi hinst hloc).1 hload) hstep
  · have hno := not_touches_of_location? hf hr hatt hloc fun f hf => hplace ⟨f, Option.some.inj hf⟩
    have hne : ∀ f, fieldOf r f ≠ l := fun f heq => hplace ⟨f, heq.symm⟩
    rcases visitLoad_eq_ok hstep with ⟨known, -, -, heq⟩ | ⟨-, heq⟩
    · cases heq
      exact .of_not_touches hno (fun _ _ _ hkept => hkept) fun _ => rfl
    · cases heq
      refine .of_not_touches hno (fun S f hS hkept => ?_) fun f => ?_
      · refine (State.keeps_keep.1 hkept).resolve_left (h.not_mem_pendingWhere hr (fun f => ?_) hS)
        rw [Bool.eq_false_iff, ne_eq, fieldOf_mayAlias (h.isSingleton hr)]
        exact fun heq => hne f heq.symm
      · rw [Knowledge.get?_insert, if_neg (hne f)]

include ht hr h in
/-- A store to a field of the object is redundant or stays pending. -/
theorem Shields.passes_ownStore (hi : i ∈ g.attached) (hwritten : g.writtenField? r i = some f)
    (hstep : visitStore g (s, k) i (fieldOf r f) false = .ok (s', k')) : Passes g r i s k s' k' := by
  obtain ⟨inst, hinst, -⟩ := Touches.exists_inst (.inr hwritten)
  have hnoload : g.readField? r i ≠ some f := by
    intro hread
    rw [writtenField?_of_read hread] at hwritten
    cases hwritten
  obtain ⟨operand, hoperand, ⟨known, hknown, -, -, heq⟩ | ⟨p, hp, heq⟩⟩ := visitStore_eq_ok hinst hstep
  · cases heq
    exact .of_touches (.inr hwritten) (fun _ _ _ hkept => hkept) (fun _ _ => rfl)
      ⟨known, hknown, h.typed f known hknown⟩ (fun hread => absurd hread hnoload) fun _ => by simp
  · cases heq
    -- what may be the place of the store is that place itself, so no other entry is lost or observed
    have hp : ∀ l, p l = false := by
      intro l
      rw [Bool.eq_false_iff]
      intro hl
      exact ((hp l).1 hl).1 ((mayAlias_fieldOf (h.isSingleton hr)).1 ((hp l).1 hl).2)
    have hty := (h.ty_resolve operand).trans (ht.ty_of_written hi hinst hwritten hoperand)
    refine .of_touches (.inr hwritten) (fun S f' hS hkept => ?_) (fun f' hne => ?_)
      ⟨⟨s.resolve operand, some i⟩, ?_, hty⟩
      (fun hread => absurd hread hnoload) fun _ => by simp [State.keep]
    · refine (State.keeps_keep.1 hkept).resolve_left fun hmem => ?_
      rw [if_neg (by decide), List.append_nil] at hmem
      exact h.not_mem_pendingWhere hr (fun f => hp _) hS hmem
    · rw [Knowledge.get?_insert, if_neg fun heq => hne (fieldOf_inj.1 heq), Knowledge.get?_forget, hp,
        if_neg (by decide)]
    · rw [Knowledge.get?_insert, if_pos rfl]

include hw hg hl hf ht hr h in
/-- Visiting a store passes by the object, or learns the field that it writes. -/
theorem Shields.passes_visitStore {n : Nat} {mustKeep : Bool} (hreach : g.Reachable b)
    (hb : g.block b = .ok block)
    (hi : block.insts[n]? = some i) (hinst : g.inst i = .ok inst) (hstore : inst.kind.isStore = true)
    (hloc : g.location? i = .ok (some l)) (hkeep : ∀ f, g.writtenField? r i = some f → mustKeep = false)
    (hstep : visitStore g (s, k) i l mustKeep = .ok (s', k')) : Passes g r i s k s' k' := by
  have hatt := (at_insts hb hi).mem_attached
  by_cases hplace : ∃ f, l = fieldOf r f
  · obtain ⟨f, rfl⟩ := hplace
    have hwritten := (touches_of_location? hw hg hl hr hreach hb hi hinst hloc).2 hstore
    rw [hkeep f hwritten] at hstep
    exact h.passes_ownStore ht hr hatt hwritten hstep
  · have hno := not_touches_of_location? hf hr hatt hloc fun f hf => hplace ⟨f, Option.some.inj hf⟩
    have hne : ∀ f, fieldOf r f ≠ l := fun f heq => hplace ⟨f, heq.symm⟩
    obtain ⟨operand, -, ⟨known, -, -, -, heq⟩ | ⟨p, hp, heq⟩⟩ := visitStore_eq_ok hinst hstep
    · cases heq
      exact .of_not_touches hno (fun _ _ _ hkept => hkept) fun _ => rfl
    · cases heq
      have hp : ∀ f, p (fieldOf r f) = false := by
        intro f
        rw [Bool.eq_false_iff]
        intro hf
        exact hne f ((fieldOf_mayAlias (h.isSingleton hr)).1 ((hp _).1 hf).2).symm
      refine .of_not_touches hno (fun S f hS hkept => ?_) fun f => ?_
      · refine (State.keeps_keep.1 hkept).resolve_left fun hmem => ?_
        rcases List.mem_append.1 hmem with hmem | hmem
        · exact h.not_mem_pendingWhere hr hp hS hmem
        · split at hmem
          · obtain rfl := List.mem_singleton.1 hmem
            exact hno f (.inr hS)
          · cases hmem
      · rw [Knowledge.get?_insert, if_neg (hne f), Knowledge.get?_forget, hp, if_neg (by decide)]

include hw hl hf hr h in
/-- Any other instruction leaves the fields of the object alone: it is not handed the object, or it does
nothing to memory. -/
theorem Shields.passes_visitOther (hsum : EffectSummary.Summarizes g t summary) {n : Nat}
    (hreach : g.Reachable b)
    (hb : g.block b = .ok block) (hi : block.insts[n]? = some i) (hinst : g.inst i = .ok inst)
    (hloc : g.location? i = .ok none) (hstep : visitOther g summary (s, k) i = .ok (s', k')) :
    Passes g r i s k s' k' := by
  have hatt := (at_insts hb hi).mem_attached
  have hno := not_touches_of_location? hf hr hatt hloc fun f hf => by cases hf
  obtain ⟨xs, exempt, hexempt, -, hxs, heq⟩ := visitOther_eq_ok hinst hstep
  -- a private object that is not handed over is exempt from whatever the instruction does
  have hspared : (∀ f, exempt (fieldOf r f) = true) ∨ summary.ofInst i = .none := by
    by_cases hread : r ∈ inst.inputs
    · have heffects := hsum.insts b block i hreach hb (List.mem_append_right _ (List.mem_of_getElem? hi))
      exact .inr (Except.ok.inj (heffects.symm.trans (effectsOf_of_operand hw hl hr hf hatt hinst hloc hread)))
    · exact .inl fun f => (hexempt _).2 ⟨r, rfl, h.isPrivate hr, hread⟩
  have hread : ∀ S f, g.writtenField? r S = some f → S ∉ xs := by
    intro S f hS hmem
    rcases hxs S hmem with hmem | ⟨hany, hmem⟩
    · exact h.not_mem_pendingWhere hr (fun f => by simp [h.isPrivate_fieldOf hr f]) hS hmem
    · rcases hspared with hspared | hnone
      · exact h.not_mem_pendingWhere hr (fun f => by simp [hspared f]) hS hmem
      · rw [hnone] at hany
        exact absurd hany (by decide)
  split at heq
  · next hany =>
    have hspared : ∀ f, exempt (fieldOf r f) = true := by
      refine hspared.resolve_right fun hnone => ?_
      rw [hnone] at hany
      exact absurd hany (by decide)
    cases heq
    refine .of_not_touches hno (fun S f hS hkept => ?_) fun f => ?_
    · rcases State.keeps_keep.1 hkept with hmem | hkept
      · exact absurd hmem (h.not_mem_pendingWhere hr (fun f => by simp [hspared f]) hS)
      · exact (State.keeps_keep.1 hkept).resolve_left (hread S f hS)
    · rw [Knowledge.get?_forget, if_neg (by simp [hspared f])]
  · cases heq
    exact .of_not_touches hno (fun S f hS hkept => (State.keeps_keep.1 hkept).resolve_left (hread S f hS))
      fun _ => rfl

include hw hg hl hf ht hr h in
/-- No instruction observes a store to the object. -/
theorem Shields.passes (hsum : EffectSummary.Summarizes g t summary) {n : Nat} (hreach : g.Reachable b)
    (hb : g.block b = .ok block) (hi : block.insts[n]? = some i)
    (hstep : visit g summary (s, k) i block.insts[n + 1]? = .ok (s', k')) : Passes g r i s k s' k' := by
  obtain ⟨inst, throws, hinst, hthrows, hcases⟩ := visit_cases hstep
  have hbefore : Shields g r (s.beforeThrow k throws) k := by
    rw [State.beforeThrow_eq]
    exact h.keep _
  have hpasses : Passes g r i (s.beforeThrow k throws) k s' k' := by
    rcases hcases with ⟨l, hload, hloc, hstep⟩ | ⟨l, hstore, hloc, hstep⟩ | ⟨hloc, hstep⟩
    · exact hbefore.passes_visitLoad hw hg hl hf ht hr hreach hb hi hinst hload hloc hstep
    · refine hbefore.passes_visitStore hw hg hl hf ht hr hreach hb hi hinst hstore hloc
        (fun f hwritten => ?_) hstep
      obtain rfl : false = throws := Except.ok.inj ((mayThrow_of_touches hr (.inr hwritten)).symm.trans hthrows)
      rw [not_released_after hr hb hi hwritten, Bool.and_false, Bool.or_false]
    · exact hbefore.passes_visitOther hw hl hf hr hsum hreach hb hi hinst hloc hstep
  have hsame : (s.beforeThrow k throws).removedLoads = s.removedLoads := by rw [State.beforeThrow_eq]; rfl
  refine ⟨fun S f hS hkept => ?_, hpasses.elsewhere, hpasses.here, fun f hf => hsame ▸ hpasses.load f hf,
    hpasses.store⟩
  have hkept := hpasses.unobserved S f hS hkept
  -- a handler outside the method sees all memory but that of private objects
  rw [State.beforeThrow_eq] at hkept
  refine (State.keeps_keep.1 hkept).resolve_left fun hmem => ?_
  split at hmem
  · exact h.not_mem_pendingWhere hr (fun f => by simp [h.isPrivate_fieldOf hr f]) hS hmem
  · cases hmem

end Step

/-! ## The whole block -/

/-- Visiting an instruction marks it or nothing, and unmarks nothing. -/
theorem Visited.removedLoads_eq (h : Visited g summary s k i inst throws st) :
    st.1.removedLoads = s.removedLoads ∨ st.1.removedLoads = s.removedLoads ++ [i] := by
  cases h with
  | forward => exact .inr rfl
  | load | redundant | store | other => exact .inl rfl

/-- A store that was redundant or a candidate stays so. -/
theorem Visited.stores_subset (h : Visited g summary s k i inst throws st) :
    s.redundant ++ s.candidates ⊆ st.1.redundant ++ st.1.candidates := by
  cases h with
  | forward | load | other => exact List.Subset.refl _
  | redundant => exact List.append_subset.2 ⟨by simp, by simp⟩
  | store => exact List.append_subset.2 ⟨by simp [State.keep], by simp [State.keep]⟩

/-- After some instructions: the fields that were accessed are known, no store to the object was observed,
each of them is marked, and so is each load but those that came first. -/
structure Sheltered (g : Graph) (r : InstId) (done : List InstId) (s : State) (k : Knowledge) : Prop
    extends Shields g r s k where
  known : ∀ f, (k.get? (fieldOf r f)).isSome = true ↔ ∃ j ∈ done, g.Touches r f j
  unobserved : ∀ S f, g.writtenField? r S = some f → ¬ s.Keeps S
  stores : ∀ S ∈ done, ∀ f, g.writtenField? r S = some f → S ∈ s.redundant ++ s.candidates
  loads : ∀ before i after f, done = before ++ i :: after → g.readField? r i = some f →
    (i ∈ s.removedLoads ↔ ∃ j ∈ before, g.Touches r f j)
  removed : ∀ i ∈ s.removedLoads, i ∈ done

/-- Before the first instruction nothing has touched the object. -/
theorem sheltered_first (hasMonitors : Bool) : Sheltered g r [] (first g hasMonitors) [] where
  sourced := sourced_start (fun _ => rfl) fun _ => rfl
  escapes := rfl
  typed f known hknown := by cases hknown
  proper := Knowledge.proper_nil
  known f := by simp [Knowledge.get?]
  unobserved S f _ hkept := by simp [State.Keeps, first, State.empty] at hkept
  stores S hS := by cases hS
  loads before i after f hdone := by simp at hdone
  removed i hi := by simp [first, State.empty] at hi

/-- A store to the object that was visited is removed. -/
theorem Sheltered.mem_removableStores (h : Sheltered g r done s k) (hS : S ∈ done)
    (hwritten : g.writtenField? r S = some f) : S ∈ removableStores s := by
  rcases List.mem_append.1 (h.stores S hS f hwritten) with hmem | hmem
  · exact List.mem_append_left _ hmem
  · refine List.mem_append_right _ (List.mem_filter.2 ⟨hmem, ?_⟩)
    have hkept := h.unobserved S f hwritten
    rwa [State.Keeps, Bool.not_eq_true, ← Bool.not_eq_true'] at hkept

section Run

variable (hw : g.WellFormed) (hg : g.Consistent) (hl : g.Layout) (hf : g.FieldsDeclared) (ht : g.FieldsTyped)
  (hr : g.Secluded r) (hsum : EffectSummary.Summarizes g t summary) (hreach : g.Reachable b)
  (hb : g.block b = .ok block)
include hw hg hl hf ht hr hsum hreach hb

/-- Visiting an instruction of the block keeps the object shielded. -/
theorem Shields.visit {n : Nat} (h : Shields g r s k) (hi : block.insts[n]? = some i)
    (hstep : visit g summary (s, k) i block.insts[n + 1]? = .ok (s', k')) : Shields g r s' k' := by
  have hpasses := h.passes hw hg hl hf ht hr hsum hreach hb hi hstep
  obtain ⟨inst, throws, hinst, -, hvisited⟩ := visit_eq_ok hstep
  refine ⟨h.sourced.visit (at_insts hb hi).mem_attached hstep, ?_, fun f known hknown => ?_, ?_⟩
  · exact hvisited.frame.2.trans ((State.beforeThrow_frame _ _ _).2.trans h.escapes)
  · by_cases htouches : g.Touches r f i
    · obtain ⟨known', hknown', hty⟩ := hpasses.here f htouches
      obtain rfl : known = known' := Option.some.inj (hknown.symm.trans hknown')
      exact hty
    · exact h.typed f known ((hpasses.elsewhere f htouches).symm.trans hknown)
  · exact hvisited.proper h.proper

/-- What one more instruction adds. -/
theorem Sheltered.visit {rest : List InstId} (h : Sheltered g r done s k)
    (hdone : block.insts = done ++ i :: rest)
    (hstep : visit g summary (s, k) i rest.head? = .ok (s', k')) : Sheltered g r (done ++ [i]) s' k' := by
  have hi : block.insts[done.length]? = some i := by simp [hdone]
  have hnext : rest.head? = block.insts[done.length + 1]? := by
    rw [hdone, List.getElem?_append_right (by omega), Nat.add_sub_cancel_left, List.getElem?_cons_succ,
      List.head?_eq_getElem?]
  rw [hnext] at hstep
  have hpasses := h.toShields.passes hw hg hl hf ht hr hsum hreach hb hi hstep
  obtain ⟨inst, throws, hinst, -, hvisited⟩ := visit_eq_ok hstep
  have hfresh : i ∉ done := by
    have hnodup := ((List.nodup_flatMap.1 hg.listed_once).1 block (mem_blocks_of_block hb)).of_append_right
    rw [hdone] at hnodup
    exact fun hmem => List.disjoint_of_nodup_append hnodup hmem List.mem_cons_self
  have hremoved : s'.removedLoads = s.removedLoads ∨ s'.removedLoads = s.removedLoads ++ [i] := by
    have hloads := hvisited.removedLoads_eq
    rwa [State.beforeThrow_eq] at hloads
  refine ⟨h.toShields.visit hw hg hl hf ht hr hsum hreach hb hi hstep, fun f => ?_, fun S f hS hkept => ?_,
    fun S hS f hwritten => ?_, fun before j after f hsplit hread => ?_, fun j hj => ?_⟩
  · have hmem : (∃ j ∈ done ++ [i], g.Touches r f j) ↔ (∃ j ∈ done, g.Touches r f j) ∨ g.Touches r f i := by
      simp [or_and_right, exists_or]
    rw [hmem]
    by_cases htouches : g.Touches r f i
    · obtain ⟨known, hknown, -⟩ := hpasses.here f htouches
      rw [hknown]
      exact ⟨fun _ => .inr htouches, fun _ => rfl⟩
    · rw [hpasses.elsewhere f htouches, h.known f]
      exact ⟨.inl, fun hor => hor.resolve_right htouches⟩
  · exact h.unobserved S f hS (hpasses.unobserved S f hS hkept)
  · rcases List.mem_append.1 hS with hS | hS
    · have hstores := hvisited.stores_subset
      rw [State.beforeThrow_eq] at hstores
      exact hstores (h.stores S hS f hwritten)
    · obtain rfl := List.mem_singleton.1 hS
      exact hpasses.store f hwritten
  · rcases List.eq_nil_or_concat after with rfl | ⟨after, x, rfl⟩
    · -- the instruction itself: it goes if its field was known
      obtain ⟨rfl, heq⟩ := List.append_inj' hsplit rfl
      cases heq
      have hnew : i ∉ s.removedLoads := fun hmem => hfresh (h.removed i hmem)
      rw [hpasses.load f hread, ← h.known f]
      split <;> simp_all
    · -- an earlier one: nothing changes for it
      rw [List.concat_eq_append, ← List.cons_append, ← List.append_assoc] at hsplit
      obtain ⟨rfl, heq⟩ := List.append_inj' hsplit rfl
      have hne : j ≠ i := by
        rintro rfl
        exact hfresh (by simp)
      rw [← h.loads before j after f rfl hread]
      rcases hremoved with heq | heq <;> simp [heq, hne]
  · rcases hremoved with heq | heq
    · rw [heq] at hj
      exact List.mem_append_left _ (h.removed j hj)
    · rw [heq] at hj
      exact (List.mem_append.1 hj).elim (fun hj => List.mem_append_left _ (h.removed j hj))
        (List.mem_append_right _)

/-- So does visiting the rest of the block, by induction on what is left of it. -/
theorem Sheltered.visitAll {rest : List InstId} (h : Sheltered g r done s k)
    (hdone : block.insts = done ++ rest)
    (hstep : visitAll g summary (s, k) rest = .ok (s', k')) : Sheltered g r block.insts s' k' := by
  induction rest generalizing done s k with
  | nil =>
    cases hstep
    rw [hdone, List.append_nil]
    exact h
  | cons i rest ih =>
    rw [LoadStore.visitAll, Checked.bind_eq_ok] at hstep
    obtain ⟨⟨s₁, k₁⟩, hvisit, hrest⟩ := hstep
    refine ih (h.visit hw hg hl hf ht hr hsum hreach hb hdone hvisit) ?_ hrest
    rw [hdone, List.append_assoc]
    rfl

end Run

/-- A block without predecessors is entered with nothing known, and nothing is observed by that. -/
theorem enter_of_preds_eq_nil (hpreds : g.preds b = []) : enter g t summary s b = (s, []) := by
  unfold enter forwardPreds
  rw [hpreds]
  show (if summary.loops.isHeader b = true then _ else _) = _
  split <;> rfl

/-- In a method of one block, the visit of that block is the whole course. -/
theorem visitBlock_of_single {last : State} {hasMonitors : Bool} (hw : g.WellFormed) (hg : g.Consistent)
    (hone : g.blocks = #[block]) (ht : DomTree.ofGraph g = .ok t)
    (h : t.preorder.foldlM (visitBlock g t summary) (first g hasMonitors) = .ok last) :
    g.block g.entry = .ok block ∧ ∃ s k, visitAll g summary (first g hasMonitors, []) block.insts = .ok (s, k) ∧
      last = { s with exits := s.exits.set g.entry.index (some k) } := by
  obtain ⟨block', hentry, hpreds⟩ := hw.entry
  have hslot := block_eq_ok.1 hentry
  have hindex : g.entry.index = 0 := by
    have hlt := (Array.getElem?_eq_some_iff.1 hslot).1
    rw [hone] at hlt
    exact Nat.lt_one_iff.1 hlt
  obtain rfl : block = block' := by
    rw [hindex, hone] at hslot
    exact Option.some.inj hslot
  have hpreds : g.preds g.entry = [] := by
    rw [preds, hslot]
    exact hpreds
  have honly : ∀ b ∈ g.blockIds, b = g.entry := by
    intro b hb
    rw [mem_blockIds, hone] at hb
    rw [← BlockId.index_inj, hindex]
    exact Nat.lt_one_iff.1 hb
  have hpreorder : t.preorder = [g.entry] := by
    refine List.perm_singleton.1 ((List.perm_ext_iff_of_nodup (DomTree.nodup_preorder hg ht) (by simp)).2
      fun b => ?_)
    rw [DomTree.mem_preorder hg ht, List.mem_singleton]
    constructor
    · intro hreach
      obtain ⟨block, hb⟩ := hw.exists_block hg hreach
      exact honly b (mem_blockIds_iff.2 ⟨block, hb⟩)
    · rintro rfl
      exact reachable_entry
  have hsuccs : block.succs = [] := by
    rw [List.eq_nil_iff_forall_not_mem]
    intro b hb
    have hedge : g.entry ∈ g.preds b := by
      rw [hg.mem_preds_iff, succs, hslot]
      exact hb
    rw [honly b (mem_blockIds_of_mem_preds hedge), hpreds] at hedge
    cases hedge
  rw [hpreorder, List.foldlM_cons, Checked.bind_eq_ok] at h
  obtain ⟨s', hvisit, hlast⟩ := h
  cases hlast
  simp only [visitBlock, Checked.bind_eq_ok, Checked.pure_eq_ok] at hvisit
  obtain ⟨block', hblock', ⟨s, k⟩, hall, rfl⟩ := hvisit
  obtain rfl : block = block' := Except.ok.inj (hentry.symm.trans hblock')
  rw [enter_of_preds_eq_nil hpreds] at hall
  refine ⟨hentry, s, k, hall, ?_⟩
  rw [hsuccs]
  rfl

/-- Summarizing effects and eliminating loads and stores, on an accepted method of one block with the
documented operands, declared fields accessed at their types and stores that have no uses, comes to an end;
the counters of what was removed need room for the instructions there are.  Then no store to the fields of a
secluded object is left, and of the loads of each field the first one is if nothing accessed the field before
it, and no other one. -/
theorem private_object_vanishes (hg : g.Built) (hv : g.violations = .ok []) (hl : g.Layout)
    (hf : g.FieldsDeclared)
    (ht : g.FieldsTyped) (hstores : g.StoresUnused) (hcount : g.attached.length < UInt64.size)
    (hone : g.blocks = #[block]) (hr : g.Secluded r) (verify : Bool) (settings : Settings) :
    ∃ u, (Manager.runAll verify [SideEffects.pass, pass]).run (.new g settings) = (.ok (), u) ∧
      (∀ i ∈ u.graph.attached, g.writtenField? r i = none) ∧
      ∀ before i after f, block.insts = before ++ i :: after → g.readField? r i = some f →
        (i ∈ u.graph.attached ↔ ∀ j ∈ before, ¬ g.Touches r f j) := by
  have hintact := hg.intact
  have hc := hintact.consistent
  have hw := hc.violations_eq_nil_iff.1 hv
  obtain ⟨u, hrun, -⟩ := exists_run ⟨hintact, hcount⟩ hw hl.furnished hf hstores verify settings
  obtain ⟨last, houtcome, happly⟩ := exists_outcome hrun
  obtain ⟨t, summary, hasMonitors, htrace, hvisits⟩ := exists_visits_of_outcome hc houtcome
  have hsourced : Sourced g last [] :=
    sourced_of_visitBlocks (sourced_start (fun _ => rfl) fun _ => rfl) hvisits
  have hreduced := reduced_applyTo hintact (DomTree.nodup_preorder hc htrace.tree)
    (marks_of_visitBlocks rfl hvisits)
    hsourced happly
  obtain ⟨hb, s, k, hall, hlast⟩ := visitBlock_of_single hw hc hone htrace.tree hvisits
  have hsheltered : Sheltered g r block.insts s k :=
    (sheltered_first hasMonitors).visitAll hw hc hl hf ht hr htrace.summarizes reachable_entry hb rfl hall
  have hloads : last.removedLoads = s.removedLoads := by rw [hlast]
  refine ⟨u, hrun, fun i hi => ?_, fun before i after f hsplit hread => ?_⟩
  · obtain ⟨hatt, hstays⟩ := hreduced.mem_attached.1 hi
    rw [Option.eq_none_iff_forall_ne_some]
    intro f hwritten
    obtain ⟨inst, hinst, -⟩ := Touches.exists_inst (.inr hwritten)
    have hlisted : i ∈ block.insts := by
      rw [attached, hone] at hatt
      have hbody : i ∈ block.body := by simpa using hatt
      refine (List.mem_append.1 hbody).resolve_left (hl.not_mem_phis hinst ?_ hb)
      rw [((writtenField?_eq_some hinst).1 hwritten).1]
      exact fun hk => by cases hk
    apply hstays
    rw [hlast]
    exact List.mem_append_right _ (hsheltered.mem_removableStores hlisted hwritten)
  · obtain ⟨inst, hinst, -⟩ := Touches.exists_inst (.inl hread)
    have hi : block.insts[before.length]? = some i := by simp [hsplit]
    have hatt := (at_insts hb hi).mem_attached
    have hno : i ∉ removableStores last := by
      intro hmem
      obtain ⟨inst', hinst', hstore⟩ := htrace.isStore_of_mem_removableStores hmem
      obtain rfl : inst = inst' := Except.ok.inj (hinst.symm.trans hinst')
      rw [((readField?_eq_some hinst).1 hread).1] at hstore
      cases hstore
    rw [hreduced.mem_attached, List.mem_append, hloads, hsheltered.loads before i after f hsplit hread]
    simp [hatt, hno]

/-- An object whose fields are set and read around a call, a monitor, accesses to another object and a check
that may fail.  One of its fields is read before it is set. -/
def scratchCell : Graph := .ofEdits "scratchCell" [
  .internField ⟨"Cell", "value", .int, 8, false, false⟩, .internField ⟨"Cell", "last", .int, 12, false, false⟩,
  .createInst (.param 0) .ref [], .appendInst ⟨0⟩ ⟨0⟩, .createInst (.param 1) .ref [], .appendInst ⟨0⟩ ⟨1⟩,
  .createInst (.param 2) .int [], .appendInst ⟨0⟩ ⟨2⟩,
  .createInst (.newInstance "Cell") .ref [], .appendInst ⟨0⟩ ⟨3⟩,
  .createInst (.instanceSet ⟨0⟩) .void [⟨3⟩, ⟨2⟩], .appendInst ⟨0⟩ ⟨4⟩,
  .createInst (.instanceGet ⟨1⟩) .int [⟨3⟩], .appendInst ⟨0⟩ ⟨5⟩,
  .createInst (.invoke .static "Cell.fill") .int [⟨1⟩], .appendInst ⟨0⟩ ⟨6⟩,
  .createInst .monitorEnter .void [⟨1⟩], .appendInst ⟨0⟩ ⟨7⟩,
  .createInst (.instanceGet ⟨0⟩) .int [⟨3⟩], .appendInst ⟨0⟩ ⟨8⟩,
  .createInst (.instanceSet ⟨0⟩) .void [⟨1⟩, ⟨8⟩], .appendInst ⟨0⟩ ⟨9⟩,
  .createInst .monitorExit .void [⟨1⟩], .appendInst ⟨0⟩ ⟨10⟩,
  .createInst (.instanceSet ⟨1⟩) .void [⟨3⟩, ⟨6⟩], .appendInst ⟨0⟩ ⟨11⟩,
  .createInst .nullCheck .ref [⟨1⟩], .appendInst ⟨0⟩ ⟨12⟩,
  .createInst (.instanceGet ⟨0⟩) .int [⟨12⟩], .appendInst ⟨0⟩ ⟨13⟩,
  .createInst (.instanceGet ⟨1⟩) .int [⟨3⟩], .appendInst ⟨0⟩ ⟨14⟩,
  .createInst (.instanceSet ⟨0⟩) .void [⟨3⟩, ⟨2⟩], .appendInst ⟨0⟩ ⟨15⟩,
  .createInst (.binary .add) .int [⟨5⟩, ⟨14⟩], .appendInst ⟨0⟩ ⟨16⟩,
  .createInst .ret .void [⟨16⟩], .appendInst ⟨0⟩ ⟨17⟩]

/-- Its block. -/
def scratchBlock : Block := ⟨[], (List.range 18).map InstId.mk, [], []⟩

/-- The cell is used in its block only, to load from and to store to. -/
theorem secluded_scratchCell : scratchCell.Secluded ⟨3⟩ :=
  ⟨by decide +kernel, ⟨"Cell", by decide +kernel⟩, by decide +kernel, by decide +kernel, by decide +kernel⟩

/-- In `scratchCell` both loads of the cell go, and all stores to it. -/
theorem private_object_vanishes_scratchCell :
    scratchCell.violations = .ok [] ∧ scratchCell.Layout ∧ scratchCell.FieldsTyped ∧ scratchCell.Secluded ⟨3⟩ ∧
      (outcome scratchCell).toOption.map (fun last => (last.removedLoads, removableStores last)) =
        some ([⟨8⟩, ⟨14⟩], [⟨15⟩, ⟨4⟩, ⟨11⟩]) ∧
      ∃ u, (Manager.runAll true [SideEffects.pass, pass]).run (.new scratchCell .default) = (.ok (), u) ∧
        (∀ i ∈ u.graph.attached, scratchCell.writtenField? ⟨3⟩ i = none) ∧
        ∀ before i after f, scratchBlock.insts = before ++ i :: after → scratchCell.readField? ⟨3⟩ i = some f →
          (i ∈ u.graph.attached ↔ ∀ j ∈ before, ¬ scratchCell.Touches ⟨3⟩ f j) :=
  ⟨by decide +kernel, by decide +kernel, by decide +kernel, secluded_scratchCell, by decide +kernel,
    private_object_vanishes (built_ofEdits _ _) (by decide +kernel) (by decide +kernel) (by decide +kernel)
      (by decide +kernel) (by decide +kernel) (by decide +kernel) (by decide +kernel) secluded_scratchCell true
      .default⟩

end LoadStore

end Midend
