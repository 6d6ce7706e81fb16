import Midend.Proofs.Completion
import Midend.Proofs.ExactSummary
import Midend.Proofs.KnownValues

/-!
# Where the category of an access comes from

The part of memory that an access touches is told in two ways.  Its effect goes by how the field was declared,
as static or not.  Its location goes by the kind of the access, with an object or without.  Nothing that reads
or checks a method compares the two, so they agree exactly for the accesses whose field is declared the way
the access goes to it, and for fields of type `void`, whose memory has no name either way.

A loop that stores to such a location has the category of the location in its summary.  Where a store in a
loop names a static field through an object, the summary has another category, and load/store elimination
carries what it knows about the location past the store.
-/

namespace Midend

open Midend.Graph

variable {g : Graph} {i : InstId} {inst : Inst} {l : Location}

/-! ## Effects of accesses -/

namespace Effects

/-- Static fields and fields of objects are different memory, unless it has no name. -/
theorem ofAccess_fieldCategory_inj {written : Bool} {ty : Ty} {isStatic isStatic' : Bool} :
    ofAccess written (fieldCategory ty isStatic) = ofAccess written (fieldCategory ty isStatic') ↔
      ty = .void ∨ isStatic = isStatic' := by
  cases written <;> cases ty <;> cases isStatic <;> cases isStatic' <;> decide

end Effects

/-- The field of an access is declared the way the access goes to it. -/
def Graph.FieldFits (g : Graph) (k : Kind) : Prop :=
  ∀ f ∈ k.field?, ∀ field ∈ g.fields[f.index]?, field.ty = .void ∨ field.isStatic = k.isStaticAccess

instance (g : Graph) (k : Kind) : Decidable (g.FieldFits k) :=
  inferInstanceAs (Decidable (∀ f ∈ k.field?, ∀ field ∈ g.fields[f.index]?,
    field.ty = .void ∨ field.isStatic = k.isStaticAccess))

/-- The effect of a plain field access goes by the declaration of the field. -/
theorem Graph.effectsOf_of_field {f : FieldId} {e : Effects} (hinst : g.inst i = .ok inst)
    (hf : inst.kind.field? = some f) (hvol : g.isVolatile f = false) (he : g.effectsOf i = .ok e) :
    ∃ field, g.fields[f.index]? = some field ∧ g.fieldTy f = field.ty ∧
      e = .ofAccess inst.kind.isStore (Effects.fieldCategory field.ty field.isStatic) := by
  rw [effectsOf, kind_eq_ok.2 ⟨inst, hinst, rfl⟩] at he
  cases hk : inst.kind with
  | instanceGet f' | staticGet f' | instanceSet f' | staticSet f' =>
    rw [hk] at he hf
    cases hf
    exact fieldEffects_of_plain hvol he
  | _ =>
    rw [hk] at hf
    cases hf

/-- The effect of an access with a location is an access to the category of the location exactly when its
field is declared the way the access goes to it. -/
theorem Graph.Locates.effectsOf_eq_iff {e : Effects} (h : g.Locates inst l) (hinst : g.inst i = .ok inst)
    (he : g.effectsOf i = .ok e) : e = .ofAccess inst.kind.isStore (l.category g) ↔ g.FieldFits inst.kind := by
  have hfield : ∀ {f : FieldId}, inst.kind.field? = some f → g.isVolatile f = false →
      l.category g = Effects.fieldCategory (g.fieldTy f) inst.kind.isStaticAccess →
      (e = .ofAccess inst.kind.isStore (l.category g) ↔ g.FieldFits inst.kind) := by
    intro f hf hvol hcategory
    obtain ⟨field, hget, hty, rfl⟩ := effectsOf_of_field hinst hf hvol he
    rw [hcategory, hty, Effects.ofAccess_fieldCategory_inj]
    constructor
    · intro hfits f' hf' field' hfield'
      obtain rfl : f = f' := Option.some.inj (hf.symm.trans hf')
      obtain rfl : field = field' := Option.some.inj (hget.symm.trans hfield')
      exact hfits
    · exact fun hfits => hfits f hf field hget
  cases h with
  | field hk hvol | static hk hvol =>
    rcases hk with hk | hk <;> exact hfield (by rw [hk]; rfl) hvol (by rw [hk]; rfl)
  | element hk =>
    -- elements of arrays belong to no field, and both ways go by the type of the value
    have hfits : g.FieldFits inst.kind := by
      rcases hk with ⟨hk, -⟩ | ⟨hk, -⟩ <;> simp [hk, FieldFits, Kind.field?]
    refine iff_of_true ?_ hfits
    rcases hk with ⟨hk, rfl⟩ | ⟨hk, rfl⟩
    · rw [effectsOf, kind_eq_ok.2 ⟨inst, hinst, rfl⟩, hk] at he
      obtain ⟨kind, hkind, he⟩ := Checked.bind_eq_ok.1 he
      cases hkind
      obtain ⟨ty, hty, he⟩ := Checked.bind_eq_ok.1 he
      obtain rfl := Checked.pure_eq_ok.1 he
      obtain ⟨inst', hinst', rfl⟩ := ty_eq_ok.1 hty
      obtain rfl : inst = inst' := Except.ok.inj (hinst.symm.trans hinst')
      rw [hk]
      rfl
    · obtain rfl := effectsOf_of_arraySet hinst hk he
      rw [hk]
      rfl

/-- An access that can be seen through: one to an array, or to a field that is not volatile. -/
def Graph.isPlainAccess (g : Graph) (k : Kind) : Bool := (k.isLoad || k.isStore) && !g.isOpen k

/-- The instructions with a location are the plain accesses. -/
theorem Graph.isSome_location? {o : Option Location} (hinst : g.inst i = .ok inst) (h : g.location? i = .ok o) :
    o.isSome = g.isPlainAccess inst.kind := by
  rw [location?, kind_eq_ok.2 ⟨inst, hinst, rfl⟩] at h
  cases hk : inst.kind with
  | instanceGet f | instanceSet f | staticGet f | staticSet f =>
    rw [hk] at h
    rcases fieldLocation?_eq_ok h with ⟨hvol, rfl⟩ | ⟨hvol, o, -, rfl⟩ <;>
      simp [isPlainAccess, isOpen, Kind.isForeign, Kind.field?, Kind.isLoad, Kind.isStore, hvol]
  | arrayGet =>
    simp only [hk, Checked.bind_eq_ok, Except.ok.injEq, exists_eq_left', Checked.pure_eq_ok] at h
    obtain ⟨_, -, _, -, _, -, rfl⟩ := h
    rfl
  | arraySet =>
    simp only [hk, Checked.bind_eq_ok, Except.ok.injEq, exists_eq_left', Checked.pure_eq_ok] at h
    obtain ⟨_, -, _, -, _, -, _, -, rfl⟩ := h
    rfl
  | _ =>
    rw [hk] at h
    obtain rfl := Checked.pure_eq_ok.1 h
    rfl

/-! ## Methods that were read -/

/-- Where an instruction goes to can be told in any block of a method that was read. -/
theorem Graph.Legible.exists_location? {h : Header} {params : Nat} {items : List Item}
    (hg : g.Legible h params items) (hl : g.Furnished) (hi : i ∈ g.attached) : ∃ o, g.location? i = .ok o := by
  have hsound := hg.sound
  have hoperand : ∀ {i inst k}, i ∈ g.attached → g.inst i = .ok inst → k < inst.kind.needs →
      ∃ x, inst.inputs[k]? = some x ∧ x ∈ g.attached := by
    intro i inst k hi hinst hk
    obtain ⟨x, hx⟩ := hl.exists_operand hi hinst hk
    obtain ⟨xinst, hxinst⟩ := hsound.inRange.operands x (isRead_of_mem hi hinst (List.mem_of_getElem? hx))
    exact ⟨x, hx, hg.mem_attached hxinst⟩
  obtain ⟨inst, hinst⟩ := hsound.intact.exists_inst hi
  refine exists_location?_of_operands hinst (fun f => hsound.inRange.fields.exists_field hi hinst)
    (fun hneeds => ?_) fun k hk => ?_
  · obtain ⟨x, hx, hxatt⟩ := hoperand hi hinst hneeds
    obtain ⟨y, hy⟩ : ∃ y, g.unchecked x = .ok y := by
      refine exists_unchecked_of (P := (· ∈ g.attached)) hxatt fun z hz => ?_
      obtain ⟨zinst, hzinst⟩ := hsound.intact.exists_inst hz
      exact ⟨zinst, hzinst, fun hcheck => hoperand hz hzinst (by rw [hcheck]; decide)⟩
    exact ⟨x, y, input_eq_ok.2 ⟨inst, hinst, hx⟩, hy⟩
  · obtain ⟨x, hx, hxatt⟩ := hoperand hi hinst hk
    obtain ⟨xinst, hxinst⟩ := hsound.intact.exists_inst hxatt
    exact ⟨x, input_eq_ok.2 ⟨inst, hinst, hx⟩, xinst.ty, ty_eq_ok.2 ⟨xinst, hxinst, rfl⟩⟩

/-- A loop that stores to a location counts as writing its category, if the field of the store is declared the
way the store goes to it. -/
theorem EffectSummary.Summarizes.mayWrite_category {t : DomTree} {s : EffectSummary} {h b : BlockId}
    (hs : Summarizes g t s) (hloop : g.InLoop h b) (hi : i ∈ g.bodyOf b) (hinst : g.inst i = .ok inst)
    (hstore : inst.kind.isStore = true) (hl : g.location? i = .ok (some l)) (hfits : g.FieldFits inst.kind) :
    (s.ofHeader h).mayWrite (l.category g) = true := by
  obtain ⟨block, hblock, hi⟩ := mem_bodyOf.1 hi
  have he := hs.insts b block i hloop.1 hblock hi
  refine hs.headers h b block i _ hloop hblock hi ?_
  rw [((location?_eq_some hinst hl).effectsOf_eq_iff hinst he).2 hfits, Effects.ofAccess, if_pos hstore]
  exact Effects.mayWrite_write _

/-- In a method that was read and has the documented operands, the plain accesses and no other instructions
have a location; the effect of each is an access to the category of its location exactly when its field is
declared the way the access goes to it; and the summary of a loop has the category of every location that a
store of this kind in the loop goes to. -/
theorem category_of_location_iff_fieldFits {text : String} {gs : List Graph} (hread : readMethods text = .ok gs)
    (hg : g ∈ gs) (hl : g.Layout) :
    (∀ i ∈ g.attached, ∃ inst o e, g.inst i = .ok inst ∧ g.location? i = .ok o ∧ g.effectsOf i = .ok e ∧
      o.isSome = g.isPlainAccess inst.kind ∧
      ∀ l ∈ o, e = .ofAccess inst.kind.isStore (l.category g) ↔ g.FieldFits inst.kind) ∧
    ∀ settings, ∃ u s, (Manager.runGated settings.verify 0 SideEffects.pass).run (.new g settings) =
      (.ok (), u) ∧ u.analyses.sideEffects = some s ∧
      ∀ h b i inst l, g.InLoop h b → i ∈ g.bodyOf b → g.inst i = .ok inst → inst.kind.isStore = true →
        g.location? i = .ok (some l) → g.FieldFits inst.kind →
          (s.ofHeader h).mayWrite (l.category g) = true := by
  obtain ⟨header, params, items, hlegible⟩ := exists_legible_of_readMethods hread hg
  have hsound := hlegible.sound
  refine ⟨fun i hi => ?_, fun settings => ?_⟩
  · obtain ⟨inst, hinst⟩ := hsound.intact.exists_inst hi
    obtain ⟨o, ho⟩ := hlegible.exists_location? hl.furnished hi
    obtain ⟨e, he⟩ := hsound.intact.exists_effectsOf hsound.inRange.fields hsound.inRange.operands hi
      fun inst hinst => hl.furnished.three_le_length hi hinst
    refine ⟨inst, o, e, hinst, ho, he, isSome_location? hinst ho, fun l hl => ?_⟩
    rw [Option.mem_def.1 hl] at ho
    exact (location?_eq_some hinst ho).effectsOf_eq_iff hinst he
  · obtain ⟨u, t, s, hrun, -, ht, hfold, hs⟩ :=
      SideEffects.exists_published (u := .new g settings) hsound.intact
      hsound.inRange.entry hl hsound.inRange.fields hsound.inRange.operands (SideEffects.current_new g settings)
      settings.verify 0
    refine ⟨u, s.finish g, hrun, hs, fun h b i inst l hloop hi hinst hstore hl hfits => ?_⟩
    exact (EffectSummary.summarizes_finish hsound.intact.consistent ht hfold).mayWrite_category hloop hi hinst
      hstore hl hfits

/-- The lines of a method that sums up a static field in an object, behind a check, in a loop. -/
def tallyLines : List String :=
  ["method @tally(%p: ref, %c: bool) static \x7b",
   "  field @A.n : int \x7boffset = 8\x7d",
   "  field @G.x : int \x7boffset = 0, static = true\x7d",
   "^in:",
   "  goto [^loop]",
   "^loop:",
   "  %q = null_check %p : ref",
   "  %x = static_get \x7bfield = @G.x\x7d : int",
   "  instance_set %q, %x \x7bfield = @A.n\x7d",
   "  if %c [^loop, ^out]",
   "^out:",
   "  return",
   "\x7d"]

/-- In the text of `tallyLines` the store in the loop has the category of its location, which the summary of
the loop has too. -/
theorem category_of_location_iff_fieldFits_tally :
    ∃ g, readMethods (String.ofList (charsOf tallyLines)) = .ok [g] ∧ g.Layout ∧
      g.location? ⟨5⟩ = .ok (some ⟨some ⟨0⟩, .instanceField ⟨0⟩⟩) ∧
      g.effectsOf ⟨5⟩ = .ok (.write (.instanceField .int)) ∧ g.InLoop ⟨1⟩ ⟨1⟩ ∧
      ∃ u s, (Manager.runGated true 0 SideEffects.pass).run (.new g .default) = (.ok (), u) ∧
        u.analyses.sideEffects = some s ∧ (s.ofHeader ⟨1⟩).mayWrite (.instanceField .int) = true := by
  obtain ⟨g, hread, hl, hinst, hlocation, hfits, hbody, hentry, hback, hty⟩ :=
    Graph.exists_of_onlyOf? (charsOf tallyLines) (fun g => g.Layout ∧
      g.inst ⟨5⟩ = .ok ⟨.instanceSet ⟨0⟩, .void, [⟨3⟩, ⟨4⟩], some ⟨1⟩, false⟩ ∧
      g.location? ⟨5⟩ = .ok (some ⟨some ⟨0⟩, .instanceField ⟨0⟩⟩) ∧ g.FieldFits (.instanceSet ⟨0⟩) ∧
      ⟨5⟩ ∈ g.bodyOf ⟨1⟩ ∧ ⟨1⟩ ∈ g.succs g.entry ∧ ⟨1⟩ ∈ g.succs ⟨1⟩ ∧ g.fieldTy ⟨0⟩ = .int) (by decide +kernel)
  have hcategory : Location.category g ⟨some ⟨0⟩, .instanceField ⟨0⟩⟩ = .instanceField .int :=
    congrArg Category.instanceField hty
  have hreach : g.Reachable ⟨1⟩ := .tail (.refl trivial) hentry trivial
  have hloop : g.InLoop ⟨1⟩ ⟨1⟩ := ⟨hreach, ⟨1⟩, ⟨hback, .refl hreach⟩, .inl rfl⟩
  obtain ⟨hagree, hsummary⟩ := category_of_location_iff_fieldFits hread List.mem_cons_self hl
  obtain ⟨block, hblock, hmem⟩ := mem_bodyOf.1 hbody
  obtain ⟨inst, o, e, hinst', hlocation', heffects, -, hiff⟩ :=
    hagree ⟨5⟩ (mem_attached.2 ⟨_, block, hblock, hmem⟩)
  obtain rfl := Except.ok.inj (hinst.symm.trans hinst')
  obtain rfl := Except.ok.inj (hlocation.symm.trans hlocation')
  obtain ⟨u, s, hrun, hs, hstores⟩ := hsummary .default
  refine ⟨g, hread, hl, hlocation, ?_, hloop, u, s, hrun, hs, ?_⟩
  · rw [heffects, (hiff _ rfl).2 hfits, hcategory]
    rfl
  · rw [← hcategory]
    exact hstores ⟨1⟩ ⟨1⟩ ⟨5⟩ _ _ hloop hbody hinst rfl hlocation hfits

/-- The lines of a method that reads and sets a static field through an object, in a loop. -/
def staticThroughObjectLines : List String :=
  ["method @stale(%p: ref, %v: int, %c: bool) static \x7b",
   "  field @G.x : int \x7boffset = 8, static = true\x7d",
   "^in:",
   "  %a = instance_get %p \x7bfield = @G.x\x7d : int",
   "  goto [^loop]",
   "^loop:",
   "  %b = instance_get %p \x7bfield = @G.x\x7d : int",
   "  instance_set %p, %v \x7bfield = @G.x\x7d",
   "  if %c [^loop, ^out]",
   "^out:",
   "  return %b",
   "\x7d"]

/-- An accepted method whose store in a loop goes to a field of an object but counts as a store to static
memory. The loop is not taken to write to the field, so the load in it gives way to the load before it, and
the method returns the value from before the first store. -/
theorem staticThroughObject_load_stale :
    ∃ g, readMethods (String.ofList (charsOf staticThroughObjectLines)) = .ok [g] ∧
      g.violations = .ok [] ∧ g.Layout ∧ g.location? ⟨6⟩ = .ok (some ⟨some ⟨0⟩, .instanceField ⟨0⟩⟩) ∧
      Location.category g ⟨some ⟨0⟩, .instanceField ⟨0⟩⟩ = .instanceField .int ∧
      g.effectsOf ⟨6⟩ = .ok (.write (.staticField .int)) ∧
      (EffectSummary.ofGraph g).toOption.map (fun s => (s.ofHeader ⟨1⟩).mayWrite (.instanceField .int)) =
        some false ∧
      (optimize g ⟨[.sideEffects, .loadStore], [], true, 0⟩).toOption.map (·.graph.operandsOf ⟨8⟩) =
        some [⟨3⟩] := by
  exact Graph.exists_of_onlyOf? _ (fun g => g.violations = .ok [] ∧ g.Layout ∧
    g.location? ⟨6⟩ = .ok (some ⟨some ⟨0⟩, .instanceField ⟨0⟩⟩) ∧
    Location.category g ⟨some ⟨0⟩, .instanceField ⟨0⟩⟩ = .instanceField .int ∧
    g.effectsOf ⟨6⟩ = .ok (.write (.staticField .int)) ∧
    (EffectSummary.ofGraph g).toOption.map (fun s => (s.ofHeader ⟨1⟩).mayWrite (.instanceField .int)) =
      some false ∧
    (optimize g ⟨[.sideEffects, .loadStore], [], true, 0⟩).toOption.map (·.graph.operandsOf ⟨8⟩) = some [⟨3⟩])
    (by decide +kernel)

end Midend
