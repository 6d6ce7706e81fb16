import Midend.Proofs.NullFacts

/-!
# The greatest solution of the nullability equations

What the nullability analysis computes, said without the iteration.  A set of values is supported when
each member is not null by its own kind, and a phi in it has operands that are dereferenced on the way to
their predecessors' ends or are members too.  The analysis finds the union of all supported sets.

## Shape of the argument

That the answer is supported is known already.  For the other half, no sweep lowers a member of a
supported set: a phi that is a member finds all its operands not null.  The dereferences that the
analysis collects are all there are in reachable blocks, so they can be read off the graph.

Facts that answer like the solution of a graph represent it.  A value that is never null needs no
dereferences, so two representations of one graph may differ there; their answers do not.
-/

namespace Midend

namespace NullFacts

open Midend.Graph

variable {g : Graph} {t : DomTree} {f f' : NullFacts} {i x y d : InstId} {b p : BlockId} {n : Nat}
  {S : InstId → Prop} {inst : Inst}

/-! ## Solutions -/

theorem Live.mem_attached (h : Live g x) : x ∈ g.attached := by
  obtain ⟨b, n, -, hat⟩ := h
  exact hat.mem_attached

/-- A value is dereferenced on the way to the end of a block. -/
def DerefdAt (g : Graph) (x : InstId) (p : BlockId) : Prop :=
  ∃ d b n, g.At d b n ∧ g.Dom b p ∧ Derefs g d x

/-- What a value needs to be in a set of values that are not null. -/
structure Supported (g : Graph) (S : InstId → Prop) (x : InstId) : Prop where
  live : Live g x
  seeded : ∃ inst, g.inst x = .ok inst ∧ seed g.isStatic inst = .notNull
  phi : ∀ inst b, g.inst x = .ok inst → inst.block = some b → inst.kind = .phi → inst.ty = .ref →
    ∀ (k : Nat) y p, inst.inputs[k]? = some y → (g.preds b)[k]? = some p → g.Reachable p →
      DerefdAt g y p ∨ S y

/-- A value is in some set of values that support each other. -/
def NonNull (g : Graph) (x : InstId) : Prop := ∃ S : InstId → Prop, (∀ y, S y → Supported g S y) ∧ S x

/-- What is supported by some values is supported by more. -/
theorem Supported.mono {S' : InstId → Prop} (h : Supported g S x) (hS : ∀ y, S y → S' y) :
    Supported g S' x where
  live := h.live
  seeded := h.seeded
  phi inst b hinst hb hkind hty k y p hy hp hreach :=
    (h.phi inst b hinst hb hkind hty k y p hy hp hreach).imp_right (hS y)

/-- What is not null is supported by what is not null. -/
theorem NonNull.supported (h : NonNull g x) : Supported g (NonNull g) x := by
  obtain ⟨S, hS, hx⟩ := h
  exact (hS x hx).mono fun y hy => ⟨S, hS, hy⟩

theorem NonNull.live (h : NonNull g x) : Live g x := h.supported.live

/-- A null check in a reachable block is in every solution. -/
theorem supported_of_check (hx : Live g x) (hinst : g.inst x = .ok inst) (hkind : inst.kind = .nullCheck) :
    Supported g S x := by
  refine ⟨hx, ⟨inst, hinst, by simp [seed, hkind]⟩, fun inst' b hinst' _ hphi => ?_⟩
  rw [hinst] at hinst'
  cases hinst'
  rw [hkind] at hphi
  cases hphi

/-- The result of a check is not null. -/
theorem nonNull_of_check (hx : Live g x) (hinst : g.inst x = .ok inst) (hkind : inst.kind = .nullCheck) :
    NonNull g x := by
  refine ⟨fun y => y = x, ?_, rfl⟩
  rintro y rfl
  exact supported_of_check hx hinst hkind

/-! ## All dereferences are collected -/

/-- One more instruction adds its dereferences and takes none. -/
theorem mem_derefPoints_addInst (h : addInst g f i = .ok f') :
    (∀ x d, d ∈ f.derefPoints x → d ∈ f'.derefPoints x) ∧ ∀ x, Derefs g i x → i ∈ f'.derefPoints x := by
  simp only [addInst, Checked.bind_eq_ok] at h
  obtain ⟨inst, hinst, h⟩ := h
  cases hk : inst.kind.dereferencedInput? with
  | none =>
    simp only [hk, Checked.pure_eq_ok] at h
    subst h
    refine ⟨fun x d hd => hd, ?_⟩
    rintro x ⟨inst', k, r, hinst', hk', -⟩
    rw [hinst] at hinst'
    cases hinst'
    rw [hk] at hk'
    cases hk'
  | some k =>
    simp only [hk, Checked.bind_eq_ok, input_eq_ok, Checked.pure_eq_ok] at h
    obtain ⟨r, ⟨_, hinst', hr⟩, behind, hbehind, h⟩ := h
    rw [hinst] at hinst'
    cases hinst'
    -- the instruction faults on its operand and on what is behind it, and on nothing else
    have hderefs : ∀ x, Derefs g i x → x = r ∨ x = behind := by
      rintro x ⟨inst', k', r', hinst', hk', hr', hx⟩
      rw [hinst] at hinst'
      cases hinst'
      obtain rfl := Option.some.inj (hk.symm.trans hk')
      obtain rfl := Option.some.inj (hr.symm.trans hr')
      exact hx.imp_right fun hx => (Except.ok.inj (hbehind.symm.trans hx)).symm
    subst h
    split
    · next heq =>
      refine ⟨fun x d hd => derefPoints_addDeref.2 (.inl hd), fun x hx => ?_⟩
      rcases hderefs x hx with rfl | rfl
      · exact derefPoints_addDeref.2 (.inr ⟨rfl, rfl⟩)
      · exact derefPoints_addDeref.2 (.inr ⟨rfl, heq⟩)
    · refine ⟨fun x d hd => derefPoints_addDeref.2 (.inl (derefPoints_addDeref.2 (.inl hd))),
        fun x hx => ?_⟩
      rcases hderefs x hx with rfl | rfl
      · exact derefPoints_addDeref.2 (.inl (derefPoints_addDeref.2 (.inr ⟨rfl, rfl⟩)))
      · exact derefPoints_addDeref.2 (.inr ⟨rfl, rfl⟩)

/-- Every dereference is found. -/
theorem mem_derefPoints_of_foldlM {insts : List InstId}
    (h : insts.foldlM (NullFacts.addInst g) .empty = .ok f) (hd : d ∈ insts) (hx : Derefs g d x) :
    d ∈ f.derefPoints x := by
  refine Checked.foldlM_prefix (P := fun done f => ∀ d ∈ done, ∀ x, Derefs g d x → d ∈ f.derefPoints x) h
    (by simp) (fun done i rest f₁ f₂ _ hdone hstep d hd x hx => ?_) d hd x hx
  obtain ⟨hold, hnew⟩ := mem_derefPoints_addInst hstep
  rcases List.mem_append.1 hd with hd | hd
  · exact hold x d (hdone d hd x hx)
  · obtain rfl := List.mem_singleton.1 hd
    exact hnew x hx

/-- What is known before the first sweep: the seeds of reachable instructions and their dereferences. -/
structure Seeds (g : Graph) (f₀ : NullFacts) : Prop where
  live : ∀ x inst, Live g x → g.inst x = .ok inst → f₀.nullability x = seed g.isStatic inst
  others : ∀ x, ¬ Live g x → f₀.nullability x = .maybeNull
  derefs : ∀ x d, d ∈ f₀.derefPoints x ↔ Live g d ∧ Derefs g d x

/-- The facts that are collected first are those that hold without phis. -/
theorem seeds_of_foldlM {insts : List InstId} (hlive : ∀ i, i ∈ insts ↔ Live g i)
    (h : insts.foldlM (NullFacts.addInst g) .empty = .ok f) : Seeds g f := by
  have hcollected := collected_of_foldlM h
  refine ⟨fun x inst hx hinst => ?_, fun x hx => ?_, fun x d => ⟨fun hd => ?_, fun ⟨hd, hx⟩ => ?_⟩⟩
  · obtain ⟨inst', hinst', hvalue⟩ := hcollected.seeded x ((hlive x).2 hx)
    rw [hinst] at hinst'
    cases hinst'
    exact hvalue
  · exact hcollected.others x fun hmem => hx ((hlive x).1 hmem)
  · obtain ⟨hmem, hd⟩ := hcollected.derefs x d hd
    exact ⟨(hlive d).1 hmem, hd⟩
  · exact mem_derefPoints_of_foldlM h ((hlive d).2 hd) hx

/-! ## Sweeps stay above every solution -/

section Sweeps

variable (hw : g.WellFormed) (hg : g.Consistent) (ht : DomTree.ofGraph g = .ok t)
  (hderefs : ∀ x d, d ∈ f.derefPoints x ↔ Live g d ∧ Derefs g d x)
include hw hg ht hderefs

/-- A value is not null where an edge starts if it was dereferenced before or is known not to be null. -/
theorem edgeNonNull_iff : EdgeNonNull g t f x p ↔ DerefdAt g x p ∨ f.nullability x = .notNull := by
  refine or_congr_left ⟨?_, ?_⟩
  · rintro ⟨d, hd, inst, b, hinst, hb, hdom⟩
    obtain ⟨n, hat⟩ := hg.exists_at_block hinst hb
    exact ⟨d, b, n, hat, (DomTree.dominates_iff hg ht).1 hdom, ((hderefs x d).1 hd).2⟩
  · rintro ⟨d, b, n, hat, hdom, hd⟩
    obtain ⟨block, hblock, hget⟩ := id hat
    obtain ⟨inst, hinst, hb⟩ := hw.listed b block d hblock (List.mem_of_getElem? hget)
    exact ⟨d, (hderefs x d).2 ⟨⟨b, n, hdom.left, hat⟩, hd⟩, inst, b, hinst, hb,
      (DomTree.dominates_iff hg ht).2 hdom⟩

/-- A phi in a supported set below the facts is found not null. -/
theorem phiNonNull_of_supported (hS : ∀ y, S y → f.nullability y = .notNull) (hx : Supported g S x)
    (hinst : g.inst x = .ok inst) (hkind : inst.kind = .phi) (hty : inst.ty = .ref) :
    PhiNonNull g t f x := by
  obtain ⟨b, n, -, block, hblock, hget⟩ := hx.live
  obtain ⟨inst', hinst', hb⟩ := hw.listed b block x hblock (List.mem_of_getElem? hget)
  rw [hinst] at hinst'
  cases hinst'
  refine ⟨inst, b, hinst, hb, fun k y p hy hp hreach => ?_⟩
  rw [edgeNonNull_iff hw hg ht hderefs]
  rw [DomTree.isReachable_iff hg ht] at hreach
  exact (hx.phi inst b hinst hb hkind hty k y p hy hp hreach).imp_right (hS y)

end Sweeps

section Settle

variable {phis : List InstId} (hw : g.WellFormed) (hg : g.Consistent) (ht : DomTree.ofGraph g = .ok t)
  (hphis : ∀ x ∈ phis, ∃ inst, g.inst x = .ok inst ∧ inst.kind = .phi ∧ inst.ty = .ref)
  (hsupported : ∀ x, S x → Supported g S x)
include hw hg ht hphis hsupported

/-- A sweep lowers no value of a set that supports itself. -/
theorem sweep_keeps {changed : Bool} (hderefs : ∀ x d, d ∈ f.derefPoints x ↔ Live g d ∧ Derefs g d x)
    (hS : ∀ x, S x → f.nullability x = .notNull) (h : sweep g t phis f = .ok (f', changed)) :
    f'.derefs = f.derefs ∧ ∀ x, S x → f'.nullability x = .notNull := by
  refine Checked.foldlM_prefix (P := fun _ (st : NullFacts × Bool) => st.1.derefs = f.derefs ∧
    ∀ x, S x → st.1.nullability x = .notNull) h ⟨rfl, hS⟩ ?_
  rintro done x rest ⟨f₁, c₁⟩ ⟨f₂, c₂⟩ hsplit ⟨hsame, hS₁⟩ hstep
  obtain ⟨inst, hinst, hkind, hty⟩ := hphis x (by simp [hsplit])
  have hderefs₁ : ∀ x d, d ∈ f₁.derefPoints x ↔ Live g d ∧ Derefs g d x := by
    intro x d
    rw [derefPoints, hsame]
    exact hderefs x d
  have hexist : DerefsExist g f₁ := fun y d hd => by
    obtain ⟨-, inst, -, -, hinst, -⟩ := (hderefs₁ y d).1 hd
    exact ⟨inst, hinst⟩
  obtain ⟨st, hst, hiff⟩ := phiState_spec (t := t) hexist ⟨inst, hinst⟩
  simp only [sweepPhi, hst, Checked.bind_eq_ok, Except.ok.injEq, exists_eq_left'] at hstep
  split at hstep
  · obtain ⟨rfl, -⟩ := Prod.mk.inj (Except.ok.inj hstep)
    exact ⟨hsame, hS₁⟩
  · obtain ⟨rfl, -⟩ := Prod.mk.inj (Except.ok.inj hstep)
    refine ⟨hsame, fun y hy => ?_⟩
    rw [nullability_set]
    split
    · next hyx =>
      subst hyx
      exact hiff.2 (phiNonNull_of_supported hw hg ht hderefs₁ hS₁ (hsupported y hy) hinst hkind hty)
    · exact hS₁ y hy

/-- No sweep lowers a value of a set that supports itself. -/
theorem settle_keeps {left done : Nat}
    (hderefs : ∀ x d, d ∈ f.derefPoints x ↔ Live g d ∧ Derefs g d x)
    (hS : ∀ x, S x → f.nullability x = .notNull)
    (h : settle g t phis left done f = .ok (some f')) :
    f'.derefs = f.derefs ∧ ∀ x, S x → f'.nullability x = .notNull := by
  induction left generalizing f done with
  | zero => simp [settle] at h
  | succ left ih =>
    simp only [settle, Checked.bind_eq_ok] at h
    obtain ⟨⟨f₁, changed⟩, hsweep, h⟩ := h
    obtain ⟨hsame, hS₁⟩ := sweep_keeps hw hg ht hphis hsupported hderefs hS hsweep
    cases changed with
    | true =>
      obtain ⟨hsame', hS'⟩ := ih (fun x d => by rw [derefPoints, hsame]; exact hderefs x d) hS₁ h
      exact ⟨hsame'.trans hsame, hS'⟩
    | false =>
      obtain rfl := Option.some.inj (Except.ok.inj h)
      exact ⟨hsame, hS₁⟩

end Settle

/-! ## The answer is the solution -/

/-- Facts that answer like the solution of a graph, for every value that is still there. -/
structure Represents (g : Graph) (f : NullFacts) : Prop where
  values : ∀ x, g.isRemoved x = false → (f.isNonNull x = true ↔ NonNull g x)
  derefs : ∀ x d, g.isRemoved x = false → d ∈ f.derefPoints x → Live g d ∧ Derefs g d x
  all_derefs : ∀ x d, g.isRemoved x = false → ¬ NonNull g x → Live g d → Derefs g d x →
    d ∈ f.derefPoints x

section Answer

variable (hw : g.WellFormed) (hg : g.Consistent) (hl : g.Furnished) (ht : DomTree.ofGraph g = .ok t)
include hg ht

/-- The answer is supported. -/
theorem Answer.nonNull (hf : Answer g t f) (hx : f.isNonNull x = true) : NonNull g x := by
  refine ⟨fun y => f.isNonNull y = true, fun y hy => ?_, hx⟩
  obtain ⟨hlive, hseed⟩ := hf.seeded y hy
  refine ⟨hlive, hseed, fun inst b hinst hb hkind hty k z p hz hp hreach => ?_⟩
  obtain ⟨inst', b', hinst', hb', hall⟩ := hf.phis y inst hy hinst hkind hty
  rw [hinst] at hinst'
  cases hinst'
  obtain rfl := Option.some.inj (hb.symm.trans hb')
  rcases hall k z p hz hp ((DomTree.isReachable_iff hg ht).2 hreach)
    with ⟨d, hd, dinst, db, hdinst, hdb, hdom⟩ | hz
  · obtain ⟨n, hat⟩ := hg.exists_at_block hdinst hdb
    exact .inl ⟨d, db, n, hat, (DomTree.dominates_iff hg ht).1 hdom, (hf.derefs z d hd).2⟩
  · exact .inr (by simpa [isNonNull] using hz)

include hw hl in
/-- The analysis answers, and its answer is the greatest solution with all the dereferences. -/
theorem ofGraph_represents : ∃ f, ofGraph g t = .ok (some f) ∧ Represents g f := by
  obtain ⟨f, hf, hanswer⟩ := ofGraph_spec hw hg hl ht
  refine ⟨f, hf, ?_⟩
  simp only [ofGraph, Checked.bind_eq_ok] at hf
  obtain ⟨insts, hinsts, phis, hphis, f₀, hf₀, hsettle⟩ := hf
  obtain ⟨insts', hinsts', hlive⟩ := reachableInsts_spec hw hg ht
  obtain rfl : insts = insts' := Except.ok.inj (hinsts.symm.trans hinsts')
  obtain ⟨phis', hphis', hmem⟩ := referencePhis_spec fun i hi => hw.exists_inst ((hlive i).1 hi).mem_attached
  obtain rfl : phis = phis' := Except.ok.inj (hphis.symm.trans hphis')
  have hseeds := seeds_of_foldlM hlive hf₀
  -- the seeds are above the solution
  have hS : ∀ x, NonNull g x → f₀.nullability x = .notNull := by
    intro x hx
    obtain ⟨inst, hinst, hseed⟩ := hx.supported.seeded
    exact (hseeds.live x inst hx.live hinst).trans hseed
  obtain ⟨hsame, habove⟩ := settle_keeps hw hg ht (fun x hx => ((hmem x).1 hx).2)
    (fun x hx => NonNull.supported hx) hseeds.derefs hS hsettle
  refine ⟨fun x _ => ⟨fun hx => hanswer.nonNull hg ht hx, fun hx => ?_⟩,
    fun x d _ hd => hanswer.derefs x d hd, fun x d _ _ hd hx => ?_⟩
  · simpa [isNonNull] using habove x hx
  · rw [derefPoints, hsame]
    exact (hseeds.derefs x d).2 ⟨hd, hx⟩

end Answer

/-! ## Representations agree -/

/-- Two sets of facts answer alike about values and points that are still there. -/
def Agrees (g : Graph) (t : DomTree) (f f' : NullFacts) : Prop :=
  ∀ x, g.isRemoved x = false → f.isNonNull x = f'.isNonNull x ∧
    ∀ i inst, g.inst i = .ok inst → inst.removed = false →
      ∃ r, f.isNonNullAt g t x i = .ok r ∧ f'.isNonNullAt g t x i = .ok r

section Agree

variable (hw : g.WellFormed) (hg : g.Consistent)
include hw hg

/-- The question about a point has an answer: the value is never null, or was dereferenced before. -/
theorem Represents.isNonNullAt_spec (h : Represents g f) (hx : g.isRemoved x = false)
    (hinst : g.inst i = .ok inst) : ∃ r, f.isNonNullAt g t x i = .ok r ∧
      (r = true ↔ NonNull g x ∨ ∃ d, Live g d ∧ Derefs g d x ∧ d ≠ i ∧ t.instDominates g d i = .ok true) := by
  rw [isNonNullAt]
  split
  · next hnn => exact ⟨true, rfl, by simp [(h.values x hx).1 hnn]⟩
  · next hnn =>
    rw [h.values x hx] at hnn
    have hstep : ∀ d ∈ f.derefPoints x,
        ∃ r, (if d = i then return false else t.instDominates g d i : Checked Bool) = .ok r ∧
          (r = true ↔ d ≠ i ∧ t.instDominates g d i = .ok true) := by
      intro d hd
      by_cases hdi : d = i
      · exact ⟨false, by simp [hdi], by simp [hdi]⟩
      · obtain ⟨⟨b, n, -, hat⟩, -⟩ := h.derefs x d hx hd
        obtain ⟨r, hr⟩ := hw.exists_instDominates (t := t) hg hat hinst
        exact ⟨r, by simp [hdi, hr], by simp [hdi, hr]⟩
    obtain ⟨r, hr, hiff⟩ := Checked.anyM_spec hstep
    refine ⟨r, hr, hiff.trans ⟨?_, ?_⟩⟩
    · rintro ⟨d, hd, hdi, hdom⟩
      obtain ⟨hlive, hderefs⟩ := h.derefs x d hx hd
      exact .inr ⟨d, hlive, hderefs, hdi, hdom⟩
    · rintro (hnn' | ⟨d, hlive, hderefs, hdi, hdom⟩)
      · exact absurd hnn' hnn
      · exact ⟨d, h.all_derefs x d hx hnn hlive hderefs, hdi, hdom⟩

/-- Facts that represent the same graph agree. -/
theorem Represents.agrees (h : Represents g f) (h' : Represents g f') : Agrees g t f f' := by
  intro x hx
  refine ⟨?_, fun i inst hinst _ => ?_⟩
  · rw [Bool.eq_iff_iff, h.values x hx, h'.values x hx]
  · obtain ⟨r, hr, hiff⟩ := h.isNonNullAt_spec (t := t) hw hg hx hinst
    obtain ⟨r', hr', hiff'⟩ := h'.isNonNullAt_spec (t := t) hw hg hx hinst
    obtain rfl : r = r' := by rw [Bool.eq_iff_iff, hiff, hiff']
    exact ⟨r, hr, hr'⟩

end Agree

end NullFacts

end Midend
