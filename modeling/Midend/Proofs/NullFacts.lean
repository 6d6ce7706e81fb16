import Midend.Pass.Nullability
import Midend.Proofs.Availability

/-!
# What the nullability analysis answers

The analysis always answers on a well-formed graph, and its answer is a fixed point: a phi that it calls
not null has operands that are not null at the ends of their predecessors, by the same answer.

## Shape of the argument

Sweeps only ever lower phis from not null to maybe null.  What carries this is that a phi already lowered
would be lowered again (`Descending`): the state of a phi grows with the states it reads, and those have
only gone down since.  So each sweep that changes something lowers one more phi, and the sweeps suffice.
-/

namespace Midend

namespace NullFacts

open Midend.Graph

variable {g : Graph} {t : DomTree} {f f' : NullFacts} {i x y d : InstId} {p : BlockId}

/-! ## Collecting the facts -/

/-- An instruction faults when a value is null: it dereferences the value, or a check of it. -/
def Derefs (g : Graph) (d x : InstId) : Prop :=
  ∃ inst k r, g.inst d = .ok inst ∧ inst.kind.dereferencedInput? = some k ∧
    inst.inputs[k]? = some r ∧ (x = r ∨ g.unchecked r = .ok x)

/-- One more dereference is found at its point. -/
theorem derefPoints_addDeref {v point : InstId} :
    d ∈ (f.addDeref v point).derefPoints x ↔ d ∈ f.derefPoints x ∨ (d = point ∧ x = v) := by
  simp only [derefPoints, addDeref, Table.modify, Table.get_set, InstId.index_inj]
  by_cases hx : x = v <;> simp [hx]

/-- One instruction adds its own seed, and itself to the values it faults on. -/
theorem addInst_spec (h : addInst g f i = .ok f') : ∃ inst, g.inst i = .ok inst ∧
    (∀ x, f'.nullability x = if x = i then seed g.isStatic inst else f.nullability x) ∧
    ∀ x d, d ∈ f'.derefPoints x → d ∈ f.derefPoints x ∨ (d = i ∧ Derefs g i x) := by
  have hget : ∀ (v : Nullability) x, (f.values.set i.index v).get x.index =
      if x = i then v else f.nullability x := by
    intro v x
    simp only [Table.get_set, InstId.index_inj, nullability]
  simp only [addInst, Checked.bind_eq_ok] at h
  obtain ⟨inst, hinst, h⟩ := h
  refine ⟨inst, hinst, ?_⟩
  cases hk : inst.kind.dereferencedInput? with
  | none =>
    simp only [hk, Checked.pure_eq_ok] at h
    subst h
    exact ⟨hget _, fun x d hd => .inl hd⟩
  | some k =>
    simp only [hk, Checked.bind_eq_ok, input_eq_ok, Checked.pure_eq_ok] at h
    obtain ⟨r, ⟨_, hinst', hr⟩, behind, hbehind, h⟩ := h
    rw [hinst] at hinst'
    cases hinst'
    subst h
    have hr' : Derefs g i r := ⟨inst, k, r, hinst, hk, hr, .inl rfl⟩
    have hbehind' : Derefs g i behind := ⟨inst, k, r, hinst, hk, hr, .inr hbehind⟩
    split
    · refine ⟨hget _, fun x d hd => ?_⟩
      rcases derefPoints_addDeref.1 hd with hd | ⟨rfl, rfl⟩
      · exact .inl hd
      · exact .inr ⟨rfl, hr'⟩
    · refine ⟨hget _, fun x d hd => ?_⟩
      rcases derefPoints_addDeref.1 hd with hd | ⟨rfl, rfl⟩
      · rcases derefPoints_addDeref.1 hd with hd | ⟨rfl, rfl⟩
        · exact .inl hd
        · exact .inr ⟨rfl, hr'⟩
      · exact .inr ⟨rfl, hbehind'⟩

/-- The seeds of some instructions, and the dereferences among them. -/
structure Collected (g : Graph) (insts : List InstId) (f : NullFacts) : Prop where
  seeded : ∀ x ∈ insts, ∃ inst, g.inst x = .ok inst ∧ f.nullability x = seed g.isStatic inst
  others : ∀ x, x ∉ insts → f.nullability x = .maybeNull
  derefs : ∀ x d, d ∈ f.derefPoints x → d ∈ insts ∧ Derefs g d x

theorem Collected.empty : Collected g [] .empty where
  seeded := by simp
  others x _ := Table.get_empty _
  derefs x d hd := by
    have hempty : NullFacts.empty.derefPoints x = [] := Table.get_empty _
    rw [hempty] at hd
    cases hd

/-- One more instruction adds what it tells about its result and its operands. -/
theorem Collected.addInst {insts : List InstId} (hf : Collected g insts f) (h : addInst g f i = .ok f') :
    Collected g (insts ++ [i]) f' := by
  obtain ⟨inst, hinst, hvalues, hderefs⟩ := addInst_spec h
  refine ⟨fun x hx => ?_, fun x hx => ?_, fun x d hd => ?_⟩
  · rw [hvalues]
    by_cases hxi : x = i
    · exact ⟨inst, hxi ▸ hinst, if_pos hxi⟩
    · rw [if_neg hxi]
      exact hf.seeded x (by simpa [hxi] using hx)
  · have hxi : x ≠ i := fun h => hx (by simp [h])
    rw [hvalues, if_neg hxi]
    exact hf.others x fun h => hx (List.mem_append_left _ h)
  · rcases hderefs x d hd with hd | ⟨rfl, hd⟩
    · exact ⟨List.mem_append_left _ (hf.derefs x d hd).1, (hf.derefs x d hd).2⟩
    · exact ⟨by simp, hd⟩

/-- Going through instructions collects what each of them tells. -/
theorem collected_of_foldlM {insts : List InstId} (h : insts.foldlM (NullFacts.addInst g) .empty = .ok f) :
    Collected g insts f :=
  Checked.foldlM_prefix h .empty fun _ _ _ _ _ _ hf hstep => hf.addInst hstep

/-! ## Phis -/

/-- An operand is not null at the end of a block: it was dereferenced on the way there, or is never
null. -/
def EdgeNonNull (g : Graph) (t : DomTree) (f : NullFacts) (x : InstId) (p : BlockId) : Prop :=
  (∃ d ∈ f.derefPoints x, ∃ inst db, g.inst d = .ok inst ∧ inst.block = some db ∧
    t.dominates db p = true) ∨ f.nullability x = .notNull

/-- All operands of a phi are not null at the ends of their reachable predecessors. -/
def PhiNonNull (g : Graph) (t : DomTree) (f : NullFacts) (phi : InstId) : Prop :=
  ∃ inst b, g.inst phi = .ok inst ∧ inst.block = some b ∧
    ∀ (k : Nat) x p, inst.inputs[k]? = some x → (g.preds b)[k]? = some p → t.isReachable p = true →
      EdgeNonNull g t f x p

/-- The instructions said to dereference something exist. -/
def DerefsExist (g : Graph) (f : NullFacts) : Prop :=
  ∀ x, ∀ d ∈ f.derefPoints x, ∃ inst, g.inst d = .ok inst

/-- Whether a dereference dominates a block is told without a fault. -/
theorem derefDominates_spec (hf : DerefsExist g f) : ∃ b, derefDominates g t f x p = .ok b ∧
    (b = true ↔ ∃ d ∈ f.derefPoints x, ∃ inst db, g.inst d = .ok inst ∧ inst.block = some db ∧
      t.dominates db p = true) := by
  refine Checked.anyM_spec fun d hd => ?_
  obtain ⟨inst, hinst⟩ := hf x d hd
  rw [blockOf_eq_ok.2 ⟨inst, hinst, rfl⟩]
  cases hblock : inst.block with
  | none => exact ⟨false, rfl, by simp [hinst, hblock]⟩
  | some db => exact ⟨t.dominates db p, rfl, by simp [hinst, hblock]⟩

/-- A value is not null where an edge starts if it is not null anywhere or was dereferenced on every path
there. -/
theorem edgeState_spec (hf : DerefsExist g f) : ∃ st, edgeState g t f x p = .ok st ∧
    (st = .notNull ↔ EdgeNonNull g t f x p) := by
  obtain ⟨b, hb, hdom⟩ := derefDominates_spec (t := t) (x := x) (p := p) hf
  refine ⟨if b then .notNull else f.nullability x, ?_, ?_⟩
  · simp only [edgeState, Checked.bind_eq_ok, Checked.pure_eq_ok]
    exact ⟨b, hb, rfl⟩
  · rw [EdgeNonNull, ← hdom]
    cases b <;> simp

theorem join_eq_notNull {a b : Nullability} : a.join b = .notNull ↔ a = .notNull ∧ b = .notNull := by
  cases a <;> cases b <;> simp [Nullability.join]

/-- The state of a phi is what its operands say. -/
theorem phiState_spec (hf : DerefsExist g f) (hphi : ∃ inst, g.inst x = .ok inst) :
    ∃ st, phiState g t f x = .ok st ∧ (st = .notNull ↔ PhiNonNull g t f x) := by
  obtain ⟨inst, hinst⟩ := hphi
  cases hblock : inst.block with
  | none =>
    refine ⟨.maybeNull, by simp [phiState, hinst, hblock], ?_⟩
    simp only [reduceCtorEq, false_iff]
    rintro ⟨inst', b, hinst', hb, -⟩
    rw [hinst] at hinst'
    cases hinst'
    rw [hblock] at hb
    cases hb
  | some b =>
    have hfold : ∀ (live : List (InstId × BlockId)) (acc : Nullability), ∃ st,
        live.foldlM (fun acc (x : InstId × BlockId) =>
          (do return acc.join (← edgeState g t f x.1 x.2) : Checked Nullability)) acc = .ok st ∧
        (st = .notNull ↔ acc = .notNull ∧ ∀ x ∈ live, EdgeNonNull g t f x.1 x.2) := by
      intro live
      induction live with
      | nil => exact fun acc => ⟨acc, rfl, by simp⟩
      | cons e live ih =>
        intro acc
        obtain ⟨st₁, hst₁, hiff₁⟩ := edgeState_spec (t := t) (x := e.1) (p := e.2) hf
        obtain ⟨st, hst, hiff⟩ := ih (acc.join st₁)
        refine ⟨st, ?_, ?_⟩
        · simp only [List.foldlM_cons, hst₁, Checked.bind_eq_ok, Checked.pure_eq_ok, Except.ok.injEq,
            exists_eq_left']
          exact hst
        · rw [hiff, join_eq_notNull, hiff₁]
          simp [and_assoc]
    obtain ⟨st, hst, hiff⟩ := hfold
      ((inst.inputs.zip (g.preds b)).filter fun e => t.isReachable e.2) .notNull
    refine ⟨st, ?_, ?_⟩
    · simp only [phiState, hinst, hblock, Checked.bind_eq_ok, Except.ok.injEq, exists_eq_left']
      exact hst
    · have hlive : ∀ e : InstId × BlockId,
          e ∈ ((inst.inputs.zip (g.preds b)).filter fun e => t.isReachable e.2) ↔
            (∃ k : Nat, inst.inputs[k]? = some e.1 ∧ (g.preds b)[k]? = some e.2) ∧
              t.isReachable e.2 = true := by
        intro e
        rw [List.mem_filter, List.mem_iff_getElem?]
        simp only [List.getElem?_zip_eq_some]
      simp only [hiff, true_and, hlive]
      constructor
      · intro h
        exact ⟨inst, b, hinst, hblock, fun k x p hx hp hreach => h (x, p) ⟨⟨k, hx, hp⟩, hreach⟩⟩
      · rintro ⟨inst', b', hinst', hb', h⟩ ⟨x, p⟩ ⟨⟨k, hx, hp⟩, hreach⟩
        rw [hinst] at hinst'
        cases hinst'
        rw [hblock] at hb'
        cases hb'
        exact h k x p hx hp hreach

/-! ## Sweeps -/

/-- Some values have been lowered from not null to maybe null, and nothing else has changed. -/
structure Lowered (f f' : NullFacts) : Prop where
  derefs : f'.derefs = f.derefs
  values : ∀ x, f'.nullability x = .notNull → f.nullability x = .notNull

theorem Lowered.refl (f : NullFacts) : Lowered f f := ⟨rfl, fun _ h => h⟩

theorem Lowered.trans {f₁ f₂ f₃ : NullFacts} (h : Lowered f₁ f₂) (h' : Lowered f₂ f₃) : Lowered f₁ f₃ :=
  ⟨h'.derefs.trans h.derefs, fun x hx => h.values x (h'.values x hx)⟩

/-- Dereferences stay in the graph while values are lowered. -/
theorem Lowered.derefsExist (h : Lowered f f') (hf : DerefsExist g f) : DerefsExist g f' := by
  intro x d hd
  rw [derefPoints, h.derefs] at hd
  exact hf x d hd

/-- The state of a phi grows with the states it reads. -/
theorem PhiNonNull.of_lowered (h : Lowered f f') (hx : PhiNonNull g t f' x) : PhiNonNull g t f x := by
  obtain ⟨inst, b, hinst, hb, hall⟩ := hx
  refine ⟨inst, b, hinst, hb, fun k y p hy hp hreach => ?_⟩
  rcases hall k y p hy hp hreach with ⟨d, hd, hdom⟩ | hy
  · rw [derefPoints, h.derefs] at hd
    exact .inl ⟨d, hd, hdom⟩
  · exact .inr (h.values y hy)

/-- A phi that is called maybe null has an operand that may be. -/
def Descending (g : Graph) (t : DomTree) (phis : List InstId) (f : NullFacts) : Prop :=
  ∀ phi ∈ phis, PhiNonNull g t f phi → f.nullability phi = .notNull

/-- The phis that are still called not null. -/
def high (phis : List InstId) (f : NullFacts) : Nat := phis.countP f.isNonNull

theorem nullability_set (v : Nullability) : ({ f with values := f.values.set x.index v }).nullability y =
    if y = x then v else f.nullability y := by
  simp only [nullability, Table.get_set, InstId.index_inj]

/-- One phi is at its state already, or it is lowered. -/
theorem sweepPhi_spec {phis : List InstId} (changed : Bool) (hf : DerefsExist g f)
    (hd : Descending g t phis f) (hx : x ∈ phis) (hphi : ∃ inst, g.inst x = .ok inst) :
    (sweepPhi g t (f, changed) x = .ok (f, changed) ∧
      phiState g t f x = .ok (f.nullability x)) ∨
    ∃ f', sweepPhi g t (f, changed) x = .ok (f', true) ∧ Lowered f f' ∧ Descending g t phis f' ∧
      f.nullability x = .notNull ∧ f'.nullability x = .maybeNull := by
  obtain ⟨st, hst, hiff⟩ := phiState_spec (t := t) hf hphi
  simp only [sweepPhi, Checked.bind_eq_ok, hst, Except.ok.injEq, exists_eq_left']
  by_cases hsame : st = f.nullability x
  · exact .inl ⟨by simp [hsame], hsame⟩
  -- a phi called maybe null would not be found not null
  have hlow : st = .maybeNull ∧ f.nullability x = .notNull := by
    cases hst' : st with
    | notNull => exact absurd (hst'.trans (hd x hx (hiff.1 hst')).symm) hsame
    | maybeNull =>
      refine ⟨rfl, ?_⟩
      cases hv : f.nullability x with
      | notNull => rfl
      | maybeNull => exact absurd (hst'.trans hv.symm) hsame
  have hnot : ¬ PhiNonNull g t f x := fun h => by simp [hiff.2 h] at hlow
  have hlowered : Lowered f { f with values := f.values.set x.index st } := by
    refine ⟨rfl, fun y hy => ?_⟩
    rw [nullability_set] at hy
    split at hy
    · next h => exact h ▸ hlow.2
    · exact hy
  refine .inr ⟨_, by simp [hsame], hlowered, fun phi hphi hnn => ?_, hlow.2, ?_⟩
  · rw [nullability_set, if_neg]
    · exact hd phi hphi (hnn.of_lowered hlowered)
    · rintro rfl
      exact hnot (hnn.of_lowered hlowered)
  · rw [nullability_set, if_pos rfl, hlow.1]

/-- A sweep that changes nothing has found every phi at its state; any other has lowered a phi. -/
theorem sweep_spec {phis : List InstId} (hf : DerefsExist g f) (hd : Descending g t phis f)
    (hphis : ∀ x ∈ phis, ∃ inst, g.inst x = .ok inst) :
    ∃ f' changed, sweep g t phis f = .ok (f', changed) ∧ Lowered f f' ∧ Descending g t phis f' ∧
      (changed = false → f' = f ∧ ∀ x ∈ phis, phiState g t f x = .ok (f.nullability x)) ∧
      (changed = true → high phis f' < high phis f) := by
  have key : ∀ (rest done : List InstId) (st : NullFacts × Bool), phis = done ++ rest →
      (Lowered f st.1 ∧ Descending g t phis st.1 ∧
        (st.2 = false → st.1 = f ∧ ∀ x ∈ done, phiState g t f x = .ok (f.nullability x)) ∧
        (st.2 = true → high phis st.1 < high phis f)) →
      ∃ st', rest.foldlM (sweepPhi g t) st = .ok st' ∧ Lowered f st'.1 ∧ Descending g t phis st'.1 ∧
        (st'.2 = false → st'.1 = f ∧ ∀ x ∈ phis, phiState g t f x = .ok (f.nullability x)) ∧
        (st'.2 = true → high phis st'.1 < high phis f) := by
    intro rest
    induction rest with
    | nil =>
      rintro done st hsplit ⟨hlow, hd', hsame, hless⟩
      refine ⟨st, rfl, hlow, hd', ?_, hless⟩
      rw [hsplit, List.append_nil]
      exact hsame
    | cons x rest ih =>
      rintro done ⟨f₁, changed⟩ hsplit ⟨hlow, hd', hsame, hless⟩
      have hx : x ∈ phis := by simp [hsplit]
      simp only [List.foldlM_cons, Checked.bind_eq_ok]
      have hstep := sweepPhi_spec changed (hlow.derefsExist hf) hd' hx (hphis x hx)
      rcases hstep with ⟨hst, hstate⟩ | ⟨f₂, hst, hlow₂, hd₂, hhigh, hlow'⟩
      · have hdone : changed = false → f₁ = f ∧
            ∀ y ∈ done ++ [x], phiState g t f y = .ok (f.nullability y) := by
          intro hc
          obtain ⟨rfl, hall⟩ := hsame hc
          refine ⟨rfl, fun y hy => ?_⟩
          rcases List.mem_append.1 hy with hy | hy
          · exact hall y hy
          · obtain rfl : y = x := by simpa using hy
            exact hstate
        obtain ⟨st', hst', h⟩ := ih (done ++ [x]) (f₁, changed) (by simpa using hsplit)
          ⟨hlow, hd', hdone, hless⟩
        exact ⟨st', ⟨_, hst, hst'⟩, h⟩
      · have hless₂ : high phis f₂ < high phis f₁ := by
          refine countP_lt_countP (fun y _ hy => ?_) hx (by simp [isNonNull, hlow'])
            (by simp [isNonNull, hhigh])
          simp only [isNonNull, decide_eq_true_eq] at hy ⊢
          exact hlow₂.values y hy
        have hle : high phis f₁ ≤ high phis f := by
          refine List.countP_mono_left fun y _ hy => ?_
          simp only [isNonNull, decide_eq_true_eq] at hy ⊢
          exact hlow.values y hy
        obtain ⟨st', hst', h⟩ := ih (done ++ [x]) (f₂, true) (by simpa using hsplit)
          ⟨hlow.trans hlow₂, hd₂, by simp, fun _ => by simp only; omega⟩
        exact ⟨st', ⟨_, hst, hst'⟩, h⟩
  obtain ⟨⟨f', changed⟩, hst, h⟩ := key phis [] (f, false) rfl ⟨.refl f, hd, by simp, by simp⟩
  exact ⟨f', changed, hst, h⟩

/-- With more sweeps left than phis called not null, the sweeps settle. -/
theorem settle_spec {phis : List InstId} {left : Nat} (hf : DerefsExist g f) (hd : Descending g t phis f)
    (hphis : ∀ x ∈ phis, ∃ inst, g.inst x = .ok inst) (hleft : high phis f < left) (done : Nat) :
    ∃ f', settle g t phis left done f = .ok (some f') ∧ Lowered f f' ∧
      ∀ x ∈ phis, f'.nullability x = .notNull → PhiNonNull g t f' x := by
  induction left generalizing f done with
  | zero => omega
  | succ left ih =>
    obtain ⟨f₁, changed, hsweep, hlow, hd₁, hsame, hless⟩ := sweep_spec hf hd hphis
    simp only [settle, Checked.bind_eq_ok, hsweep, Except.ok.injEq, exists_eq_left']
    cases changed with
    | true =>
      have hhigh := hless rfl
      obtain ⟨f', hf', hlow', hfix⟩ := ih (hlow.derefsExist hf) hd₁ (by omega) (done + 1)
      exact ⟨f', by simpa using hf', hlow.trans hlow', hfix⟩
    | false =>
      obtain ⟨rfl, hstate⟩ := hsame rfl
      refine ⟨{ f₁ with sweeps := done + 1 }, by simp, ⟨rfl, fun _ h => h⟩, fun x hx hnn => ?_⟩
      obtain ⟨st, hst, hiff⟩ := phiState_spec (t := t) hf (hphis x hx)
      rw [hstate x hx, Except.ok.injEq] at hst
      exact hiff.1 (hst.symm.trans hnn)

/-! ## The answer -/

/-- An instruction is in a reachable block. -/
def Live (g : Graph) (i : InstId) : Prop := ∃ b n, g.Reachable b ∧ g.At i b n

/-- The instructions that are gone through are the live ones. -/
theorem reachableInsts_spec (hw : g.WellFormed) (hg : g.Consistent) (ht : DomTree.ofGraph g = .ok t) :
    ∃ insts, reachableInsts g t = .ok insts ∧ ∀ i, i ∈ insts ↔ Live g i := by
  have hblocks : ∀ b ∈ t.rpo, ∃ block, g.block b = .ok block := fun b hb =>
    hw.exists_block hg ((DomTree.mem_rpo hg ht).1 hb)
  have hbody : ∀ b ∈ t.rpo, (do return (← g.block b).body : Checked (List InstId)) =
      .ok (((g.block b).toOption.map Block.body).getD []) := by
    intro b hb
    obtain ⟨block, hblock⟩ := hblocks b hb
    rw [hblock]
    rfl
  refine ⟨_, by rw [reachableInsts, Checked.mapM_eq_ok_map hbody]; rfl, fun i => ?_⟩
  simp only [List.mem_flatten, List.mem_map]
  constructor
  · rintro ⟨_, ⟨b, hb, rfl⟩, hi⟩
    obtain ⟨block, hblock⟩ := hblocks b hb
    rw [hblock] at hi
    obtain ⟨n, hn⟩ := exists_at hblock hi
    exact ⟨b, n, (DomTree.mem_rpo hg ht).1 hb, hn⟩
  · rintro ⟨b, n, hb, block, hblock, hi⟩
    refine ⟨_, ⟨b, (DomTree.mem_rpo hg ht).2 hb, rfl⟩, ?_⟩
    rw [hblock]
    exact List.mem_of_getElem? hi

/-- The phis of references are found among them. -/
theorem referencePhis_spec {insts : List InstId} (hinsts : ∀ i ∈ insts, ∃ inst, g.inst i = .ok inst) :
    ∃ phis, referencePhis g insts = .ok phis ∧ ∀ i, i ∈ phis ↔
      i ∈ insts ∧ ∃ inst, g.inst i = .ok inst ∧ inst.kind = .phi ∧ inst.ty = .ref := by
  have htest : ∀ i ∈ insts, ∃ b, (do
      let inst ← g.inst i
      return inst.kind.isPhi && inst.ty = .ref : Checked Bool) = .ok b := by
    intro i hi
    obtain ⟨inst, hinst⟩ := hinsts i hi
    rw [hinst]
    exact ⟨_, rfl⟩
  obtain ⟨phis, hphis⟩ := Checked.filterM_total htest
  refine ⟨phis, hphis, fun i => ?_⟩
  obtain ⟨q, hq, rfl⟩ := Checked.filterM_eq_ok hphis
  rw [List.mem_filter]
  refine and_congr_right fun hi => ?_
  obtain ⟨inst, hinst⟩ := hinsts i hi
  have hqi := hq i hi
  simp only [hinst, Checked.bind_eq_ok, Checked.pure_eq_ok, Except.ok.injEq, exists_eq_left'] at hqi
  rw [← hqi]
  have hkind : inst.kind.isPhi = true ↔ inst.kind = .phi := by
    cases inst.kind <;> simp [Kind.isPhi]
  simp [hinst, hkind]

/-- What the facts about a graph's values rest on. -/
structure Answer (g : Graph) (t : DomTree) (f : NullFacts) : Prop where
  seeded : ∀ x, f.isNonNull x = true →
    Live g x ∧ ∃ inst, g.inst x = .ok inst ∧ seed g.isStatic inst = .notNull
  derefs : ∀ x d, d ∈ f.derefPoints x → Live g d ∧ Derefs g d x
  phis : ∀ x inst, f.isNonNull x = true → g.inst x = .ok inst → inst.kind = .phi → inst.ty = .ref →
    PhiNonNull g t f x

/-- A live instruction is gone through without a fault. -/
theorem exists_addInst (hw : g.WellFormed) (hg : g.Consistent) (hl : g.Furnished) (hi : Live g i)
    (f : NullFacts) : ∃ f', addInst g f i = .ok f' := by
  obtain ⟨b, n, hb, hat⟩ := hi
  obtain ⟨inst, hinst⟩ := hw.exists_inst hat.mem_attached
  cases hk : inst.kind.dereferencedInput? with
  | none =>
    simp only [addInst, hinst, hk, Checked.bind_eq_ok, Except.ok.injEq, exists_eq_left',
      Checked.pure_eq_ok]
    exact ⟨_, rfl⟩
  | some k =>
    obtain ⟨r, hr⟩ := hl.exists_dereferenced hat.mem_attached hinst hk
    have hphi : inst.kind ≠ .phi := fun h => by simp [h, Kind.dereferencedInput?] at hk
    have hset := hw.settled_operand_at hg hb hat (fun _ h => hl.not_mem_phis hinst hphi h) hinst hr
    obtain ⟨d, m, hatr, hd⟩ := hset.exists_at hb
    obtain ⟨y, hy⟩ := hw.exists_unchecked hg hl hd hatr
    have hin : g.input i k = .ok r := input_eq_ok.2 ⟨inst, hinst, hr⟩
    simp only [addInst, hinst, hk, hin, hy, Checked.bind_eq_ok, Except.ok.injEq, exists_eq_left',
      Checked.pure_eq_ok]
    exact ⟨_, rfl⟩

/-- On a well-formed graph the analysis answers. -/
theorem ofGraph_spec (hw : g.WellFormed) (hg : g.Consistent) (hl : g.Furnished)
    (ht : DomTree.ofGraph g = .ok t) : ∃ f, ofGraph g t = .ok (some f) ∧ Answer g t f := by
  obtain ⟨insts, hinsts, hlive⟩ := reachableInsts_spec hw hg ht
  have hexists : ∀ i ∈ insts, ∃ inst, g.inst i = .ok inst := by
    intro i hi
    obtain ⟨b, n, -, hat⟩ := (hlive i).1 hi
    exact hw.exists_inst hat.mem_attached
  obtain ⟨phis, hphis, hmem⟩ := referencePhis_spec hexists
  obtain ⟨f₀, hf₀, -⟩ := Checked.foldlM_total (b := NullFacts.empty) (P := fun _ => True) trivial
    fun i hi f _ => by
      obtain ⟨f', hf'⟩ := exists_addInst hw hg hl ((hlive i).1 hi) f
      exact ⟨f', hf', trivial⟩
  have hcollected := collected_of_foldlM hf₀
  have hderefs : DerefsExist g f₀ := fun x d hd => by
    obtain ⟨inst, -, -, hinst, -⟩ := (hcollected.derefs x d hd).2
    exact ⟨inst, hinst⟩
  -- every phi starts as not null
  have hstart : Descending g t phis f₀ := by
    intro x hx _
    obtain ⟨hx, inst, hinst, hkind, hty⟩ := (hmem x).1 hx
    obtain ⟨inst', hinst', hseed⟩ := hcollected.seeded x hx
    rw [hinst] at hinst'
    cases hinst'
    rw [hseed]
    simp [seed, hkind, hty]
  have hleft : high phis f₀ < sweepLimit phis := Nat.lt_succ_of_le List.countP_le_length
  obtain ⟨f, hf, hlow, hfix⟩ := settle_spec hderefs hstart
    (fun x hx => hexists x ((hmem x).1 hx).1) hleft 0
  have hseeded : ∀ x, f.isNonNull x = true →
      x ∈ insts ∧ ∃ inst, g.inst x = .ok inst ∧ seed g.isStatic inst = .notNull := by
    intro x hx
    have hnn := hlow.values x (by simpa [isNonNull] using hx)
    by_cases hmem : x ∈ insts
    · obtain ⟨inst, hinst, hseed⟩ := hcollected.seeded x hmem
      exact ⟨hmem, inst, hinst, hseed.symm.trans hnn⟩
    · rw [hcollected.others x hmem] at hnn
      cases hnn
  refine ⟨f, ?_, fun x hx => ?_, fun x d hd => ?_, fun x inst hx hinst hkind hty => ?_⟩
  · simp only [ofGraph, hinsts, hphis, hf₀, Checked.bind_eq_ok, Except.ok.injEq, exists_eq_left']
    exact hf
  · obtain ⟨hmem, hinst⟩ := hseeded x hx
    exact ⟨(hlive x).1 hmem, hinst⟩
  · rw [derefPoints, hlow.derefs] at hd
    obtain ⟨hmem, hd⟩ := hcollected.derefs x d hd
    exact ⟨(hlive d).1 hmem, hd⟩
  · exact hfix x ((hmem x).2 ⟨(hseeded x hx).1, inst, hinst, hkind, hty⟩) (by simpa [isNonNull] using hx)

end NullFacts

end Midend
