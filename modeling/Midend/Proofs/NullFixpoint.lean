import Mathlib.Data.List.Pairwise
import Midend.Proofs.Arena
import Midend.Proofs.NullSolution

/-!
# Sweeping phis to the greatest solution

The equations for phis have many solutions on a graph with loops.  The sweeps come to the greatest one, in
at most one sweep more than there are phis, and on the way every phi changes at most once, from not null to
maybe null.  In which order the phis are brought up to date makes no difference to what comes out.

## Shape of the argument

Bringing one phi up to date keeps the facts between the seeds and every solution (`Midway`), because the
state of a phi grows with the states it reads: it can only go down, and not below a solution.  So facts that
no update changes any more are a solution above all others, and there is only one such; which updates led to
it does not matter.
-/

namespace Midend

namespace NullFacts

open Midend.Graph

variable {g : Graph} {t : DomTree} {f f' f₀ : NullFacts} {x : InstId} {phis order : List InstId}

/-- The facts that bringing phis up to date one after the other goes through, the first and the last
included. -/
def history (g : Graph) (t : DomTree) : List InstId → NullFacts → Checked (List NullFacts)
  | [], f => return [f]
  | phi :: rest, f => do
    let (f', _) ← sweepPhi g t (f, false) phi
    return f :: (← history g t rest f')

/-- No phi would change. -/
def Stable (g : Graph) (t : DomTree) (phis : List InstId) (f : NullFacts) : Prop :=
  ∀ x ∈ phis, phiState g t f x = .ok (f.nullability x)

/-- Every phi has the state that its operands give it, and everything else is what it was at first. -/
structure Solution (g : Graph) (t : DomTree) (phis : List InstId) (f₀ f : NullFacts) : Prop where
  derefs : f.derefs = f₀.derefs
  seeds : ∀ x, x ∉ phis → f.nullability x = f₀.nullability x
  stable : Stable g t phis f

/-- What the sweeps of phis come to. -/
structure Optimum (g : Graph) (t : DomTree) (phis : List InstId) (f₀ f : NullFacts) : Prop where
  sweeps : f.sweeps ≤ phis.length + 1
  /-- Over all updates of all sweeps, a value is not null for a while and maybe null from then on. -/
  lowered_once : ∃ fs, history g t (List.replicate f.sweeps phis).flatten f₀ = .ok fs ∧
    fs.getLast? = some { f with sweeps := f₀.sweeps } ∧
    ∀ x, ∃ m n, fs.map (·.nullability x) = List.replicate m .notNull ++ List.replicate n .maybeNull
  solution : Solution g t phis f₀ f
  greatest : ∀ f', Solution g t phis f₀ f' → ∀ x, f'.nullability x = .notNull → f.nullability x = .notNull
  /-- Phis that are swept in another order settle at the same values. -/
  any_order : ∀ order, order.Perm phis → ∃ f', settle g t order (sweepLimit order) 0 f₀ = .ok (some f') ∧
    ∀ x, f'.nullability x = f.nullability x
  /-- So do updates of single phis in whatever order, once no phi would change. -/
  any_updates : ∀ order fs f', (∀ x ∈ order, x ∈ phis) → history g t order f₀ = .ok fs →
    fs.getLast? = some f' → Stable g t phis f' → ∀ x, f'.nullability x = f.nullability x

/-! ## One update -/

/-- Facts between the seeds and every solution, where what is maybe null has a reason for it. -/
structure Midway (g : Graph) (t : DomTree) (phis : List InstId) (f₀ f : NullFacts) : Prop where
  lowered : Lowered f₀ f
  seeds : ∀ x, x ∉ phis → f.nullability x = f₀.nullability x
  descending : Descending g t phis f
  above : ∀ f', Solution g t phis f₀ f' → Lowered f f'

/-- An update gives a phi the state that its operands say, whether the flag was set before or not. -/
theorem sweepPhi_eq_ok {st : Nullability} (hst : phiState g t f x = .ok st) : ∃ f',
    (∀ changed, ∃ changed', sweepPhi g t (f, changed) x = .ok (f', changed')) ∧
      f'.derefs = f.derefs ∧ f'.sweeps = f.sweeps ∧
      ∀ y, f'.nullability y = if y = x then st else f.nullability y := by
  by_cases hsame : st = f.nullability x
  · refine ⟨f, fun changed => ⟨changed, ?_⟩, rfl, rfl, fun y => ?_⟩
    · simp [sweepPhi, hst, hsame]
    · split
      · next hy => rw [hy, hsame]
      · rfl
  · refine ⟨{ f with values := f.values.set x.index st }, fun changed => ⟨true, ?_⟩, rfl, rfl,
      fun y => nullability_set st⟩
    simp [sweepPhi, hst, hsame]

section Updates

variable (hf₀ : DerefsExist g f₀) (hphis : ∀ x ∈ phis, ∃ inst, g.inst x = .ok inst)
include hf₀ hphis

/-- A phi that is solved to be not null has its reasons. -/
theorem Solution.phiNonNull (h : Solution g t phis f₀ f) (hx : x ∈ phis) (hnn : f.nullability x = .notNull) :
    PhiNonNull g t f x := by
  have hderefs : DerefsExist g f := fun y d hd => by
    rw [derefPoints, h.derefs] at hd
    exact hf₀ y d hd
  obtain ⟨st, hst, hiff⟩ := phiState_spec (t := t) hderefs (hphis x hx)
  rw [h.stable x hx, Except.ok.injEq] at hst
  exact hiff.1 (hst.symm.trans hnn)

/-- One update keeps the facts midway. -/
theorem Midway.sweepPhi (h : Midway g t phis f₀ f) (hx : x ∈ phis) : ∃ f',
    (∀ changed, ∃ changed', NullFacts.sweepPhi g t (f, changed) x = .ok (f', changed')) ∧
      Midway g t phis f₀ f' ∧ Lowered f f' ∧ f'.sweeps = f.sweeps := by
  obtain ⟨st, hst, hiff⟩ := phiState_spec (t := t) (h.lowered.derefsExist hf₀) (hphis x hx)
  obtain ⟨f', hsweep, hderefs, hsweeps, hvalue⟩ := sweepPhi_eq_ok hst
  have hlow : Lowered f f' := by
    refine ⟨hderefs, fun y hy => ?_⟩
    rw [hvalue] at hy
    split at hy
    · next hyx =>
      rw [hyx]
      exact h.descending x hx (hiff.1 hy)
    · exact hy
  refine ⟨f', hsweep, ⟨h.lowered.trans hlow, fun y hy => ?_, fun y hy hnn => ?_, fun s hs => ?_⟩, hlow, hsweeps⟩
  · rw [hvalue, if_neg (by rintro rfl; exact hy hx)]
    exact h.seeds y hy
  · -- what a phi reads was not lower before
    have hnn := hnn.of_lowered hlow
    rw [hvalue]
    split
    · next hyx => exact hiff.2 (hyx ▸ hnn)
    · exact h.descending y hy hnn
  · have hbelow := h.above s hs
    refine ⟨hbelow.derefs.trans hderefs.symm, fun y hy => ?_⟩
    rw [hvalue]
    split
    · next hyx =>
      -- the phi is not null in the solution, so its operands were not null here either
      subst hyx
      exact hiff.2 ((hs.phiNonNull hf₀ hphis hx hy).of_lowered hbelow)
    · exact hbelow.values y hy

/-! ## Many updates -/

/-- Updates keep the facts midway, each lower than those before. -/
theorem Midway.history (h : Midway g t phis f₀ f) (horder : ∀ x ∈ order, x ∈ phis) : ∃ fs last,
    NullFacts.history g t order f = .ok fs ∧ fs.getLast? = some last ∧ Midway g t phis f₀ last ∧
      (∀ changed, ∃ changed', order.foldlM (NullFacts.sweepPhi g t) (f, changed) = .ok (last, changed')) ∧
      last.sweeps = f.sweeps ∧ fs.Pairwise Lowered ∧ ∀ f' ∈ fs, Lowered f f' := by
  induction order generalizing f with
  | nil =>
    refine ⟨[f], f, rfl, rfl, h, fun changed => ⟨changed, rfl⟩, rfl, List.pairwise_singleton _ _, ?_⟩
    intro f' hf'
    rw [List.mem_singleton.1 hf']
    exact .refl f
  | cons x order ih =>
    obtain ⟨f₁, hsweep, h₁, hlow, hsweeps⟩ := h.sweepPhi hf₀ hphis (horder x List.mem_cons_self)
    obtain ⟨fs, last, hfs, hlast, hmid, hfold, hsweeps', hpairs, hall⟩ :=
      ih h₁ fun y hy => horder y (List.mem_cons_of_mem x hy)
    have hbelow : ∀ f' ∈ fs, Lowered f f' := fun f' hf' => hlow.trans (hall f' hf')
    refine ⟨f :: fs, last, ?_, ?_, hmid, fun changed => ?_, hsweeps'.trans hsweeps,
      List.pairwise_cons.2 ⟨hbelow, hpairs⟩, ?_⟩
    · obtain ⟨changed, hstep⟩ := hsweep false
      simp [NullFacts.history, hstep, hfs]
    · rw [List.getLast?_cons, hlast]
      rfl
    · obtain ⟨changed₁, hstep⟩ := hsweep changed
      obtain ⟨changed₂, hrest⟩ := hfold changed₁
      exact ⟨changed₂, by simp [hstep, hrest]⟩
    · rintro f' (_ | ⟨_, hf'⟩)
      · exact .refl f
      · exact hbelow f' hf'

end Updates

/-- A sequence of values that never comes back from maybe null. -/
theorem eq_replicate_append {vs : List Nullability}
    (h : vs.Pairwise fun v v' => v' = .notNull → v = .notNull) :
    ∃ m n, vs = List.replicate m .notNull ++ List.replicate n .maybeNull := by
  induction vs with
  | nil => exact ⟨0, 0, rfl⟩
  | cons v vs ih =>
    obtain ⟨hv, hvs⟩ := List.pairwise_cons.1 h
    cases v with
    | notNull =>
      obtain ⟨m, n, rfl⟩ := ih hvs
      exact ⟨m + 1, n, rfl⟩
    | maybeNull =>
      have hall : ∀ v' ∈ vs, v' = Nullability.maybeNull := fun v' hv' => by
        cases v' with
        | notNull => cases hv _ hv' rfl
        | maybeNull => rfl
      exact ⟨0, vs.length + 1, by rw [List.replicate_succ, ← List.eq_replicate_of_mem hall]; rfl⟩

/-- Facts that call every phi not null are midway. -/
theorem midway_start (hstart : ∀ x ∈ phis, f₀.nullability x = .notNull) : Midway g t phis f₀ f₀ where
  lowered := .refl f₀
  seeds _ _ := rfl
  descending x hx _ := hstart x hx
  above f' h := by
    refine ⟨h.derefs, fun x hx => ?_⟩
    by_cases hmem : x ∈ phis
    · exact hstart x hmem
    · rw [← h.seeds x hmem]
      exact hx

theorem Solution.congr (hmem : ∀ x, x ∈ order ↔ x ∈ phis) (h : Solution g t phis f₀ f) :
    Solution g t order f₀ f where
  derefs := h.derefs
  seeds x hx := h.seeds x fun hx' => hx ((hmem x).2 hx')
  stable x hx := h.stable x ((hmem x).1 hx)

theorem Midway.congr (hmem : ∀ x, x ∈ order ↔ x ∈ phis) (h : Midway g t phis f₀ f) : Midway g t order f₀ f where
  lowered := h.lowered
  seeds x hx := h.seeds x fun hx' => hx ((hmem x).2 hx')
  descending x hx := h.descending x ((hmem x).1 hx)
  above f' hf' := h.above f' (hf'.congr fun x => (hmem x).symm)

/-- What is midway and stable is the solution. -/
theorem Midway.solution (h : Midway g t phis f₀ f) (hstable : Stable g t phis f) : Solution g t phis f₀ f :=
  ⟨h.lowered.derefs, h.seeds, hstable⟩

/-- Where no update changes anything any more there is only one thing the values can be. -/
theorem Midway.nullability_eq (h : Midway g t phis f₀ f) (hstable : Stable g t phis f)
    (h' : Midway g t phis f₀ f') (hstable' : Stable g t phis f') (x : InstId) :
    f'.nullability x = f.nullability x := by
  have hle := (h.above f' (h'.solution hstable')).values x
  have hge := (h'.above f (h.solution hstable)).values x
  cases hx : f.nullability x with
  | notNull => exact hge hx
  | maybeNull =>
    cases hx' : f'.nullability x with
    | notNull => rw [hle hx'] at hx; cases hx
    | maybeNull => rfl

/-! ## Sweeps -/

section Settle

variable (hf₀ : DerefsExist g f₀) (hphis : ∀ x ∈ phis, ∃ inst, g.inst x = .ok inst)
include hf₀ hphis

/-- With more sweeps left than phis called not null, the sweeps come to facts that no update changes. -/
theorem Midway.settle {left : Nat} (h : Midway g t phis f₀ f) (hleft : high phis f < left) (done : Nat) :
    ∃ last n, n < left ∧ Midway g t phis f₀ last ∧ Stable g t phis last ∧
      NullFacts.settle g t phis left done f = .ok (some { last with sweeps := done + (n + 1) }) ∧
      ∀ changed, ∃ changed', (List.replicate (n + 1) phis).flatten.foldlM (NullFacts.sweepPhi g t)
        (f, changed) = .ok (last, changed') := by
  induction left generalizing f done with
  | zero => omega
  | succ left ih =>
    have hderefs := h.lowered.derefsExist hf₀
    obtain ⟨f₁, changed, hsweep, -, -, hsame, hless⟩ := sweep_spec hderefs h.descending hphis
    obtain ⟨-, last, -, -, hmid, hfold, -, -, -⟩ := h.history hf₀ hphis (List.Subset.refl phis)
    obtain rfl : last = f₁ := by
      obtain ⟨changed', hfold⟩ := hfold false
      rw [sweep, hfold] at hsweep
      exact congrArg Prod.fst (Except.ok.inj hsweep)
    simp only [NullFacts.settle, Checked.bind_eq_ok, hsweep, Except.ok.injEq, exists_eq_left']
    cases changed with
    | true =>
      have hhigh := hless rfl
      obtain ⟨last', n, hn, hmid', hstable, hsettle, hfold'⟩ := ih hmid (by omega) (done + 1)
      refine ⟨last', n + 1, by omega, hmid', hstable, ?_, fun changed => ?_⟩
      · rw [if_pos rfl, hsettle, Nat.add_right_comm, Nat.add_assoc]
      · obtain ⟨changed₁, hfirst⟩ := hfold changed
        obtain ⟨changed₂, hrest⟩ := hfold' changed₁
        refine ⟨changed₂, ?_⟩
        rw [List.replicate_succ, List.flatten_cons, List.foldlM_append, hfirst]
        exact hrest
    | false =>
      obtain ⟨rfl, hstable⟩ := hsame rfl
      refine ⟨last, 0, by omega, h, hstable, rfl, fun changed => ?_⟩
      simpa using hfold changed

/-- The sweeps reach the optimum from facts that call every phi not null. -/
theorem exists_optimum (hstart : ∀ x ∈ phis, f₀.nullability x = .notNull) :
    ∃ f, NullFacts.settle g t phis (sweepLimit phis) 0 f₀ = .ok (some f) ∧ Optimum g t phis f₀ f := by
  have hmid₀ : Midway g t phis f₀ f₀ := midway_start hstart
  have hlimit : ∀ order : List InstId, high order f₀ < sweepLimit order := fun order =>
    Nat.lt_succ_of_le List.countP_le_length
  obtain ⟨last, n, hn, hmid, hstable, hsettle, hfold⟩ := hmid₀.settle hf₀ hphis (hlimit phis) 0
  rw [Nat.zero_add] at hsettle
  refine ⟨_, hsettle, hn, ?_, ⟨hmid.lowered.derefs, hmid.seeds, hstable⟩,
    fun f' hf' => (hmid.above f' hf').values, fun order hperm => ?_,
    fun order fs f' horder hfs hlast hstable' => ?_⟩
  · have hwithin : ∀ x ∈ (List.replicate (n + 1) phis).flatten, x ∈ phis := fun x hx => by simpa using hx
    obtain ⟨fs, last', hfs, hlast, -, hfold', hsweeps, hpairs, -⟩ := hmid₀.history hf₀ hphis hwithin
    obtain rfl : last' = last := by
      obtain ⟨_, hfold⟩ := hfold false
      obtain ⟨_, hfold'⟩ := hfold' false
      rw [hfold] at hfold'
      exact (congrArg Prod.fst (Except.ok.inj hfold')).symm
    refine ⟨fs, hfs, by rw [hlast, ← hsweeps], fun x => eq_replicate_append ?_⟩
    exact List.pairwise_map.2 (hpairs.imp fun hlow => hlow.values x)
  · have hmem : ∀ x, x ∈ order ↔ x ∈ phis := fun x => hperm.mem_iff
    obtain ⟨last', n', -, hmid', hstable', hsettle', -⟩ := (hmid₀.congr hmem).settle hf₀
      (fun x hx => hphis x ((hmem x).1 hx)) (hlimit order) 0
    have hvalues := hmid.nullability_eq hstable (hmid'.congr fun x => (hmem x).symm)
      fun x hx => hstable' x ((hmem x).2 hx)
    exact ⟨_, hsettle', hvalues⟩
  · obtain ⟨fs', last', hfs', hlast', hmid', -⟩ := hmid₀.history hf₀ hphis horder
    obtain rfl : fs' = fs := Except.ok.inj (hfs'.symm.trans hfs)
    obtain rfl : last' = f' := Option.some.inj (hlast'.symm.trans hlast)
    exact hmid.nullability_eq hstable hmid' hstable'

end Settle

/-! ## The analysis -/

/-- The instructions are gone through in the order of the blocks. -/
theorem reachableInsts_eq (hw : g.WellFormed) (hg : g.Consistent) (ht : DomTree.ofGraph g = .ok t) :
    reachableInsts g t = .ok (t.rpo.flatMap g.bodyOf) := by
  have hbody : ∀ b ∈ t.rpo, (do return (← g.block b).body : Checked (List InstId)) = .ok (g.bodyOf b) := by
    intro b hb
    obtain ⟨block, hblock⟩ := hw.exists_block hg ((DomTree.mem_rpo hg ht).1 hb)
    rw [bodyOf_eq hblock, hblock]
    rfl
  rw [reachableInsts, Checked.mapM_eq_ok_map hbody, List.flatMap_def]
  rfl

/-- No block lists what another one does. -/
theorem nodup_flatMap_bodyOf (hg : g.Consistent) {bs : List BlockId} (hbs : bs.Nodup)
    (hblocks : ∀ b ∈ bs, b ∈ g.blockIds) : (bs.flatMap g.bodyOf).Nodup := by
  have hlisted := hg.listed_once
  rw [attached_eq_flatMap, List.nodup_flatMap] at hlisted
  obtain ⟨hbody, hdisjoint⟩ := hlisted
  refine List.nodup_flatMap.2 ⟨fun b hb => hbody b (hblocks b hb), hbs.imp_of_mem fun {a b} ha hb hab => ?_⟩
  have : Std.Symm (Function.onFun List.Disjoint g.bodyOf) := ⟨fun _ _ h _ hb ha => h ha hb⟩
  exact hdisjoint.forall (hblocks a ha) (hblocks b hb) hab

/-- The analysis answers on every well-formed graph with the greatest solution, whatever the order in which
phis are swept. -/
theorem ofGraph_optimum (hg : g.Consistent) (hv : g.violations = .ok []) (hl : g.Layout) :
    ∃ t insts phis f₀ f, DomTree.ofGraph g = .ok t ∧ reachableInsts g t = .ok insts ∧
      referencePhis g insts = .ok phis ∧ insts.foldlM (addInst g) .empty = .ok f₀ ∧
      ofGraph g t = .ok (some f) ∧ phis.Nodup ∧
      (∀ x, x ∈ phis ↔ Live g x ∧ ∃ inst, g.inst x = .ok inst ∧ inst.kind = .phi ∧ inst.ty = .ref) ∧
      Seeds g f₀ ∧ Optimum g t phis f₀ f := by
  have hw := hg.violations_eq_nil_iff.1 hv
  obtain ⟨t, ht⟩ := hw.exists_tree
  obtain ⟨insts, hinsts, hlive⟩ := reachableInsts_spec hw hg ht
  obtain ⟨phis, hphis, hmem⟩ := referencePhis_spec fun i hi => hw.exists_inst ((hlive i).1 hi).mem_attached
  obtain ⟨f₀, hf₀, -⟩ := Checked.foldlM_total (b := NullFacts.empty) (P := fun _ => True) trivial
    fun i hi f _ => (exists_addInst hw hg hl ((hlive i).1 hi) f).imp fun _ hf' => ⟨hf', trivial⟩
  have hseeds := seeds_of_foldlM hlive hf₀
  have hderefs : DerefsExist g f₀ := fun x d hd =>
    hw.exists_inst ((hseeds.derefs x d).1 hd).1.mem_attached
  have hstart : ∀ x ∈ phis, f₀.nullability x = .notNull := by
    intro x hx
    obtain ⟨hx, inst, hinst, hkind, hty⟩ := (hmem x).1 hx
    rw [hseeds.live x inst ((hlive x).1 hx) hinst]
    simp [seed, hkind, hty]
  obtain ⟨f, hf, hoptimum⟩ := exists_optimum (t := t) hderefs
    (fun x hx => ((hmem x).1 hx).2.imp fun _ h => h.1) hstart
  have hnodup : insts.Nodup := by
    rw [reachableInsts_eq hw hg ht, Except.ok.injEq] at hinsts
    rw [← hinsts]
    exact nodup_flatMap_bodyOf hg (DomTree.nodup_rpo ht) fun b hb =>
      mem_blockIds_iff.2 (hw.exists_block hg ((DomTree.mem_rpo hg ht).1 hb))
  refine ⟨t, insts, phis, f₀, f, ht, hinsts, hphis, hf₀, ?_, ?_, fun x => ?_, hseeds, hoptimum⟩
  · simp only [ofGraph, hinsts, hphis, hf₀, Checked.bind_eq_ok, Except.ok.injEq, exists_eq_left']
    exact hf
  · obtain ⟨q, -, rfl⟩ := Checked.filterM_eq_ok hphis
    exact hnodup.filter q
  · rw [hmem, hlive]

/-- A loop with three phis, each of which takes over the next one's object when the loop comes round, the
last one null.  Sweeps meet them in the order that takes longest. -/
def relay : Graph := .ofEdits "relay" [
  .createBlock, .createBlock,
  .createInst (.newInstance "Baton") .ref [], .appendInst ⟨0⟩ ⟨0⟩,
  .createInst .null .ref [], .appendInst ⟨0⟩ ⟨1⟩,
  .createInst (.const 1) .bool [], .appendInst ⟨0⟩ ⟨2⟩,
  .createInst .jump .void [], .appendInst ⟨0⟩ ⟨3⟩, .addEdge ⟨0⟩ ⟨1⟩,
  .createInst .phi .ref [⟨0⟩], .appendPhi ⟨1⟩ ⟨4⟩,
  .createInst .phi .ref [⟨0⟩], .appendPhi ⟨1⟩ ⟨5⟩,
  .createInst .phi .ref [⟨0⟩], .appendPhi ⟨1⟩ ⟨6⟩,
  .createInst .branch .void [⟨2⟩], .appendInst ⟨1⟩ ⟨7⟩, .addEdge ⟨1⟩ ⟨1⟩, .addEdge ⟨1⟩ ⟨2⟩,
  .pushInput ⟨4⟩ ⟨5⟩, .pushInput ⟨5⟩ ⟨6⟩, .pushInput ⟨6⟩ ⟨1⟩,
  .createInst .ret .void [⟨4⟩], .appendInst ⟨2⟩ ⟨8⟩]

/-- For `relay` four sweeps reach the solution. -/
theorem ofGraph_optimum_relay : relay.Consistent ∧ relay.violations = .ok [] ∧ relay.Layout ∧
    (DomTree.ofGraph relay >>= ofGraph relay).toOption.map (·.map (·.sweeps)) = some (some 4) ∧
    ∃ t insts phis f₀ f, DomTree.ofGraph relay = .ok t ∧ reachableInsts relay t = .ok insts ∧
      referencePhis relay insts = .ok phis ∧ insts.foldlM (addInst relay) .empty = .ok f₀ ∧
      ofGraph relay t = .ok (some f) ∧ phis.Nodup ∧
      (∀ x, x ∈ phis ↔ Live relay x ∧ ∃ inst, relay.inst x = .ok inst ∧ inst.kind = .phi ∧ inst.ty = .ref) ∧
      Seeds relay f₀ ∧ Optimum relay t phis f₀ f :=
  have hg : relay.Consistent := by decide +kernel
  have hv : relay.violations = .ok [] := by decide +kernel
  have hl : relay.Layout := by decide +kernel
  ⟨hg, hv, hl, by decide +kernel, ofGraph_optimum hg hv hl⟩

end NullFacts

end Midend
