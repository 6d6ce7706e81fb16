import Midend.Proofs.FaultFree

/-!
# What is read in place of a removed load

Load/store elimination on a well-formed graph whose stores have no uses comes to an end.  What it leaves is
well formed, no instruction of it reads a removed load, and where one did it reads a value of the same type.

## Shape of the argument

Neither pass has a reason to end early: what the summary and the visits ask for is there, the instructions to
remove have no uses left, and the check after a change finds nothing.  Moving the uses is one substitution of
the operands of all instructions, by what a load resolves to (`LoadStore.Trace.operandsOf_applyTo`).  A chain
of substitutions keeps the type from link to link, and it has an end, which is no removed load.
-/

namespace Midend

open Midend.Graph CompUnit Analyses Work Manager

variable {R : Halt → Prop} {g g' : Graph} {u : CompUnit} {place : Nat} {verify : Bool} {settings : Settings}

/-! ## The run -/

/-- A pass that leaves a well-formed graph well formed passes the check after it. -/
theorem PassId.ensures_runGated_kept (p : PassId) (hk : Kept u.graph u.analyses)
    (hpass : p.pass.gate u = true → ∀ journal, (runPass place p.pass).Ensures R { u with journal := journal }
      fun changed u' => changed = true → u'.graph.violations = .ok []) :
    (runGated verify place p.pass).Ensures R u fun _ u' => Kept u'.graph u'.analyses := by
  refine Manager.ensures_runGated (fun _ => hk) fun hgate journal =>
    (hpass hgate journal).imp fun changed u' hy hv => ?_
  refine ⟨(p.preserves hy hk).1, ?_⟩
  rintro hchanged _ rfl
  have hk' := (p.preserves hy hk).2 hchanged (hv hchanged)
  refine ⟨fun _ => hk', fun _ => ensures_check ⟨[], hv hchanged⟩ (fun _ => hk') fun vs hvs hne => ?_⟩
  exact absurd (Except.ok.inj (hvs.symm.trans (hv hchanged))) hne

/-- Both passes come to an end, and the graph that they leave is well formed. -/
theorem LoadStore.exists_run (hg : g.Countable) (hw : g.WellFormed) (hl : g.Furnished) (hf : g.FieldsDeclared)
    (hstores : g.StoresUnused) (verify : Bool) (settings : Settings) :
    ∃ u, (runAll verify [SideEffects.pass, pass]).Yields (.new g settings) () u ∧ Kept u.graph u.analyses := by
  have hc := hg.intact.consistent
  have hnew := accounts_new hg.intact settings
  have hfirst : (runGated verify 0 PassId.sideEffects.pass).Ensures (fun _ => False) (.new g settings)
      fun _ u₁ => Kept u₁.graph u₁.analyses := by
    refine PassId.ensures_runGated_kept .sideEffects (kept_empty hg.intact hl hw) fun _ journal => ?_
    have hnoted : Accounts g [] { CompUnit.new g settings with journal := journal } :=
      hnew.unchanged ⟨rfl, rfl, fun _ => .inl⟩
    refine (SideEffects.ensures_runPass hnoted hw.exists_tree fun b hb s =>
      hw.exists_addBlock hc hl hf s hb).imp
      fun _ _ _ hsame hchanged => ?_
    rw [hsame] at hchanged
    cases hchanged
  obtain ⟨⟨⟩, u₁, h₁, hk₁⟩ := hfirst.exists_yields
  obtain ⟨-, -, -, -, hgraph, -, -⟩ := SideEffects.yields_pass h₁
  obtain ⟨gone, hacc, -⟩ := PassId.sideEffects.keepsAccounts.runGated hnew h₁
  have hsecond : (runGated verify 1 PassId.loadStore.pass).Ensures (fun _ => False) u₁
      fun _ u₂ => Kept u₂.graph u₂.analyses := by
    refine PassId.ensures_runGated_kept .loadStore hk₁ fun hgate journal => ?_
    have hnoted : Accounts g ([] ++ gone) { u₁ with journal := journal } :=
      hacc.unchanged ⟨rfl, rfl, fun _ => .inl⟩
    have hunused : ∀ last, outcome u₁.graph = .ok last → ∀ x ∈ removableStores last, u₁.graph.uses x = [] := by
      rw [hgraph]
      intro last hlast x hx
      obtain ⟨hatt, inst, hinst, hstore⟩ := isStore_of_outcome hc hlast hx
      exact hstores x hatt inst (inst_eq_ok.1 hinst) hstore
    refine (LoadStore.ensures_runPass hg hnoted hk₁ (hgraph ▸ hf) hunused hgate).imp
      fun changed u' hy hw' _ => ?_
    obtain ⟨gone', hacc₂, -⟩ := PassId.loadStore.keepsAccounts hgate hy hacc
    exact hacc₂.reduced.intact.consistent.violations_eq_nil_iff.2 hw'
  obtain ⟨⟨⟩, u₂, h₂, hk₂⟩ := hsecond.exists_yields
  exact ⟨u₂, yields_runFrom_cons.2 ⟨u₁, h₁, yields_runFrom_cons.2 ⟨u₂, h₂, yields_pure.2 ⟨rfl, rfl⟩⟩⟩, hk₂⟩

namespace LoadStore

variable {t : DomTree} {summary : EffectSummary} {hasMonitors : Bool} {last s : State}
  {c : Stage} {x y i : InstId} {inst inst' : Inst}

/-! ## Substitutions -/

/-- A value is to be replaced by another. -/
def State.Substitutes (s : State) (x y : InstId) : Prop := s.substitutions.get x.index = some y

/-- Resolving a value follows its substitutions. -/
theorem State.substitutes_resolve (s : State) (v : InstId) :
    Relation.ReflTransGen s.Substitutes v (s.resolve v) :=
  resolveWithin_induction (P := fun x => Relation.ReflTransGen s.Substitutes v x) .refl
    (fun _ _ hx hy => hx.tail hy) _

/-! ## Removed loads -/

/-- A load of a graph that is missing from another. -/
def RemovedLoad (g g' : Graph) (x : InstId) : Prop := g.IsLoaded x ∧ x ∉ g'.attached

/-- The loads that are gone are those that were substituted. -/
theorem Trace.removedLoad_iff (ht : Trace g t summary hasMonitors last)
    (h : Reduced g (last.removedLoads ++ removableStores last) g') :
    RemovedLoad g g' x ↔ x ∈ last.removedLoads := by
  constructor
  · rintro ⟨⟨hatt, inst, hinst, hload⟩, hmissing⟩
    have hgone : x ∈ last.removedLoads ++ removableStores last := by
      by_contra hstays
      exact hmissing (h.mem_attached.2 ⟨hatt, hstays⟩)
    refine (List.mem_append.1 hgone).resolve_right fun hstore => ?_
    obtain ⟨inst', hinst', hstore⟩ := ht.isStore_of_mem_removableStores hstore
    obtain rfl : inst = inst' := Except.ok.inj (hinst.symm.trans hinst')
    rw [Kind.isStore_eq_false hload] at hstore
    cases hstore
  · intro hx
    have haccounted : Accounted g t summary hasMonitors last last := ht.on_last.accounted
    obtain ⟨v, hv⟩ := haccounted.removedLoads x hx
    obtain ⟨-, hb, hi, hinst, hload, -⟩ := haccounted.substitutions x v hv
    refine ⟨⟨(at_insts hb hi).mem_attached, _, hinst, hload⟩, fun hstays => ?_⟩
    exact (h.mem_attached.1 hstays).2 (List.mem_append_left _ hx)

/-- What stays reads what the removed loads resolve to in their place. -/
theorem Trace.inputs_eq (ht : Trace g t summary hasMonitors last) (hi : g.Intact) (hw : g.WellFormed)
    (hl : g.Furnished) (happly : applyTo last g = .ok g')
    (hreduced : Reduced g (last.removedLoads ++ removableStores last) g') (hinst' : g'.inst i = .ok inst')
    (hstays : inst'.removed = false) :
    ∃ inst, g.inst i = .ok inst ∧ inst'.inputs = inst.inputs.map last.forward := by
  have hgone : i ∉ last.removedLoads ++ removableStores last := by
    intro hmem
    have hremoved := hreduced.removed i hmem
    rw [isRemoved_eq hinst', hstays] at hremoved
    cases hremoved
  obtain ⟨inst, hinst, -⟩ := hreduced.exists_inst hgone hinst'
  refine ⟨inst, hinst, ?_⟩
  rw [← operandsOf_eq hinst', ht.operandsOf_applyTo hw hi.consistent hl hi happly, if_neg hgone,
    operandsOf_eq hinst]

/-- What replaces a value has its type. -/
theorem Sourced.ty_resolve (h : Sourced g s []) (v : InstId) : g.ty (s.resolve v) = g.ty v := by
  rcases h.resolve v with heq | ⟨-, hty⟩
  · rw [heq]
  · exact hty

/-- Summarizing effects and eliminating loads and stores, on a graph that is accepted, whose instructions have
the operands of their kinds and fields that are declared, and whose stores have no uses, comes to an end; the
counters of what was removed need room for the instructions there are.  At every stage of the visits,
following the substitutions of a value comes to a value that has none.  What is left is accepted.  What stays
in it reads no removed load; an operand is what it was unless that is a removed load, and then it is a value
of the load's type. -/
theorem run_leaves_wellFormed_and_typed (hg : g.Built) (hv : g.violations = .ok []) (hl : g.Layout)
    (hf : g.FieldsDeclared) (hstores : g.StoresUnused) (hcount : g.attached.length < UInt64.size)
    (verify : Bool)
    (settings : Settings) :
    ∃ u, (Manager.runAll verify [SideEffects.pass, pass]).run (.new g settings) = (.ok (), u) ∧
      (∃ last t summary hasMonitors, outcome g = .ok last ∧ Trace g t summary hasMonitors last ∧
        ∀ c, On g t summary hasMonitors last c → ∀ v,
          Relation.ReflTransGen c.state.Substitutes v (c.state.resolve v) ∧
          ∀ w, ¬ c.state.Substitutes (c.state.resolve v) w) ∧
      u.graph.violations = .ok [] ∧
      ∀ i inst', u.graph.inst i = .ok inst' → inst'.removed = false →
        (∀ y ∈ inst'.inputs, ¬ RemovedLoad g u.graph y) ∧
        ∃ inst, g.inst i = .ok inst ∧
          List.Forall₂ (fun x y => (RemovedLoad g u.graph x → u.graph.ty y = g.ty x) ∧
          (¬ RemovedLoad g u.graph x → y = x)) inst.inputs inst'.inputs := by
  have hi := hg.intact
  have hc := hi.consistent
  have hw := hc.violations_eq_nil_iff.1 hv
  obtain ⟨u, hrun, hk⟩ := exists_run ⟨hi, hcount⟩ hw hl.furnished hf hstores verify settings
  obtain ⟨last, houtcome, happly⟩ := exists_outcome hrun
  obtain ⟨t, summary, hasMonitors, ht, hvisits⟩ := exists_visits_of_outcome hc houtcome
  have hsourced : Sourced g last [] :=
    sourced_of_visitBlocks (sourced_start (fun _ => rfl) fun _ => rfl) hvisits
  have hreduced := reduced_applyTo hi (DomTree.nodup_preorder hc ht.tree)
    (marks_of_visitBlocks rfl hvisits) hsourced
    happly
  refine ⟨u, hrun, ⟨last, t, summary, hasMonitors, houtcome, ht,
    fun c hon v => ⟨c.state.substitutes_resolve v, ?_⟩⟩,
    hk.intact.consistent.violations_eq_nil_iff.2 hk.wellFormed, fun i inst' hinst' hstays => ?_⟩
  · intro w hsub
    rw [State.Substitutes, hon.get_resolve hw hc hl.furnished ht v] at hsub
    cases hsub
  · obtain ⟨inst, hinst, hinputs⟩ := ht.inputs_eq hi hw hl.furnished happly hreduced hinst' hstays
    simp only [ht.removedLoad_iff hreduced, hreduced.types, hinputs]
    refine ⟨fun y hy => ?_, inst, hinst, List.forall₂_map_right_iff.2 (List.forall₂_same.2 fun x _ => ?_)⟩
    · obtain ⟨x, -, rfl⟩ := List.mem_map.1 hy
      exact ht.forward_not_mem hw hc hl.furnished x
    · refine ⟨fun hload => ?_, State.forward_of_not_mem⟩
      rw [State.forward_of_mem hload]
      exact hsourced.ty_resolve x

/-- A field set from a parameter and read back, twice through another field.  The value read is set again, and
the field is set anew before anything can observe it.  A sum outside of blocks reads both loads. -/
def readBack : Graph := .ofEdits "readBack" [
  .internField ⟨"Cell", "value", .int, 8, false, false⟩, .internField ⟨"Cell", "last", .int, 0, true, false⟩,
  .createInst (.param 0) .ref [], .appendInst ⟨0⟩ ⟨0⟩, .createInst (.param 1) .int [], .appendInst ⟨0⟩ ⟨1⟩,
  .createInst (.instanceSet ⟨0⟩) .void [⟨0⟩, ⟨1⟩], .appendInst ⟨0⟩ ⟨2⟩,
  .createInst (.instanceGet ⟨0⟩) .int [⟨0⟩], .appendInst ⟨0⟩ ⟨3⟩,
  .createInst (.staticSet ⟨1⟩) .void [⟨3⟩], .appendInst ⟨0⟩ ⟨4⟩,
  .createInst (.staticGet ⟨1⟩) .int [], .appendInst ⟨0⟩ ⟨5⟩,
  .createInst (.instanceSet ⟨0⟩) .void [⟨0⟩, ⟨5⟩], .appendInst ⟨0⟩ ⟨6⟩,
  .createInst (.binary .add) .int [⟨3⟩, ⟨5⟩],
  .createInst (.const 9) .int [], .appendInst ⟨0⟩ ⟨8⟩,
  .createInst (.instanceSet ⟨0⟩) .void [⟨0⟩, ⟨8⟩], .appendInst ⟨0⟩ ⟨9⟩,
  .createInst .ret .void [⟨5⟩], .appendInst ⟨0⟩ ⟨10⟩]

/-- In `readBack` two loads and two stores go, and what read the loads reads values of their types. -/
theorem run_leaves_wellFormed_and_typed_readBack :
    readBack.Built ∧ readBack.violations = .ok [] ∧ readBack.Layout ∧ readBack.FieldsDeclared ∧
      readBack.StoresUnused ∧ readBack.attached.length < UInt64.size ∧
      (outcome readBack).toOption.map (fun last => (last.removedLoads, removableStores last)) =
        some ([⟨3⟩, ⟨5⟩], [⟨6⟩, ⟨2⟩]) ∧
      ∃ u, (Manager.runAll true [SideEffects.pass, pass]).run (.new readBack .default) = (.ok (), u) ∧
        (∃ last t summary hasMonitors, outcome readBack = .ok last ∧ Trace readBack t summary hasMonitors last ∧
          ∀ c, On readBack t summary hasMonitors last c → ∀ v,
            Relation.ReflTransGen c.state.Substitutes v (c.state.resolve v) ∧
            ∀ w, ¬ c.state.Substitutes (c.state.resolve v) w) ∧
        u.graph.violations = .ok [] ∧
        ∀ i inst', u.graph.inst i = .ok inst' → inst'.removed = false →
          (∀ y ∈ inst'.inputs, ¬ RemovedLoad readBack u.graph y) ∧
          ∃ inst, readBack.inst i = .ok inst ∧
            List.Forall₂ (fun x y => (RemovedLoad readBack u.graph x → u.graph.ty y = readBack.ty x) ∧
              (¬ RemovedLoad readBack u.graph x → y = x)) inst.inputs inst'.inputs :=
  ⟨built_ofEdits _ _, by decide +kernel, by decide +kernel, by decide +kernel,
    by decide +kernel, by decide +kernel,
    by decide +kernel, run_leaves_wellFormed_and_typed (built_ofEdits _ _) (by decide +kernel)
      (by decide +kernel) (by decide +kernel) (by decide +kernel) (by decide +kernel) true .default⟩

end LoadStore

end Midend
