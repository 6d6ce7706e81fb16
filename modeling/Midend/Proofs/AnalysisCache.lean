import Midend.Pipeline
import Midend.Proofs.Trimming

/-!
# The cache of analyses

A unit keeps the analyses of its graph between passes.  A pass that changed the graph says which of them
are still right, and the others are dropped.  What is kept is right: between two passes, every cached
analysis answers as if it were computed from the graph as it is then.

## Shape of the argument

The invariant `Kept` says this of the tree, the loops and the effects, and of the nullability facts that
they represent the solution for the graph.  Passes that publish an analysis do not change the graph.
Passes that change the graph trim it, which leaves tree and loops right, and drop the effects; those that
keep the nullability facts prune it.  A pass that says it changed nothing changed nothing.  The check after
a change is what makes the next pass start from a well-formed graph.
-/

namespace Midend

open Midend.Graph Work Manager

/-- The effects of a graph, computed at once. -/
def EffectSummary.ofGraph (g : Graph) : Checked EffectSummary := do
  let t ← DomTree.ofGraph g
  let s ← t.rpo.foldlM (EffectSummary.addBlock g) (.start (LoopForest.ofGraph g t))
  return s.finish g

namespace Analyses

variable {g g' : Graph} {a a' : Analyses}

/-- The analyses that are there answer as if they were computed from the graph. -/
structure Coherent (g : Graph) (a : Analyses) : Prop where
  dominators : ∀ t, a.dominators = some t → DomTree.ofGraph g = .ok t
  loops : ∀ f, a.loops = some f → ∃ t, DomTree.ofGraph g = .ok t ∧ LoopForest.ofGraph g t = f
  sideEffects : ∀ s, a.sideEffects = some s → EffectSummary.ofGraph g = .ok s
  nullability : ∀ f, a.nullability = some f → ∃ t f', DomTree.ofGraph g = .ok t ∧
    NullFacts.ofGraph g t = .ok (some f') ∧ NullFacts.Agrees g t f f'

/-- What passes keep of a graph and its analyses. -/
structure Kept (g : Graph) (a : Analyses) : Prop where
  intact : g.Intact
  furnished : g.Furnished
  wellFormed : g.WellFormed
  dominators : ∀ t, a.dominators = some t → DomTree.ofGraph g = .ok t
  loops : ∀ f, a.loops = some f → ∃ t, DomTree.ofGraph g = .ok t ∧ LoopForest.ofGraph g t = f
  sideEffects : ∀ s, a.sideEffects = some s → EffectSummary.ofGraph g = .ok s
  nullability : ∀ f, a.nullability = some f → NullFacts.Represents g f

/-- What is kept is coherent. -/
theorem Kept.coherent (h : Kept g a) : Coherent g a := by
  refine ⟨h.dominators, h.loops, h.sideEffects, fun f hf => ?_⟩
  obtain ⟨entry, hentry, -⟩ := h.wellFormed.entry
  obtain ⟨t, ht⟩ := DomTree.ofGraph_eq_ok (mem_blockIds_iff.2 ⟨entry, hentry⟩)
  have hg := h.intact.consistent
  obtain ⟨f', hf', hrep⟩ := NullFacts.ofGraph_represents h.wellFormed hg h.furnished ht
  exact ⟨t, f', ht, hf', (h.nullability f hf).agrees h.wellFormed hg hrep⟩

/-- Nothing is cached for a graph at first. -/
theorem kept_empty (hi : g.Intact) (hl : g.Furnished) (hw : g.WellFormed) : Kept g .empty where
  intact := hi
  furnished := hl
  wellFormed := hw
  dominators t ht := by cases ht
  loops f hf := by cases hf
  sideEffects s hs := by cases hs
  nullability f hf := by cases hf

/-- What is cached after a change, if the effects were dropped. -/
theorem Kept.trimmed (h : Kept g a) (ht : Trimmed g g') (hv : g'.violations = .ok [])
    (hdoms : ∀ t, a'.dominators = some t → a.dominators = some t)
    (hloops : ∀ f, a'.loops = some f → a.loops = some f) (heffects : a'.sideEffects = none)
    (hnull : ∀ f, a'.nullability = some f → g'.WellFormed → NullFacts.Represents g' f) : Kept g' a' := by
  have hi := ht.intact h.intact
  have hw := hi.consistent.violations_eq_nil_iff.1 hv
  refine ⟨hi, ht.furnished h.intact h.furnished, hw, fun t ht' => ?_, fun f hf => ?_, fun s hs => ?_,
    fun f hf => hnull f hf hw⟩
  · exact ht.dominators (h.dominators t (hdoms t ht'))
  · obtain ⟨t, ht', rfl⟩ := h.loops f (hloops f hf)
    exact ⟨t, ht.dominators ht', ht.loops t⟩
  · rw [heffects] at hs
    cases hs

end Analyses

open Analyses

/-! ## Analyses that are asked for -/

namespace Work

variable {u u' : CompUnit}

/-- The tree is computed, or it was cached. -/
theorem kept_dominators {t : DomTree} (hy : dominators.Yields u t u') (h : Kept u.graph u.analyses) :
    DomTree.ofGraph u.graph = .ok t ∧
      u' = { u with analyses := { u.analyses with dominators := some t } } ∧ Kept u'.graph u'.analyses := by
  rcases yields_dominators.1 hy with ⟨hcached, rfl⟩ | ⟨-, ht, rfl⟩
  · refine ⟨h.dominators t hcached, ?_, h⟩
    rw [← hcached]
  · exact ⟨ht, rfl, { h with dominators := fun t' ht' => Option.some.inj ht' ▸ ht }⟩

/-- The loops are computed, or they were cached. -/
theorem kept_loops {f : LoopForest} (hy : loops.Yields u f u') (h : Kept u.graph u.analyses) :
    (∃ t, DomTree.ofGraph u.graph = .ok t ∧ LoopForest.ofGraph u.graph t = f) ∧ u'.graph = u.graph ∧
      Kept u'.graph u'.analyses := by
  simp only [loops, yields_bind, yields_get] at hy
  obtain ⟨_, _, ⟨rfl, rfl⟩, hy⟩ := hy
  split at hy
  · next f' hcached =>
    obtain ⟨rfl, rfl⟩ := yields_pure.1 hy
    exact ⟨h.loops f hcached, rfl, h⟩
  · simp only [yields_bind, yields_get, yields_modifyAnalyses, yields_pure] at hy
    obtain ⟨t, u₁, hdoms, _, _, ⟨rfl, rfl⟩, _, _, rfl, rfl, rfl⟩ := hy
    obtain ⟨ht, rfl, h₁⟩ := kept_dominators hdoms h
    exact ⟨⟨t, ht, rfl⟩, rfl, { h₁ with loops := fun f' hf' => Option.some.inj hf' ▸ ⟨t, ht, rfl⟩ }⟩

end Work

/-! ## One pass after the other -/

namespace Manager

/-- A pass leaves the cache right: if it says that it changed nothing, all of it, and else, once the graph
has been checked, what it says it preserves. -/
def Preserves (p : Pass) : Prop :=
  ∀ ⦃place u changed u'⦄, (runPass place p).Yields u changed u' → Kept u.graph u.analyses →
    (changed = false → Kept u'.graph u'.analyses) ∧
    (changed = true → u'.graph.violations = .ok [] → Kept u'.graph (u'.analyses.invalidate p.preserved))

variable {u u' : CompUnit} {place : Nat}

/-- Running a pass that preserves what is kept keeps it, settling included. -/
theorem Preserves.kept_runGated {p : Pass} (hp : Preserves p) (h : Kept u.graph u.analyses)
    (hy : (runGated true place p).Yields u () u') : Kept u'.graph u'.analyses := by
  obtain ⟨-, rfl⟩ | ⟨-, changed, u₁, hpass, rfl, hv⟩ := yields_runGated_iff.1 hy
  · exact h
  · obtain ⟨hsame, hchanged⟩ := hp hpass h
    cases changed with
    | false => exact hsame rfl
    | true => exact hchanged rfl (hv rfl rfl)

/-- Passes one after another keep it. -/
theorem kept_runFrom {ps : List Pass} (hps : ∀ p ∈ ps, Preserves p) (h : Kept u.graph u.analyses)
    (hy : (runFrom true place ps).Yields u () u') : Kept u'.graph u'.analyses := by
  induction ps generalizing u place with
  | nil =>
    obtain ⟨-, rfl⟩ := yields_pure.1 hy
    exact h
  | cons p ps ih =>
    obtain ⟨u₁, hp, hrest⟩ := yields_runFrom_cons.1 hy
    exact ih (fun q hq => hps q (List.mem_cons_of_mem _ hq)) ((hps p (by simp)).kept_runGated h hp) hrest

/-- Visiting blocks with a worker that changes nothing. -/
theorem foldlM_runWorker_keeps {σ : Type} {worker : σ → BlockId → Work (σ × Bool)} {bs : List BlockId}
    {st r : σ × Bool}
    (hworker : ∀ s b u r u', (worker s b).Yields u r u' → r.2 = false ∧ u' = u)
    (hy : (bs.foldlM (runWorker place worker) st).Yields u r u') :
    r.2 = st.2 ∧ u'.graph = u.graph ∧ u'.analyses = u.analyses := by
  induction bs generalizing st u with
  | nil =>
    obtain ⟨rfl, rfl⟩ := yields_pure.1 hy
    exact ⟨rfl, rfl, rfl⟩
  | cons b bs ih =>
    rw [List.foldlM_cons, yields_bind] at hy
    obtain ⟨st₁, u₁, hstep, hy⟩ := hy
    simp only [runWorker, yields_bind, yields_note, yields_pure] at hstep
    obtain ⟨_, _, rfl, r₁, u₂, hr₁, rfl, rfl⟩ := hstep
    obtain ⟨hfalse, rfl⟩ := hworker _ _ _ _ _ hr₁
    obtain ⟨hr, hg, ha⟩ := ih hy
    exact ⟨by rw [hr, hfalse, Bool.or_false], hg, ha⟩

end Manager

/-! ## Passes that publish an analysis -/

/-- Summarizing effects preserves what is kept. -/
theorem SideEffects.preserves : Preserves SideEffects.pass := by
  intro place u changed u' hy h
  obtain ⟨s₀, u₁, t, u₂, st, u₃, r, hstart, hdoms, hfold, hfinish, rfl⟩ := yields_runPass hy
  simp only [start, yields_bind, yields_pure] at hstart
  obtain ⟨f, _, hloops, rfl, rfl⟩ := hstart
  obtain ⟨⟨t₀, ht₀, rfl⟩, hg₁, h₁⟩ := kept_loops hloops h
  obtain ⟨ht, rfl, h₂⟩ := kept_dominators hdoms h₁
  have hworker : ∀ s b v r v', v.graph = u₁.graph →
      v.analyses = { u₁.analyses with dominators := some t } → (worker s b).Yields v r v' →
      EffectSummary.addBlock u₁.graph s b = .ok r.1 ∧ r.2 = false ∧ v' = v :=
    fun s b v r v' hg _ hworker => hg ▸ yields_worker hworker
  obtain ⟨hsummary, hunchanged, hg₃, ha₃⟩ := foldlM_of_yields hworker hfold rfl rfl
  simp only [finish, yields_bind, yields_get, yields_modifyAnalyses, yields_pure] at hfinish
  obtain ⟨_, _, ⟨rfl, rfl⟩, _, _, rfl, rfl, rfl⟩ := hfinish
  refine ⟨fun _ => ?_, fun hchanged => by rw [hunchanged] at hchanged; cases hchanged⟩
  rw [hg₃, ha₃]
  refine { h₂ with sideEffects := fun s hs => ?_ }
  obtain rfl := Option.some.inj hs
  have htree : t₀ = t := Except.ok.inj (ht₀.symm.trans (hg₁ ▸ ht))
  simp only [EffectSummary.ofGraph, Checked.bind_eq_ok, Checked.pure_eq_ok]
  refine ⟨t, ht, st.1, ?_, rfl⟩
  rw [← hsummary, ← htree, hg₁]

/-- Propagating nullness preserves what is kept. -/
theorem NullPropagation.preserves : Preserves NullPropagation.pass := by
  intro place u changed u' hy h
  obtain ⟨_, _, st, _, r, hstart, hrun, hfinish, rfl⟩ := yields_runPass_wholeGraph.1 hy
  obtain ⟨-, rfl⟩ := yields_pure.1 hstart
  obtain ⟨rfl, rfl⟩ := yields_pure.1 hfinish
  rw [yields_bind] at hrun
  obtain ⟨changed, u₁, hrun, hpure⟩ := hrun
  obtain ⟨rfl, rfl⟩ := yields_pure.1 hpure
  simp only [run, yields_bind, yields_get] at hrun
  obtain ⟨t, u₂, hdoms, _, _, ⟨rfl, rfl⟩, facts?, u₃, hfacts, hrun⟩ := hrun
  obtain ⟨ht, rfl, h₂⟩ := kept_dominators hdoms h
  obtain ⟨hok, rfl⟩ := yields_ofChecked.1 hfacts
  cases facts? with
  | none =>
    simp only [yields_bind] at hrun
    obtain ⟨_, _, -, hfail⟩ := hrun
    exact absurd hfail not_yields_fail
  | some f =>
    simp only [yields_bind, yields_modifyAnalyses, yields_pure] at hrun
    obtain ⟨_, _, rfl, rfl, rfl⟩ := hrun
    refine ⟨fun _ => { h₂ with nullability := fun f' hf' => ?_ }, fun hchanged => by cases hchanged⟩
    obtain rfl := Option.some.inj hf'
    obtain ⟨f', hf', hrep⟩ := NullFacts.ofGraph_represents h.wellFormed h.intact.consistent h.furnished ht
    obtain rfl : f = f' := Option.some.inj (Except.ok.inj (hok.symm.trans hf'))
    exact hrep

/-! ## Passes that change the graph -/

theorem NullFacts.mem_derefPoints_retainDerefs {f : NullFacts} {keep : InstId → Bool} {x d : InstId} :
    d ∈ (f.retainDerefs keep).derefPoints x ↔ d ∈ f.derefPoints x ∧ keep d = true := by
  have hget : (f.retainDerefs keep).derefPoints x = (f.derefPoints x).filter keep := by
    simp only [derefPoints, retainDerefs, Table.get, Table.map, Array.getD_eq_getD_getElem?,
      Array.getElem?_map]
    cases f.derefs.entries[x.index]? <;> rfl
  rw [hget, List.mem_filter]

/-- Removing null checks preserves what is kept. -/
theorem NullCheck.preserves : Preserves NullCheck.pass := by
  intro place u changed u' hy h
  obtain ⟨_, _, st, _, r, hstart, hrun, hfinish, rfl⟩ := yields_runPass_wholeGraph.1 hy
  obtain ⟨-, rfl⟩ := yields_pure.1 hstart
  obtain ⟨rfl, rfl⟩ := yields_pure.1 hfinish
  rw [yields_bind] at hrun
  obtain ⟨changed, u₁, hrun, hpure⟩ := hrun
  obtain ⟨rfl, rfl⟩ := yields_pure.1 hpure
  simp only [run, yields_bind, yields_get] at hrun
  obtain ⟨t, u₂, hdoms, _, _, ⟨rfl, rfl⟩, hrun⟩ := hrun
  obtain ⟨ht, rfl, h₂⟩ := kept_dominators hdoms h
  split at hrun
  · exact absurd hrun not_yields_fail
  next f hf =>
  simp only [yields_bind, yields_ofChecked, yields_setGraph] at hrun
  obtain ⟨pairs, _, ⟨hpairs, rfl⟩, g', _, ⟨hfold, rfl⟩, _, _, rfl, hrun⟩ := hrun
  cases pairs with
  | nil =>
    simp only [List.isEmpty_nil, Bool.not_true, Bool.false_eq_true, if_false, yields_bind, yields_record,
      yields_pure] at hrun
    obtain ⟨_, _, ⟨stats, -, rfl⟩, rfl, rfl⟩ := hrun
    obtain rfl : u.graph = g' := Except.ok.inj hfold
    exact ⟨fun _ => h₂, fun hchanged => by cases hchanged⟩
  | cons pair pairs =>
    simp only [List.isEmpty_cons, Bool.not_false, if_true, yields_bind, yields_modifyAnalyses,
      yields_record, yields_pure] at hrun
    obtain ⟨_, _, rfl, _, _, ⟨stats, -, rfl⟩, rfl, rfl⟩ := hrun
    refine ⟨fun hchanged => (by cases hchanged), fun _ hv => ?_⟩
    have hg := h.intact.consistent
    have hrep := h.nullability f hf
    obtain ⟨g₁, hg₁, hpruned⟩ := exists_pruned h.wellFormed hg h.furnished hrep hpairs h.intact ht
    obtain rfl : g' = g₁ := Except.ok.inj (hfold.symm.trans hg₁)
    have htrimmed := trimmed_foldlM h.intact (fun _ _ _ hg h => trimmed_removeCheck hg h) hfold
    refine h₂.trimmed htrimmed hv (fun t ht => ht) (fun l hl => hl) rfl fun f' hf' hw' => ?_
    obtain rfl := Option.some.inj hf'
    refine hpruned.represents h.wellFormed hg h.furnished hw' (htrimmed.furnished h.intact h.furnished) hrep
      (fun x => rfl) fun x d hx => ?_
    rw [NullFacts.mem_derefPoints_retainDerefs]
    refine and_congr_right fun hd => ⟨fun hkeep => ?_, fun hgone => ?_⟩
    · exact hpruned.not_mem_gone h.wellFormed (by simpa using hkeep)
    · -- a dereference that is left was never marked
      have hxgone := hpruned.not_mem_gone h.wellFormed hx
      obtain ⟨⟨b, n, -, block, hblock, hget⟩, -⟩ :=
        hrep.derefs x d (hpruned.rewired.isRemoved hxgone ▸ hx) hd
      rw [hpruned.rewired.isRemoved hgone, Bool.not_eq_true', Bool.eq_false_iff]
      intro hremoved
      have hplace := (h.intact.listed d b).1 (mem_bodyOf.2 ⟨block, hblock, List.mem_of_getElem? hget⟩)
      rw [h.intact.removed d hremoved] at hplace
      cases hplace

/-- Removing dead code preserves what is kept. -/
theorem DeadCode.preserves : Preserves DeadCode.pass := by
  intro place u changed u' hy h
  obtain ⟨_, _, st, _, r, hstart, hrun, hfinish, rfl⟩ := yields_runPass_wholeGraph.1 hy
  obtain ⟨-, rfl⟩ := yields_pure.1 hstart
  obtain ⟨rfl, rfl⟩ := yields_pure.1 hfinish
  rw [yields_bind] at hrun
  obtain ⟨changed, u₁, hrun, hpure⟩ := hrun
  obtain ⟨rfl, rfl⟩ := yields_pure.1 hpure
  simp only [run, yields_bind, yields_get, yields_ofChecked, yields_setGraph, yields_record,
    yields_pure] at hrun
  obtain ⟨_, _, ⟨rfl, rfl⟩, ⟨g', outcome⟩, _, ⟨helim, rfl⟩, _, _, rfl, _, _, ⟨stats, -, rfl⟩, rfl, rfl⟩ := hrun
  obtain ⟨gone, hcleared, hsame⟩ := cleared_eliminate h.wellFormed h.intact helim
  refine ⟨fun hchanged => ?_, fun _ hv => ?_⟩
  · obtain rfl := hsame (by simpa using hchanged)
    exact h
  · refine h.trimmed hcleared.trimmed hv (fun t ht => ht) (fun l hl => hl) rfl fun f hf hw' => ?_
    have hrep := h.nullability f hf
    refine hcleared.pruned.represents h.wellFormed h.intact.consistent h.furnished hw'
      (hcleared.trimmed.furnished h.intact h.furnished) hrep (fun x => rfl) fun x d hx => ?_
    refine ⟨fun hd => ⟨hd, fun hgone => ?_⟩, And.left⟩
    -- what is gone could not throw, so it dereferenced nothing
    have hxgone := hcleared.pruned.not_mem_gone h.wellFormed hx
    obtain ⟨-, inst, k, -, hinst, hk, -⟩ := hrep.derefs x d (hcleared.rewired.isRemoved hxgone ▸ hx) hd
    rw [Kind.dereferencedInput?_eq_none (hcleared.idle d hgone inst hinst).1] at hk
    cases hk

/-- Removing loads and stores preserves what is kept. -/
theorem LoadStore.preserves : Preserves LoadStore.pass := by
  intro place u changed u' hy h
  obtain ⟨s₀, u₁, t, u₂, st, u₃, r, hstart, hdoms, hfold, hfinish, rfl⟩ := yields_runPass hy
  simp only [start, yields_bind, yields_get, yields_ofChecked, yields_pure] at hstart
  obtain ⟨_, _, ⟨rfl, rfl⟩, hasMonitors, _, ⟨-, rfl⟩, t', _, hdoms', rfl, rfl⟩ := hstart
  obtain ⟨-, rfl, h₁⟩ := kept_dominators hdoms' h
  obtain ⟨-, rfl, h₂⟩ := kept_dominators hdoms h₁
  have hworker : ∀ s b v r v', (worker s b).Yields v r v' → r.2 = false ∧ v' = v := by
    intro s b v r v' hworker
    simp only [worker, yields_bind, yields_get] at hworker
    obtain ⟨_, _, ⟨rfl, rfl⟩, hworker⟩ := hworker
    split at hworker
    · exact absurd hworker not_yields_fail
    · exact absurd hworker not_yields_fail
    · simp only [yields_bind, yields_ofChecked, yields_pure] at hworker
      obtain ⟨_, _, ⟨-, rfl⟩, rfl, rfl⟩ := hworker
      exact ⟨rfl, rfl⟩
  obtain ⟨hunchanged, hg₃, ha₃⟩ := foldlM_runWorker_keeps hworker hfold
  simp only [finish, yields_bind, yields_get, yields_ofChecked, yields_setGraph, yields_record,
    yields_pure] at hfinish
  obtain ⟨_, _, ⟨rfl, rfl⟩, g', _, ⟨happly, rfl⟩, _, _, rfl, _, _, ⟨stats, -, rfl⟩, _, _, ⟨stats', -, rfl⟩,
    rfl, rfl⟩ := hfinish
  simp only [hg₃] at happly
  refine ⟨fun hchanged => ?_, fun _ hv => ?_⟩
  · simp only [hunchanged, Bool.false_or, Bool.or_eq_false_iff, decide_eq_false_iff_not, Nat.not_lt,
      Nat.le_zero, List.length_eq_zero_iff] at hchanged
    obtain rfl := applyTo_eq_self hchanged.1 hchanged.2 happly
    simp only [ha₃]
    exact h₂
  · refine h₂.trimmed (trimmed_applyTo h.intact happly) hv (fun t ht => ?_) (fun l hl => ?_) rfl
      fun f hf => ?_
    · rw [← ht]
      simp only [ha₃]
      rfl
    · rw [← hl]
      simp only [ha₃]
      rfl
    · cases hf

/-- Every pass preserves what is kept. -/
theorem PassId.preserves (p : PassId) : Preserves p.pass := by
  cases p with
  | sideEffects => exact SideEffects.preserves
  | loadStore => exact LoadStore.preserves
  | nullPropagation => exact NullPropagation.preserves
  | nullCheck => exact NullCheck.preserves
  | deadCode => exact DeadCode.preserves

/-! ## The run of a pipeline -/

section Pipeline

variable {g : Graph} {settings : Settings} (hg : g.Built) (hv : g.violations = .ok []) (hl : g.Layout)
include hg hv hl

/-- What a unit caches once its graph has been checked and some passes have run. -/
theorem kept_run {done rest : List Pass} {u : CompUnit} (hsplit : settings.pipeline = done ++ rest)
    (hrun : (do check inputName; runAll true done : Work Unit).Yields (.new g settings) () u) :
    Kept u.graph u.analyses := by
  rw [yields_bind] at hrun
  obtain ⟨_, u₀, hcheck, hrun⟩ := hrun
  obtain ⟨-, rfl⟩ := yields_check.1 hcheck
  have hw := hg.intact.consistent.violations_eq_nil_iff.1 hv
  refine kept_runFrom (fun p hp => ?_) (kept_empty hg.intact hl hw) hrun
  have hmem : p ∈ settings.pipeline := hsplit ▸ List.mem_append_left rest hp
  obtain ⟨id, -, rfl⟩ := List.mem_map.1 hmem
  exact id.preserves

/-- Between two passes of a checked run, every cached analysis answers as if it were computed from the
graph as it is then.  So do the facts about null that are returned next to the optimized graph. -/
theorem analyses_coherent_between_passes (hverify : settings.verify = true) :
    (∀ done rest u, settings.pipeline = done ++ rest →
      (do check inputName; runAll settings.verify done : Work Unit).run (.new g settings) = (.ok (), u) →
      u.analyses.Coherent u.graph) ∧
    ∀ r f, optimize g settings = .ok r → r.nullability = some f →
      ∃ t f', DomTree.ofGraph r.graph = .ok t ∧ NullFacts.ofGraph r.graph t = .ok (some f') ∧
        NullFacts.Agrees r.graph t f f' := by
  rw [optimize, hverify]
  refine ⟨fun done rest u hsplit hrun => (kept_run hg hv hl hsplit hrun).coherent, fun r f hr hf => ?_⟩
  split at hr
  · next u hrun =>
    cases hr
    exact (kept_run hg hv hl (List.append_nil _).symm hrun).coherent.nullability f hf
  · cases hr

end Pipeline

/-- A loop with a check and a load that are done before it, and a sum that nothing reads. -/
def drain : Graph := .ofEdits "drain" [
  .createBlock, .createBlock, .internField ⟨"Tank", "level", .int, 8, false, false⟩,
  .createInst (.param 0) .ref [], .appendInst ⟨0⟩ ⟨0⟩,
  .createInst (.param 1) .ref [], .appendInst ⟨0⟩ ⟨1⟩,
  .createInst .nullCheck .ref [⟨1⟩], .appendInst ⟨0⟩ ⟨2⟩,
  .createInst (.instanceGet ⟨0⟩) .int [⟨2⟩], .appendInst ⟨0⟩ ⟨3⟩,
  .createInst .jump .void [], .appendInst ⟨0⟩ ⟨4⟩, .addEdge ⟨0⟩ ⟨1⟩,
  .createInst .phi .int [⟨3⟩], .appendPhi ⟨1⟩ ⟨5⟩,
  .createInst .nullCheck .ref [⟨1⟩], .appendInst ⟨1⟩ ⟨6⟩,
  .createInst (.instanceGet ⟨0⟩) .int [⟨6⟩], .appendInst ⟨1⟩ ⟨7⟩,
  .createInst (.binary .add) .int [⟨5⟩, ⟨7⟩], .appendInst ⟨1⟩ ⟨8⟩,
  .createInst (.binary .sub) .int [⟨5⟩, ⟨7⟩], .appendInst ⟨1⟩ ⟨9⟩,
  .createInst .branch .void [⟨9⟩], .appendInst ⟨1⟩ ⟨10⟩, .addEdge ⟨1⟩ ⟨1⟩, .addEdge ⟨1⟩ ⟨2⟩,
  .pushInput ⟨5⟩ ⟨9⟩,
  .createInst .ret .void [⟨9⟩], .appendInst ⟨2⟩ ⟨11⟩]

/-- For `drain` the default pipeline removes a load, a check and a dead instruction, and what is cached fits
the graph throughout. -/
theorem analyses_coherent_between_passes_drain :
    drain.Built ∧ drain.violations = .ok [] ∧ drain.Layout ∧ Settings.default.verify = true ∧
      ((optimize drain .default).toOption.map fun r =>
        (r.stats.get .removedLoad, r.stats.get .removedNullCheck, r.stats.get .removedDead,
          r.nullability.isSome)) =
        some (1, 1, 1, true) ∧
      (∀ done rest u, Settings.default.pipeline = done ++ rest →
        (do check inputName; runAll Settings.default.verify done : Work Unit).run (.new drain .default) =
          (.ok (), u) →
        u.analyses.Coherent u.graph) ∧
      ∀ r f, optimize drain .default = .ok r → r.nullability = some f →
        ∃ t f', DomTree.ofGraph r.graph = .ok t ∧ NullFacts.ofGraph r.graph t = .ok (some f') ∧
          NullFacts.Agrees r.graph t f f' := by
  have hbuilt : drain.Built := Graph.built_ofEdits _ _
  exact ⟨hbuilt, by decide +kernel, by decide +kernel, rfl, by decide +kernel,
    analyses_coherent_between_passes hbuilt (by decide +kernel) (by decide +kernel) rfl⟩

end Midend
