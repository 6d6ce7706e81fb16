import Midend.Proofs.AnalysisCache
import Midend.Proofs.Forwarding
import Midend.Proofs.Frame

/-!
# Passes that do not fault

A pass may come to an end, or fail, but it is not meant to fault.  Sweeping dead code and summarizing effects
do not fault on any graph that refers only to what is there and whose instructions have their operands.  The
other passes rely on a well-formed graph with a right cache.  Of the passes that change a graph, load/store
elimination and the removal of dead code leave a well-formed graph well formed; the removal of null checks may
not.

## Shape of the argument

`Work.Ensures` has a rule for every way of putting work together, so each pass is followed once, from its
first hook to its last, whatever reasons to end early are allowed.  The counters stay in range since every
removal that is counted is an instruction of the graph that the work started from.
-/

namespace Midend

open Midend.Graph CompUnit Analyses

/-- The work failed, and did not fault. -/
def Halt.IsFailure : Halt → Prop
  | failed _ => True
  | faulted _ => False

namespace Work

variable {α β : Type} {R : Halt → Prop} {u : CompUnit} {a : α} {w : Work α} {k : α → Work β}

/-- Work on a unit ends early for some reasons only, and what it comes to has a property. -/
def Ensures (w : Work α) (R : Halt → Prop) (u : CompUnit) (Q : α → CompUnit → Prop) : Prop :=
  (∀ h u', w.run u = (.error h, u') → R h) ∧ ∀ a u', w.Yields u a u' → Q a u'

/-- What is ensured may be weakened. -/
theorem Ensures.imp {Q Q' : α → CompUnit → Prop} (h : w.Ensures R u Q)
    (hQ : ∀ a u', w.Yields u a u' → Q a u' → Q' a u') : w.Ensures R u Q' :=
  ⟨h.1, fun a u' hy => hQ a u' hy (h.2 a u' hy)⟩

/-- Work that ends early for no reason comes to something. -/
theorem Ensures.exists_yields {Q : α → CompUnit → Prop} (h : w.Ensures (fun _ => False) u Q) :
    ∃ a u', w.Yields u a u' ∧ Q a u' := by
  rcases hw : w.run u with ⟨halt | a, u'⟩
  · exact (h.1 halt u' hw).elim
  · exact ⟨a, u', hw, h.2 a u' hw⟩

/-- Doing nothing ensures what holds. -/
theorem ensures_pure {Q : α → CompUnit → Prop} (h : Q a u) : (pure a : Work α).Ensures R u Q := by
  refine ⟨by rintro h u' ⟨⟩, fun a' u' hy => ?_⟩
  obtain ⟨rfl, rfl⟩ := yields_pure.1 hy
  exact h

/-- A sequence ensures what its second part ensures after its first. -/
theorem ensures_bind {Q : β → CompUnit → Prop} (h : w.Ensures R u fun a u' => (k a).Ensures R u' Q) :
    (w >>= k).Ensures R u Q := by
  constructor
  · intro halt u' hrun
    rw [run_bind] at hrun
    rcases hw : w.run u with ⟨_ | a, u₁⟩
    · rw [hw] at hrun
      cases hrun
      exact h.1 _ _ hw
    · rw [hw] at hrun
      exact (h.2 a u₁ hw).1 halt u' hrun
  · intro b u' hy
    obtain ⟨a, u₁, hw, hk⟩ := yields_bind.1 hy
    exact (h.2 a u₁ hw).2 b u' hk

/-- Looking at the unit ensures what holds of it. -/
theorem ensures_get {Q : CompUnit → CompUnit → Prop} (h : Q u u) : (get : Work CompUnit).Ensures R u Q := by
  refine ⟨by rintro h u' ⟨⟩, fun a u' hy => ?_⟩
  obtain ⟨rfl, rfl⟩ := yields_get.1 hy
  exact h

/-- Changing the unit ensures what holds after the change. -/
theorem ensures_modify {f : CompUnit → CompUnit} {Q : Unit → CompUnit → Prop} (h : Q () (f u)) :
    (modify f : Work Unit).Ensures R u Q := by
  refine ⟨by rintro h u' ⟨⟩, fun a u' hy => ?_⟩
  obtain rfl := yields_modify.1 hy
  exact h

/-- Failing ensures anything, if the failure is allowed. -/
theorem ensures_fail {f : Failure} {Q : α → CompUnit → Prop} (h : R (.failed f)) :
    (fail f : Work α).Ensures R u Q := by
  refine ⟨?_, fun _ _ hy => absurd hy not_yields_fail⟩
  rintro halt u' ⟨⟩
  exact h

/-- A checked answer ensures what holds of it, if there is one. -/
theorem ensures_ofChecked {c : Checked α} {Q : α → CompUnit → Prop} (h : ∃ a, c = .ok a ∧ Q a u) :
    (ofChecked c).Ensures R u Q := by
  obtain ⟨a, rfl, ha⟩ := h
  exact ensures_pure ha

/-- Counting ensures what holds after it, if the counter does not overflow. -/
theorem ensures_record {c : Counter} {n : Nat} {Q : Unit → CompUnit → Prop}
    (h : ∃ stats, u.stats.record c n = .ok stats ∧ Q () { u with stats := stats }) :
    (record c n).Ensures R u Q := by
  obtain ⟨stats, hstats, hQ⟩ := h
  exact ensures_bind (ensures_get (ensures_bind (ensures_ofChecked ⟨stats, hstats, ensures_modify hQ⟩)))

/-- Asking for the dominator tree ensures what holds of its answers, if there is a tree. -/
theorem ensures_dominators {Q : DomTree → CompUnit → Prop} (h : ∃ t, DomTree.ofGraph u.graph = .ok t)
    (hQ : ∀ t u', dominators.Yields u t u' → Q t u') : dominators.Ensures R u Q := by
  obtain ⟨t, ht⟩ := h
  suffices hdoms : dominators.Ensures R u fun _ _ => True from hdoms.imp fun t u' hy _ => hQ t u' hy
  refine ensures_bind (ensures_get ?_)
  split
  · exact ensures_pure trivial
  · exact ensures_bind (ensures_ofChecked ⟨t, ht, ensures_bind (ensures_modify (ensures_pure trivial))⟩)

/-- Asking for the loops ensures what holds of its answers, if there is a tree. -/
theorem ensures_loops {Q : LoopForest → CompUnit → Prop} (h : ∃ t, DomTree.ofGraph u.graph = .ok t)
    (hQ : ∀ f u', loops.Yields u f u' → Q f u') : loops.Ensures R u Q := by
  suffices hloops : loops.Ensures R u fun _ _ => True from hloops.imp fun f u' hy _ => hQ f u' hy
  refine ensures_bind (ensures_get ?_)
  split
  · exact ensures_pure trivial
  · refine ensures_bind (ensures_dominators h fun t u' _ => ?_)
    exact ensures_bind (ensures_get (ensures_bind (ensures_modify (ensures_pure trivial))))

/-- A fold ensures what its steps keep. -/
theorem ensures_foldlM {f : β → α → Work β} {xs : List α} {b : β} {P : β → CompUnit → Prop} (hb : P b u)
    (hstep : ∀ x ∈ xs, ∀ c v, P c v → (f c x).Ensures R v P) : (xs.foldlM f b).Ensures R u P := by
  induction xs generalizing b u with
  | nil => exact ensures_pure hb
  | cons x xs ih =>
    rw [List.forall_mem_cons] at hstep
    rw [List.foldlM_cons]
    exact ensures_bind ((hstep.1 b u hb).imp fun c v _ hc => ih hc hstep.2)

end Work

open Work

namespace Manager

variable {R : Halt → Prop} {u : CompUnit} {place : Nat}

/-- The hooks of a pass that visits the blocks, one after the other. -/
theorem ensures_perBlock {name : String} {σ : Type} {initial : σ} {gate : CompUnit → Bool} {start : σ → Work σ}
    {order : BlockOrder} {worker : σ → BlockId → Work (σ × Bool)} {finish : σ → Work (σ × Bool)}
    {preserved : List Analysis} {Q : Bool → CompUnit → Prop}
    (h : (start initial).Ensures R { u with journal := ⟨place, .start⟩ :: u.journal } fun s u₁ =>
      dominators.Ensures R u₁ fun t u₂ =>
        ((match order with
          | .reversePostorder => t.rpo
          | .domPreorder => t.preorder).foldlM (runWorker place worker) (s, false)).Ensures R u₂ fun st u₃ =>
          (finish st.1).Ensures R { u₃ with journal := ⟨place, .finish⟩ :: u₃.journal } fun r u' =>
            Q (st.2 || r.2) u') :
    (runPass place ⟨name, σ, initial, gate, start, .perBlock order worker, finish, preserved⟩).Ensures
      R u Q := by
  refine ensures_bind (ensures_modify (ensures_bind (h.imp fun s u₁ _ h => ?_)))
  refine ensures_bind (ensures_bind (ensures_bind (h.imp fun t u₂ _ h => ensures_pure ?_)))
  refine h.imp fun st u₃ _ h => ensures_bind (ensures_modify (ensures_bind (h.imp fun r u' _ h => ?_)))
  exact ensures_pure h

/-- The hooks of a pass that goes over the whole graph at once, and only that. -/
theorem ensures_wholeGraph {name : String} {gate : CompUnit → Bool} {run : Work Bool}
    {preserved : List Analysis} {Q : Bool → CompUnit → Prop}
    (h : run.Ensures R { u with journal := ⟨place, .run⟩ :: ⟨place, .start⟩ :: u.journal } fun changed u' =>
      Q changed { u' with journal := ⟨place, .finish⟩ :: u'.journal }) :
    (runPass place ⟨name, Unit, (), gate, fun _ => return (), .wholeGraph fun _ => return ((), ← run),
      fun _ => return ((), false), preserved⟩).Ensures R u Q := by
  refine ensures_bind (ensures_modify (ensures_bind (ensures_pure (ensures_bind ?_))))
  refine ensures_bind (ensures_modify (ensures_bind (h.imp fun changed u' _ h => ensures_pure ?_)))
  refine ensures_bind (ensures_modify (ensures_bind (ensures_pure (ensures_pure ?_))))
  rw [Bool.or_false]
  exact h

/-- A check ensures what holds of an accepted graph; a graph that is not accepted fails. -/
theorem ensures_check {name : String} {Q : Unit → CompUnit → Prop} (h : ∃ vs, u.graph.violations = .ok vs)
    (hQ : u.graph.violations = .ok [] → Q () u)
    (hR : ∀ vs, u.graph.violations = .ok vs → vs ≠ [] → R (.failed (.invariantViolation name vs))) :
    (check name).Ensures R u Q := by
  obtain ⟨vs, hvs⟩ := h
  refine ensures_bind (ensures_get (ensures_bind (ensures_ofChecked ⟨vs, hvs, ?_⟩)))
  cases vs with
  | nil => exact ensures_pure (hQ hvs)
  | cons v vs => exact ensures_fail (hR _ hvs (List.cons_ne_nil v vs))

/-- A pass with its gate, and the check after a change. -/
theorem ensures_runGated {p : Pass} {verify : Bool} {Q : Unit → CompUnit → Prop}
    (hshut : ∀ journal, Q () { u with journal := journal })
    (hopen : p.gate u = true → ∀ journal,
      (runPass place p).Ensures R { u with journal := journal } fun changed u' =>
      (changed = false → Q () u') ∧
      (changed = true → ∀ u₁, u₁ = { u' with analyses := u'.analyses.invalidate p.preserved } →
        (verify = false → Q () u₁) ∧ (verify = true → (check p.name).Ensures R u₁ Q))) :
    (runGated verify place p).Ensures R u Q := by
  refine ensures_bind (ensures_get (ensures_bind (ensures_modify ?_)))
  split
  · next hgate =>
    refine ensures_bind ((hopen hgate _).imp fun changed u' _ h => ?_)
    cases changed with
    | false => exact ensures_pure (h.1 rfl)
    | true =>
      refine ensures_bind (ensures_modify ?_)
      cases verify with
      | false => exact ensures_pure ((h.2 rfl _ rfl).1 rfl)
      | true => exact (h.2 rfl _ rfl).2 rfl
  · exact ensures_pure (hshut _)

end Manager

open Manager

/-! ## Counters in range -/

/-- Counting does not overflow if the sum fits. -/
theorem Stats.exists_record {s : Stats} {c : Counter} {n : Nat} (h : s.get c + n < UInt64.size) :
    ∃ s', s.record c n = .ok s' :=
  ⟨_, if_pos h⟩

/-- Counting removals does not overflow if all removals together fit. -/
theorem Stats.exists_record_of_removals {s : Stats} {c : Counter} {n : Nat} (hc : c.isRemoval = true)
    (h : s.removals + n < UInt64.size) : ∃ s', s.record c n = .ok s' := by
  have hle : s.get c ≤ s.removals := by
    unfold removals
    cases c with
    | attempted | optimized | fallback => cases hc
    | _ => omega
  exact exists_record (by omega)

variable {R : Halt → Prop} {g g' : Graph} {gone gone' : List InstId} {u u' : CompUnit} {place : Nat}

/-- All removals together are no more than there were instructions. -/
theorem CompUnit.Accounts.removals_le (h : Accounts g gone u) (hg : g.Intact) (hr : Reduced u.graph gone' g') :
    u.stats.removals + gone'.length ≤ g.attached.length := by
  have hlength := (h.reduced.trans hr).length_attached hg
  rw [List.length_append] at hlength
  rw [h.removals]
  omega

/-- A graph whose instructions can be counted. -/
structure Graph.Countable (g : Graph) : Prop where
  intact : g.Intact
  countable : g.attached.length < UInt64.size

/-- What passes need to find in the graph that they start from, if it need not be well formed. -/
structure Graph.Workable (g : Graph) : Prop extends g.Countable where
  inRange : g.InRange

/-- What is left of a graph in range is in range. -/
theorem CompUnit.Accounts.inRange (h : Accounts g gone u) (hg : g.Workable) : u.graph.InRange :=
  h.reduced.inRange hg.inRange

/-- Removals can be counted. -/
theorem CompUnit.Accounts.exists_record {c : Counter} {n : Nat} (h : Accounts g gone u) (hg : g.Countable)
    (hc : c.isRemoval = true) (hr : Reduced u.graph gone' g') (hn : n = gone'.length) :
    ∃ stats, u.stats.record c n = .ok stats := by
  have hle := h.removals_le hg.intact hr
  exact Stats.exists_record_of_removals hc (Nat.lt_of_le_of_lt (hn ▸ hle) hg.countable)

/-- Whether there are monitors is found without a fault. -/
theorem CompUnit.exists_hasMonitors (hi : u.graph.Intact) : ∃ b, u.hasMonitors = .ok b := by
  unfold hasMonitors
  split
  · exact ⟨_, rfl⟩
  · refine Checked.anyM_total fun i hmem => ?_
    obtain ⟨inst, hinst⟩ := hi.exists_inst hmem
    exact Checked.bind_total ⟨_, kind_eq_ok.2 ⟨inst, hinst, rfl⟩⟩ fun _ _ => ⟨_, rfl⟩

/-! ## Passes that need no well-formed graph -/

/-- The effects are summarized if those of each block can be told and a tree that is cached is the one of the
graph. -/
theorem SideEffects.ensures_runPass_of_tree (hi : u.graph.Intact)
    (hcached : ∀ t, u.analyses.dominators = some t → DomTree.ofGraph u.graph = .ok t)
    (htree : ∃ t, DomTree.ofGraph u.graph = .ok t)
    (hblocks : ∀ b, u.graph.Reachable b → ∀ s : EffectSummary, ∃ s', s.addBlock u.graph b = .ok s') :
    (runPass place SideEffects.pass).Ensures R u fun changed _ => changed = false := by
  refine ensures_perBlock (ensures_bind (ensures_loops htree fun f u₁ hloops => ensures_pure ?_))
  have hread₁ : Unchanged u u₁ := (unchanged_loops hloops).of_noted
  refine ensures_dominators (hread₁.graph ▸ htree) fun t u₂ hdoms => ?_
  have hread₂ : Unchanged u u₂ := hread₁.trans (unchanged_dominators hdoms)
  have ht : DomTree.ofGraph u.graph = .ok t :=
    (hread₂.dominators t (by rw [analyses_dominators hdoms])).elim (hcached t) id
  have hfold : (t.rpo.foldlM (runWorker place SideEffects.worker)
      (EffectSummary.start f, false)).Ensures R u₂ fun st v => v.graph = u.graph ∧ st.2 = false := by
    refine ensures_foldlM ⟨hread₂.graph, rfl⟩ fun b hb st v hv => ensures_bind (ensures_modify ?_)
    have hreach := (DomTree.mem_rpo hi.consistent ht).1 hb
    obtain ⟨s', hs'⟩ := hblocks b hreach st.1
    refine ensures_bind (ensures_bind (ensures_get (ensures_bind (ensures_ofChecked ⟨s', ?_, ?_⟩))))
    · exact hv.1 ▸ hs'
    · exact ensures_pure (ensures_pure ⟨hv.1, by rw [hv.2]; rfl⟩)
  refine hfold.imp fun st u₃ _ hst =>
    ensures_bind (ensures_get (ensures_bind (ensures_modify (ensures_pure ?_))))
  rw [hst.2]
  rfl

/-- Summarizing effects ends without a fault and changes nothing, if its blocks can be summarized. -/
theorem SideEffects.ensures_runPass (h : Accounts g gone u) (htree : ∃ t, DomTree.ofGraph u.graph = .ok t)
    (hblocks : ∀ b, u.graph.Reachable b → ∀ s : EffectSummary, ∃ s', s.addBlock u.graph b = .ok s') :
    (runPass place SideEffects.pass).Ensures R u fun changed _ => changed = false :=
  ensures_runPass_of_tree h.reduced.intact h.dominators htree hblocks

/-- Removing dead code ends without a fault and keeps a graph well formed. -/
theorem DeadCode.ensures_runPass (hg : g.Workable) (h : Accounts g gone u) :
    (runPass place DeadCode.pass).Ensures R u
    fun _ u' => u.graph.WellFormed → u'.graph.WellFormed := by
  have hi := h.reduced.intact
  obtain ⟨⟨g', outcome⟩, helim⟩ := exists_eliminate u.settings.maxSweeps hi (h.inRange hg)
  obtain ⟨gone', hreduced, hlength, -⟩ := swept_eliminate hi helim
  obtain ⟨stats, hstats⟩ := h.exists_record hg.toCountable (c := .removedDead) rfl hreduced hlength.symm
  refine ensures_wholeGraph (ensures_bind (ensures_get (ensures_bind (ensures_ofChecked ⟨_, helim, ?_⟩))))
  refine ensures_bind (ensures_modify
    (ensures_bind (ensures_record ⟨stats, hstats, ensures_pure fun hw => ?_⟩)))
  obtain ⟨gone, hcleared, -⟩ := cleared_eliminate hw hi helim
  exact hcleared.wellFormed hw hi.consistent

/-! ## Passes that need a right cache -/

section Kept

variable (hk : Kept u.graph u.analyses)
include hk

/-- Propagating nullness ends without a fault and changes nothing. -/
theorem NullPropagation.ensures_runPass :
    (runPass place NullPropagation.pass).Ensures R u fun changed _ => changed = false := by
  refine ensures_wholeGraph (ensures_bind (ensures_dominators hk.wellFormed.exists_tree fun t u₁ hdoms => ?_))
  obtain ⟨ht, rfl, -⟩ := kept_dominators hdoms hk
  obtain ⟨f, hf, -⟩ := NullFacts.ofGraph_represents hk.wellFormed hk.intact.consistent hk.furnished ht
  exact ensures_bind (ensures_get (ensures_bind (ensures_ofChecked ⟨some f, hf,
    ensures_bind (ensures_modify (ensures_pure rfl))⟩)))

/-- The checks to remove can be told. -/
theorem NullCheck.exists_redundant {t : DomTree} {f : NullFacts} (hf : u.analyses.nullability = some f) :
    ∃ pairs, redundant u.graph t f = .ok pairs := by
  refine Checked.filterMapM_total fun c hc => ?_
  obtain ⟨inst, hinst⟩ := hk.intact.exists_inst hc
  refine Checked.bind_total_of_eq (kind_eq_ok.2 ⟨inst, hinst, rfl⟩) ?_
  split
  · next hcheck =>
    obtain ⟨o, ho⟩ := hk.furnished.exists_operand hc hinst (k := 0) (by
      cases hkind : inst.kind <;> simp_all [Kind.isNullCheck, Kind.needs])
    obtain ⟨r, hr, -⟩ := (hk.nullability f hf).isNonNullAt_spec (t := t) hk.wellFormed hk.intact.consistent
      (hk.wellFormed.operand c inst 0 o hc hinst ho).1 hinst
    exact Checked.bind_total_of_eq (input_eq_ok.2 ⟨inst, hinst, ho⟩) (Checked.bind_total_of_eq hr ⟨_, rfl⟩)
  · exact ⟨_, rfl⟩

/-- Removing null checks ends without a fault where its gate is open. -/
theorem NullCheck.ensures_runPass (hg : g.Countable) (h : Accounts g gone u)
    (hgate : NullCheck.pass.gate u = true) :
    (runPass place NullCheck.pass).Ensures R u fun _ _ => True := by
  have hc := hk.intact.consistent
  obtain ⟨f, hf⟩ : ∃ f, u.analyses.nullability = some f := Option.isSome_iff_exists.1 hgate
  have hrep := hk.nullability f hf
  refine ensures_wholeGraph (ensures_bind (ensures_dominators hk.wellFormed.exists_tree fun t u₁ hdoms => ?_))
  obtain ⟨ht, rfl, -⟩ := kept_dominators hdoms hk
  obtain ⟨pairs, hpairs⟩ := exists_redundant hk hf (t := t)
  obtain ⟨g', hfold, -⟩ := exists_pruned hk.wellFormed hc hk.furnished hrep hpairs hk.intact ht
  obtain ⟨stats, hstats⟩ := h.exists_record hg (c := .removedNullCheck) rfl
    (reduced_removeChecks hk.intact hpairs hfold) (List.length_map ..).symm
  refine ensures_bind (ensures_get ?_)
  simp only [hf]
  refine ensures_bind (ensures_ofChecked ⟨pairs, hpairs, ensures_bind (ensures_ofChecked ⟨g', hfold,
    ensures_bind (ensures_modify ?_)⟩)⟩)
  split
  · exact ensures_bind (ensures_modify (ensures_bind (ensures_record ⟨stats, hstats, ensures_pure trivial⟩)))
  · exact ensures_bind (ensures_record ⟨stats, hstats, ensures_pure trivial⟩)

end Kept

/-- Visiting one block is visiting it in the state of the pass. -/
theorem LoadStore.ensures_worker {s s' : State} {b : BlockId} {t : DomTree} {summary : EffectSummary}
    {Q : State × Bool → CompUnit → Prop} (ht : u.analyses.dominators = some t)
    (hs : u.analyses.sideEffects = some summary) (hvisit : visitBlock u.graph t summary s b = .ok s')
    (hQ : Q (s', false) u) : (worker s b).Ensures R u Q := by
  refine ensures_bind (ensures_get ?_)
  rw [hs, ht]
  exact ensures_bind (ensures_ofChecked ⟨s', hvisit, ensures_pure hQ⟩)

section Visits

variable {t : DomTree} {summary : EffectSummary} (hk : Kept u.graph u.analyses)
  (ht : u.analyses.dominators = some t) (hs : u.analyses.sideEffects = some summary)
include hk ht hs

/-- The cached effects are those of the cached tree. -/
theorem Analyses.Kept.summarizes : EffectSummary.Summarizes u.graph t summary := by
  have hsummary := hk.sideEffects summary hs
  simp only [EffectSummary.ofGraph, Checked.bind_eq_ok, Checked.pure_eq_ok] at hsummary
  obtain ⟨t₁, ht₁, s, hs, rfl⟩ := hsummary
  obtain rfl : t = t₁ := Except.ok.inj ((hk.dominators t ht).symm.trans ht₁)
  exact EffectSummary.summarizes_finish hk.intact.consistent ht₁ hs

/-- The blocks can be visited one after the other; of the unit, only the journal changes. -/
theorem LoadStore.ensures_visits (hasMonitors : Bool) (hf : u.graph.FieldsDeclared) :
    (t.preorder.foldlM (runWorker place worker) (first u.graph hasMonitors, false)).Ensures R u fun st v =>
      t.preorder.foldlM (visitBlock u.graph t summary) (first u.graph hasMonitors) = .ok st.1 ∧
        ∃ journal, v = { u with journal := journal } := by
  have hc := hk.intact.consistent
  have htree := hk.dominators t ht
  have hfold : (t.preorder.foldlM (runWorker place worker) (first u.graph hasMonitors, false)).Ensures R u
      fun st v => (∃ done, Grounded u.graph (.between done st.1)) ∧ v.graph = u.graph ∧
        v.analyses = u.analyses := by
    refine ensures_foldlM ⟨⟨[], .first⟩, rfl, rfl⟩ fun b hb st v hv =>
      ensures_bind (ensures_modify (ensures_bind ?_))
    obtain ⟨⟨done, hground⟩, hgraph, hcache⟩ := hv
    obtain ⟨s', hs', hground'⟩ := exists_visitBlock hk.wellFormed hc hk.furnished hf
      ((DomTree.mem_preorder hc htree).1 hb) htree (hk.summarizes ht hs).loops hground
    refine ensures_worker (by rw [hcache, ht]) (by rw [hcache, hs]) (hgraph ▸ hs') ?_
    exact ensures_pure ⟨⟨_, hground'⟩, hgraph, hcache⟩
  exact hfold.imp fun st v hy _ => yields_visits hy ht hs

/-- What the visits found can be taken out and counted. -/
theorem LoadStore.ensures_finish {hasMonitors : Bool} {s : State} {journal : List HookCall} (hg : g.Countable)
    (h : Accounts g gone u) (hstores : ∀ x ∈ removableStores s, u.graph.uses x = [])
    (hvisits : t.preorder.foldlM (visitBlock u.graph t summary) (first u.graph hasMonitors) = .ok s) :
    (finish s).Ensures R { u with journal := journal } fun _ u' => u'.graph.WellFormed := by
  have hc := hk.intact.consistent
  have htree := hk.dominators t ht
  have htrace : Trace u.graph t summary hasMonitors s :=
    ⟨htree, hk.summarizes ht hs, advances_foldlM rfl hvisits⟩
  have hnodup := DomTree.nodup_preorder hc htree
  have hmarks := marks_of_visitBlocks rfl hvisits
  have hsourced := sourced_of_visitBlocks (sourced_start (fun _ => rfl) fun _ => rfl) hvisits
  obtain ⟨g', happly, -, hw'⟩ :=
    htrace.exists_applyTo hk.wellFormed hc hk.furnished hk.intact hstores hnodup hmarks
    hsourced
  have hle := h.removals_le hg.intact (reduced_applyTo hk.intact hnodup hmarks hsourced happly)
  rw [List.length_append] at hle
  have hcountable := hg.countable
  obtain ⟨stats, hstats⟩ : ∃ stats, u.stats.record .removedLoad s.removedLoads.length = .ok stats :=
    Stats.exists_record_of_removals rfl (by omega)
  have hremovals := Stats.removals_record hstats rfl
  obtain ⟨stats', hstats'⟩ : ∃ stats', stats.record .removedStore (removableStores s).length = .ok stats' :=
    Stats.exists_record_of_removals rfl (by omega)
  exact ensures_bind (ensures_get (ensures_bind (ensures_ofChecked ⟨g', happly, ensures_bind (ensures_modify
    (ensures_bind (ensures_record ⟨stats, hstats, ensures_bind (ensures_record
      ⟨stats', hstats', ensures_pure hw'⟩)⟩)))⟩)))

end Visits

/-- The visits come to the outcome of the graph. -/
theorem LoadStore.outcome_eq {hasMonitors : Bool} {s : State} {t : DomTree} {summary : EffectSummary}
    (hk : Kept u.graph u.analyses) (ht : u.analyses.dominators = some t)
    (hs : u.analyses.sideEffects = some summary) (hmonitors : u.hasMonitors = .ok hasMonitors)
    (hvisits : t.preorder.foldlM (visitBlock u.graph t summary) (first u.graph hasMonitors) = .ok s) :
    outcome u.graph = .ok s := by
  have hsummary := hk.sideEffects summary hs
  simp only [EffectSummary.ofGraph, Checked.bind_eq_ok, Checked.pure_eq_ok] at hsummary
  obtain ⟨t₁, ht₁, s₁, hs₁, rfl⟩ := hsummary
  obtain rfl : t = t₁ := Except.ok.inj ((hk.dominators t ht).symm.trans ht₁)
  simp only [outcome, Checked.bind_eq_ok]
  exact ⟨t, ht₁, s₁, hs₁, hasMonitors, hmonitors, hvisits⟩

/-- The pass does not fault if the stores that it finds dead have no uses. -/
theorem LoadStore.ensures_runPass (hg : g.Countable) (h : Accounts g gone u) (hk : Kept u.graph u.analyses)
    (hf : u.graph.FieldsDeclared)
    (hstores : ∀ last, outcome u.graph = .ok last → ∀ x ∈ removableStores last, u.graph.uses x = [])
    (hgate : LoadStore.pass.gate u = true) :
    (runPass place LoadStore.pass).Ensures R u fun _ u' => u'.graph.WellFormed := by
  obtain ⟨summary, hs⟩ := exists_summary_of_gate hgate
  obtain ⟨hasMonitors, hmonitors⟩ := exists_hasMonitors hk.intact
  have htree := hk.wellFormed.exists_tree
  refine ensures_perBlock (ensures_bind (ensures_get (ensures_bind (ensures_ofChecked ⟨hasMonitors, hmonitors,
    ensures_bind (ensures_dominators htree fun t' u₁ hdoms' => ensures_pure ?_)⟩))))
  obtain ⟨-, rfl, hk₁⟩ := kept_dominators hdoms' hk
  refine ensures_dominators htree fun t u₂ hdoms => ?_
  obtain ⟨-, rfl, hk₂⟩ := kept_dominators hdoms hk₁
  have h₂ := h.unchanged ((unchanged_dominators hdoms').of_noted.trans (unchanged_dominators hdoms))
  refine (ensures_visits hk₂ rfl hs hasMonitors hf).imp fun st u₃ _ hvisits => ?_
  obtain ⟨hvisits, journal, rfl⟩ := hvisits
  have houtcome := outcome_eq hk₂ rfl hs hmonitors hvisits
  exact ensures_finish hk₂ rfl hs hg h₂ (hstores _ houtcome) hvisits

end Midend
