import Midend.Pipeline
import Midend.Proofs.PassRun
import Midend.Proofs.Trimming

/-!
# What a pipeline leaves alone

A method that comes out of a pipeline is the one that went in, apart from operands that were redirected and
instructions that are gone.  This holds for every list of passes, checked in between or not.

## Shape of the argument

Passes read a unit, or they take instructions out of its graph and count them.  So a unit in the middle of
a run accounts for its graph: it came from the graph at the start by taking out instructions, and the
counters say how many.  Every pass keeps this, and the rest is read off.
-/

namespace Midend

open Midend.Graph Work Manager

/-! ## Counters -/

namespace Counter

/-- Counters of instructions that were removed. -/
def isRemoval : Counter → Bool
  | removedLoad | removedStore | removedNullCheck | removedDead => true
  | attempted | optimized | fallback => false

/-- Counters have places of their own. -/
theorem index_injective : Function.Injective index := by
  intro c c' h
  cases c <;> cases c' <;> simp_all [index]

end Counter

namespace Stats

variable {s s' : Stats} {c : Counter} {n : Nat}

/-- The instructions that were removed, for whatever reason. -/
def removals (s : Stats) : Nat :=
  s.get .removedLoad + s.get .removedStore + s.get .removedNullCheck + s.get .removedDead

/-- Nothing is counted at first. -/
theorem get_zero (c : Counter) : zero.get c = 0 := by
  rw [zero, get, Table.get_empty]
  rfl

/-- Counting changes one counter, by as much as is counted. -/
theorem get_record (h : s.record c n = .ok s') (c' : Counter) :
    s'.get c' = s.get c' + if c' = c then n else 0 := by
  simp only [record] at h
  split at h
  · obtain rfl := Except.ok.inj h
    simp only [get, Table.get_set, Counter.index_injective.eq_iff]
    split
    · next heq => rw [heq]
    · rfl
  · cases h

/-- Counting a removal counts it among all removals. -/
theorem removals_record (h : s.record c n = .ok s') (hc : c.isRemoval = true) :
    s'.removals = s.removals + n := by
  simp only [removals, get_record h]
  cases c <;> simp_all [Counter.isRemoval] <;> omega

/-- Counting removals leaves the other counters alone. -/
theorem get_record_of_removal (h : s.record c n = .ok s') (hc : c.isRemoval = true) {c' : Counter}
    (hc' : c'.isRemoval = false) : s'.get c' = s.get c' := by
  have hne : c' ≠ c := by
    rintro rfl
    rw [hc] at hc'
    cases hc'
  rw [get_record h, if_neg hne, Nat.add_zero]

end Stats

/-! ## Units that account for their graph -/

namespace CompUnit

variable {g g' : Graph} {gone gone' : List InstId} {u u' u'' : CompUnit} {t : DomTree}

/-- A unit was only read: graph and counters are the same, and if a dominator tree was added, it is the one
of the graph. -/
structure Unchanged (u u' : CompUnit) : Prop where
  graph : u'.graph = u.graph
  stats : u'.stats = u.stats
  dominators : ∀ t, u'.analyses.dominators = some t →
    u.analyses.dominators = some t ∨ DomTree.ofGraph u.graph = .ok t

/-- What two steps leave alone is left alone. -/
theorem Unchanged.trans (h : Unchanged u u') (h' : Unchanged u' u'') : Unchanged u u'' where
  graph := h'.graph.trans h.graph
  stats := h'.stats.trans h.stats
  dominators t ht := by
    rcases h'.dominators t ht with ht | ht
    · exact h.dominators t ht
    · exact .inr (h.graph ▸ ht)

/-- Writing in the journal changes nothing else. -/
theorem Unchanged.of_noted {journal : List HookCall} (h : Unchanged { u with journal := journal } u') :
    Unchanged u u' :=
  ⟨h.graph, h.stats, h.dominators⟩

/-- Dropping analyses adds no tree. -/
theorem unchanged_settle (p : Pass) (changed : Bool) (u : CompUnit) : Unchanged u (settle p changed u) := by
  cases changed with
  | false => exact ⟨rfl, rfl, fun _ => .inl⟩
  | true =>
    refine ⟨rfl, rfl, fun t ht => .inl ?_⟩
    simp only [settle, if_true, Analyses.invalidate] at ht
    split at ht
    · exact ht
    · cases ht

/-- What a unit knows about a graph that it started from: what is gone, and how much of it was counted. -/
structure Accounts (g : Graph) (gone : List InstId) (u : CompUnit) : Prop where
  reduced : Reduced g gone u.graph
  removals : u.stats.removals = gone.length
  others : ∀ c : Counter, c.isRemoval = false → u.stats.get c = 0
  dominators : ∀ t, u.analyses.dominators = some t → DomTree.ofGraph u.graph = .ok t

/-- At first nothing is taken out and nothing is counted. -/
theorem accounts_new (hg : g.Intact) (settings : Settings) : Accounts g [] (.new g settings) where
  reduced := hg.reduced
  removals := by simp only [new, Stats.removals, Stats.get_zero, List.length_nil]
  others c _ := Stats.get_zero c
  dominators t ht := by cases ht

/-- What leaves the graph and the counters alone leaves the accounts alone. -/
theorem Accounts.unchanged (h : Accounts g gone u) (hu : Unchanged u u') : Accounts g gone u' where
  reduced := hu.graph ▸ h.reduced
  removals := hu.stats ▸ h.removals
  others := hu.stats ▸ h.others
  dominators t ht := by
    rw [hu.graph]
    exact (hu.dominators t ht).elim (h.dominators t) id

/-- More instructions are taken out and counted, and no tree is added. -/
theorem Accounts.remove (h : Accounts g gone u) (hr : Reduced u.graph gone' u'.graph)
    (hcount : u'.stats.removals = u.stats.removals + gone'.length)
    (hothers : ∀ c : Counter, c.isRemoval = false → u'.stats.get c = u.stats.get c)
    (hdoms : u'.analyses.dominators = u.analyses.dominators) : Accounts g (gone ++ gone') u' where
  reduced := h.reduced.trans hr
  removals := by rw [hcount, h.removals, List.length_append]
  others c hc := (hothers c hc).trans (h.others c hc)
  dominators t ht := DomTree.ofGraph_congr hr.entry hr.size hr.succs hr.preds (h.dominators t (hdoms ▸ ht))

end CompUnit

open CompUnit

namespace Work

variable {u u' : CompUnit}

/-- Asking for the dominator tree changes nothing else. -/
theorem unchanged_dominators {t : DomTree} (h : dominators.Yields u t u') : Unchanged u u' := by
  rcases yields_dominators.1 h with ⟨-, rfl⟩ | ⟨-, ht, rfl⟩
  · exact ⟨rfl, rfl, fun _ => .inl⟩
  · refine ⟨rfl, rfl, fun t' ht' => .inr ?_⟩
    obtain rfl := Option.some.inj ht'
    exact ht

/-- The tree that is asked for is cached, next to what was cached before. -/
theorem analyses_dominators {t : DomTree} (h : dominators.Yields u t u') :
    u'.analyses = { u.analyses with dominators := some t } := by
  rcases yields_dominators.1 h with ⟨hcached, rfl⟩ | ⟨-, -, rfl⟩
  · rw [← hcached]
  · rfl

/-- Asking for the loops changes nothing else. -/
theorem unchanged_loops {f : LoopForest} (h : loops.Yields u f u') : Unchanged u u' := by
  simp only [loops, yields_bind, yields_get] at h
  obtain ⟨_, _, ⟨rfl, rfl⟩, h⟩ := h
  split at h
  · obtain ⟨-, rfl⟩ := yields_pure.1 h
    exact ⟨rfl, rfl, fun _ => .inl⟩
  · simp only [yields_bind, yields_get, yields_modifyAnalyses, yields_pure] at h
    obtain ⟨t, u₁, hdoms, _, _, ⟨rfl, rfl⟩, _, _, rfl, -, rfl⟩ := h
    exact (unchanged_dominators hdoms).trans ⟨rfl, rfl, fun _ => .inl⟩

end Work

/-! ## What one pass does -/

/-- A pass whose gate is open keeps the accounts of a unit, and the graph unless it says that it changed it. -/
def Manager.KeepsAccounts (p : Pass) : Prop :=
  ∀ ⦃g gone place u journal changed u'⦄, p.gate u = true →
    (runPass place p).Yields { u with journal := journal } changed u' → Accounts g gone u →
    ∃ gone', Accounts g (gone ++ gone') u' ∧ (changed = false → u'.graph = u.graph)

/-- Summarizing effects keeps the accounts: it takes nothing out. -/
theorem SideEffects.keepsAccounts : KeepsAccounts SideEffects.pass := by
  intro g gone place u journal changed u' hgate hy h
  obtain ⟨s₀, u₁, t, u₂, st, u₃, r, hstart, hdoms, hfold, hfinish, rfl⟩ := yields_runPass hy
  simp only [start, yields_bind, yields_pure] at hstart
  obtain ⟨f, _, hloops, rfl, rfl⟩ := hstart
  obtain ⟨-, -, journal, rfl⟩ := foldlM_runWorker (I := fun u => u.graph = u₂.graph) (fun _ _ hu => hu)
    (fun s b u r u' hu hw => hu ▸ yields_worker hw) hfold rfl
  simp only [finish, yields_bind, yields_get, yields_modifyAnalyses, yields_pure] at hfinish
  obtain ⟨_, _, ⟨rfl, rfl⟩, _, _, rfl, -, rfl⟩ := hfinish
  have hread : Unchanged u u₂ :=
    (unchanged_loops hloops).of_noted.trans (unchanged_dominators hdoms)
  refine ⟨[], ?_, fun _ => hread.graph⟩
  rw [List.append_nil]
  exact h.unchanged (hread.trans ⟨rfl, rfl, fun _ => .inl⟩)

/-- Propagating nullness keeps the accounts: it takes nothing out. -/
theorem NullPropagation.keepsAccounts : KeepsAccounts NullPropagation.pass := by
  intro g gone place u journal changed u' hgate hy h
  obtain ⟨_, _, st, _, r, hstart, hrun, hfinish, rfl⟩ := yields_runPass_wholeGraph.1 hy
  obtain ⟨-, rfl⟩ := yields_pure.1 hstart
  obtain ⟨-, rfl⟩ := yields_pure.1 hfinish
  simp only [run, yields_bind, yields_get, yields_ofChecked, yields_pure] at hrun
  obtain ⟨changed, _, ⟨t, _, hdoms, _, _, ⟨rfl, rfl⟩, facts?, u₂, ⟨-, rfl⟩, hrun⟩, rfl, rfl⟩ := hrun
  have hread : Unchanged u u₂ := (unchanged_dominators hdoms).of_noted
  cases facts? with
  | none =>
    simp only [yields_bind] at hrun
    obtain ⟨_, _, -, hfail⟩ := hrun
    exact absurd hfail not_yields_fail
  | some f =>
    simp only [yields_bind, yields_modifyAnalyses, yields_pure] at hrun
    obtain ⟨_, _, rfl, -, rfl⟩ := hrun
    refine ⟨[], ?_, fun _ => hread.graph⟩
    rw [List.append_nil]
    exact h.unchanged (hread.trans ⟨rfl, rfl, fun _ => .inl⟩)

/-- Removing null checks keeps the accounts. -/
theorem NullCheck.keepsAccounts : KeepsAccounts NullCheck.pass := by
  intro g gone place u journal changed u' hgate hy h
  obtain ⟨_, _, st, _, r, hstart, hrun, hfinish, rfl⟩ := yields_runPass_wholeGraph.1 hy
  obtain ⟨-, rfl⟩ := yields_pure.1 hstart
  obtain ⟨-, rfl⟩ := yields_pure.1 hfinish
  simp only [run, yields_bind, yields_get, yields_pure] at hrun
  obtain ⟨changed, _, ⟨t, _, hdoms, _, u₂, ⟨rfl, rfl⟩, hrun⟩, rfl, rfl⟩ := hrun
  have hread : Unchanged u u₂ := (unchanged_dominators hdoms).of_noted
  have h₂ := h.unchanged hread
  split at hrun
  · exact absurd hrun not_yields_fail
  simp only [yields_bind, yields_ofChecked, yields_setGraph] at hrun
  obtain ⟨pairs, _, ⟨hpairs, rfl⟩, g', _, ⟨hfold, rfl⟩, _, _, rfl, hrun⟩ := hrun
  have hreduced := reduced_removeChecks h₂.reduced.intact hpairs hfold
  cases pairs with
  | nil =>
    simp only [List.isEmpty_nil, Bool.not_true, Bool.false_eq_true, if_false, yields_bind, yields_record,
      yields_pure] at hrun
    obtain ⟨_, _, ⟨stats, hstats, rfl⟩, -, rfl⟩ := hrun
    refine ⟨[], h₂.remove hreduced ?_ (fun c hc => Stats.get_record_of_removal hstats rfl hc) rfl, fun _ => ?_⟩
    · exact Stats.removals_record hstats rfl
    · exact (Except.ok.inj hfold).symm.trans hread.graph
  | cons pair pairs =>
    simp only [List.isEmpty_cons, Bool.not_false, if_true, yields_bind, yields_modifyAnalyses, yields_record,
      yields_pure] at hrun
    obtain ⟨_, _, rfl, _, _, ⟨stats, hstats, rfl⟩, rfl, rfl⟩ := hrun
    refine ⟨_, h₂.remove hreduced ?_ (fun c hc => Stats.get_record_of_removal hstats rfl hc) rfl,
      fun hchanged => by cases hchanged⟩
    rw [List.length_map]
    exact Stats.removals_record hstats rfl

/-- Removing dead code keeps the accounts. -/
theorem DeadCode.keepsAccounts : KeepsAccounts DeadCode.pass := by
  intro g gone place u journal changed u' hgate hy h
  obtain ⟨_, _, st, _, r, hstart, hrun, hfinish, rfl⟩ := yields_runPass_wholeGraph.1 hy
  obtain ⟨-, rfl⟩ := yields_pure.1 hstart
  obtain ⟨-, rfl⟩ := yields_pure.1 hfinish
  simp only [run, yields_bind, yields_get, yields_ofChecked, yields_setGraph, yields_record,
    yields_pure] at hrun
  obtain ⟨changed, _, ⟨_, _, ⟨rfl, rfl⟩, ⟨g', outcome⟩, _, ⟨helim, rfl⟩, _, _, rfl, _, _,
    ⟨stats, hstats, rfl⟩, rfl, rfl⟩, rfl, rfl⟩ := hrun
  obtain ⟨gone', hreduced, hlength, hsame⟩ := swept_eliminate h.reduced.intact helim
  refine ⟨gone', h.remove hreduced ?_ (fun c hc => Stats.get_record_of_removal hstats rfl hc) rfl,
    fun hchanged => hsame (List.length_eq_zero_iff.1 ?_)⟩
  · rw [hlength]
    exact Stats.removals_record hstats rfl
  · rw [hlength]
    simpa using (Bool.or_eq_false_iff.1 hchanged).1

/-- Removing loads and stores keeps the accounts. -/
theorem LoadStore.keepsAccounts : KeepsAccounts LoadStore.pass := by
  intro g gone place u journal changed u' hgate hy h
  obtain ⟨s₀, u₁, t, u₂, st, u₃, r, hstart, hdoms, hfold, hfinish, rfl⟩ := yields_runPass hy
  simp only [start, yields_bind, yields_get, yields_ofChecked, yields_pure] at hstart
  obtain ⟨_, _, ⟨rfl, rfl⟩, hasMonitors, _, ⟨-, rfl⟩, t', _, hdoms', rfl, rfl⟩ := hstart
  have hread : Unchanged u u₂ :=
    (unchanged_dominators hdoms').of_noted.trans (unchanged_dominators hdoms)
  have h₂ := h.unchanged hread
  obtain ⟨summary, hsummary⟩ := exists_summary_of_gate hgate
  have ht : u₂.analyses.dominators = some t := by rw [analyses_dominators hdoms]
  have hs : u₂.analyses.sideEffects = some summary := by
    rw [analyses_dominators hdoms, analyses_dominators hdoms']
    exact hsummary
  obtain ⟨hvisits, journal, rfl⟩ := yields_visits hfold ht hs
  simp only [finish, yields_bind, yields_get, yields_ofChecked, yields_setGraph, yields_record,
    yields_pure] at hfinish
  obtain ⟨_, _, ⟨rfl, rfl⟩, g', _, ⟨happly, rfl⟩, _, _, rfl, _, _, ⟨stats, hstats, rfl⟩, _, _,
    ⟨stats', hstats', rfl⟩, rfl, rfl⟩ := hfinish
  have hmarks := marks_of_visitBlocks rfl hvisits
  have hsourced := sourced_of_visitBlocks (sourced_start (fun _ => rfl) fun _ => rfl) hvisits
  have hnodup := DomTree.nodup_preorder h₂.reduced.intact.consistent (h₂.dominators t ht)
  have hreduced := reduced_applyTo h₂.reduced.intact hnodup hmarks hsourced happly
  refine ⟨st.1.removedLoads ++ removableStores st.1, h₂.remove hreduced ?_ (fun c hc => ?_) rfl,
    fun hchanged => ?_⟩
  · rw [Stats.removals_record hstats' rfl, Stats.removals_record hstats rfl, List.length_append, Nat.add_assoc]
  · rw [Stats.get_record_of_removal hstats' rfl hc, Stats.get_record_of_removal hstats rfl hc]
  · simp only [Bool.or_eq_false_iff, decide_eq_false_iff_not, Nat.not_lt, Nat.le_zero,
      List.length_eq_zero_iff] at hchanged
    exact (applyTo_eq_self hchanged.2.1 hchanged.2.2 happly).trans hread.graph

/-- Every pass keeps the accounts. -/
theorem PassId.keepsAccounts (p : PassId) : KeepsAccounts p.pass := by
  cases p with
  | sideEffects => exact SideEffects.keepsAccounts
  | loadStore => exact LoadStore.keepsAccounts
  | nullPropagation => exact NullPropagation.keepsAccounts
  | nullCheck => exact NullCheck.keepsAccounts
  | deadCode => exact DeadCode.keepsAccounts

/-! ## What a pipeline does -/

section Run

variable {g : Graph} {gone : List InstId} {u u' : CompUnit} {place : Nat} {verify : Bool}

/-- The accounts are kept, and what a manager that verifies lets through is accepted. -/
theorem Manager.KeepsAccounts.runGated {p : Pass} (hp : KeepsAccounts p) (h : Accounts g gone u)
    (hy : (runGated verify place p).Yields u () u') : ∃ gone', Accounts g (gone ++ gone') u' ∧
      (verify = true → u.graph.violations = .ok [] → u'.graph.violations = .ok []) := by
  obtain ⟨-, rfl⟩ | ⟨hgate, changed, u₁, hpass, rfl, hchecked⟩ := yields_runGated_iff.1 hy
  · refine ⟨[], ?_, fun _ hv => hv⟩
    rw [List.append_nil]
    exact h.unchanged ⟨rfl, rfl, fun _ => .inl⟩
  · obtain ⟨gone', h₁, hsame⟩ := hp hgate hpass h
    refine ⟨gone', h₁.unchanged (unchanged_settle p changed u₁), fun hverify hv => ?_⟩
    cases changed with
    | true => exact hchecked rfl hverify
    | false => rwa [graph_settle, hsame rfl]

/-- Passes one after another keep the accounts and, if each is checked, leave an accepted graph accepted. -/
theorem Manager.accounts_runFrom {ps : List Pass} (hps : ∀ p ∈ ps, KeepsAccounts p) (h : Accounts g gone u)
    (hy : (runFrom verify place ps).Yields u () u') : ∃ gone', Accounts g (gone ++ gone') u' ∧
      (verify = true → u.graph.violations = .ok [] → u'.graph.violations = .ok []) := by
  induction ps generalizing u place gone with
  | nil =>
    obtain ⟨-, rfl⟩ := yields_pure.1 hy
    exact ⟨[], by rwa [List.append_nil], fun _ hv => hv⟩
  | cons p ps ih =>
    obtain ⟨u₁, hp, hrest⟩ := yields_runFrom_cons.1 hy
    obtain ⟨gone', h₁, hv₁⟩ := (hps p List.mem_cons_self).runGated h hp
    obtain ⟨gone'', h₂, hv₂⟩ := ih (fun q hq => hps q (List.mem_cons_of_mem p hq)) h₁ hrest
    exact ⟨gone' ++ gone'', by rwa [← List.append_assoc], fun hverify hv => hv₂ hverify (hv₁ hverify hv)⟩

/-- What came of a method whose optimization succeeded. -/
theorem exists_accounts {settings : Settings} {r : Optimized} (hg : g.Intact)
    (h : optimize g settings = .ok r) : ∃ gone u, Accounts g gone u ∧ u.graph = r.graph ∧ u.stats = r.stats ∧
      (settings.verify = true → r.graph.violations = .ok []) := by
  simp only [optimize] at h
  split at h
  · next a u hrun =>
    obtain rfl := Except.ok.inj h
    obtain ⟨_, u₀, hcheck, hrun⟩ := yields_bind.1 hrun
    obtain ⟨hinput, rfl⟩ := yields_check.1 hcheck
    have hpasses : ∀ p ∈ settings.pipeline, KeepsAccounts p := by
      intro p hp
      obtain ⟨id, -, rfl⟩ := List.mem_map.1 hp
      exact id.keepsAccounts
    obtain ⟨gone, hu, hv⟩ := accounts_runFrom hpasses (accounts_new hg settings) hrun
    exact ⟨gone, u, hu, rfl, rfl, fun hverify => hv hverify hinput⟩
  · cases h

end Run

/-! ## The frame -/

/-- Divisions, which can throw. -/
def Kind.isDivision : Kind → Bool
  | binary op => op == .div || op == .rem
  | _ => false

namespace Graph

variable {g g' : Graph} {gone : List InstId} {i : InstId} {inst : Inst} {b : BlockId} {block : Block}

/-- What no pass removes: calls and whatever else cannot be seen through, allocations, divisions, parameters
and the ends of blocks. -/
def isLasting (g : Graph) (i : InstId) : Bool :=
  (g.kind? i).any fun k => g.isOpen k || k.isAllocation || k.isDivision || k.isParam || k.isTerminator

/-- What may be removed is nothing that lasts. -/
theorem Removable.not_lasting (h : g.Removable i) : g.isLasting i = false := by
  cases h with
  | @access inst hinst haccess hplain =>
    have hopen : g.isOpen inst.kind = false := by
      generalize inst.kind = k at haccess hplain
      cases k <;> simp_all [isOpen, Kind.isForeign, Kind.isLoad, Kind.isStore, Kind.field?]
    rw [isLasting, kind?_eq hinst, Option.any_some, hopen]
    generalize inst.kind = k at haccess
    cases k <;> simp_all [Kind.isLoad, Kind.isStore, Kind.isAllocation, Kind.isDivision, Kind.isParam,
      Kind.isTerminator, Kind.successorCount?]
  | check hinst hcheck =>
    rw [isLasting, kind?_eq hinst, hcheck]
    rfl
  | @idle inst hinst hends hparam hthrow hstore hopen =>
    rw [isLasting, kind?_eq hinst, Option.any_some, hopen, hends, hparam]
    generalize inst.kind = k at hthrow
    cases k <;> simp_all [Kind.canThrow, Kind.isAllocation, Kind.isDivision]

/-- What is left of a graph after a pipeline. -/
structure Retains (g g' : Graph) : Prop where
  name : g'.name = g.name
  isStatic : g'.isStatic = g.isStatic
  isSynchronized : g'.isSynchronized = g.isSynchronized
  entry : g'.entry = g.entry
  fields : g'.fields = g.fields
  size : g'.blocks.size = g.blocks.size
  /-- Every block keeps its edges, and of its phis and instructions some, in their order. -/
  blocks : ∀ b block, g.block b = .ok block → ∃ block', g'.block b = .ok block' ∧
    block'.preds = block.preds ∧ block'.succs = block.succs ∧
    block'.phis.Sublist block.phis ∧ block'.insts.Sublist block.insts ∧
    block'.body.filter g.isLasting = block.body.filter g.isLasting
  /-- What is left is what it was, with as many operands. -/
  left : ∀ i ∈ g'.attached, ∃ inst inst', g.inst i = .ok inst ∧ g'.inst i = .ok inst' ∧
    inst'.kind = inst.kind ∧ inst'.ty = inst.ty ∧ inst'.inputs.length = inst.inputs.length
  gone : ∀ i ∈ g.attached, i ∉ g'.attached → g.Removable i

/-- A graph with instructions taken out retains what lasts. -/
theorem Reduced.retains (h : Reduced g gone g') : Retains g g' where
  name := congrArg (·.1) h.declared
  isStatic := congrArg (·.2.1) h.declared
  isSynchronized := congrArg (·.2.2.1) h.declared
  entry := h.entry
  fields := h.fields
  size := h.size
  blocks b block hb := by
    refine ⟨block.without gone, h.block_eq_ok.2 ⟨block, hb, rfl⟩, rfl, rfl, List.filter_sublist,
      List.filter_sublist, ?_⟩
    rw [Block.body_without, List.filter_filter]
    refine List.filter_congr fun i _ => ?_
    by_cases hi : i ∈ gone
    · rw [(h.removable i hi).not_lasting, Bool.false_and]
    · rw [decide_eq_true hi, Bool.and_true]
  left i hi := by
    obtain ⟨-, hgone⟩ := h.mem_attached.1 hi
    obtain ⟨inst', hinst'⟩ := h.intact.exists_inst hi
    obtain ⟨inst, hinst, heq, hlength⟩ := h.exists_inst hgone hinst'
    exact ⟨inst, inst', hinst, hinst', by rw [heq], by rw [heq], hlength⟩
  gone i hi hi' := h.removable i (by_contra fun hgone => hi' (h.mem_attached.2 ⟨hi, hgone⟩))

end Graph

/-- A method that comes out of any pipeline is the one that went in, apart from redirected operands and
instructions that may go. -/
theorem optimize_retains {g : Graph} {settings : Settings} {r : Optimized} (hg : g.Built)
    (h : optimize g settings = .ok r) : g.Retains r.graph := by
  obtain ⟨gone, u, hu, hgraph, -, -⟩ := exists_accounts hg.intact h
  rw [← hgraph]
  exact hu.reduced.retains

/-- A method in which every kind of access, check and value can go, next to what must stay. -/
def refill : Graph := .ofEdits "refill" [
  .internField ⟨"Tank", "level", .int, 8, false, false⟩, .internField ⟨"Tank", "valve", .int, 0, true, true⟩,
  .createInst (.param 0) .ref [], .appendInst ⟨0⟩ ⟨0⟩,
  .createInst .nullCheck .ref [⟨0⟩], .appendInst ⟨0⟩ ⟨1⟩,
  .createInst (.instanceGet ⟨0⟩) .int [⟨1⟩], .appendInst ⟨0⟩ ⟨2⟩,
  .createInst .nullCheck .ref [⟨0⟩], .appendInst ⟨0⟩ ⟨3⟩,
  .createInst (.instanceGet ⟨0⟩) .int [⟨3⟩], .appendInst ⟨0⟩ ⟨4⟩,
  .createInst (.staticGet ⟨1⟩) .int [], .appendInst ⟨0⟩ ⟨5⟩,
  .createInst (.binary .div) .int [⟨2⟩, ⟨4⟩], .appendInst ⟨0⟩ ⟨6⟩,
  .createInst (.binary .add) .int [⟨2⟩, ⟨4⟩], .appendInst ⟨0⟩ ⟨7⟩,
  .createInst (.newInstance "Tank") .ref [], .appendInst ⟨0⟩ ⟨8⟩,
  .createInst (.instanceSet ⟨0⟩) .void [⟨1⟩, ⟨4⟩], .appendInst ⟨0⟩ ⟨9⟩,
  .createInst (.instanceSet ⟨0⟩) .void [⟨3⟩, ⟨6⟩], .appendInst ⟨0⟩ ⟨10⟩,
  .createInst (.invoke .static "log") .void [⟨4⟩], .appendInst ⟨0⟩ ⟨11⟩,
  .createInst .retVoid .void [], .appendInst ⟨0⟩ ⟨12⟩]

/-- Every pass twice, nothing checked in between. -/
def twiceUnchecked : Settings := ⟨.deadCode :: PassId.all ++ PassId.all, [], false, 0⟩

/-- In `refill` five of thirteen instructions go, and the rest is retained. -/
theorem optimize_retains_refill : refill.Built ∧ ∃ r, optimize refill twiceUnchecked = .ok r ∧
    refill.attached.length = 13 ∧ r.graph.attached = [0, 2, 5, 6, 8, 10, 11, 12].map InstId.mk ∧
    refill.Retains r.graph := by
  have hbuilt : refill.Built := built_ofEdits _ _
  have hleft : (optimize refill twiceUnchecked).toOption.map (·.graph.attached) =
      some ([0, 2, 5, 6, 8, 10, 11, 12].map InstId.mk) := by decide +kernel
  refine ⟨hbuilt, ?_⟩
  cases h : optimize refill twiceUnchecked with
  | ok r =>
    rw [h] at hleft
    exact ⟨r, rfl, by decide +kernel, Option.some.inj hleft, optimize_retains hbuilt h⟩
  | error halt =>
    rw [h] at hleft
    cases hleft

end Midend
