import Mathlib.Algebra.Order.BigOperators.Group.List
import Mathlib.Algebra.Order.Group.Nat
import Midend.Proofs.Accounting
import Midend.Proofs.FaultFree
import Midend.Proofs.RoundTrip

/-!
# Compilations that come to an end

A method that was read from a text refers only to what is there, but it need not have the operands that its
instructions are asked for, and it may read what a store gives.  Where neither happens in the methods that are
accepted, and no pass that relies on a well-formed graph comes after one that left another, a compilation
comes to a report: every method is optimized, or kept with the reason.  A method that is not accepted may look
as it likes.

## Shape of the argument

Between passes, the unit accounts for the graph that was read, and its cache is right unless only passes are to
come that need no right cache.  Each pass keeps this and does not fault, so a run of passes does not.  What is
asked of a method is asked only for the passes that come to run on it (`ComesToRun`): a pass whose gate is
closed asks for nothing.

The loops behind the answers that a pass asks for are computed with bounds.  On a graph that a pass comes to
run on, none of them is ended by its bound (`PassId.LoopsEnd`), so a report is not owed to a bound either.
-/

namespace Midend

open Midend.Graph CompUnit Analyses Work Manager

variable {g : Graph} {gone : List InstId} {u u' : CompUnit} {place : Nat} {verify : Bool} {settings : Settings}

/-! ## Passes that come to run -/

/-- Does a pass rely on a well-formed graph whose instructions have their operands? -/
def PassId.needsWellFormed : PassId → Bool
  | loadStore | nullPropagation | nullCheck => true
  | sideEffects | deadCode => false

/-- A pass comes to run on a unit: the passes before it leave this unit, and its gate is open there. -/
def Manager.ComesToRun (verify : Bool) (place : Nat) (ps : List PassId) (u : CompUnit) (p : PassId)
    (u' : CompUnit) : Prop :=
  ∃ before after, ps = before ++ p :: after ∧
    (runFrom verify place (before.map PassId.pass)).Yields u () u' ∧ p.pass.gate u' = true

/-- The first pass comes to run if its gate is open, and the others on what it leaves. -/
theorem Manager.comesToRun_cons {p q : PassId} {ps : List PassId} :
    ComesToRun verify place (p :: ps) u q u' ↔ (q = p ∧ u' = u ∧ p.pass.gate u = true) ∨
      ∃ u₁, (runGated verify place p.pass).Yields u () u₁ ∧ ComesToRun verify (place + 1) ps u₁ q u' := by
  constructor
  · rintro ⟨before, after, hsplit, hrun, hgate⟩
    cases before with
    | nil =>
      obtain ⟨rfl, rfl⟩ := List.cons_eq_cons.1 hsplit
      obtain ⟨-, rfl⟩ := yields_pure.1 hrun
      exact .inl ⟨rfl, rfl, hgate⟩
    | cons p' before =>
      obtain ⟨rfl, rfl⟩ := List.cons_eq_cons.1 hsplit
      obtain ⟨u₁, hfirst, hrest⟩ := yields_runFrom_cons.1 hrun
      exact .inr ⟨u₁, hfirst, before, after, rfl, hrest, hgate⟩
  · rintro (⟨rfl, rfl, hgate⟩ | ⟨u₁, hfirst, before, after, rfl, hrest, hgate⟩)
    · exact ⟨[], ps, rfl, yields_pure.2 ⟨rfl, rfl⟩, hgate⟩
    · exact ⟨p :: before, after, rfl, yields_runFrom_cons.2 ⟨u₁, hfirst, hrest⟩, hgate⟩

/-- A unit that a pass comes to run on accounts for the graph at the start. -/
theorem Manager.ComesToRun.exists_accounts {p : PassId} {ps : List PassId}
    (h : ComesToRun verify place ps u p u')
    (hu : Accounts g gone u) : ∃ gone', Accounts g (gone ++ gone') u' := by
  obtain ⟨before, -, -, hrun, -⟩ := h
  have hpasses : ∀ q ∈ before.map PassId.pass, KeepsAccounts q := by
    intro q hq
    obtain ⟨id, -, rfl⟩ := List.mem_map.1 hq
    exact id.keepsAccounts
  obtain ⟨gone', hu', -⟩ := accounts_runFrom hpasses hu hrun
  exact ⟨gone', hu'⟩

/-- Where null checks were removed and a pass comes to run that relies on a well-formed graph, the graph would
be accepted. -/
def Manager.Tolerates (place : Nat) (ps : List PassId) (u : CompUnit) : Prop :=
  ∀ before after u', ps = before ++ .nullCheck :: after →
    (runFrom false place ((before ++ [.nullCheck]).map PassId.pass)).Yields u () u' →
    (∃ p u'', ComesToRun false (place + before.length + 1) after u' p u'' ∧ p.needsWellFormed = true) →
    u'.graph.violations = .ok []

/-- A list of passes whose checks are removed last, but for passes that do not rely on a well-formed graph. -/
theorem Manager.tolerates_of_tail {ps : List PassId}
    (h : ∀ p ∈ (ps.dropWhile (· ≠ .nullCheck)).tail, p.needsWellFormed = false) : Tolerates place ps u := by
  rintro before after u' rfl - ⟨p, -, ⟨before', after', rfl, -, -⟩, hneed⟩
  have hmem : p ∈ ((before ++ .nullCheck :: (before' ++ p :: after')).dropWhile (· ≠ .nullCheck)).tail := by
    clear h
    induction before with
    | nil => simp
    | cons q before ih =>
      by_cases hq : q = .nullCheck
      · simp [hq]
      · simpa [hq] using ih
  rw [h p hmem] at hneed
  cases hneed

/-- What passes ask of a unit that accounts for a graph, and of the units that they leave to one another:
stores to arrays have their values where effects are summarized, no store is read that is found dead, and the
cache is right if some pass comes to run that relies on it. -/
structure Manager.Ready (g : Graph) (verify : Bool) (place : Nat) (ps : List PassId) (u : CompUnit) : Prop where
  arrays : ∀ u', ComesToRun verify place ps u .sideEffects u' → g.ArraysSupplied
  stores : ∀ u' last, ComesToRun verify place ps u .loadStore u' → LoadStore.outcome u'.graph = .ok last →
    ∀ x ∈ LoadStore.removableStores last, ¬ u'.graph.IsRead x
  cache : (∃ p u', ComesToRun verify place ps u p u' ∧ p.needsWellFormed = true) → Kept u.graph u.analyses
  checks : verify = true ∨ Tolerates place ps u

/-- What the passes after the first one ask for, given that the first one keeps the cache right. -/
theorem Manager.Ready.tail {p : PassId} {ps : List PassId} {u₁ : CompUnit}
    (h : Ready g verify place (p :: ps) u) (hy : (runGated verify place p.pass).Yields u () u₁)
    (hnext : Kept u.graph u.analyses → (verify = false → p = .nullCheck → u₁.graph.violations = .ok []) →
      Kept u₁.graph u₁.analyses) : Ready g verify (place + 1) ps u₁ where
  arrays u' hu' := h.arrays u' (comesToRun_cons.2 (.inr ⟨u₁, hy, hu'⟩))
  stores u' last hu' := h.stores u' last (comesToRun_cons.2 (.inr ⟨u₁, hy, hu'⟩))
  cache := by
    rintro ⟨q, u', hq, hneed⟩
    refine hnext (h.cache ⟨q, u', comesToRun_cons.2 (.inr ⟨u₁, hy, hq⟩), hneed⟩) fun hverify hp => ?_
    subst hp hverify
    refine h.checks.resolve_left (by decide) [] ps u₁ rfl ?_ ⟨q, u', hq, hneed⟩
    exact yields_runFrom_cons.2 ⟨u₁, hy, yields_pure.2 ⟨rfl, rfl⟩⟩
  checks := by
    refine (Bool.eq_false_or_eq_true verify).imp_right fun hverify => ?_
    subst hverify
    intro before after u' hsplit hrun hneeds
    have hplace : place + 1 + before.length + 1 = place + (p :: before).length + 1 := by
      rw [List.length_cons]
      omega
    refine h.checks.resolve_left (by decide) (p :: before) after u' (by rw [hsplit]; rfl) ?_ (hplace ▸ hneeds)
    exact yields_runFrom_cons.2 ⟨u₁, hy, hrun⟩

/-! ## A run of passes -/

section Run

variable (hg : g.Workable)
include hg

/-- A pass does not fault; what it changed is accepted, unless it removed null checks. -/
theorem PassId.ensures_runPass (p : PassId) (h : Accounts g gone u)
    (hcache : p.needsWellFormed = true → Kept u.graph u.analyses)
    (harrays : p = .sideEffects → g.ArraysSupplied)
    (hstores : p = .loadStore → ∀ last, LoadStore.outcome u.graph = .ok last →
      ∀ x ∈ LoadStore.removableStores last, ¬ u.graph.IsRead x)
    (hgate : p.pass.gate u = true) : (runPass place p.pass).Ensures Halt.IsFailure u fun changed u' =>
      p ≠ .nullCheck → Kept u.graph u.analyses → changed = true → u'.graph.violations = .ok [] := by
  have haccepted : ∀ {changed u'}, (runPass place p.pass).Yields u changed u' → u'.graph.WellFormed →
      u'.graph.violations = .ok [] := by
    intro changed u' hy hw
    obtain ⟨gone', h', -⟩ := p.keepsAccounts hgate hy h
    exact h'.reduced.intact.consistent.violations_eq_nil_iff.2 hw
  have hr := h.inRange hg
  cases p with
  | sideEffects =>
    have hsupplied := h.reduced.arraysSupplied (harrays rfl)
    have hblocks := fun b hb s => hr.exists_addBlock h.reduced.intact hsupplied s (b := b) hb
    exact (SideEffects.ensures_runPass h hr.exists_tree hblocks).imp
      fun _ _ _ hsame _ _ hchanged => by simp [hsame] at hchanged
  | deadCode =>
    exact (DeadCode.ensures_runPass hg h).imp fun _ _ hy hw _ hk _ => haccepted hy (hw hk.wellFormed)
  | nullPropagation =>
    exact (NullPropagation.ensures_runPass (hcache rfl)).imp
      fun _ _ _ hsame _ _ hchanged => by simp [hsame] at hchanged
  | nullCheck =>
    exact (NullCheck.ensures_runPass (hcache rfl) hg.toCountable h hgate).imp fun _ _ _ _ hne => absurd rfl hne
  | loadStore =>
    have hk := hcache rfl
    have hunused : ∀ last, LoadStore.outcome u.graph = .ok last →
        ∀ x ∈ LoadStore.removableStores last, u.graph.uses x = [] := fun last hlast x hx =>
      hr.uses_eq_nil hk.wellFormed (LoadStore.isStore_of_outcome hk.intact.consistent hlast hx).1
        (hstores rfl last hlast x hx)
    exact (LoadStore.ensures_runPass hg.toCountable h hk hr.fields hunused hgate).imp
      fun _ _ hy hw _ _ _ => haccepted hy hw

/-- One pass with its gate, and the check after it. -/
theorem PassId.ensures_runGated (p : PassId) (h : Accounts g gone u) {ps : List PassId}
    (hready : Ready g verify place (p :: ps) u) :
    (runGated verify place p.pass).Ensures Halt.IsFailure u fun _ u' => Kept u.graph u.analyses →
      (verify = false → p = .nullCheck → u'.graph.violations = .ok []) → Kept u'.graph u'.analyses := by
  refine Manager.ensures_runGated (fun _ hk _ => hk) fun hgate journal => ?_
  have hnoted : Accounts g gone { u with journal := journal } := h.unchanged ⟨rfl, rfl, fun _ => .inl⟩
  have hgate' : p.pass.gate { u with journal := journal } = true := by cases p <;> exact hgate
  have hruns : ComesToRun verify place (p :: ps) u p u := comesToRun_cons.2 (.inl ⟨rfl, rfl, hgate⟩)
  refine (p.ensures_runPass hg hnoted (fun hneed => hready.cache ⟨p, u, hruns, hneed⟩)
    (fun hp => hready.arrays u (hp ▸ hruns)) (fun hp last => hready.stores u last (hp ▸ hruns)) hgate').imp
    fun changed u₁ hy hv => ?_
  refine ⟨fun hsame hk _ => (p.preserves hy hk).1 hsame, ?_⟩
  rintro hchanged _ rfl
  refine ⟨fun hverify hk hslip => (p.preserves hy hk).2 hchanged ?_, fun _ => ?_⟩
  · by_cases hp : p = .nullCheck
    · exact hslip hverify hp
    · exact hv hp hk hchanged
  · obtain ⟨gone', h₂, -⟩ := p.keepsAccounts hgate hy h
    have hverdict : ∃ vs, u₁.graph.violations = .ok vs := exists_violations h₂.reduced.intact (h₂.inRange hg)
    exact ensures_check hverdict (fun hv hk _ => (p.preserves hy hk).2 hchanged hv) fun _ _ _ => trivial

/-- Passes that run one after the other do not fault, and those that rely on a right cache find one. -/
theorem Manager.ensures_runFrom {ps : List PassId} (h : Accounts g gone u)
    (hready : Ready g verify place ps u) :
    (runFrom verify place (ps.map PassId.pass)).Ensures Halt.IsFailure u (fun _ _ => True) ∧
      ∀ p u', ComesToRun verify place ps u p u' → p.needsWellFormed = true → Kept u'.graph u'.analyses := by
  induction ps generalizing u place gone with
  | nil =>
    refine ⟨ensures_pure trivial, ?_⟩
    rintro p u' ⟨before, after, hsplit, -, -⟩
    simp at hsplit
  | cons p ps ih =>
    have hfirst := p.ensures_runGated hg h hready
    have hrest : ∀ {u₁}, (runGated verify place p.pass).Yields u () u₁ →
        ∃ gone', Accounts g (gone ++ gone') u₁ ∧ Ready g verify (place + 1) ps u₁ := by
      intro u₁ hy
      obtain ⟨gone', h₁, -⟩ := p.keepsAccounts.runGated h hy
      exact ⟨gone', h₁, hready.tail hy (hfirst.2 () u₁ hy)⟩
    refine ⟨ensures_bind (hfirst.imp fun _ u₁ hy _ => ?_), fun q u' hq hneed => ?_⟩
    · obtain ⟨gone', h₁, hready₁⟩ := hrest hy
      exact (ih h₁ hready₁).1
    · rcases comesToRun_cons.1 hq with ⟨rfl, rfl, -⟩ | ⟨u₁, hy, hq'⟩
      · exact hready.cache ⟨q, u', hq, hneed⟩
      · obtain ⟨gone', h₁, hready₁⟩ := hrest hy
        exact (ih h₁ hready₁).2 q u' hq' hneed

end Run

/-! ## Loops behind the answers -/

/-- The loops behind the answers that a pass asks of a graph come to an end by themselves: those that make the
dominator tree, the searches for the bodies of loops, and, for a pass that looks behind null checks or follows
substitutions, the ways to what is no check and to what has no substitution. -/
structure PassId.LoopsEnd (p : PassId) (g : Graph) : Prop where
  tree : ∃ t, DomTree.ofGraph g = .ok t ∧ t.Finished g
  loops : ∀ closed targets, (∀ b ∈ targets, b ∈ g.blockIds) →
    ∃ s, Search.Runs g.preds targets (.avoiding closed) s ∧ s.done = g.reaching closed targets
  checks : p.needsWellFormed = true → ∀ x b n, g.Reachable b → g.At x b n →
    ∃ y, g.unchecked x = .ok y ∧ g.Root x y
  substitutions : p = .loadStore → ∀ t summary hasMonitors last c,
    LoadStore.Trace g t summary hasMonitors last → LoadStore.On g t summary hasMonitors last c →
    ∀ v, c.state.substitutions.get (c.state.resolve v).index = none

/-- On a graph in good order, whose cache is right if the pass relies on it, the loops end by themselves. -/
theorem PassId.loopsEnd (p : PassId) (hi : u.graph.Intact) (hr : u.graph.InRange)
    (hcache : p.needsWellFormed = true → Kept u.graph u.analyses) : p.LoopsEnd u.graph where
  tree := by
    obtain ⟨t, ht⟩ := hr.exists_tree
    exact ⟨t, ht, DomTree.finished hi.consistent ht⟩
  loops closed _ htargets := hi.consistent.exists_runs_reaching closed htargets
  checks hneed _ _ _ hb hx := by
    have hk := hcache hneed
    exact exists_root hk.wellFormed hi.consistent hk.furnished hb hx
  substitutions hp _ _ _ _ _ htrace hc v := by
    have hk := hcache (by rw [hp]; rfl)
    exact hc.get_resolve hk.wellFormed hi.consistent hk.furnished htrace v

/-! ## One method -/

/-- Every instruction has the operands that it is asked for. -/
def Graph.Supplied (g : Graph) : Prop :=
  ∀ i ∈ g.attached, ∀ inst ∈ g.insts[i.index]?, inst.kind.needs ≤ inst.inputs.length

instance (g : Graph) : Decidable g.Supplied :=
  inferInstanceAs (Decidable (∀ i ∈ g.attached, ∀ inst ∈ g.insts[i.index]?,
    inst.kind.needs ≤ inst.inputs.length))

/-- A pass comes to run on a method, and this is the unit then. -/
def Settings.RunsOn (settings : Settings) (g : Graph) (p : PassId) (u : CompUnit) : Prop :=
  ComesToRun settings.verify 0 settings.active (.new g settings) p u

/-- What settings ask of a method that is accepted.  Stores to arrays have the values that they store if
effects are summarized; all instructions have the operands they are asked for if a pass comes to run that
follows operands; no store is read that is found dead when loads and stores are eliminated; and what is left
of the method without null checks is accepted wherever a pass comes to run that relies on that and nobody
checks. -/
structure Settings.Suits (settings : Settings) (g : Graph) : Prop where
  arrays : (∃ u, settings.RunsOn g .sideEffects u) → g.ArraysSupplied
  operands : (∃ p u, settings.RunsOn g p u ∧ p.needsWellFormed = true) → g.Supplied
  stores : ∀ u last, settings.RunsOn g .loadStore u → LoadStore.outcome u.graph = .ok last →
    ∀ x ∈ LoadStore.removableStores last, ¬ u.graph.IsRead x
  checks : settings.verify = true ∨ Tolerates 0 settings.active (.new g settings)

/-- What a text gives: a graph that refers to what is there, with phis among phis. -/
structure Graph.Sound (g : Graph) : Prop where
  intact : g.Intact
  inRange : g.InRange
  phis : ∀ b block i inst, g.block b = .ok block → i ∈ block.phis → g.inst i = .ok inst → inst.kind = .phi
  insts : ∀ b block i inst, g.block b = .ok block → i ∈ block.insts → g.inst i = .ok inst → inst.kind ≠ .phi

/-- With the operands that are asked for, what a text gives is furnished. -/
theorem Graph.Sound.furnished (hg : g.Sound) (hsupplied : g.Supplied) : g.Furnished :=
  ⟨fun i inst hi hinst => hsupplied i hi inst (inst_eq_ok.1 hinst), hg.phis, hg.insts⟩

/-- A method suits all settings that tolerate what is left without null checks if its instructions have their
operands and it reads nothing that a store gives. -/
theorem Graph.Sound.suits (hg : g.Sound) (hsupplied : g.Supplied) (hstores : g.StoresUnread)
    (hchecks : settings.verify = true ∨ Tolerates 0 settings.active (.new g settings)) : settings.Suits g where
  arrays _ := (hg.furnished hsupplied).arraysSupplied
  operands _ := hsupplied
  stores u last hu hlast x hx := by
    obtain ⟨gone, hacc⟩ := hu.exists_accounts (accounts_new hg.intact settings)
    obtain ⟨hatt, inst, hinst, hstore⟩ := LoadStore.isStore_of_outcome hacc.reduced.intact.consistent hlast hx
    exact hacc.reduced.not_isRead_of_isStore hstores hatt hinst hstore
  checks := hchecks

section Accepted

variable (hg : g.Sound) (hcount : g.attached.length < UInt64.size) (hv : g.violations = .ok [])
  (hsuits : settings.Suits g)
include hg hcount hv hsuits

omit hcount in
/-- An accepted method that suits the settings has all that the passes ask for. -/
theorem Settings.Suits.ready : Ready g settings.verify 0 settings.active (.new g settings) where
  arrays u hu := hsuits.arrays ⟨u, hu⟩
  stores := hsuits.stores
  cache h := kept_empty hg.intact (hg.furnished (hsuits.operands h))
    (hg.intact.consistent.violations_eq_nil_iff.1 hv)
  checks := hsuits.checks

/-- The passes do not fault. -/
theorem Settings.Suits.ensures_runAll :
    (runAll settings.verify settings.pipeline).Ensures Halt.IsFailure (.new g settings) fun _ _ => True :=
  (ensures_runFrom ⟨⟨hg.intact, hcount⟩, hg.inRange⟩ (accounts_new hg.intact settings)
    (hsuits.ready hg hv)).1

/-- On what a pass comes to run on, the loops end by themselves. -/
theorem Settings.Suits.loopsEnd {p : PassId} (hp : settings.RunsOn g p u) : p.LoopsEnd u.graph := by
  have hw : g.Workable := ⟨⟨hg.intact, hcount⟩, hg.inRange⟩
  obtain ⟨gone, hacc⟩ := hp.exists_accounts (accounts_new hg.intact settings)
  refine p.loopsEnd hacc.reduced.intact (hacc.inRange hw) ?_
  exact (ensures_runFrom hw (accounts_new hg.intact settings) (hsuits.ready hg hv)).2 p u hp

end Accepted

/-- The optimization of a method that was read does not fault. -/
theorem optimize_ne_faulted (hg : g.Sound) (hcount : g.attached.length < UInt64.size)
    (hsuits : g.violations = .ok [] → settings.Suits g) (f : Fault) :
    optimize g settings ≠ .error (.faulted f) := by
  have hwork : (do check inputName; runAll settings.verify settings.pipeline : Work Unit).Ensures Halt.IsFailure
      (.new g settings) fun _ _ => True :=
    ensures_bind (ensures_check (exists_violations hg.intact hg.inRange)
      (fun hv => (hsuits hv).ensures_runAll hg hcount hv) fun _ _ _ => trivial)
  intro hfault
  simp only [optimize] at hfault
  split at hfault
  · cases hfault
  · next halt u hrun =>
    cases hfault
    exact hwork.1 _ u hrun

/-! ## Many methods -/

namespace Stats

variable {s t : Stats}

/-- Counters are added up if every sum is in range. -/
theorem exists_merge (h : ∀ c, s.get c + t.get c < UInt64.size) : ∃ s', s.merge t = .ok s' := by
  refine Exists.imp (fun _ => And.left) (Checked.foldlM_total_prefix
    (P := fun done (s₁ : Stats) => ∀ c ∉ done, s₁.get c = s.get c) (fun _ _ => rfl) ?_)
  intro done c rest s₁ hsplit hdone
  have hnew : c ∉ done := by
    have hnodup : Counter.all.Nodup := by decide
    rw [hsplit] at hnodup
    exact fun hmem => List.disjoint_of_nodup_append hnodup hmem List.mem_cons_self
  obtain ⟨s₂, hs₂⟩ : ∃ s₂, s₁.record c (t.get c) = .ok s₂ := exists_record (by rw [hdone c hnew]; exact h c)
  refine ⟨s₂, hs₂, fun c' hc' => ?_⟩
  rw [List.mem_append, List.mem_singleton, not_or] at hc'
  rw [get_record hs₂, if_neg hc'.2, Nat.add_zero, hdone c' hc'.1]

/-- Counters are merged without overflow if their sums stay below the bound. -/
theorem exists_foldlM_merge {α : Type} {xs : List (α × Stats)}
    (h : ∀ c, s.get c + (xs.map (·.2.get c)).sum < UInt64.size) :
    ∃ s', xs.foldlM (fun total r => total.merge r.2) s = .ok s' := by
  induction xs generalizing s with
  | nil => exact ⟨s, rfl⟩
  | cons x xs ih =>
    simp only [List.map_cons, List.sum_cons] at h
    obtain ⟨s₁, hs₁⟩ := exists_merge (s := s) (t := x.2) fun c => by
      have := h c
      omega
    refine Checked.bind_total_of_eq hs₁ (ih fun c => ?_)
    rw [get_merge hs₁, Nat.add_assoc]
    exact h c

end Stats

open Compiled

/-- What a method adds to a counter. -/
theorem Compiled.Of.adds_le {m : Compiled} (hg : g.Intact) (h : Of settings g m) (c : Counter) :
    m.adds c ≤ g.attached.length + 1 := by
  obtain ⟨gone, hm⟩ := h.exists_missing hg
  have hbalance := hm.balance
  unfold removals at hbalance
  cases c with
  | attempted | optimized | fallback => cases m <;> simp [adds]
  | _ => omega

/-- A method is compiled or falls back, unless a fault stops it. -/
theorem exists_compileMethod (hg : g.Intact) (hcount : g.attached.length + 1 < UInt64.size)
    (hno : ∀ f, optimize g settings ≠ .error (.faulted f)) : ∃ r, compileMethod settings g = .ok r := by
  obtain ⟨s₀, hs₀⟩ : ∃ s₀, Stats.zero.record .attempted 1 = .ok s₀ :=
    Stats.exists_record (by rw [Stats.get_zero]; decide)
  have hget : ∀ c, s₀.get c = if c = .attempted then 1 else 0 := fun c => by
    rw [Stats.get_record hs₀, Stats.get_zero, Nat.zero_add]
  refine Checked.bind_total_of_eq hs₀ ?_
  split
  · next r hr =>
    obtain ⟨gone, u, hu, -, hstats, -⟩ := exists_accounts hg hr
    have hle := hu.removals_le hg hu.reduced.intact.reduced
    have hbound : ∀ c, s₀.get c + r.stats.get c ≤ g.attached.length + 1 := by
      intro c
      rw [hget, ← hstats]
      unfold Stats.removals at hle
      cases c with
      | attempted | optimized | fallback => rw [hu.others _ rfl]; split <;> omega
      | _ => simp; omega
    obtain ⟨s₁, hs₁⟩ := Stats.exists_merge fun c => Nat.lt_of_le_of_lt (hbound c) hcount
    obtain ⟨s₂, hs₂⟩ : ∃ s₂, s₁.record .optimized 1 = .ok s₂ := by
      refine Stats.exists_record ?_
      rw [Stats.get_merge hs₁, hget, ← hstats, hu.others _ rfl]
      decide
    exact Checked.bind_total_of_eq hs₁ (Checked.bind_total_of_eq hs₂ ⟨_, rfl⟩)
  · next reason hr =>
    exact Checked.bind_total (Stats.exists_record (by rw [hget]; decide)) fun _ _ => ⟨_, rfl⟩
  · next f hf => exact absurd hf (hno f)

/-- A compilation comes to a report, if no method faults and the counters are large enough. -/
theorem exists_compileAll {gs : List Graph} (hgs : ∀ g ∈ gs, g.Intact)
    (hcount : (gs.map fun g => g.attached.length + 1).sum < UInt64.size)
    (hno : ∀ g ∈ gs, ∀ f, optimize g settings ≠ .error (.faulted f)) :
    ∃ report, compileAll settings gs = .ok report := by
  refine Checked.bind_total (Checked.mapM_total fun g hg => ?_) fun results hresults =>
    Checked.bind_total (Stats.exists_foldlM_merge fun c => ?_) fun _ _ => ⟨_, rfl⟩
  · refine exists_compileMethod (hgs g hg) (Nat.lt_of_le_of_lt ?_ hcount) (hno g hg)
    exact List.single_le_sum (by simp) _ (List.mem_map_of_mem hg)
  · rw [Stats.get_zero, Nat.zero_add]
    refine Nat.lt_of_le_of_lt ?_ hcount
    rw [Checked.mapM_eq_ok] at hresults
    clear hcount hno
    induction hresults with
    | nil => exact Nat.le_refl _
    | @cons g r gs rs hr _ ih =>
      rw [List.forall_mem_cons] at hgs
      obtain ⟨hof, hadds⟩ := get_of_compileMethod hgs.1 hr
      have hone := hof.adds_le hgs.1 c
      have hrest := ih hgs.2
      simp only [List.map_cons, List.sum_cons, hadds c]
      omega

/-! ## Methods that were read -/

/-- Every instruction that a text gives stands in a block. -/
theorem Graph.Legible.mem_attached {h : Header} {params : Nat} {items : List Item}
    (hg : g.Legible h params items)
    {i : InstId} {inst : Inst} (hinst : g.inst i = .ok inst) : i ∈ g.attached := by
  have hlt : i.index < g.insts.size := (Array.getElem?_eq_some_iff.1 (inst_eq_ok.1 hinst)).1
  obtain ⟨block, hblock, hi⟩ := Graph.mem_bodyOf.1 (hg.mem_bodyOf.2 ⟨hlt, rfl⟩)
  exact Graph.mem_attached.2 ⟨_, block, hblock, hi⟩

/-- What a text gives refers only to what is there. -/
theorem Graph.Legible.sound {h : Header} {params : Nat} {items : List Item} (hg : g.Legible h params items) :
    g.Sound := by
  have hwritable := hg.writable
  have hlt : ∀ {i inst}, g.inst i = .ok inst → i.index < g.insts.size := fun hinst =>
    (Array.getElem?_eq_some_iff.1 (inst_eq_ok.1 hinst)).1
  refine ⟨hg.assembled.intact, ⟨hwritable.entry, ?fields, ?operands, fun _ _ hinst _ => hg.mem_attached hinst⟩,
    ?phis, ?insts⟩
  case fields =>
    intro i _ inst hslot f hf
    have hinst := inst_eq_ok.2 hslot
    obtain ⟨hparam, hbody⟩ := hg.param_spec (hlt hinst)
    rw [slot_eq hinst] at hparam hbody
    have hfield : f.index < h.fields.size := by
      by_cases hi : i.index < params
      · rw [(hparam hi).1] at hf
        cases hf
      · rcases hbody (Nat.le_of_not_lt hi) with hphi | hexpr
        · rw [hphi] at hf
          cases hf
        · exact hexpr.field_lt hf
    rw [hg.assembled.fields]
    exact hfield
  case operands =>
    rintro v ⟨i, hi, hv⟩
    obtain ⟨inst, hinst⟩ := hg.assembled.intact.exists_inst hi
    rw [operandsOf_eq hinst, ← slot_eq hinst] at hv
    exact ⟨_, inst_eq_ok.2 (Array.getElem?_eq_getElem (hg.input_lt (hlt hinst) hv).1)⟩
  case phis =>
    intro b block i inst hblock hi hinst
    rw [← slot_eq hinst]
    refine hwritable.phis b i ?_
    rw [phisOf, Graph.block_eq_ok.1 hblock]
    exact hi
  case insts =>
    intro b block i inst hblock hi hinst hphi
    have hmem : i ∈ g.instsOf b := by
      rw [instsOf, Graph.block_eq_ok.1 hblock]
      exact hi
    have hother := hwritable.isPhi_of_mem_instsOf hmem
    rw [slot_eq hinst, hphi] at hother
    cases hother

/-- A compilation of methods that were read comes to a report with an entry for each: optimized, or kept as it
was with the reason.  This asks of the methods that are accepted that they suit the settings, and that there
are not more instructions than can be counted.  No report is owed to a bound on a loop: the loops that the
check of a method and the passes that come to run on it are waiting for end by themselves. -/
theorem compileAll_finishes {text : String} {gs : List Graph} (hread : readMethods text = .ok gs)
    (hcount : (gs.map fun g => g.attached.length + 1).sum < UInt64.size)
    (hsuits : ∀ g ∈ gs, g.violations = .ok [] → settings.Suits g) :
    (∃ report, compileAll settings gs = .ok report ∧ List.Forall₂ (Compiled.Of settings) gs report.methods) ∧
      ∀ g ∈ gs, (∃ t, DomTree.ofGraph g = .ok t ∧ t.Finished g) ∧
        (g.violations = .ok [] → ∀ p u, settings.RunsOn g p u → p.LoopsEnd u.graph) := by
  have hsound : ∀ g ∈ gs, g.Sound := by
    intro g hg
    obtain ⟨h, params, items, hlegible⟩ := exists_legible_of_readMethods hread hg
    exact hlegible.sound
  have hintact : ∀ g ∈ gs, g.Intact := fun g hg => (hsound g hg).intact
  have hone : ∀ g ∈ gs, g.attached.length < UInt64.size := by
    intro g hg
    have hle := List.single_le_sum (by simp) _
      (List.mem_map_of_mem (f := fun g : Graph => g.attached.length + 1) hg)
    omega
  have hno : ∀ g ∈ gs, ∀ f, optimize g settings ≠ .error (.faulted f) := fun g hg =>
    optimize_ne_faulted (hsound g hg) (hone g hg) (hsuits g hg)
  obtain ⟨report, hreport⟩ := exists_compileAll hintact hcount hno
  refine ⟨⟨report, hreport, (get_of_compileAll hintact hreport).1⟩, fun g hg => ⟨?_, fun hv p u hp => ?_⟩⟩
  · obtain ⟨t, ht⟩ := (hsound g hg).inRange.exists_tree
    exact ⟨t, ht, DomTree.finished (hintact g hg).consistent ht⟩
  · exact (hsuits g hg hv).loopsEnd (hsound g hg) (hone g hg) hv hp

/-- The lines of a method that loads through a check of a check. -/
def recheckedLoadLines : List String :=
  ["method @recheck(%p: ref) \x7b",
   "  field @A.x : int \x7boffset = 8\x7d",
   "^in:",
   "  %n = null_check %p : ref",
   "  %m = null_check %n : ref",
   "  %a = instance_get %m \x7bfield = @A.x\x7d : int",
   "  return %a",
   "\x7d"]

/-- The lines of three methods: one that loses a check of a check, one that asks for the length of nothing and
has no end, and one whose loads and stores can go. -/
def mixedLines : List String := recheckedLoadLines ++
  ["method @endless() static \x7b",
   "^in:",
   "  %n = array_length : int",
   "\x7d",
   "method @rewrite(%p: ref, %v: int) static \x7b",
   "  field @A.x : int \x7boffset = 8\x7d",
   "^in:",
   "  instance_set %p, %v \x7bfield = @A.x\x7d",
   "  %a = instance_get %p \x7bfield = @A.x\x7d : int",
   "  %b = add %a, %v : int",
   "  instance_set %p, %b \x7bfield = @A.x\x7d",
   "  instance_set %p, %a \x7bfield = @A.x\x7d",
   "  return %a",
   "\x7d"]

/-- All passes, nothing checked in between. -/
def allUnchecked : Settings := { Settings.default with verify := false }

/-- With all passes and no checks in between, two of three methods are optimized and the third is kept. -/
theorem compileAll_finishes_mixed : ∃ gs report, readMethods (String.ofList (charsOf mixedLines)) = .ok gs ∧
    (gs.map fun g => g.attached.length + 1).sum < UInt64.size ∧
    (∀ g ∈ gs, g.violations = .ok [] → allUnchecked.Suits g) ∧ compileAll allUnchecked gs = .ok report ∧
    report.methods.map isOptimized = [true, false, true] ∧ report.stats.removals = 5 ∧
    List.Forall₂ (Compiled.Of allUnchecked) gs report.methods ∧
    ∀ g ∈ gs, (∃ t, DomTree.ofGraph g = .ok t ∧ t.Finished g) ∧
      (g.violations = .ok [] → ∀ p u, allUnchecked.RunsOn g p u → p.LoopsEnd u.graph) := by
  obtain ⟨gs, hread, hcount, hsuits, heval⟩ := Graph.exists_of_allOf? (charsOf mixedLines)
    (fun gs => (gs.map fun g => g.attached.length + 1).sum < UInt64.size ∧
      (∀ g ∈ gs, g.violations = .ok [] → g.Supplied ∧ g.StoresUnread) ∧
      (compileAll allUnchecked gs).toOption.any (fun report =>
        report.methods.map isOptimized = [true, false, true] ∧ report.stats.removals = 5) = true)
      (by decide +kernel)
  have hsuits : ∀ g ∈ gs, g.violations = .ok [] → allUnchecked.Suits g := by
    intro g hg hv
    obtain ⟨h, params, items, hlegible⟩ := exists_legible_of_readMethods hread hg
    exact hlegible.sound.suits (hsuits g hg hv).1 (hsuits g hg hv).2 (.inr (tolerates_of_tail (by decide)))
  obtain ⟨⟨report, hreport, hof⟩, hloops⟩ := compileAll_finishes hread hcount hsuits
  obtain ⟨report', hreport', heval⟩ := Checked.any_toOption.1 heval
  obtain rfl : report = report' := Except.ok.inj (hreport.symm.trans hreport')
  obtain ⟨hoptimized, hremovals⟩ := of_decide_eq_true heval
  exact ⟨gs, report, hread, hcount, hsuits, hreport, hoptimized, hremovals, hof, hloops⟩

/-- The lines of a method that asks for the length of nothing. -/
def lengthOfNothingLines : List String :=
  ["method @length() static \x7b",
   "^in:",
   "  %n = array_length : int",
   "  return %n",
   "\x7d"]

/-- The lines of a method that returns what a store gives, and stores again. -/
def returnedStoreLines : List String :=
  ["method @stored(%v: int, %w: int) static \x7b",
   "  field @G.x : int \x7boffset = 0, static = true\x7d",
   "^in:",
   "  %s = static_set %v \x7bfield = @G.x\x7d : int",
   "  static_set %w \x7bfield = @G.x\x7d",
   "  return %s",
   "\x7d"]

/-- The lines of a method that stores nothing to an array. -/
def bareArrayStoreLines : List String :=
  ["method @store(%p: ref) static \x7b",
   "^in:",
   "  array_set %p",
   "  return",
   "\x7d"]

/-- Effects are summarized, and nothing else is done. -/
def effectsOnly : Settings := ⟨[.sideEffects], [], true, 0⟩

/-- Null checks are removed between two looks at null, and nothing is checked. -/
def lookTwice : Settings := ⟨[.nullPropagation, .nullCheck, .nullPropagation], [], false, 0⟩

/-- None of the four conditions can be left out: these methods are accepted, and each of them is the end of the
compilation. -/
theorem compileAll_faults :
    (∃ g, readMethods (String.ofList (charsOf bareArrayStoreLines)) = .ok [g] ∧ g.violations = .ok [] ∧
      compileAll effectsOnly [g] = .error .outOfBounds) ∧
    (∃ g, readMethods (String.ofList (charsOf lengthOfNothingLines)) = .ok [g] ∧ g.violations = .ok [] ∧
      compileAll .default [g] = .error .outOfBounds) ∧
    (∃ g, readMethods (String.ofList (charsOf returnedStoreLines)) = .ok [g] ∧ g.violations = .ok [] ∧
      compileAll .default [g] = .error (.stillUsed ⟨2⟩ 1)) ∧
    ∃ g, readMethods (String.ofList (charsOf recheckedLoadLines)) = .ok [g] ∧ g.violations = .ok [] ∧
      compileAll lookTwice [g] = .error .outOfBounds := by
  refine ⟨?_, ?_, ?_, ?_⟩
  · exact Graph.exists_of_onlyOf? _ (fun g => g.violations = .ok [] ∧
      compileAll effectsOnly [g] = .error .outOfBounds) (by decide +kernel)
  · exact Graph.exists_of_onlyOf? _ (fun g => g.violations = .ok [] ∧
      compileAll .default [g] = .error .outOfBounds) (by decide +kernel)
  · exact Graph.exists_of_onlyOf? _ (fun g => g.violations = .ok [] ∧
      compileAll .default [g] = .error (.stillUsed ⟨2⟩ 1)) (by decide +kernel)
  · exact Graph.exists_of_onlyOf? _ (fun g => g.violations = .ok [] ∧
      compileAll lookTwice [g] = .error .outOfBounds) (by decide +kernel)

end Midend
