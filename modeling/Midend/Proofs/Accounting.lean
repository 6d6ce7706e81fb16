import Mathlib.Algebra.BigOperators.Group.List.Basic
import Mathlib.Data.Nat.Cast.Basic
import Midend.Compiler
import Midend.Proofs.Frame

/-!
# The accounts of a compilation

A report has one entry for each method, which depends on that method alone.  Its counters say how many
methods there were, how many were optimized and how many kept, and how many instructions are missing from
what came out: no removal is counted twice, and none for a method that was kept as it was.

## Shape of the argument

Counters are added up method by method, so each is the sum over the entries.  For one entry the run of the
pipeline accounts for the graph, and a method that failed is as it was.
-/

namespace Midend

open Midend.Graph CompUnit

/-! ## Adding up counters -/

namespace Stats

variable {s s' t : Stats}

/-- Merged counters are added up. -/
theorem get_merge (h : s.merge t = .ok s') (c : Counter) : s'.get c = s.get c + t.get c := by
  have hfold := Checked.foldlM_prefix (P := fun done (s₁ : Stats) =>
      ∀ c, s₁.get c = s.get c + if c ∈ done then t.get c else 0) h (fun c => by simp) ?_
  · have hall : c ∈ Counter.all := by cases c <;> decide
    rw [hfold c, if_pos hall]
  · intro done c₁ rest s₁ s₂ hsplit hdone hstep c
    have hnew : c₁ ∉ done := by
      have hnodup : Counter.all.Nodup := by decide
      rw [hsplit] at hnodup
      exact fun hmem => List.disjoint_of_nodup_append hnodup hmem List.mem_cons_self
    rw [get_record hstep, hdone]
    by_cases heq : c = c₁
    · subst heq
      simp [hnew]
    · simp [heq]

/-- Counters of many methods are added up. -/
theorem get_foldlM_merge {α : Type} {xs : List (α × Stats)}
    (h : xs.foldlM (fun total r => total.merge r.2) s = .ok s') (c : Counter) :
    s'.get c = s.get c + (xs.map (·.2.get c)).sum := by
  induction xs generalizing s with
  | nil =>
    obtain rfl := Except.ok.inj h
    rfl
  | cons x xs ih =>
    rw [List.foldlM_cons, Checked.bind_eq_ok] at h
    obtain ⟨s₁, hmerge, h⟩ := h
    rw [ih h, get_merge hmerge, List.map_cons, List.sum_cons, Nat.add_assoc]

end Stats

/-! ## One method -/

namespace Compiled

variable {settings : Settings} {g : Graph} {m : Compiled} {s : Stats}

/-- What becomes of a method depends on it and the settings alone.  A method that failed is kept as it
was. -/
inductive Of (settings : Settings) (g : Graph) : Compiled → Prop
  | optimized {r : Optimized} : optimize g settings = .ok r → Of settings g (.optimized r)
  | fallback {reason : Failure} : optimize g settings = .error (.failed reason) →
    Of settings g (.fallback g reason)

/-- What a method adds to the counters of a report.  Removals count if the method was optimized. -/
def adds : Compiled → Counter → Nat
  | optimized _, .attempted => 1
  | optimized _, .optimized => 1
  | optimized _, .fallback => 0
  | optimized r, c => r.stats.get c
  | fallback _ _, .attempted => 1
  | fallback _ _, .fallback => 1
  | fallback _ _, _ => 0

/-- The removals counted for a method. -/
def removals (m : Compiled) : Nat :=
  m.adds .removedLoad + m.adds .removedStore + m.adds .removedNullCheck + m.adds .removedDead

/-- The instructions of a method that are gone: each is listed once, and as many were counted. -/
structure Missing (g : Graph) (m : Compiled) (gone : List InstId) : Prop where
  nodup : gone.Nodup
  listed : gone ⊆ g.attached
  left : m.graph.attached = g.attached.filter (· ∉ gone)
  counted : m.removals = gone.length
  balance : m.removals + m.graph.attached.length = g.attached.length

/-- What a method adds to the counters is what was counted for it. -/
theorem get_of_compileMethod (hg : g.Intact) (h : compileMethod settings g = .ok (m, s)) :
    Of settings g m ∧ ∀ c, s.get c = m.adds c := by
  simp only [compileMethod, Checked.bind_eq_ok] at h
  obtain ⟨s₀, hattempted, h⟩ := h
  have hzero : ∀ c, s₀.get c = if c = .attempted then 1 else 0 := fun c => by
    rw [Stats.get_record hattempted, Stats.get_zero, Nat.zero_add]
  split at h
  · next r hr =>
    simp only [Checked.bind_eq_ok, Checked.pure_eq_ok, Prod.mk.injEq] at h
    obtain ⟨s₁, hmerge, s₂, hoptimized, rfl, rfl⟩ := h
    obtain ⟨gone, u, hu, -, hstats, -⟩ := exists_accounts hg hr
    have hothers : ∀ c : Counter, c.isRemoval = false → r.stats.get c = 0 := hstats ▸ hu.others
    refine ⟨.optimized hr, fun c => ?_⟩
    rw [Stats.get_record hoptimized, Stats.get_merge hmerge, hzero]
    cases c <;> simp [adds, hothers .attempted rfl, hothers .optimized rfl, hothers .fallback rfl]
  · next reason hr =>
    simp only [Checked.bind_eq_ok, Checked.pure_eq_ok, Prod.mk.injEq] at h
    obtain ⟨s₁, hfallback, rfl, rfl⟩ := h
    refine ⟨.fallback hr, fun c => ?_⟩
    rw [Stats.get_record hfallback, hzero]
    cases c <;> rfl
  · cases h

/-- What is left of a compiled method is the method without what is gone. -/
theorem Of.exists_missing (hg : g.Intact) (h : Of settings g m) : ∃ gone, Missing g m gone := by
  cases h with
  | @optimized r hr =>
    obtain ⟨gone, u, hu, hgraph, hstats, -⟩ := exists_accounts hg hr
    have hreduced : Reduced g gone r.graph := hgraph ▸ hu.reduced
    have hcounted : r.stats.removals = gone.length := hstats ▸ hu.removals
    refine ⟨gone, hreduced.nodup, hreduced.listed, hreduced.attached, hcounted, ?_⟩
    rw [← hreduced.length_attached hg, ← hcounted, Nat.add_comm]
    rfl
  | fallback => exact ⟨[], List.nodup_nil, List.nil_subset _, by simp [graph], rfl, Nat.zero_add _⟩

end Compiled

open Compiled

/-! ## Many methods -/

section Many

variable {settings : Settings} {gs : List Graph} {report : Report} (hgs : ∀ g ∈ gs, g.Intact)
  (h : compileAll settings gs = .ok report)
include hgs h

/-- Each counter is the sum over the entries. -/
theorem get_of_compileAll : List.Forall₂ (Compiled.Of settings) gs report.methods ∧
    ∀ c, report.stats.get c = (report.methods.map (·.adds c)).sum := by
  simp only [compileAll, Checked.bind_eq_ok, Checked.pure_eq_ok] at h
  obtain ⟨results, hresults, stats, hstats, rfl⟩ := h
  rw [Checked.mapM_eq_ok] at hresults
  have hentries : List.Forall₂ (fun g r => Of settings g r.1 ∧ ∀ c, r.2.get c = r.1.adds c) gs results :=
    ((List.forall₂_and_left gs results).2 ⟨hgs, hresults⟩).imp fun g r hr => get_of_compileMethod hr.1 hr.2
  refine ⟨List.forall₂_map_right_iff.2 (hentries.imp fun _ _ hr => hr.1), fun c => ?_⟩
  rw [Stats.get_foldlM_merge hstats, Stats.get_zero, Nat.zero_add]
  clear hstats hresults hgs
  induction hentries with
  | nil => rfl
  | cons hr _ ih =>
    simp only [List.map_cons, List.sum_cons, hr.2 c]
    rw [ih]

end Many

/-- As many instructions are missing from what came out as were counted. -/
theorem sum_removals {gs : List Graph} {ms : List Compiled}
    (h : List.Forall₂ (fun g m => ∃ gone, Missing g m gone) gs ms) :
    (ms.map removals).sum + (ms.map (·.graph.attached.length)).sum = (gs.map (·.attached.length)).sum := by
  induction h with
  | nil => rfl
  | cons hm _ ih =>
    obtain ⟨gone, hm⟩ := hm
    have := hm.balance
    simp only [List.map_cons, List.sum_cons]
    omega

/-- The accounts of a compilation. -/
theorem compileAll_accounts {settings : Settings} {gs : List Graph} {report : Report} (hgs : ∀ g ∈ gs, g.Built)
    (h : compileAll settings gs = .ok report) :
    List.Forall₂ (Compiled.Of settings) gs report.methods ∧
    List.Forall₂ (fun g m => ∃ gone, Missing g m gone) gs report.methods ∧
    (∀ c, report.stats.get c = (report.methods.map (·.adds c)).sum) ∧
    report.stats.get .attempted = gs.length ∧
    report.stats.get .optimized + report.stats.get .fallback = gs.length ∧
    report.stats.removals + (report.methods.map (·.graph.attached.length)).sum =
      (gs.map (·.attached.length)).sum := by
  have hintact : ∀ g ∈ gs, g.Intact := fun g hg => (hgs g hg).intact
  obtain ⟨hof, hget⟩ := get_of_compileAll hintact h
  have hmissing : List.Forall₂ (fun g m => ∃ gone, Missing g m gone) gs report.methods :=
    ((List.forall₂_and_left gs report.methods).2 ⟨hintact, hof⟩).imp fun g m hm => hm.2.exists_missing hm.1
  have hlength : gs.length = report.methods.length := hof.length_eq
  refine ⟨hof, hmissing, hget, ?_, ?_, ?_⟩
  · rw [hget, hlength]
    have hone : ∀ m : Compiled, m.adds .attempted = 1 := fun m => by cases m <;> rfl
    simp [hone]
  · rw [hget, hget, ← List.sum_map_add, hlength]
    have hone : ∀ m : Compiled, m.adds .optimized + m.adds .fallback = 1 := fun m => by cases m <;> rfl
    simp [hone]
  · rw [← sum_removals hmissing, Stats.removals, hget, hget, hget, hget, ← List.sum_map_add,
      ← List.sum_map_add, ← List.sum_map_add]
    rfl

/-- A method that loses a check of a check, which the verification after the pass refuses. -/
def recheck : Graph := .ofEdits "recheck" [
  .createInst (.param 0) .ref [], .appendInst ⟨0⟩ ⟨0⟩,
  .createInst .nullCheck .ref [⟨0⟩], .appendInst ⟨0⟩ ⟨1⟩,
  .createInst .nullCheck .ref [⟨1⟩], .appendInst ⟨0⟩ ⟨2⟩,
  .createInst .ret .void [⟨2⟩], .appendInst ⟨0⟩ ⟨3⟩]

/-- The pass after which a method failed. -/
def Compiled.failedAfter? (m : Compiled) : Option String :=
  m.reason?.map fun
    | .invariantViolation pass _ | .missingAnalysis pass _ | .fixpointNotReached pass _ => pass

/-- A method that is optimized, one that fails after it was rewritten, and one that fails before any pass. -/
def lot : List Graph := [refill, recheck, Graph.new "hollow"]

/-- In `lot` one method is optimized and two fall back, one of them after it was rewritten, and the counters
account for all three. -/
theorem compileAll_accounts_lot : (∀ g ∈ lot, g.Built) ∧ ∃ report, compileAll .default lot = .ok report ∧
    report.methods.map failedAfter? = [none, some "null_check_elimination", some "input"] ∧
    report.methods.map (·.graph.attached.length) = [8, 4, 0] ∧ report.stats.removals = 5 ∧
    List.Forall₂ (Compiled.Of .default) lot report.methods ∧
    List.Forall₂ (fun g m => ∃ gone, Missing g m gone) lot report.methods ∧
    (∀ c, report.stats.get c = (report.methods.map (·.adds c)).sum) ∧
    report.stats.get .attempted = lot.length ∧
    report.stats.get .optimized + report.stats.get .fallback = lot.length ∧
    report.stats.removals + (report.methods.map (·.graph.attached.length)).sum =
      (lot.map (·.attached.length)).sum := by
  have hbuilt : ∀ g ∈ lot, g.Built := by
    simp only [lot, List.forall_mem_cons, List.not_mem_nil, false_implies, implies_true, and_true]
    exact ⟨built_ofEdits _ _, built_ofEdits _ _, built_ofEdits "hollow" []⟩
  have heval : (compileAll .default lot).toOption.map (fun report =>
      (report.methods.map failedAfter?, report.methods.map (·.graph.attached.length), report.stats.removals)) =
      some ([none, some "null_check_elimination", some "input"], [8, 4, 0], 5) := by decide +kernel
  refine ⟨hbuilt, ?_⟩
  cases h : compileAll .default lot with
  | ok report =>
    rw [h] at heval
    obtain ⟨hfailed, hlengths, hremovals⟩ : _ ∧ _ ∧ _ := by
      simpa only [Except.toOption, Option.map_some, Option.some.injEq, Prod.mk.injEq] using heval
    exact ⟨report, rfl, hfailed, hlengths, hremovals, compileAll_accounts hbuilt h⟩
  | error fault =>
    rw [h] at heval
    cases heval

end Midend
