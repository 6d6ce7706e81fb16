import Midend.Pass.LoadStore
import Midend.Pass.Manager
import Midend.Pass.SideEffects
import Midend.Proofs.Sequences

/-!
# Work that comes to an end

What a manager does with passes, in terms of the functions the passes are made of.  `Work.Yields` says
that work on a unit comes to a result and leaves a unit behind; it has one equation for every way of
putting work together, so that a run of passes can be taken apart and put together.
-/

namespace Midend

namespace Work

variable {α β : Type} {u u' : CompUnit} {a : α} {b : β}

/-- Work on a unit comes to a result and leaves a unit behind. -/
def Yields (w : Work α) (u : CompUnit) (a : α) (u' : CompUnit) : Prop := w.run u = (.ok a, u')

theorem yields_pure {a' : α} : (pure a : Work α).Yields u a' u' ↔ a' = a ∧ u' = u := by
  simp only [Yields]
  constructor
  · intro h
    cases h
    exact ⟨rfl, rfl⟩
  · rintro ⟨rfl, rfl⟩
    rfl

/-- Running one piece of work after another. -/
theorem run_bind (w : Work α) (f : α → Work β) (u : CompUnit) :
    (w >>= f).run u = match w.run u with
      | (.ok a, u₁) => (f a).run u₁
      | (.error e, u₁) => (.error e, u₁) := by
  simp only [ExceptT.run, bind, ExceptT.bind, ExceptT.mk, StateT.bind, ExceptT.bindCont]
  rcases w u with ⟨_ | _, _⟩ <;> rfl

/-- A sequence yields what its second part does after its first. -/
theorem yields_bind {w : Work α} {f : α → Work β} :
    (w >>= f).Yields u b u' ↔ ∃ a u₁, w.Yields u a u₁ ∧ (f a).Yields u₁ b u' := by
  rw [Yields, run_bind]
  rcases hw : w.run u with ⟨_ | a, u₁⟩
  · simp only [Yields, hw]
    constructor
    · rintro ⟨⟩
    · rintro ⟨a, u₁, ⟨⟩, -⟩
  · constructor
    · exact fun h => ⟨a, u₁, hw, h⟩
    · rintro ⟨a', u₁', h, h'⟩
      rw [Yields, hw] at h
      cases h
      exact h'

theorem yields_get {a : CompUnit} : (get : Work CompUnit).Yields u a u' ↔ a = u ∧ u' = u := by
  constructor
  · rintro ⟨⟩
    exact ⟨rfl, rfl⟩
  · rintro ⟨rfl, rfl⟩
    rfl

theorem yields_modify {f : CompUnit → CompUnit} {a : Unit} :
    (modify f : Work Unit).Yields u a u' ↔ u' = f u := by
  constructor
  · rintro ⟨⟩
    rfl
  · rintro rfl
    rfl

/-- A computation on the graph alone leaves the unit. -/
theorem yields_ofChecked {c : Checked α} : (ofChecked c).Yields u a u' ↔ c = .ok a ∧ u' = u := by
  cases c with
  | ok a' =>
    rw [ofChecked, yields_pure, Except.ok.injEq, eq_comm]
  | error f =>
    constructor
    · rintro ⟨⟩
    · rintro ⟨⟨⟩, -⟩

/-- A failure yields nothing. -/
theorem not_yields_fail {f : Failure} : ¬ (fail f : Work α).Yields u a u' := by
  rintro ⟨⟩

theorem yields_modifyAnalyses {f : Analyses → Analyses} {a : Unit} :
    (modifyAnalyses f).Yields u a u' ↔ u' = { u with analyses := f u.analyses } := yields_modify

theorem yields_setGraph {g : Graph} {a : Unit} :
    (setGraph g).Yields u a u' ↔ u' = { u with graph := g } := yields_modify

/-- Counting yields a unit with new counters, unless one overflows. -/
theorem yields_record {c : Counter} {n : Nat} {a : Unit} : (record c n).Yields u a u' ↔
    ∃ stats, u.stats.record c n = .ok stats ∧ u' = { u with stats := stats } := by
  simp only [record, yields_bind, yields_get, yields_ofChecked, yields_modify]
  constructor
  · rintro ⟨_, _, ⟨rfl, rfl⟩, stats, _, ⟨hstats, rfl⟩, rfl⟩
    exact ⟨stats, hstats, rfl⟩
  · rintro ⟨stats, hstats, rfl⟩
    exact ⟨u, u, ⟨rfl, rfl⟩, stats, u, ⟨hstats, rfl⟩, rfl⟩

/-- The dominator tree of a unit: the cached one, or the one computed from the graph. -/
theorem yields_dominators {t : DomTree} : dominators.Yields u t u' ↔
    (u.analyses.dominators = some t ∧ u' = u) ∨ (u.analyses.dominators = none ∧
      DomTree.ofGraph u.graph = .ok t ∧
      u' = { u with analyses := { u.analyses with dominators := some t } }) := by
  simp only [dominators, yields_bind, yields_get]
  constructor
  · rintro ⟨_, _, ⟨rfl, rfl⟩, h⟩
    split at h
    · next t' ht' =>
      obtain ⟨rfl, rfl⟩ := yields_pure.1 h
      exact .inl ⟨ht', rfl⟩
    · next hnone =>
      simp only [yields_bind, yields_ofChecked, yields_modifyAnalyses, yields_pure] at h
      obtain ⟨t', _, ⟨ht', rfl⟩, _, _, rfl, rfl, rfl⟩ := h
      exact .inr ⟨hnone, ht', rfl⟩
  · rintro h
    refine ⟨u, u, ⟨rfl, rfl⟩, ?_⟩
    rcases h with ⟨hsome, rfl⟩ | ⟨hnone, ht, rfl⟩
    · rw [hsome]
      exact yields_pure.2 ⟨rfl, rfl⟩
    · rw [hnone]
      simp only [yields_bind, yields_ofChecked, yields_modifyAnalyses, yields_pure]
      exact ⟨t, u, ⟨ht, rfl⟩, (), _, rfl, rfl, rfl⟩

/-- The loop forest of a unit without analyses. -/
theorem yields_loops {f : LoopForest} (hempty : u.analyses = .empty) (h : loops.Yields u f u') :
    ∃ t, DomTree.ofGraph u.graph = .ok t ∧ f = LoopForest.ofGraph u.graph t ∧
      u' = { u with analyses := ⟨some t, some f, none, none⟩ } := by
  simp only [loops, yields_bind, yields_get] at h
  obtain ⟨_, _, ⟨rfl, rfl⟩, h⟩ := h
  rw [hempty] at h
  simp only [Analyses.empty, yields_bind, yields_get, yields_modifyAnalyses, yields_pure] at h
  obtain ⟨t, u₁, hdoms, _, _, ⟨rfl, rfl⟩, _, _, rfl, rfl, rfl⟩ := h
  rw [yields_dominators, hempty] at hdoms
  rcases hdoms with ⟨⟨⟩, -⟩ | ⟨-, ht, rfl⟩
  exact ⟨t, ht, rfl, rfl⟩

end Work

namespace Manager

open Work

variable {u u' : CompUnit} {place : Nat}

theorem yields_note {hook : Hook} {a : Unit} :
    (note place hook).Yields u a u' ↔ u' = { u with journal := ⟨place, hook⟩ :: u.journal } := yields_modify

/-- A worker that only says what a function computes amounts to folding the function; of the unit, only the
journal changes. -/
theorem foldlM_runWorker {σ : Type} {worker : σ → BlockId → Work (σ × Bool)} {f : σ → BlockId → Checked σ}
    {I : CompUnit → Prop} {bs : List BlockId} {st r : σ × Bool}
    (hI : ∀ u journal, I u → I { u with journal := journal })
    (hworker : ∀ s b u r u', I u → (worker s b).Yields u r u' → f s b = .ok r.1 ∧ r.2 = false ∧ u' = u)
    (h : (bs.foldlM (runWorker place worker) st).Yields u r u') (hu : I u) :
    bs.foldlM f st.1 = .ok r.1 ∧ r.2 = st.2 ∧ ∃ journal, u' = { u with journal := journal } := by
  induction bs generalizing st u with
  | nil =>
    obtain ⟨rfl, rfl⟩ := yields_pure.1 h
    exact ⟨rfl, rfl, u'.journal, rfl⟩
  | cons b bs ih =>
    rw [List.foldlM_cons, yields_bind] at h
    obtain ⟨st₁, u₁, hstep, h⟩ := h
    simp only [runWorker, yields_bind, yields_note, yields_pure] at hstep
    obtain ⟨_, _, rfl, r₁, u₂, hr₁, rfl, rfl⟩ := hstep
    have hnoted := hI u (⟨place, .worker b⟩ :: u.journal) hu
    obtain ⟨hf, hsame, rfl⟩ := hworker st.1 b _ r₁ _ hnoted hr₁
    obtain ⟨hfold, hr, journal, rfl⟩ := ih h hnoted
    refine ⟨?_, ?_, journal, rfl⟩
    · rw [List.foldlM_cons, hf]
      exact hfold
    · rw [hr, hsame, Bool.or_false]

/-- A worker that works on a fixed graph with fixed analyses. -/
theorem foldlM_of_yields {σ : Type} {worker : σ → BlockId → Work (σ × Bool)} {f : σ → BlockId → Checked σ}
    {g : Graph} {analyses : Analyses} {bs : List BlockId} {st r : σ × Bool}
    (hworker : ∀ s b u r u', u.graph = g → u.analyses = analyses → (worker s b).Yields u r u' →
      f s b = .ok r.1 ∧ r.2 = false ∧ u' = u)
    (h : (bs.foldlM (runWorker place worker) st).Yields u r u') (hg : u.graph = g)
    (ha : u.analyses = analyses) :
    bs.foldlM f st.1 = .ok r.1 ∧ r.2 = st.2 ∧ u'.graph = g ∧ u'.analyses = analyses := by
  obtain ⟨hfold, hr, journal, rfl⟩ := foldlM_runWorker (I := fun u => u.graph = g ∧ u.analyses = analyses)
    (fun _ _ h => h) (fun s b u r u' hu => hworker s b u r u' hu.1 hu.2) h ⟨hg, ha⟩
  exact ⟨hfold, hr, hg, ha⟩

/-- The hooks of a pass that visits the blocks, one after the other. -/
theorem yields_runPass {name : String} {σ : Type} {initial : σ} {gate : CompUnit → Bool} {start : σ → Work σ}
    {order : BlockOrder} {worker : σ → BlockId → Work (σ × Bool)} {finish : σ → Work (σ × Bool)}
    {preserved : List Analysis} {changed : Bool}
    (h : (runPass place ⟨name, σ, initial, gate, start, .perBlock order worker, finish, preserved⟩).Yields
      u changed u') :
    ∃ s u₁ t u₂ st u₃ r, (start initial).Yields { u with journal := ⟨place, .start⟩ :: u.journal } s u₁ ∧
      dominators.Yields u₁ t u₂ ∧
      ((match order with
        | .reversePostorder => t.rpo
        | .domPreorder => t.preorder).foldlM (runWorker place worker) (s, false)).Yields u₂ st u₃ ∧
      (finish st.1).Yields { u₃ with journal := ⟨place, .finish⟩ :: u₃.journal } r u' ∧
      changed = (st.2 || r.2) := by
  simp only [runPass, yields_bind, yields_note, yields_pure, runBody, blocksIn] at h
  obtain ⟨_, _, rfl, s, u₁, hstart, st, u₃, ⟨bs, _, ⟨t, u₂, hdoms, rfl, rfl⟩, hfold⟩, _, _, rfl, r, u₄,
    hfinish, rfl, rfl⟩ := h
  exact ⟨s, u₁, t, _, st, u₃, r, hstart, hdoms, hfold, hfinish, rfl⟩

/-- The hooks of a pass that goes over the whole graph at once. -/
theorem yields_runPass_wholeGraph {name : String} {σ : Type} {initial : σ} {gate : CompUnit → Bool}
    {start : σ → Work σ} {run finish : σ → Work (σ × Bool)} {preserved : List Analysis} {changed : Bool} :
    (runPass place ⟨name, σ, initial, gate, start, .wholeGraph run, finish, preserved⟩).Yields u changed u' ↔
      ∃ s u₁ st u₂ r, (start initial).Yields { u with journal := ⟨place, .start⟩ :: u.journal } s u₁ ∧
        (run s).Yields { u₁ with journal := ⟨place, .run⟩ :: u₁.journal } st u₂ ∧
        (finish st.1).Yields { u₂ with journal := ⟨place, .finish⟩ :: u₂.journal } r u' ∧
        changed = (st.2 || r.2) := by
  simp only [runPass, yields_bind, yields_note, yields_pure, runBody]
  constructor
  · rintro ⟨_, _, rfl, s, u₁, hstart, st, u₂, ⟨_, _, rfl, hrun⟩, _, _, rfl, r, u₃, hfinish, rfl, rfl⟩
    exact ⟨s, u₁, st, u₂, r, hstart, hrun, hfinish, rfl⟩
  · rintro ⟨s, u₁, st, u₂, r, hstart, hrun, hfinish, rfl⟩
    exact ⟨(), _, rfl, s, u₁, hstart, st, u₂, ⟨(), _, rfl, hrun⟩, (), _, rfl, r, u', hfinish, rfl, rfl⟩

/-- A check succeeds on well-formed graphs, and changes nothing. -/
theorem yields_check {name : String} {a : Unit} :
    (check name).Yields u a u' ↔ u.graph.violations = .ok [] ∧ u' = u := by
  simp only [check, yields_bind, yields_get, yields_ofChecked]
  constructor
  · rintro ⟨_, _, ⟨rfl, rfl⟩, vs, _, ⟨hvs, rfl⟩, h⟩
    split at h
    · exact ⟨hvs, (yields_pure.1 h).2⟩
    · exact absurd h not_yields_fail
  · rintro ⟨hvs, rfl⟩
    exact ⟨u', u', ⟨rfl, rfl⟩, [], u', ⟨hvs, rfl⟩, yields_pure.2 ⟨rfl, rfl⟩⟩

/-- What is left of a unit after a pass that may have changed the graph: the analyses it preserves. -/
def settle (p : Pass) (changed : Bool) (u : CompUnit) : CompUnit :=
  if changed then { u with analyses := u.analyses.invalidate p.preserved } else u

/-- Settling after a pass leaves the graph. -/
theorem graph_settle (p : Pass) (changed : Bool) (u : CompUnit) : (settle p changed u).graph = u.graph := by
  cases changed <;> rfl

/-- After a pass that changed the graph, analyses are dropped and the graph is checked. -/
theorem yields_settle {verify changed : Bool} {p : Pass} {a : Unit} :
    (if changed then do
        modifyAnalyses (·.invalidate p.preserved)
        if verify then check p.name
      else return () : Work Unit).Yields u a u' ↔
    u' = settle p changed u ∧ (changed = true → verify = true → u'.graph.violations = .ok []) := by
  cases changed with
  | false => simp [yields_pure, settle]
  | true =>
    rw [if_pos rfl, yields_bind]
    cases verify with
    | false => simp [yields_modifyAnalyses, yields_pure, settle]
    | true =>
      simp only [yields_modifyAnalyses, exists_eq_left, exists_const, if_true, yields_check, settle,
        forall_const, and_comm]
      constructor
      · rintro ⟨rfl, hv⟩
        exact ⟨rfl, hv⟩
      · rintro ⟨rfl, hv⟩
        exact ⟨rfl, hv⟩

/-- A pass is skipped, or it runs and what it changed is checked if the manager verifies. -/
theorem yields_runGated_iff {verify : Bool} {p : Pass} {a : Unit} :
    (runGated verify place p).Yields u a u' ↔
      (p.gate u = false ∧
        u' = { u with journal := ⟨place, .gate (p.gate u) u.analyses.available⟩ :: u.journal }) ∨
      (p.gate u = true ∧ ∃ changed u₁, (runPass place p).Yields
          { u with journal := ⟨place, .gate (p.gate u) u.analyses.available⟩ :: u.journal } changed u₁ ∧
        u' = settle p changed u₁ ∧
        (changed = true → verify = true → u'.graph.violations = .ok [])) := by
  simp only [runGated, yields_bind, yields_get, yields_note]
  constructor
  · rintro ⟨_, _, ⟨rfl, rfl⟩, _, _, rfl, h⟩
    split at h
    · next hgate =>
      obtain ⟨changed, u₁, hpass, h⟩ := yields_bind.1 h
      exact .inr ⟨hgate, changed, u₁, hpass, yields_settle.1 h⟩
    · next hgate => exact .inl ⟨Bool.eq_false_iff.2 hgate, (yields_pure.1 h).2⟩
  · rintro (⟨hgate, rfl⟩ | ⟨hgate, changed, u₁, hpass, h⟩)
    · refine ⟨u, u, ⟨rfl, rfl⟩, (), _, rfl, ?_⟩
      rw [if_neg (Bool.eq_false_iff.1 hgate)]
      exact yields_pure.2 ⟨rfl, rfl⟩
    · refine ⟨u, u, ⟨rfl, rfl⟩, (), _, rfl, ?_⟩
      rw [if_pos hgate]
      exact yields_bind.2 ⟨changed, u₁, hpass, yields_settle.2 h⟩

/-- A pass whose gate is open. -/
theorem yields_runGated {verify : Bool} {p : Pass} {a : Unit} (hgate : p.gate u = true)
    (h : (runGated verify place p).Yields u a u') :
    ∃ changed u₁, (runPass place p).Yields
        { u with journal := ⟨place, .gate (p.gate u) u.analyses.available⟩ :: u.journal } changed u₁ ∧
      u'.graph = u₁.graph ∧ (changed = false → u' = u₁) := by
  obtain ⟨hclosed, -⟩ | ⟨-, changed, u₁, hpass, rfl, -⟩ := yields_runGated_iff.1 h
  · rw [hgate] at hclosed
    cases hclosed
  · exact ⟨changed, u₁, hpass, graph_settle p changed u₁, fun hchanged => by rw [hchanged]; rfl⟩

/-- A pass whose gate is open, run by a manager that does not verify. -/
theorem yields_runGated_unverified {p : Pass} {changed : Bool} {u₁ : CompUnit} (hgate : p.gate u = true)
    (h : (runPass place p).Yields
      { u with journal := ⟨place, .gate (p.gate u) u.analyses.available⟩ :: u.journal } changed u₁) :
    (runGated false place p).Yields u ()
      (if changed then { u₁ with analyses := u₁.analyses.invalidate p.preserved } else u₁) :=
  yields_runGated_iff.2 (.inr ⟨hgate, changed, u₁, h, rfl, fun _ hverify => nomatch hverify⟩)

/-- Passes run one after the other. -/
theorem yields_runFrom_cons {verify : Bool} {p : Pass} {ps : List Pass} {a : Unit} :
    (runFrom verify place (p :: ps)).Yields u a u' ↔
      ∃ u₁, (runGated verify place p).Yields u () u₁ ∧ (runFrom verify (place + 1) ps).Yields u₁ a u' := by
  rw [runFrom, yields_bind]
  constructor
  · rintro ⟨_, u₁, h, h'⟩
    exact ⟨u₁, h, h'⟩
  · rintro ⟨u₁, h, h'⟩
    exact ⟨(), u₁, h, h'⟩

end Manager

/-! ## Effects first, then loads and stores -/

namespace SideEffects

open Work Manager

variable {g : Graph} {settings : Settings} {verify : Bool} {u : CompUnit}

/-- The worker of the pass adds one block to the summary. -/
theorem yields_worker {s : EffectSummary} {b : BlockId} {r : EffectSummary × Bool} {u' : CompUnit}
    (h : (worker s b).Yields u r u') : s.addBlock u.graph b = .ok r.1 ∧ r.2 = false ∧ u' = u := by
  simp only [worker, yields_bind, yields_get, yields_ofChecked, yields_pure] at h
  obtain ⟨_, _, ⟨rfl, rfl⟩, s', _, ⟨hadd, rfl⟩, rfl, rfl⟩ := h
  exact ⟨hadd, rfl, rfl⟩

/-- The pass publishes the summary of the graph, together with the dominator tree. -/
theorem yields_pass {place : Nat} (h : (runGated verify place pass).Yields (.new g settings) () u) :
    ∃ t s, DomTree.ofGraph g = .ok t ∧
      t.rpo.foldlM (EffectSummary.addBlock g) (.start (LoopForest.ofGraph g t)) = .ok s ∧
      u.graph = g ∧ u.analyses.dominators = some t ∧ u.analyses.sideEffects = some (s.finish g) := by
  obtain ⟨changed, u', hpass, -, hsame⟩ := yields_runGated rfl h
  obtain ⟨s₀, u₁, t, u₂, st, u₃, r, hstart, hdoms, hfold, hfinish, rfl⟩ := yields_runPass hpass
  simp only [start, yields_bind, yields_pure] at hstart
  obtain ⟨f, _, hloops, rfl, rfl⟩ := hstart
  obtain ⟨t', ht', rfl, rfl⟩ := yields_loops rfl hloops
  rw [yields_dominators] at hdoms
  rcases hdoms with ⟨⟨⟩, rfl⟩ | ⟨⟨⟩, -⟩
  have hworker : ∀ s b u r u', u.graph = g →
      u.analyses = ⟨some t, some (LoopForest.ofGraph g t), none, none⟩ → (worker s b).Yields u r u' →
      EffectSummary.addBlock g s b = .ok r.1 ∧ r.2 = false ∧ u' = u :=
    fun s b u r u' hg _ hworker => hg ▸ yields_worker hworker
  obtain ⟨hsummary, hunchanged, hg, ha⟩ := foldlM_of_yields hworker hfold rfl rfl
  simp only [finish, yields_bind, yields_get, yields_modifyAnalyses, yields_pure] at hfinish
  obtain ⟨_, _, ⟨rfl, rfl⟩, _, _, rfl, rfl, rfl⟩ := hfinish
  rw [hsame (by rw [hunchanged]; rfl)]
  exact ⟨t, st.1, ht', hsummary, hg, congrArg Analyses.dominators ha, by rw [hg]⟩

end SideEffects

namespace LoadStore

open Work Manager

variable {g : Graph} {settings : Settings} {verify : Bool} {u : CompUnit}

/-- One visit of load/store elimination is a visit of its block with the tree and the summary that were
published. -/
theorem yields_worker {s : State} {b : BlockId} {r : State × Bool} {u' : CompUnit} {t : DomTree}
    {summary : EffectSummary} (ht : u.analyses.dominators = some t)
    (hs : u.analyses.sideEffects = some summary) (h : (worker s b).Yields u r u') :
    visitBlock u.graph t summary s b = .ok r.1 ∧ r.2 = false ∧ u' = u := by
  simp only [worker, yields_bind, yields_get] at h
  obtain ⟨_, _, ⟨rfl, rfl⟩, h⟩ := h
  rw [hs, ht] at h
  simp only [yields_bind, yields_ofChecked, yields_pure] at h
  obtain ⟨s', _, ⟨hvisit, rfl⟩, rfl, rfl⟩ := h
  exact ⟨hvisit, rfl, rfl⟩

/-- The pass runs only where effects are known. -/
theorem exists_summary_of_gate (hgate : pass.gate u = true) :
    ∃ summary, u.analyses.sideEffects = some summary := by
  cases hs : u.analyses.sideEffects with
  | none => simp [pass, hs] at hgate
  | some summary => exact ⟨summary, rfl⟩

/-- Blocks are visited one after the other; of the unit, only the journal changes. -/
theorem yields_visits {place : Nat} {bs : List BlockId} {st r : State × Bool} {u' : CompUnit} {t : DomTree}
    {summary : EffectSummary} (h : (bs.foldlM (runWorker place worker) st).Yields u r u')
    (ht : u.analyses.dominators = some t) (hs : u.analyses.sideEffects = some summary) :
    bs.foldlM (visitBlock u.graph t summary) st.1 = .ok r.1 ∧
      ∃ journal, u' = { u with journal := journal } := by
  obtain ⟨hvisits, -, hjournal⟩ := foldlM_runWorker (I := fun v => v.graph = u.graph ∧ v.analyses = u.analyses)
    (fun _ _ hv => hv) (fun s b v r v' hv hw => hv.1 ▸ yields_worker (hv.2 ▸ ht) (hv.2 ▸ hs) hw) h ⟨rfl, rfl⟩
  exact ⟨hvisits, hjournal⟩

/-- The pass visits the blocks and changes the graph accordingly. -/
theorem yields_pass {place : Nat} {u₀ : CompUnit} {t : DomTree} {summary : EffectSummary}
    (hg : u₀.graph = g) (ht : u₀.analyses.dominators = some t)
    (hs : u₀.analyses.sideEffects = some summary) (hcomplete : summary.isComplete = true)
    (h : (runGated verify place pass).Yields u₀ () u) :
    ∃ hasMonitors last, (CompUnit.new g .default).hasMonitors = .ok hasMonitors ∧
      t.preorder.foldlM (visitBlock g t summary)
        { State.empty with escapes := escapesOf g, hasMonitors := hasMonitors } = .ok last ∧
      applyTo last g = .ok u.graph := by
  subst hg
  have hgate : pass.gate u₀ = true := by simp [pass, hs, hcomplete]
  obtain ⟨changed, u', hpass, hgraph, -⟩ := yields_runGated hgate h
  obtain ⟨s₀, u₁, t', u₂, st, u₃, r, hstart, hdoms, hfold, hfinish, rfl⟩ := yields_runPass hpass
  simp only [start, yields_bind, yields_get, yields_ofChecked, yields_pure] at hstart
  obtain ⟨_, _, ⟨rfl, rfl⟩, hasMonitors, _, ⟨hmon, rfl⟩, t'', _, hdoms', rfl, rfl⟩ := hstart
  rw [yields_dominators] at hdoms'
  rcases hdoms' with ⟨-, rfl⟩ | ⟨hnone, -⟩
  rotate_left
  · rw [ht] at hnone
    cases hnone
  rw [yields_dominators] at hdoms
  rcases hdoms with ⟨ht', rfl⟩ | ⟨hnone, -⟩
  rotate_left
  · rw [ht] at hnone
    cases hnone
  obtain rfl : t' = t := Option.some.inj (ht'.symm.trans ht)
  obtain ⟨hvisits, journal, rfl⟩ := yields_visits hfold ht hs
  simp only [finish, yields_bind, yields_get, yields_ofChecked, yields_setGraph, yields_record,
    yields_pure] at hfinish
  obtain ⟨_, _, ⟨rfl, rfl⟩, g', _, ⟨happly, rfl⟩, _, _, rfl, _, _, ⟨stats, -, rfl⟩, _, _, ⟨stats', -, rfl⟩,
    rfl, rfl⟩ := hfinish
  refine ⟨hasMonitors, st.1, hmon, hvisits, ?_⟩
  rw [hgraph]
  exact happly

/-- What the pass comes to on a graph, the effects having been summarized before. -/
def outcome (g : Graph) : Checked State := do
  let t ← DomTree.ofGraph g
  let summary ← t.rpo.foldlM (EffectSummary.addBlock g) (.start (LoopForest.ofGraph g t))
  let hasMonitors ← (CompUnit.new g .default).hasMonitors
  t.preorder.foldlM (visitBlock g t (summary.finish g))
    { State.empty with escapes := escapesOf g, hasMonitors := hasMonitors }

/-- Running both passes changes the graph as the outcome says. -/
theorem exists_outcome (h : (runAll verify [SideEffects.pass, pass]).Yields (.new g settings) () u) :
    ∃ last, outcome g = .ok last ∧ applyTo last g = .ok u.graph := by
  obtain ⟨u₁, h₁, h⟩ := yields_runFrom_cons.1 h
  obtain ⟨u₂, h₂, h⟩ := yields_runFrom_cons.1 h
  obtain ⟨-, rfl⟩ := yields_pure.1 h
  obtain ⟨t, summary, ht, hsummary, hg, hdoms, hside⟩ := SideEffects.yields_pass h₁
  obtain ⟨hasMonitors, last, hmon, hvisits, happly⟩ := yields_pass hg hdoms hside rfl h₂
  refine ⟨last, ?_, happly⟩
  simp only [outcome, Checked.bind_eq_ok]
  exact ⟨t, ht, summary, hsummary, hasMonitors, hmon, hvisits⟩

end LoadStore

end Midend
