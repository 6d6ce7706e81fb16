import Midend.Proofs.SettledKnowledge

/-!
# Facts that are carried along a run

A property of entries that the executed instructions keep, as far as the pass keeps the entries, holds of
everything the pass knows at the point where a run is.

## Shape of the argument

Two things are shown together, state by state: the entries known at the present point have the property,
and so have the entries known at the header of every loop around the point.  The second part is what a
back edge needs, since a header does not look at what comes back to it.  The header has forgotten all
that the loop may write, so no instruction of the loop spoils its entries.
-/

namespace Midend

namespace LoadStore

open Midend.Graph

variable {g : Graph} {t : DomTree} {summary : EffectSummary} {hasMonitors : Bool} {last : State}
  {s s' : RunState Memory} {b p : BlockId} {l : Location} {known : Known} {i x v : InstId}

/-- Above a dominated block is what is above the dominating one. -/
theorem settledEntry_of_dom (h : SettledEntry g p 0 l known) (hdom : g.Dom p b) :
    SettledEntry g b 0 l known := by
  have hsettled : ∀ {x : InstId}, g.Settled p 0 x → g.Settled b 0 x := by
    rintro x ⟨d, m, hat, ⟨-, hm⟩ | hd⟩
    · omega
    · exact ⟨d, m, hat, .inr ⟨hd.1.trans hdom, fun hdb => hd.2 (hd.1.antisymm (hdb ▸ hdom))⟩⟩
  exact ⟨fun x hx => hsettled (h.1 x hx), hsettled h.2.1, fun S hS => hsettled (h.2.2 S hS)⟩

section Carried

variable (g t summary hasMonitors last)

/-- A property of entries holds of all that is known at a point. -/
def AllAt (P : Location → InstId → Prop) (b : BlockId) (n : Nat) : Prop :=
  ∀ done st k, On g t summary hasMonitors last (.inside done b n st k) → ∀ l known, (l, known) ∈ k →
    P l known.value

/-- A property of entries that runs preserve, given another property of their states. -/
structure Carried (Q : RunState Memory → Prop) (P : RunState Memory → Location → InstId → Prop) : Prop where
  start : ∀ m, m.Initial → Q ⟨g.entry, 0, fun _ => none, m⟩
  step : ∀ s e s', Run g (memorySemantics g) Memory.Initial s → Step g (memorySemantics g) s e s' → Q s →
    AllAt g t summary hasMonitors last (P s) s.block s.pos → Q s'
  /-- An instruction, for what is known after it. -/
  visited : ∀ s s' i args inst throws done st k st', Run g (memorySemantics g) Memory.Initial s →
    Step g (memorySemantics g) s (.exec i args) s' → Q s → g.inst i = .ok inst →
    On g t summary hasMonitors last (.inside done s.block s.pos st k) →
    Visited g summary (st.beforeThrow k throws) k i inst throws st' →
    (∀ l known, (l, known) ∈ k → P s l known.value) → ∀ l known, (l, known) ∈ st'.2 →
    P s' l known.value
  /-- An instruction of a loop, for what the header knows. -/
  looping : ∀ s s' i args l known, Run g (memorySemantics g) Memory.Initial s →
    Step g (memorySemantics g) s (.exec i args) s' → SettledEntry g s.block 0 l known →
    (summary.ofInst i).mayWrite (l.category g) = false → P s l known.value → P s' l known.value
  /-- An edge. -/
  goto : ∀ s s' p b l known, Run g (memorySemantics g) Memory.Initial s →
    Step g (memorySemantics g) s (.goto p b) s' → SettledEntry g b 0 l known → P s l known.value →
    P s' l known.value

end Carried

section WellFormed

variable {Q : RunState Memory → Prop} {P : RunState Memory → Location → InstId → Prop}
variable (hg : g.Consistent) (ht : Trace g t summary hasMonitors last)
include hg ht

/-- What is known where a block starts has a property if a forward predecessor's end has it. -/
theorem allAt_start_of_forward {block : Block} {P : Location → InstId → Prop} (hp : g.Reachable p)
    (hb : g.block p = .ok block) (hedge : b ∈ g.succs p) (hfwd : ¬ g.Dom b p)
    (h : AllAt g t summary hasMonitors last P p block.insts.length) :
    AllAt g t summary hasMonitors last P b 0 := by
  intro done st k hon l known hmem
  obtain ⟨s₀, hbetween, -, rfl⟩ := hon.enter_inv
  obtain ⟨-, hall, -⟩ := mem_enter hmem
  have hforward : p ∈ forwardPreds g t summary.loops b := by
    rw [ht.summarizes.loops]
    exact (mem_forwardPreds hg ht.tree).2 ⟨hp, hedge, hfwd⟩
  obtain ⟨k, x, hexit, hx, hvalue, -⟩ := hall p hforward
  obtain ⟨-, done', s', block', hb', hon'⟩ := hbetween.exits.2 p k hexit
  rw [hb] at hb'
  cases hb'
  exact hvalue ▸ h done' s' k hon' l x hx

/-- A header knows nothing of what its loop may write. -/
theorem mayWrite_eq_false_of_header {done : List BlockId} {st : State} {k : Knowledge} {block : Block}
    (hon : On g t summary hasMonitors last (.inside done p 0 st k)) (hmem : (l, known) ∈ k)
    (hloop : g.InLoop p b) (hb : g.block b = .ok block) (hi : i ∈ block.insts) :
    (summary.ofInst i).mayWrite (l.category g) = false := by
  obtain ⟨s₀, -, -, rfl⟩ := hon.enter_inv
  obtain ⟨-, -, hheader⟩ := mem_enter hmem
  have hisHeader : summary.loops.isHeader p = true := by
    obtain ⟨-, latch, hback, -⟩ := hloop
    obtain ⟨n, loop, hn, -⟩ := LoopForest.isHeader_of_backEdge hg ht.tree hback
    rw [ht.summarizes.loops, LoopForest.isHeader, hn]
    rfl
  rw [Bool.eq_false_iff]
  intro hwrite
  have hwrite' := ht.summarizes.headers p b block i _ hloop hb (List.mem_append_right _ hi) hwrite
  rw [hheader hisHeader] at hwrite'
  cases hwrite'

variable (hw : g.WellFormed) (hl : g.Layout)
include hw hl

/-- A property that runs preserve holds of what is known where a run is, and of what the headers of the
loops around it know. -/
theorem Carried.run (hP : Carried g t summary hasMonitors last Q P)
    (h : Run g (memorySemantics g) Memory.Initial s) :
    Q s ∧ AllAt g t summary hasMonitors last (P s) s.block s.pos ∧
      ∀ header, g.InLoop header s.block → AllAt g t summary hasMonitors last (P s) header 0 := by
  induction h with
  | @start m hm =>
    have hentry : AllAt g t summary hasMonitors last (P ⟨g.entry, 0, fun _ => none, m⟩) g.entry 0 := by
      intro done st k hon l known hmem
      obtain ⟨s₀, -, -, rfl⟩ := hon.enter_inv
      obtain ⟨hne, -, -⟩ := mem_enter hmem
      -- nothing flows into the entry, so nothing is known where it starts
      obtain ⟨block, hblock, hpreds⟩ := hw.entry
      rw [forwardPreds, preds_eq hblock, hpreds] at hne
      exact absurd rfl hne
    refine ⟨hP.start m hm, hentry, fun header hloop => ?_⟩
    rw [hloop.dom.eq_entry]
    exact hentry
  | @step s s' e hrun hstep ih =>
    obtain ⟨hQ, hhere, hloops⟩ := ih
    refine ⟨hP.step s e s' hrun hstep hQ hhere, ?_⟩
    have hstep' := hstep
    cases hstep with
    | @exec block i inst args v mem hb hi hinst hargs hexec =>
      refine ⟨?_, fun header hloop => ?_⟩
      · intro done st' k' hon l known hmem
        obtain ⟨st, k, inst', throws, hon', hinst', -, hvisited⟩ := hon.visited hb hi
        exact hP.visited s _ i args inst' throws done st k _ hrun hstep' hQ hinst' hon' hvisited
          (hhere done st k hon') l known hmem
      · intro done st k hon l known hmem
        have hsettled := (hon.grounded hw hg hl ht).start done header st k l known rfl hmem
        exact hP.looping s _ i args l known hrun hstep' (settledEntry_of_dom hsettled hloop.dom)
          (mayWrite_eq_false_of_header hg ht hon hmem hloop hb (List.mem_of_getElem? hi))
          (hloops header hloop done st k hon l known hmem)
    | @goto block target b n hb hpos hsucc htarget hn hphi =>
      have hedge : b ∈ g.succs s.block := succs_eq hb ▸ hsucc
      -- what some block at or above the target knows at its start
      have hmove : ∀ h, g.Dom h b → AllAt g t summary hasMonitors last (P s) h 0 → AllAt g t summary
          hasMonitors last (P ⟨b, 0, fun i => if i ∈ target.phis then g.phiValue s.env n i else s.env i,
            s.mem⟩) h 0 := by
        intro h hdom hall done st k hon l known hmem
        have hsettled := (hon.grounded hw hg hl ht).start done h st k l known rfl hmem
        exact hP.goto s _ s.block b l known hrun hstep' (settledEntry_of_dom hsettled hdom)
          (hall done st k hon l known hmem)
      have hreach : g.Reachable b := hrun.reachable.succ hedge
      -- a back edge leads to a header whose loop the run is in; any other edge is one of those merged
      have hstart : AllAt g t summary hasMonitors last (P s) b 0 := by
        by_cases hdom : g.Dom b s.block
        · exact hloops b (BackEdge.inLoop ⟨hedge, hdom⟩)
        · exact allAt_start_of_forward hg ht hrun.reachable hb hedge hdom (hpos ▸ hhere)
      refine ⟨hmove b (.refl hreach) hstart, fun header hloop => ?_⟩
      by_cases hheader : b = header
      · exact hheader ▸ hmove b (.refl hreach) hstart
      · exact hmove header hloop.dom (hloops header (hloop.pred hheader hrun.reachable hedge))

end WellFormed

end LoadStore

end Midend
