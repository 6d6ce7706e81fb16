import Mathlib.Data.Set.Card
import Midend.Proofs.Totality
import Midend.Proofs.Trimming

/-!
# What dead code elimination removes

The dead instructions of a graph are the least set of instructions that nothing outside of the set uses, and
that neither end a block, nor are parameters, nor throw, nor write memory.  The sweeps remove this set and
nothing else, and they need at most two sweeps more than the set has phis.

## Shape of the argument

A run is followed with the list of what is gone so far.  On the graph it started from, an instruction may go
next when it is idle and all its users are gone, so one sweep is a walk over a fixed order (`Prunes`), of
which the edits of the graph are a copy (`Purged`).

The order puts the user of a value before the value, unless the user is a phi: the operand of any other
instruction stands above it in its block, or in a block that strictly dominates it.  So what may still go
after a sweep has become so by the removal of a phi in that sweep.  A sweep that removes no phi leaves nothing
that may go, and the next sweep finds that out.
-/

namespace Midend

namespace Graph

variable {g : Graph} {gone added xs ys : List InstId} {i : InstId}

/-! ## Dead instructions -/

/-- An instruction of a reachable block that does not end the block, is not a parameter, cannot throw and
writes no memory: it is no store, and nothing that cannot be seen through. -/
def Idle (g : Graph) (i : InstId) : Prop :=
  ∃ b inst, g.Reachable b ∧ i ∈ g.bodyOf b ∧ g.inst i = .ok inst ∧ inst.kind.isTerminator = false ∧
    inst.kind.isParam = false ∧ inst.kind.canThrow = false ∧ inst.kind.isStore = false ∧
    g.isOpen inst.kind = false

/-- The least set of idle instructions all whose users are in the set. -/
inductive Dead (g : Graph) : InstId → Prop
  | intro {i : InstId} : g.Idle i → (∀ u ∈ g.uses i, Dead g u.user) → Dead g i

theorem Idle.mem_attached (h : g.Idle i) : i ∈ g.attached := by
  obtain ⟨b, inst, -, hi, -⟩ := h
  obtain ⟨block, hblock, hi⟩ := mem_bodyOf.1 hi
  exact Graph.mem_attached.2 ⟨b, block, hblock, hi⟩

theorem Dead.idle (h : g.Dead i) : g.Idle i := by
  cases h with
  | intro hidle _ => exact hidle

/-- There are finitely many dead instructions. -/
theorem finite_dead : {i | g.Dead i}.Finite :=
  g.attached.finite_toSet.subset fun _ hi => (Dead.idle hi).mem_attached

/-! ## One walk over an order -/

/-- An instruction may go next when it is idle and all its users are gone. -/
structure Ready (g : Graph) (gone : List InstId) (i : InstId) : Prop where
  idle : g.Idle i
  stays : i ∉ gone
  users : ∀ u ∈ g.uses i, u.user ∈ gone

/-- Going over instructions in order, taking each one that may go. -/
inductive Prunes (g : Graph) : (gone order added : List InstId) → Prop
  | nil {gone : List InstId} : Prunes g gone [] []
  | take {gone xs added : List InstId} {i : InstId} : g.Ready gone i → Prunes g (gone ++ [i]) xs added →
    Prunes g gone (i :: xs) (i :: added)
  | skip {gone xs added : List InstId} {i : InstId} : ¬ g.Ready gone i → Prunes g gone xs added →
    Prunes g gone (i :: xs) added

/-- A sweep over more instructions goes on where the first part ended. -/
theorem Prunes.append {more : List InstId} (h : Prunes g gone xs added)
    (h' : Prunes g (gone ++ added) ys more) : Prunes g gone (xs ++ ys) (added ++ more) := by
  induction h with
  | nil => simpa using h'
  | take hready _ ih => exact .take hready (ih (by simpa using h'))
  | skip hready _ ih => exact .skip hready (ih h')

/-- What is gone already is passed over. -/
theorem Prunes.of_filter {before : List InstId} (hbefore : before ⊆ gone)
    (h : Prunes g gone (xs.filter (· ∉ before)) added) : Prunes g gone xs added := by
  induction xs generalizing gone added with
  | nil => exact h
  | cons i xs ih =>
    by_cases hi : i ∈ before
    · rw [List.filter_cons_of_neg (by simpa using hi)] at h
      exact .skip (fun hready => hready.stays (hbefore hi)) (ih hbefore h)
    · rw [List.filter_cons_of_pos (by simpa using hi)] at h
      cases h with
      | take hready h => exact .take hready (ih (fun j hj => List.mem_append_left _ (hbefore hj)) h)
      | skip hready h => exact .skip hready (ih hbefore h)

theorem Prunes.mem (h : Prunes g gone xs added) (hi : i ∈ added) : i ∈ xs := by
  induction h with
  | nil => exact hi
  | take _ _ ih =>
    rcases List.mem_cons.1 hi with rfl | hi
    · exact List.mem_cons_self
    · exact List.mem_cons_of_mem _ (ih hi)
  | skip _ _ ih => exact List.mem_cons_of_mem _ (ih hi)

/-- With nothing that may go, nothing goes. -/
theorem Prunes.eq_nil (h : Prunes g gone xs added) (hquiet : ∀ i, ¬ g.Ready gone i) : added = [] := by
  induction h with
  | nil => rfl
  | take hready _ _ => exact absurd hready (hquiet _)
  | skip _ _ ih => exact ih hquiet

/-- What may go after a walk that went over it became so by the removal of a user that comes later. -/
theorem Prunes.exists_later_user (h : Prunes g gone xs added) (hi : i ∈ xs)
    (hready : g.Ready (gone ++ added) i) :
    ∃ l r, xs = l ++ i :: r ∧ ∃ u ∈ g.uses i, u.user ∈ r ∧ u.user ∈ added := by
  induction h with
  | nil => cases hi
  | @take gone xs added j _ _ ih =>
    have hne : i ≠ j := by
      rintro rfl
      exact hready.stays (by simp)
    obtain ⟨l, r, rfl, u, hu, hlater, hadded⟩ := ih ((List.mem_cons.1 hi).resolve_left hne)
      (by simpa using hready)
    exact ⟨j :: l, r, rfl, u, hu, hlater, List.mem_cons_of_mem _ hadded⟩
  | @skip gone xs added j hnot h ih =>
    by_cases hij : i = j
    · subst hij
      -- it stayed because a user was there, and that user has gone since
      obtain ⟨u, hu, hmissing⟩ : ∃ u ∈ g.uses i, u.user ∉ gone := by
        by_contra hall
        push Not at hall
        exact hnot ⟨hready.idle, fun hmem => hready.stays (List.mem_append_left _ hmem), hall⟩
      have hadded := (List.mem_append.1 (hready.users u hu)).resolve_left hmissing
      exact ⟨[], xs, rfl, u, hu, h.mem hadded, hadded⟩
    · obtain ⟨l, r, rfl, u, hu, hlater, hadded⟩ := ih ((List.mem_cons.1 hi).resolve_left hij) hready
      exact ⟨j :: l, r, rfl, u, hu, hlater, hadded⟩

/-- Once nothing may go, everything dead is gone. -/
theorem Dead.mem_of_quiet (h : g.Dead i) (hquiet : ∀ i, ¬ g.Ready gone i) : i ∈ gone := by
  induction h with
  | intro hidle _ ih =>
    by_contra hstays
    exact hquiet _ ⟨hidle, hstays, ih⟩

/-! ## The order of a sweep -/

/-- The instructions of some blocks, each block from its end. -/
def sweepOrder (g : Graph) (bs : List BlockId) : List InstId := bs.flatMap fun b => (g.bodyOf b).reverse

theorem mem_sweepOrder {bs : List BlockId} : i ∈ g.sweepOrder bs ↔ ∃ b ∈ bs, i ∈ g.bodyOf b := by
  simp [sweepOrder]

section Order

variable {t : DomTree} (hi : g.Intact) (ht : DomTree.ofGraph g = .ok t)
include hi ht

/-- In the order of a sweep nothing is settled where a later instruction stands. -/
theorem pairwise_sweepOrder : (g.sweepOrder t.postorder).Pairwise fun x y =>
    ∀ b n, g.At y b n → ¬ g.Settled b n x := by
  rw [sweepOrder, List.pairwise_flatMap]
  constructor
  · intro b _
    rw [List.pairwise_reverse, List.pairwise_iff_getElem]
    rintro m n hm hn hmn c k hat ⟨d, k', hat', hpos⟩
    have hy := at_iff.2 (List.getElem?_eq_getElem hm)
    have hx := at_iff.2 (List.getElem?_eq_getElem hn)
    obtain ⟨rfl, rfl⟩ := hi.at_unique hy hat
    obtain ⟨rfl, rfl⟩ := hi.at_unique hx hat'
    rcases hpos with ⟨-, hlt⟩ | hdom
    · omega
    · exact hdom.2 rfl
  · rw [DomTree.postorder, List.pairwise_reverse]
    refine ((DomTree.pairwise_rpo ht).and (DomTree.nodup_rpo ht)).imp ?_
    rintro a b ⟨hdom, hne⟩ x hx y hy c k hat ⟨d, k', hat', hpos⟩
    obtain ⟨m, hm⟩ := List.mem_iff_getElem?.1 (List.mem_reverse.1 hx)
    obtain ⟨n, hn⟩ := List.mem_iff_getElem?.1 (List.mem_reverse.1 hy)
    obtain ⟨rfl, -⟩ := hi.at_unique (at_iff.2 hn) hat
    obtain ⟨rfl, -⟩ := hi.at_unique (at_iff.2 hm) hat'
    rcases hpos with ⟨heq, -⟩ | hsdom
    · exact hne heq.symm
    · exact hdom hsdom

/-- A sweep that removes no phi leaves nothing that may go. -/
theorem Prunes.quiet (hw : g.WellFormed) (h : Prunes g gone (g.sweepOrder t.postorder) added)
    (hphi : ∀ i ∈ added, g.kind? i ≠ some .phi) (i : InstId) : ¬ g.Ready (gone ++ added) i := by
  intro hready
  have hreach : ∀ b ∈ t.postorder, g.Reachable b := fun b hb => by
    rwa [DomTree.postorder, List.mem_reverse, DomTree.mem_rpo hi.consistent ht] at hb
  obtain ⟨b, inst, hb, hmem, -⟩ := hready.idle
  have horder : i ∈ g.sweepOrder t.postorder := mem_sweepOrder.2 ⟨b, by
    rwa [DomTree.postorder, List.mem_reverse, DomTree.mem_rpo hi.consistent ht], hmem⟩
  obtain ⟨l, r, hsplit, u, hu, hlater, hadded⟩ := h.exists_later_user horder hready
  obtain ⟨c, hc, huser⟩ := mem_sweepOrder.1 (h.mem hadded)
  obtain ⟨n, hn⟩ := List.mem_iff_getElem?.1 huser
  -- the user is no phi, so it stands below what it uses
  have hphis : ∀ block, g.block c = .ok block → u.user ∉ block.phis := fun block hblock hmem =>
    hphi _ hadded (hi.phis c _ (mem_phisOf.2 ⟨block, hblock, hmem⟩))
  obtain ⟨-, user, hinst, hget⟩ := hw.use i u hready.idle.mem_attached hu
  have hsettled := hw.settled_operand_at hi.consistent (hreach c hc) (at_iff.2 hn) hphis hinst hget
  have hpairs := pairwise_sweepOrder hi ht
  rw [hsplit] at hpairs
  exact (List.pairwise_cons.1 (List.pairwise_append.1 hpairs).2.1).1 u.user hlater c n (at_iff.2 hn) hsettled

end Order

/-! ## Phis -/

/-- How many phis are among some instructions. -/
def phiCount (g : Graph) (xs : List InstId) : Nat := xs.countP fun i => g.kind? i = some .phi

/-- The dead phis. -/
def deadPhis (g : Graph) : Set InstId := {i | g.Dead i ∧ g.kind? i = some .phi}

theorem phiCount_append : g.phiCount (xs ++ ys) = g.phiCount xs + g.phiCount ys := List.countP_append

/-- A phi among some instructions is counted. -/
theorem phiCount_pos (hi : i ∈ xs) (hphi : g.kind? i = some .phi) : 0 < g.phiCount xs :=
  List.countP_pos_iff.2 ⟨i, hi, by simpa using hphi⟩

/-- No more phis are counted than there are dead ones. -/
theorem phiCount_le (hnodup : xs.Nodup) (hdead : ∀ i ∈ xs, g.Dead i) : g.phiCount xs ≤ g.deadPhis.ncard := by
  have hsub : ((xs.filter fun i => g.kind? i = some .phi).toFinset : Set InstId) ⊆ g.deadPhis := by
    intro i hi
    simp only [List.coe_toFinset, Set.mem_ofPred_eq, List.mem_filter, decide_eq_true_eq] at hi
    exact ⟨hdead i hi.1, hi.2⟩
  have hle := Set.ncard_le_ncard hsub (finite_dead.subset fun _ hi => hi.1)
  rwa [Set.ncard_coe_finset, List.toFinset_card_of_nodup (hnodup.filter _), ← List.countP_eq_length_filter]
    at hle

end Graph

/-! ## The run, step by step -/

namespace DeadCode

open Midend.Graph

/-- A graph after dead instructions were removed from another: what is left is as it was, and is used as it
was by what is left. -/
structure Purged (g : Graph) (gone : List InstId) (g₁ : Graph) : Prop where
  cleared : Cleared g gone g₁
  nodup : gone.Nodup
  dead : ∀ i ∈ gone, g.Dead i
  left : ∀ i, i ∉ gone → g₁.inst i = g.inst i
  uses : ∀ x u, u ∈ g₁.uses x ↔ u ∈ g.uses x ∧ u.user ∉ gone
  fields : g₁.fields = g.fields

variable {g g₁ g₂ : Graph} {gone : List InstId} {i : InstId} {b : BlockId} {t : DomTree}

theorem purged_self (hw : g.WellFormed) : Purged g [] g where
  cleared := ⟨hw.rewired, fun c hc => by simp at hc, fun c hc => by simp at hc, .refl g⟩
  nodup := List.nodup_nil
  dead i hi := by simp at hi
  left _ _ := rfl
  uses x u := by simp
  fields := rfl

/-- Nothing uses a value any more when all its users are gone. -/
theorem Purged.hasUses_eq_false (h : Purged g gone g₁) :
    g₁.hasUses i = false ↔ ∀ u ∈ g.uses i, u.user ∈ gone := by
  rw [hasUses, Bool.not_eq_false', List.isEmpty_iff, List.eq_nil_iff_forall_not_mem]
  simp only [h.uses, not_and, not_not]

section Run

variable (hw : g.WellFormed) (hi : g.Intact) (hf : g.FieldsDeclared)
include hw hi hf

omit hi in
/-- What the pass finds dead is what may go next. -/
theorem Purged.isDead (h : Purged g gone g₁) (hb : g.Reachable b) (hmem : i ∈ g.bodyOf b) (hgone : i ∉ gone) :
    ∃ dead, isDead g₁ i = .ok dead ∧ (dead = true ↔ g.Ready gone i) := by
  obtain ⟨block, hblock, hbody⟩ := mem_bodyOf.1 hmem
  have hatt := mem_attached.2 ⟨b, block, hblock, hbody⟩
  obtain ⟨inst, hinst⟩ := hw.exists_inst hatt
  have hinst₁ : g₁.inst i = .ok inst := (h.left i hgone).trans hinst
  have hkind : g₁.kind i = .ok inst.kind := kind_eq_ok.2 ⟨inst, hinst₁, rfl⟩
  have hready : g.Ready gone i → inst.kind.isTerminator = false ∧ inst.kind.isParam = false ∧
      g₁.hasUses i = false ∧ inst.kind.canThrow = false ∧ inst.kind.isStore = false ∧
      g.isOpen inst.kind = false := by
    rintro ⟨⟨_, inst', -, -, hinst', hterminator, hparam, hthrow, hwrite⟩, -, husers⟩
    obtain rfl : inst = inst' := Except.ok.inj (hinst.symm.trans hinst')
    exact ⟨hterminator, hparam, h.hasUses_eq_false.2 husers, hthrow, hwrite⟩
  simp only [DeadCode.isDead, hkind, Checked.bind_eq_ok, Except.ok.injEq, exists_eq_left']
  by_cases hcond : (inst.kind.isTerminator || inst.kind.isParam || g₁.hasUses i || inst.kind.canThrow) = true
  · refine ⟨false, by rw [if_pos hcond]; rfl, ⟨fun hfalse => absurd hfalse Bool.false_ne_true, fun hr => ?_⟩⟩
    obtain ⟨hterminator, hparam, huses, hthrow, -⟩ := hready hr
    simp [hterminator, hparam, huses, hthrow] at hcond
  · obtain ⟨⟨⟨hterminator, hparam⟩, huses⟩, hthrow⟩ :
        ((inst.kind.isTerminator = false ∧ inst.kind.isParam = false) ∧ g₁.hasUses i = false) ∧
          inst.kind.canThrow = false := by
      simpa only [Bool.or_eq_true, not_or, Bool.not_eq_true] using hcond
    obtain ⟨e, he⟩ := exists_effectsOf hinst (fun f => hf.exists_field hatt hinst) fun hk => by
      rw [hk] at hthrow
      cases hthrow
    have he₁ : g₁.effectsOf i = .ok e := (effectsOf_congr hinst hinst₁ rfl h.fields hthrow).trans he
    refine ⟨!e.anyWrite, by rw [if_neg hcond, he₁]; rfl, ?_⟩
    rw [Bool.not_eq_true', anyWrite_effectsOf hinst he, Bool.or_eq_false_iff]
    constructor
    · intro hwrite
      exact ⟨⟨b, inst, hb, hmem, hinst, hterminator, hparam, hthrow, hwrite⟩, hgone, h.hasUses_eq_false.1 huses⟩
    · intro hr
      obtain ⟨-, -, -, -, hwrite⟩ := hready hr
      exact hwrite

/-- One instruction is removed and counted if it may go next, and nothing happens otherwise. -/
theorem Purged.removeIfDead (h : Purged g gone g₁) (hb : g.Reachable b) (hmem : i ∈ g.bodyOf b)
    (hgone : i ∉ gone) (n : Nat) :
    (g.Ready gone i ∧ ∃ g₂, removeIfDead (g₁, n) i = .ok (g₂, n + 1) ∧ Purged g (gone ++ [i]) g₂) ∨
      (¬ g.Ready gone i ∧ removeIfDead (g₁, n) i = .ok (g₁, n)) := by
  obtain ⟨dead, hdead, hiff⟩ := h.isDead hw hf hb hmem hgone
  cases dead with
  | false =>
    refine .inr ⟨fun hr => by simp [hr] at hiff, ?_⟩
    rw [DeadCode.removeIfDead, hdead]
    rfl
  | true =>
    have hready := hiff.1 rfl
    have hatt := hready.idle.mem_attached
    have hunused := (isDead_eq_true hdead).1
    obtain ⟨g₂, hremove, -⟩ := h.cleared.rewired.removeInst hw hatt hgone hunused
    have hstep : DeadCode.removeIfDead (g₁, n) i = .ok (g₂, n + 1) := by
      simp only [DeadCode.removeIfDead, Checked.bind_eq_ok]
      exact ⟨true, hdead, by simp [hremove]⟩
    obtain ⟨-, hcount⟩ | ⟨hcleared, -⟩ := h.cleared.removeIfDead hw hi hatt hgone hstep
    · omega
    have hintact := h.cleared.trimmed.intact hi
    obtain ⟨inst, hinst, -, -, hslots, huses⟩ := hintact.removeInst_spec hremove
    refine .inl ⟨hready, g₂, hstep, hcleared, ?_, ?_, ?_, ?_, ?_⟩
    · rw [List.nodup_append_comm, List.singleton_append]
      exact List.nodup_cons.2 ⟨hgone, h.nodup⟩
    · intro j hj
      rcases List.mem_append.1 hj with hj | hj
      · exact h.dead j hj
      · rw [List.mem_singleton.1 hj]
        exact .intro hready.idle fun u hu => h.dead _ (hready.users u hu)
    · intro j hj
      simp only [List.mem_append, List.mem_singleton, not_or] at hj
      rw [← h.left j hj.1, Graph.inst, Graph.inst, hslots, if_neg hj.2]
    · intro x u
      rw [huses, h.uses, List.mem_append, List.mem_singleton, not_or, and_assoc]
      refine and_congr_right fun hu => and_congr_right fun hu' => not_congr ⟨And.left, fun hui => ⟨hui, ?_⟩⟩
      -- a use that is recorded is read
      have hget := (hintact.used x u).1 ((h.uses x u).2 ⟨hu, hu'⟩)
      rwa [hui, operandsOf_eq hinst] at hget
    · have hdeclared := congrArg (fun d => d.2.2.2.1) (removeInst_unchanged hremove).1
      exact hdeclared.trans h.fields

/-- Instructions of reachable blocks that are still there, one after the other. -/
theorem Purged.removeAll {xs : List InstId} (h : Purged g gone g₁)
    (hxs : ∀ i ∈ xs, i ∉ gone ∧ ∃ b, g.Reachable b ∧ i ∈ g.bodyOf b) (hnodup : xs.Nodup) (n : Nat) :
    ∃ g₂ added, xs.foldlM DeadCode.removeIfDead (g₁, n) = .ok (g₂, n + added.length) ∧
      Purged g (gone ++ added) g₂ ∧ Prunes g gone xs added ∧ (added = [] → g₂ = g₁) := by
  induction xs generalizing gone g₁ n with
  | nil => exact ⟨g₁, [], rfl, by simpa using h, .nil, fun _ => rfl⟩
  | cons i xs ih =>
    obtain ⟨hgone, b, hb, hmem⟩ := hxs i List.mem_cons_self
    obtain ⟨hfresh, hnodup⟩ := List.nodup_cons.1 hnodup
    have hrest := fun j hj => hxs j (List.mem_cons_of_mem i hj)
    rw [List.foldlM_cons]
    rcases h.removeIfDead hw hi hf hb hmem hgone n with ⟨hready, g₂, hstep, h₂⟩ | ⟨hready, hstep⟩
    · have hxs₂ : ∀ j ∈ xs, j ∉ gone ++ [i] ∧ ∃ b, g.Reachable b ∧ j ∈ g.bodyOf b := fun j hj => by
        refine ⟨fun hmem => ?_, (hrest j hj).2⟩
        rcases List.mem_append.1 hmem with hmem | hmem
        · exact (hrest j hj).1 hmem
        · exact hfresh (List.mem_singleton.1 hmem ▸ hj)
      obtain ⟨g₃, added, hfold, h₃, hprunes, -⟩ := ih h₂ hxs₂ hnodup (n + 1)
      refine ⟨g₃, i :: added, ?_, by simpa using h₃, .take hready hprunes, fun hnil => by cases hnil⟩
      rw [hstep, List.length_cons, Nat.add_comm added.length, ← Nat.add_assoc]
      exact hfold
    · obtain ⟨g₃, added, hfold, h₃, hprunes, hsame⟩ := ih h hrest hnodup n
      refine ⟨g₃, added, ?_, h₃, .skip hready hprunes, hsame⟩
      rw [hstep]
      exact hfold

/-- A sweep over a block takes out what became idle, last instructions first. -/
theorem Purged.sweepBlock (h : Purged g gone g₁) (hb : g.Reachable b) (n : Nat) :
    ∃ g₂ added, sweepBlock (g₁, n) b = .ok (g₂, n + added.length) ∧ Purged g (gone ++ added) g₂ ∧
      Prunes g gone (g.bodyOf b).reverse added ∧ (added = [] → g₂ = g₁) := by
  obtain ⟨block, hblock⟩ := hw.exists_block hi.consistent hb
  have hblock₁ : g₁.block b = .ok (block.without gone) := h.cleared.rewired.block_eq_ok.2 ⟨block, hblock, rfl⟩
  have hbody : (block.without gone).body.reverse = (g.bodyOf b).reverse.filter (· ∉ gone) := by
    rw [Block.body_without, bodyOf_eq hblock, List.filter_reverse]
  have hleft : ∀ i ∈ (g.bodyOf b).reverse.filter (· ∉ gone), i ∉ gone ∧ ∃ b, g.Reachable b ∧
      i ∈ g.bodyOf b := by
    intro i hmem
    obtain ⟨hmem, hgone⟩ := List.mem_filter.1 hmem
    exact ⟨of_decide_eq_true hgone, b, hb, List.mem_reverse.1 hmem⟩
  obtain ⟨g₂, added, hfold, h₂, hprunes, hsame⟩ :=
    h.removeAll hw hi hf hleft ((List.nodup_reverse.2 (hi.body_nodup b)).filter _) n
  refine ⟨g₂, added, ?_, h₂, hprunes.of_filter (List.Subset.refl gone), hsame⟩
  simp only [DeadCode.sweepBlock, hblock₁, Checked.bind_eq_ok, Except.ok.injEq, exists_eq_left', hbody]
  exact hfold

/-- One sweep. -/
theorem Purged.sweep {bs : List BlockId} (h : Purged g gone g₁) (hbs : ∀ b ∈ bs, g.Reachable b) (n : Nat) :
    ∃ g₂ added, bs.foldlM DeadCode.sweepBlock (g₁, n) = .ok (g₂, n + added.length) ∧
      Purged g (gone ++ added) g₂ ∧ Prunes g gone (g.sweepOrder bs) added ∧ (added = [] → g₂ = g₁) := by
  induction bs generalizing gone g₁ n with
  | nil => exact ⟨g₁, [], rfl, by simpa using h, .nil, fun _ => rfl⟩
  | cons b bs ih =>
    obtain ⟨g₂, added, hblock, h₂, hprunes, hsame⟩ := h.sweepBlock hw hi hf (hbs b List.mem_cons_self) n
    obtain ⟨g₃, more, hfold, h₃, hprunes', hsame'⟩ :=
      ih h₂ (fun c hc => hbs c (List.mem_cons_of_mem b hc)) (n + added.length)
    refine ⟨g₃, added ++ more, ?_, by simpa using h₃, hprunes.append hprunes', fun hnil => ?_⟩
    · rw [List.foldlM_cons, hblock, List.length_append, ← Nat.add_assoc]
      exact hfold
    · obtain ⟨hnil, hnil'⟩ := List.append_eq_nil_iff.1 hnil
      rw [hsame' hnil', hsame hnil]

variable (ht : DomTree.ofGraph g = .ok t)
include ht

omit hw hf in
theorem reachable_of_mem_postorder (hb : b ∈ t.postorder) : g.Reachable b := by
  rwa [DomTree.postorder, List.mem_reverse, DomTree.mem_rpo hi.consistent ht] at hb

/-- Where nothing may go, one sweep finds that out. -/
theorem Purged.sweepAll_of_quiet (h : Purged g gone g₁) (hquiet : ∀ i, ¬ g.Ready gone i)
    (left done removed : Nat) :
    sweepAll t.postorder (left + 1) done removed g₁ = .ok (g₁, ⟨removed, done + 1, true⟩) := by
  obtain ⟨g₂, added, hsweep, -, hprunes, hsame⟩ :=
    h.sweep hw hi hf (fun _ => reachable_of_mem_postorder hi ht) 0
  obtain rfl := hprunes.eq_nil hquiet
  obtain rfl := hsame rfl
  rw [DeadCode.sweepAll, hsweep]
  rfl

/-- All sweeps.  With sweeps for each phi that is still to go and two more, the last one finds nothing. -/
theorem Purged.sweepAll (h : Purged g gone g₁) (left done removed : Nat) :
    ∃ g₂ added outcome, sweepAll t.postorder left done removed g₁ = .ok (g₂, outcome) ∧
      Purged g (gone ++ added) g₂ ∧ outcome.removed = removed + added.length ∧
      (g.deadPhis.ncard + 2 ≤ left + g.phiCount gone →
        outcome.reachedFixpoint = true ∧ outcome.sweeps + g.phiCount gone ≤ done + g.deadPhis.ncard + 2 ∧
        ∀ i, ¬ g.Ready (gone ++ added) i) := by
  have hcount := phiCount_le h.nodup h.dead
  induction left generalizing gone g₁ done removed with
  | zero =>
    refine ⟨g₁, [], ⟨removed, done, false⟩, rfl, by simpa using h, rfl, fun hle => ?_⟩
    omega
  | succ left ih =>
    obtain ⟨g₂, added, hsweep, h₂, hprunes, -⟩ :=
      h.sweep hw hi hf (fun _ => reachable_of_mem_postorder hi ht) 0
    have hquiet := hprunes.quiet hi ht hw
    rw [Nat.zero_add] at hsweep
    by_cases hnil : added = []
    · subst hnil
      refine ⟨g₂, [], ⟨removed, done + 1, true⟩, ?_, h₂, rfl, fun hle => ⟨rfl, ?_, hquiet fun i hmem => ?_⟩⟩
      · rw [DeadCode.sweepAll, hsweep]
        rfl
      · simp only
        omega
      · cases hmem
    have hpos : added.length ≠ 0 := fun hzero => hnil (List.length_eq_zero_iff.1 hzero)
    have hstep : DeadCode.sweepAll t.postorder (left + 1) done removed g₁ =
        DeadCode.sweepAll t.postorder left (done + 1) (removed + added.length) g₂ := by
      rw [DeadCode.sweepAll, hsweep]
      exact if_neg hpos
    have hcount₂ := phiCount_le h₂.nodup h₂.dead
    obtain ⟨g₃, more, outcome, hrest, h₃, hremoved, hbound⟩ := ih h₂ (done + 1) (removed + added.length) hcount₂
    refine ⟨g₃, added ++ more, outcome, hstep.trans hrest, by simpa using h₃, ?_, fun hle => ?_⟩
    · rw [hremoved, List.length_append, Nat.add_assoc]
    rw [← List.append_assoc]
    rw [phiCount_append] at hbound
    by_cases hphi : ∃ i ∈ added, g.kind? i = some .phi
    · obtain ⟨i, hmem, hphi⟩ := hphi
      have hfewer := phiCount_pos hmem hphi
      obtain ⟨hfix, hsweeps, hquiet⟩ := hbound (by omega)
      exact ⟨hfix, by omega, hquiet⟩
    · push Not at hphi
      obtain ⟨k, rfl⟩ : ∃ k, left = k + 1 := ⟨left - 1, by omega⟩
      have hlast := h₂.sweepAll_of_quiet hw hi hf ht (hquiet hphi) k (done + 1) (removed + added.length)
      obtain ⟨rfl, rfl⟩ := Prod.mk.inj (Except.ok.inj (hrest.symm.trans hlast))
      have hmore : more = [] := List.length_eq_zero_iff.1 (by simpa using hremoved)
      subst hmore
      refine ⟨rfl, ?_, by simpa using hquiet hphi⟩
      simp only
      omega

omit ht in
/-- The pass removes dead instructions and counts them.  Two sweeps more than there are dead phis leave nothing
that may go. -/
theorem exists_purged_eliminate (maxSweeps : Nat) : ∃ g' gone outcome,
    eliminate g maxSweeps = .ok (g', outcome) ∧ Purged g gone g' ∧ outcome.removed = gone.length ∧
      (g.deadPhis.ncard + 2 ≤ (if maxSweeps = 0 then 100 else maxSweeps) →
        outcome.reachedFixpoint = true ∧ outcome.sweeps ≤ g.deadPhis.ncard + 2 ∧
        ∀ i, ¬ g.Ready gone i) := by
  obtain ⟨block, hentry, -⟩ := hw.entry
  obtain ⟨t, ht⟩ := DomTree.ofGraph_eq_ok (mem_blockIds_iff.2 ⟨block, hentry⟩)
  obtain ⟨g', gone, outcome, hrun, hpurged, hremoved, hbound⟩ :=
    (purged_self hw).sweepAll hw hi hf ht (if maxSweeps = 0 then 100 else maxSweeps) 0 0
  refine ⟨g', gone, outcome, ?_, hpurged, by simpa using hremoved, fun hle => ?_⟩
  · rw [eliminate, ht]
    exact hrun
  · obtain ⟨hfix, hsweeps, hquiet⟩ := hbound (by simpa [phiCount] using hle)
    exact ⟨hfix, by simpa [phiCount] using hsweeps, hquiet⟩

omit hf ht in
/-- Removing dead code from a graph where nothing may go takes one sweep and changes nothing. -/
theorem Purged.eliminate_of_quiet (hf : g.FieldsDeclared) (h : Purged g gone g₁)
    (hquiet : ∀ i, ¬ g.Ready gone i) (maxSweeps : Nat) : eliminate g₁ maxSweeps = .ok (g₁, ⟨0, 1, true⟩) := by
  obtain ⟨block, hentry, -⟩ := hw.entry
  obtain ⟨t, ht⟩ := DomTree.ofGraph_eq_ok (mem_blockIds_iff.2 ⟨block, hentry⟩)
  obtain ⟨left, hleft⟩ : ∃ left, (if maxSweeps = 0 then defaultSweeps else maxSweeps) = left + 1 := by
    refine ⟨(if maxSweeps = 0 then defaultSweeps else maxSweeps) - 1, ?_⟩
    split
    · rfl
    · omega
  rw [eliminate, h.cleared.trimmed.dominators ht, hleft]
  exact h.sweepAll_of_quiet hw hi hf ht hquiet left 0 0

end Run

/-- Dead code elimination removes dead instructions, each once, counts them and leaves the others as they were,
whatever the limit on sweeps.  If the limit is the number of dead phis and two more, or larger, the pass
comes to an end by itself within that number of sweeps, all that is dead is removed, and another run finds
nothing. -/
theorem eliminate_removes_dead_set (hg : g.Built) (hv : g.violations = .ok []) (hf : g.FieldsDeclared)
    (maxSweeps : Nat) :
    ∃ g' outcome, ∃ gone : List InstId, eliminate g maxSweeps = .ok (g', outcome) ∧
      gone.Nodup ∧ (∀ i ∈ gone, g.Dead i ∧ g'.isRemoved i = true) ∧ outcome.removed = gone.length ∧
      (∀ b, g'.bodyOf b = (g.bodyOf b).filter (· ∉ gone)) ∧ (∀ i, i ∉ gone → g'.inst i = g.inst i) ∧
      ({i | g.Dead i ∧ g.kind? i = some .phi}.ncard + 2 ≤ (if maxSweeps = 0 then 100 else maxSweeps) →
        outcome.reachedFixpoint = true ∧
        outcome.sweeps ≤ {i | g.Dead i ∧ g.kind? i = some .phi}.ncard + 2 ∧
        (∀ i, i ∈ gone ↔ g.Dead i) ∧ outcome.removed = {i | g.Dead i}.ncard ∧
        ∀ again, eliminate g' again = .ok (g', ⟨0, 1, true⟩)) := by
  have hi := hg.intact
  have hw := hi.consistent.violations_eq_nil_iff.1 hv
  obtain ⟨g', gone, outcome, hrun, hpurged, hremoved, hbound⟩ := exists_purged_eliminate hw hi hf maxSweeps
  refine ⟨g', outcome, gone, hrun, hpurged.nodup, fun i hmem => ⟨hpurged.dead i hmem, ?_⟩, hremoved,
    fun b => ?_, hpurged.left, fun hle => ?_⟩
  · obtain ⟨inst, hinst⟩ := hw.exists_inst (hpurged.dead i hmem).idle.mem_attached
    have hlt : i.index < g'.insts.size :=
      hpurged.cleared.rewired.slots ▸ (Array.getElem?_eq_some_iff.1 (inst_eq_ok.1 hinst)).1
    have hinst' := inst_eq_ok.2 (Array.getElem?_eq_getElem hlt)
    rw [isRemoved_eq hinst']
    exact (hpurged.cleared.rewired.removed i _ hmem hinst').2
  · rw [Graph.bodyOf, Graph.bodyOf, hpurged.cleared.rewired.blocks]
    cases g.blocks[b.index]? with
    | none => rfl
    | some block => exact Block.body_without
  · obtain ⟨hfix, hsweeps, hquiet⟩ := hbound hle
    have hall : ∀ i, i ∈ gone ↔ g.Dead i := fun i =>
      ⟨hpurged.dead i, fun hdead => hdead.mem_of_quiet hquiet⟩
    refine ⟨hfix, hsweeps, hall, ?_, hpurged.eliminate_of_quiet hw hi hf hquiet⟩
    have hset : {i | g.Dead i} = (gone.toFinset : Set InstId) := by
      ext i
      simp [hall]
    rw [hset, Set.ncard_coe_finset, List.toFinset_card_of_nodup hpurged.nodup, hremoved]

/-- A loop around a phi that nothing uses.  It keeps a sum in the loop alive, and the sum keeps a static read
before the loop alive, each for one sweep.  Nothing uses the store after the loop either. -/
def looseChain : Graph := .ofEdits "looseChain" [
  .internField ⟨"Cell", "head", .int, 4, true, false⟩, .createBlock, .createBlock, .createBlock,
  .createInst (.param 0) .bool [], .appendInst ⟨0⟩ ⟨0⟩,
  .createInst (.staticGet ⟨0⟩) .int [], .appendInst ⟨0⟩ ⟨1⟩,
  .createInst .jump .void [], .appendInst ⟨0⟩ ⟨2⟩, .addEdge ⟨0⟩ ⟨1⟩,
  .createInst (.const 0) .int [], .insertBefore ⟨2⟩ ⟨3⟩,
  .createInst .phi .int [⟨3⟩], .appendPhi ⟨1⟩ ⟨4⟩,
  .createInst .branch .void [⟨0⟩], .appendInst ⟨1⟩ ⟨5⟩, .addEdge ⟨1⟩ ⟨2⟩, .addEdge ⟨1⟩ ⟨3⟩,
  .createInst (.binary .add) .int [⟨1⟩, ⟨1⟩], .appendInst ⟨2⟩ ⟨6⟩, .pushInput ⟨4⟩ ⟨6⟩,
  .createInst .jump .void [], .appendInst ⟨2⟩ ⟨7⟩, .addEdge ⟨2⟩ ⟨1⟩,
  .createInst (.const 7) .int [], .appendInst ⟨3⟩ ⟨8⟩,
  .createInst (.staticSet ⟨0⟩) .void [⟨8⟩], .appendInst ⟨3⟩ ⟨9⟩,
  .createInst .retVoid .void [], .appendInst ⟨3⟩ ⟨10⟩]

/-- In `looseChain` four instructions go in three sweeps; the store, which nothing uses, stays. -/
theorem eliminate_removes_dead_set_looseChain : looseChain.Built ∧ looseChain.violations = .ok [] ∧
    looseChain.FieldsDeclared ∧ {i | looseChain.Dead i ∧ looseChain.kind? i = some .phi}.ncard + 2 ≤ 3 ∧
    {i | looseChain.Dead i}.ncard = 4 ∧ looseChain.uses ⟨9⟩ = [] ∧
    ∃ g', eliminate looseChain 3 = .ok (g', ⟨4, 3, true⟩) ∧ g'.bodyOf ⟨3⟩ = [⟨8⟩, ⟨9⟩, ⟨10⟩] ∧
      eliminate g' 0 = .ok (g', ⟨0, 1, true⟩) := by
  have hg : looseChain.Built := built_ofEdits _ _
  have hv : looseChain.violations = .ok [] := by decide +kernel
  have hf : looseChain.FieldsDeclared := by decide +kernel
  have hphis : {i | looseChain.Dead i ∧ looseChain.kind? i = some .phi}.ncard + 2 ≤ 3 := by
    have hsub : {i | looseChain.Dead i ∧ looseChain.kind? i = some .phi} ⊆ {⟨4⟩} := by
      rintro ⟨n⟩ ⟨-, hphi⟩
      have hall : ∀ n < looseChain.insts.size, looseChain.kind? ⟨n⟩ = some .phi → n = 4 := by decide +kernel
      obtain ⟨inst, hinst, -⟩ := Option.map_eq_some_iff.1 hphi
      exact congrArg InstId.mk (hall n (Array.getElem?_eq_some_iff.1 hinst).1 hphi)
    have hle := Set.ncard_le_ncard hsub
    rw [Set.ncard_singleton] at hle
    omega
  obtain ⟨g', outcome, gone, hrun, -, -, -, -, -, hbound⟩ := eliminate_removes_dead_set hg hv hf 3
  obtain ⟨hfix, hsweeps, hall, hremoved, hagain⟩ := hbound hphis
  have hresult : (eliminate looseChain 3).map (fun r => (r.1.bodyOf ⟨3⟩, r.2)) =
      .ok ([⟨8⟩, ⟨9⟩, ⟨10⟩], ⟨4, 3, true⟩) := by decide +kernel
  rw [hrun] at hresult
  obtain ⟨hlast, rfl⟩ := Prod.mk.inj (Except.ok.inj hresult)
  exact ⟨hg, hv, hf, hphis, hremoved.symm, by decide +kernel, g', hrun, hlast, hagain 0⟩

end DeadCode

end Midend
