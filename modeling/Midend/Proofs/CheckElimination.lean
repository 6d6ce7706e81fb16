import Mathlib.Data.List.Perm.Subperm
import Mathlib.Logic.Relation
import Midend.Pass.NullCheck
import Midend.Pass.NullPropagation
import Midend.Proofs.Arena
import Midend.Proofs.NullFacts
import Midend.Proofs.PassRun
import Midend.Proofs.Rewiring

/-!
# Null-check elimination and the checker

What null propagation followed by null-check elimination makes of a well-formed graph.  The passes always
come to an end; the question is whether the checker accepts what they leave.

## Shape of the argument

Removing the checks one after the other rewires the graph, and each check that goes adds one replacement
to the substitution of operands.  A check may check the result of another one that goes too.  Its users
then get the object it was found with, and read on behind that one only if it is still to come.  So a
chain of checks is followed to its end exactly when each check in it stands before the check it reads,
in the layout; where one stands behind, its users are left with an instruction that is gone.
-/

namespace Midend

open Midend.Graph

/-! ## Chains of checks -/

namespace NullCheck

variable {pairs rest done : List (InstId × InstId)} {v w c o r : InstId}

/-- Each check in turn replaced by its object. -/
def subst (pairs : List (InstId × InstId)) (v : InstId) : InstId :=
  pairs.foldl (fun v p => if v = p.1 then p.2 else v) v

/-- From one value to another through removed checks. -/
abbrev Behind (pairs : List (InstId × InstId)) : InstId → InstId → Prop :=
  Relation.ReflTransGen fun c o => (c, o) ∈ pairs

/-- The value behind all the removed checks of a chain. -/
def Nearest (pairs : List (InstId × InstId)) (v r : InstId) : Prop := Behind pairs v r ∧ ∀ o, (r, o) ∉ pairs

/-- In the chain of checks from a value, each check comes before the check that it reads. -/
def Ascending (order : List InstId) (pairs : List (InstId × InstId)) (v : InstId) : Prop :=
  ∀ c o o', Behind pairs v c → (c, o) ∈ pairs → (o, o') ∈ pairs → [c, o].Sublist order

/-- Behind a value whose checks ascend the checks ascend. -/
theorem Ascending.behind {order : List InstId} (h : Ascending order pairs v) (hw : Behind pairs v w) :
    Ascending order pairs w :=
  fun c o o' hc => h c o o' (hw.trans hc)

/-- One more replacement changes what was replaced by its check. -/
theorem subst_append_singleton :
    subst (pairs ++ [(c, o)]) v = if subst pairs v = c then o else subst pairs v := by
  rw [subst, List.foldl_append]
  rfl

theorem mem_keys : c ∈ pairs.map Prod.fst ↔ ∃ o, (c, o) ∈ pairs := by
  simp

/-- What is no redundant check stands for itself. -/
theorem subst_eq_self (h : v ∉ pairs.map Prod.fst) : subst pairs v = v := by
  induction pairs with
  | nil => rfl
  | cons p pairs ih =>
    simp only [List.map_cons, List.mem_cons, not_or] at h
    rw [subst, List.foldl_cons, if_neg h.1]
    exact ih h.2

/-- Replacing leads on along the chain. -/
theorem behind_subst (h : ∀ p ∈ rest, p ∈ pairs) (v : InstId) : Behind pairs v (subst rest v) := by
  induction rest generalizing v with
  | nil => exact .refl
  | cons p rest ih =>
    have ih := ih fun q hq => h q (List.mem_cons_of_mem _ hq)
    rw [subst, List.foldl_cons]
    split
    · next hv => exact .head (hv ▸ h p (by simp)) (ih p.2)
    · exact ih v

/-- In a list without repetition something comes after a member if it is in the rest. -/
theorem sublist_iff_mem {l r : List InstId} (h : (l ++ c :: r).Nodup) :
    [c, o].Sublist (l ++ c :: r) ↔ o ∈ r := by
  constructor
  · intro hsub
    obtain ⟨-, hr, hdisjoint⟩ := List.nodup_append.1 h
    obtain ⟨xs, ys, heq, hxs, hys⟩ := List.sublist_append_iff.1 hsub
    cases xs with
    | nil =>
      obtain rfl : [c, o] = ys := heq
      rcases List.cons_sublist_cons'.1 hys with hys | ⟨-, hys⟩
      · exact absurd (hys.subset (by simp)) (List.nodup_cons.1 hr).1
      · exact hys.subset (by simp)
    | cons x xs =>
      obtain ⟨rfl, -⟩ := List.cons.inj heq
      exact absurd rfl (hdisjoint c (hxs.subset (by simp)) c (by simp))
  · intro ho
    exact (List.Sublist.cons_cons c (List.singleton_sublist.2 ho)).trans (List.sublist_append_right _ _)

section Keys

variable (hnodup : (pairs.map Prod.fst).Nodup)
include hnodup

/-- A check has one operand. -/
theorem eq_of_mem {o' : InstId} (h : (c, o) ∈ pairs) (h' : (c, o') ∈ pairs) : o = o' := by
  have heq := List.inj_on_of_nodup_map hnodup h h' rfl
  exact (Prod.mk.inj heq).2

/-- The checks still to come, in order, lead to the end of an ascending chain. -/
theorem subst_not_mem (hpairs : pairs = done ++ rest)
    (hv : v ∈ pairs.map Prod.fst → v ∈ rest.map Prod.fst) (h : Ascending (pairs.map Prod.fst) pairs v) :
    subst rest v ∉ pairs.map Prod.fst := by
  induction rest generalizing done v with
  | nil => exact fun hmem => by cases hv hmem
  | cons p rest ih =>
    obtain ⟨c, o⟩ := p
    have hsplit : pairs = (done ++ [(c, o)]) ++ rest := by simp [hpairs]
    have hmem : (c, o) ∈ pairs := by simp [hpairs]
    rw [subst, List.foldl_cons]
    by_cases hvc : v = c
    · subst hvc
      rw [if_pos rfl]
      -- an object that is removed as well comes later, as the chain ascends
      refine ih hsplit (fun ho => ?_) (h.behind (.single hmem))
      obtain ⟨o', ho'⟩ := mem_keys.1 ho
      have hsub := h v o o' .refl hmem ho'
      have hkeys : pairs.map Prod.fst = done.map Prod.fst ++ v :: rest.map Prod.fst := by simp [hpairs]
      rw [hkeys] at hsub hnodup
      exact (sublist_iff_mem hnodup).1 hsub
    · rw [if_neg hvc]
      refine ih hsplit (fun hv' => ?_) h
      simpa [hvc] using hv hv'

/-- Where replacing comes to the end of a chain, the chain was ascending. -/
theorem ascending_of_subst (hpairs : pairs = done ++ rest) (h : subst rest v ∉ pairs.map Prod.fst) :
    Ascending (pairs.map Prod.fst) pairs v := by
  induction rest generalizing done v with
  | nil =>
    intro c o o' hc hco
    rcases hc.cases_head with rfl | ⟨w, hw, -⟩
    · exact absurd (mem_keys.2 ⟨o, hco⟩) h
    · exact absurd (mem_keys.2 ⟨w, hw⟩) h
  | cons p rest ih =>
    obtain ⟨c₀, o₀⟩ := p
    have hsplit : pairs = (done ++ [(c₀, o₀)]) ++ rest := by simp [hpairs]
    have hmem : (c₀, o₀) ∈ pairs := by simp [hpairs]
    rw [subst, List.foldl_cons] at h
    by_cases hvc : v = c₀
    · subst hvc
      rw [if_pos rfl] at h
      have hrest := ih hsplit h
      intro c o o' hc hco hoo
      rcases hc.cases_head with rfl | ⟨w, hw, hwc⟩
      · -- the object is still to come, or it would be left over
        obtain rfl := eq_of_mem hnodup hmem hco
        have hkeys : pairs.map Prod.fst = done.map Prod.fst ++ v :: rest.map Prod.fst := by simp [hpairs]
        have hnodup' := hnodup
        rw [hkeys] at hnodup' ⊢
        refine (sublist_iff_mem hnodup').2 ?_
        by_contra ho
        refine h ?_
        change subst rest o₀ ∈ _
        rw [subst_eq_self ho]
        exact mem_keys.2 ⟨o', hoo⟩
      · obtain rfl := eq_of_mem hnodup hmem hw
        exact hrest c o o' hwc hco hoo
    · rw [if_neg hvc] at h
      exact ih hsplit h

/-- A value is replaced by one that stays when its checks ascend. -/
theorem subst_not_mem_iff :
    subst pairs v ∉ pairs.map Prod.fst ↔ Ascending (pairs.map Prod.fst) pairs v :=
  ⟨ascending_of_subst hnodup (List.nil_append _).symm, subst_not_mem hnodup (List.nil_append _).symm id⟩

end Keys

/-! ## The checks that are found -/

section Found

variable {g : Graph} {t : DomTree} {f : NullFacts}

/-- The checks to remove, in layout order, each with the value it checks. -/
structure Found (g : Graph) (pairs : List (InstId × InstId)) : Prop where
  keys : ∃ p : InstId → Bool, pairs.map Prod.fst = g.attached.filter p
  check : ∀ c o, (c, o) ∈ pairs → ∃ inst, g.inst c = .ok inst ∧ inst.kind = .nullCheck ∧
    inst.inputs[0]? = some o
  live : ∀ c o, (c, o) ∈ pairs → NullFacts.Live g o

/-- No check is found twice. -/
theorem Found.nodup (h : Found g pairs) (hg : g.Consistent) : (pairs.map Prod.fst).Nodup := by
  obtain ⟨p, hp⟩ := h.keys
  exact hp ▸ hg.listed_once.filter p

theorem Found.mem_attached (h : Found g pairs) (hc : (c, o) ∈ pairs) : c ∈ g.attached := by
  obtain ⟨p, hp⟩ := h.keys
  have hmem : c ∈ g.attached.filter p := hp ▸ mem_keys.2 ⟨o, hc⟩
  exact (List.mem_filter.1 hmem).1

/-- Among the checks, the order of removal is that of the layout. -/
theorem Found.ascending_iff (h : Found g pairs) :
    Ascending (pairs.map Prod.fst) pairs v ↔ Ascending g.attached pairs v := by
  obtain ⟨p, hp⟩ := h.keys
  have hpass : ∀ {c o : InstId}, (c, o) ∈ pairs → p c = true := by
    intro c o hc
    have hmem : c ∈ g.attached.filter p := hp ▸ mem_keys.2 ⟨o, hc⟩
    exact (List.mem_filter.1 hmem).2
  refine forall₃_congr fun c o o' => forall₃_congr fun _ hc ho => ?_
  rw [hp]
  refine ⟨fun hsub => hsub.trans List.filter_sublist, fun hsub => ?_⟩
  have hfilter := hsub.filter p
  rwa [List.filter_eq_self.2 (by simp [hpass hc, hpass ho])] at hfilter

theorem map_fst_filterMap {q : InstId → Option (InstId × InstId)} {xs : List InstId}
    (h : ∀ c ∈ xs, ∀ c' o, q c = some (c', o) → c' = c) :
    (xs.filterMap q).map Prod.fst = xs.filter fun c => (q c).isSome := by
  induction xs with
  | nil => rfl
  | cons c xs ih =>
    have ih := ih fun d hd => h d (List.mem_cons_of_mem _ hd)
    cases hq : q c with
    | none => simp [hq, ih]
    | some p => simp [hq, ih, h c (by simp) p.1 p.2 hq]

section WellFormed

variable (hw : g.WellFormed) (hg : g.Consistent) (hl : g.Furnished)
include hw hg

section Answer

variable (hf : NullFacts.Answer g t f)
include hf

/-- Whether a value is not null at an instruction is told without a fault. -/
theorem exists_isNonNullAt {x i : InstId} (hi : i ∈ g.attached) : ∃ r, f.isNonNullAt g t x i = .ok r := by
  obtain ⟨inst, hinst⟩ := hw.exists_inst hi
  rw [NullFacts.isNonNullAt]
  split
  · exact ⟨true, rfl⟩
  · refine Checked.anyM_total fun d hd => ?_
    split
    · exact ⟨false, rfl⟩
    · obtain ⟨⟨b, n, -, hat⟩, -⟩ := hf.derefs x d hd
      exact hw.exists_instDominates hg hat hinst

include hl

/-- What is known not to be null is defined in a reachable block. -/
theorem live_of_isNonNullAt {x i : InstId} (h : f.isNonNullAt g t x i = .ok true) : NullFacts.Live g x := by
  rw [NullFacts.isNonNullAt] at h
  split at h
  · next hx => exact (hf.seeded x hx).1
  · obtain ⟨d, hd, -⟩ := Checked.exists_of_anyM h
    obtain ⟨⟨b, n, hb, hat⟩, inst, k, r, hinst, hk, hr, hx⟩ := hf.derefs x d hd
    have hkind : inst.kind ≠ .phi := fun h => by simp [h, Kind.dereferencedInput?] at hk
    have hset := hw.settled_operand_at hg hb hat (fun _ h => hl.not_mem_phis hinst hkind h) hinst hr
    have hset' : g.Settled b n x := by
      rcases hx with rfl | hx
      · exact hset
      · exact hw.settled_unchecked hg hl hb hset hx
    obtain ⟨d', m, hat', hd'⟩ := hset'.exists_at hb
    exact ⟨d', m, hd', hat'⟩

/-- One instruction is looked at. -/
theorem exists_candidate (hc : c ∈ g.attached) : ∃ r, (do
    if (← g.kind c).isNullCheck then
      let object ← g.input c 0
      return if ← f.isNonNullAt g t object c then some (c, object) else none
    else
      return none : Checked (Option (InstId × InstId))) = .ok r ∧
    ∀ c' o, r = some (c', o) → c' = c ∧ (∃ inst, g.inst c = .ok inst ∧ inst.kind = .nullCheck ∧
      inst.inputs[0]? = some o) ∧ NullFacts.Live g o := by
  obtain ⟨inst, hinst⟩ := hw.exists_inst hc
  rw [kind_eq_ok.2 ⟨inst, hinst, rfl⟩]
  by_cases hkind : inst.kind = .nullCheck
  · obtain ⟨o, ho⟩ := hl.exists_operand hc hinst (k := 0) (by rw [hkind]; decide)
    obtain ⟨r, hr⟩ := exists_isNonNullAt hw hg hf (x := o) hc
    rw [hkind, input_eq_ok.2 ⟨inst, hinst, ho⟩]
    refine ⟨if r then some (c, o) else none, by simp [Kind.isNullCheck, hr], ?_⟩
    rintro c' o' hp
    cases r with
    | false => cases hp
    | true =>
      cases hp
      exact ⟨rfl, ⟨inst, hinst, hkind, ho⟩, live_of_isNonNullAt hw hg hl hf hr⟩
  · have hno : inst.kind.isNullCheck = false := by
      cases h : inst.kind <;> simp_all [Kind.isNullCheck]
    exact ⟨none, by simp [hno], by simp⟩

/-- The checks are found. -/
theorem exists_found : ∃ pairs, redundant g t f = .ok pairs ∧ Found g pairs := by
  obtain ⟨pairs, hpairs⟩ := Checked.filterMapM_total fun c hc =>
    (exists_candidate hw hg hl hf hc).imp fun _ h => h.1
  refine ⟨pairs, hpairs, ?_⟩
  obtain ⟨q, hq, rfl⟩ := Checked.filterMapM_eq_ok.1 hpairs
  have hspec : ∀ c ∈ g.attached, ∀ c' o, q c = some (c', o) → c' = c ∧ (∃ inst, g.inst c = .ok inst ∧
      inst.kind = .nullCheck ∧ inst.inputs[0]? = some o) ∧ NullFacts.Live g o := by
    intro c hc c' o hp
    obtain ⟨r, hr, h⟩ := exists_candidate hw hg hl hf hc
    rw [hq c hc] at hr
    cases hr
    exact h c' o hp
  have hmem : ∀ c o, (c, o) ∈ g.attached.filterMap q → (∃ inst, g.inst c = .ok inst ∧
      inst.kind = .nullCheck ∧ inst.inputs[0]? = some o) ∧ NullFacts.Live g o := by
    intro c o hco
    obtain ⟨c', hc', hq'⟩ := List.mem_filterMap.1 hco
    obtain ⟨rfl, h⟩ := hspec c' hc' c o hq'
    exact h
  exact ⟨⟨_, map_fst_filterMap fun c hc c' o hp => (hspec c hc c' o hp).1⟩,
    fun c o h => (hmem c o h).1, fun c o h => (hmem c o h).2⟩

end Answer

end WellFormed

/-! ## The checks are removed -/

section Removed

variable (hfound : Found g pairs) (hw : g.WellFormed) (hg : g.Consistent) (hl : g.Furnished)
include hfound hw hg hl

/-- A check that is removed does not check itself. -/
theorem Found.ne (hc : (c, o) ∈ pairs) : o ≠ c := by
  rintro rfl
  obtain ⟨inst, hinst, hkind, ho⟩ := hfound.check o o hc
  obtain ⟨b, n, hb, hat⟩ := hfound.live o o hc
  exact hw.not_settled_self hg hat (hw.settled_operand_at hg hb hat
    (fun _ h => hl.not_mem_phis hinst (by simp [hkind]) h) hinst ho)

/-- Removing the checks rewires the graph. -/
theorem Found.rewired : ∃ g', pairs.foldlM removeCheck g = .ok g' ∧
    Rewired g (subst pairs) (pairs.map Prod.fst) g' := by
  -- after some of the checks, the graph is the first one rewired by them
  have key : ∀ rest done g₁, pairs = done ++ rest → Rewired g (subst done) (done.map Prod.fst) g₁ →
      ∃ g', rest.foldlM removeCheck g₁ = .ok g' ∧ Rewired g (subst pairs) (pairs.map Prod.fst) g' := by
    intro rest
    induction rest with
    | nil =>
      intro done g₁ hpairs h
      rw [List.append_nil] at hpairs
      exact ⟨g₁, rfl, hpairs ▸ h⟩
    | cons p rest ih =>
      intro done g₁ hpairs h
      obtain ⟨c, o⟩ := p
      have hmem : (c, o) ∈ pairs := by simp [hpairs]
      have hne := hfound.ne hw hg hl hmem
      have hatt := hfound.mem_attached hmem
      have hgone : c ∉ done.map Prod.fst := by
        have hnodup := hfound.nodup hg
        rw [hpairs, List.map_append, List.map_cons] at hnodup
        exact fun hc => List.disjoint_of_nodup_append hnodup hc (by simp)
      have hunused : (g₁.replaceUses c o).uses c = [] := by
        rw [(replaceUses_spec hne).2.2.2.2, if_neg (Ne.symm hne), if_pos rfl]
      obtain ⟨g₂, hg₂, hrewired⟩ := (h.replaceUses hatt hne).removeInst hw hatt hgone hunused
      have hsubst : (fun x => if subst done x = c then o else subst done x) = subst (done ++ [(c, o)]) :=
        funext fun x => subst_append_singleton.symm
      rw [hsubst, ← List.map_singleton (f := Prod.fst) (a := (c, o)), ← List.map_append] at hrewired
      obtain ⟨g', hfold, hfinal⟩ := ih (done ++ [(c, o)]) g₂ (by simp [hpairs]) hrewired
      exact ⟨g', by rw [List.foldlM_cons, removeCheck, hg₂]; exact hfold, hfinal⟩
  exact key pairs [] g rfl hw.rewired

/-- The values along a chain are settled where its first one is. -/
theorem Found.settled_subst {b : BlockId} {n : Nat} (hb : g.Reachable b) (hv : g.Settled b n v) :
    g.Settled b n (subst pairs v) := by
  have hbehind : Behind pairs v (subst pairs v) := behind_subst (fun _ h => h) v
  generalize subst pairs v = w at hbehind ⊢
  induction hbehind with
  | refl => exact hv
  | tail _ hlink ih =>
    obtain ⟨inst, hinst, hkind, ho⟩ := hfound.check _ _ hlink
    exact hw.settled_checked hg hl hb ih hinst hkind ho

omit hg hl in
/-- What replaces a value that is not removed is not removed. -/
theorem Found.isRemoved_subst (hv : g.isRemoved v = false) : g.isRemoved (subst pairs v) = false := by
  have hbehind : Behind pairs v (subst pairs v) := behind_subst (fun _ h => h) v
  generalize subst pairs v = w at hbehind ⊢
  cases hbehind with
  | refl => exact hv
  | tail _ hlink =>
    obtain ⟨inst, hinst, -, ho⟩ := hfound.check _ _ hlink
    exact (hw.operand _ inst 0 _ (hfound.mem_attached hlink) hinst ho).1

end Removed

end Found

/-! ## Runs of the passes -/

section Passes

open Work Manager

variable {g g' : Graph} {t : DomTree} {f : NullFacts} {settings : Settings}

/-- Null propagation publishes its facts. -/
theorem yields_nullPropagation (settings : Settings) (ht : DomTree.ofGraph g = .ok t)
    (hf : NullFacts.ofGraph g t = .ok (some f)) :
    ∃ u, (runGated false 0 NullPropagation.pass).Yields (.new g settings) () u ∧ u.graph = g ∧
      u.stats = .zero ∧ u.analyses.dominators = some t ∧ u.analyses.nullability = some f := by
  have hrun : ∀ u : CompUnit, u.graph = g → u.analyses = .empty → NullPropagation.run.Yields u false
      { u with analyses := ⟨some t, none, none, some f⟩ } := by
    rintro u rfl hempty
    simp only [NullPropagation.run, yields_bind, yields_get]
    refine ⟨t, _, yields_dominators.2 (.inr ⟨by rw [hempty]; rfl, ht, rfl⟩), _, _, ⟨rfl, rfl⟩, some f, _,
      yields_ofChecked.2 ⟨hf, rfl⟩, ?_⟩
    rw [yields_bind]
    refine ⟨(), _, yields_modifyAnalyses.2 rfl, yields_pure.2 ⟨rfl, ?_⟩⟩
    rw [hempty]
    rfl
  have hpass : ∀ u : CompUnit, u.graph = g → u.analyses = .empty → ∃ u',
      (runPass 0 NullPropagation.pass).Yields u false u' ∧ u'.graph = g ∧ u'.stats = u.stats ∧
        u'.analyses = ⟨some t, none, none, some f⟩ := by
    intro u hg hempty
    refine ⟨_, yields_runPass_wholeGraph.2 ⟨(), _, ((), false), _, ((), false), yields_pure.2 ⟨rfl, rfl⟩,
      yields_bind.2 ⟨false, _, hrun _ hg hempty, yields_pure.2 ⟨rfl, rfl⟩⟩, yields_pure.2 ⟨rfl, rfl⟩, rfl⟩,
      hg, rfl, rfl⟩
  obtain ⟨u, hu, hg, hstats, hanalyses⟩ := hpass
    { (CompUnit.new g settings) with journal := [⟨0, .gate true (Analyses.available .empty)⟩] } rfl rfl
  refine ⟨u, yields_runGated_unverified rfl hu, hg, hstats, ?_, ?_⟩ <;> rw [hanalyses]

/-- The work of null-check elimination. -/
theorem yields_run {u : CompUnit} {stats : Stats} (hdoms : u.analyses.dominators = some t)
    (hnull : u.analyses.nullability = some f) (hfound : redundant u.graph t f = .ok pairs)
    (hfold : pairs.foldlM removeCheck u.graph = .ok g')
    (hrecord : u.stats.record .removedNullCheck pairs.length = .ok stats) :
    ∃ u', run.Yields u (!pairs.isEmpty) u' ∧ u'.graph = g' := by
  have htail : ∀ (changed : Bool) (analyses : Analyses), (do
      Work.record .removedNullCheck pairs.length
      return changed : Work Bool).Yields { u with graph := g', analyses := analyses } changed
        { u with graph := g', analyses := analyses, stats := stats } := by
    intro changed analyses
    rw [yields_bind]
    exact ⟨(), _, yields_record.2 ⟨stats, hrecord, rfl⟩, yields_pure.2 ⟨rfl, rfl⟩⟩
  refine ⟨{ u with
    graph := g'
    stats := stats
    analyses := if pairs.isEmpty then u.analyses
      else { u.analyses with nullability := some (f.retainDerefs (!g'.isRemoved ·)) } }, ?_, rfl⟩
  rw [run, yields_bind]
  refine ⟨t, u, yields_dominators.2 (.inl ⟨hdoms, rfl⟩), ?_⟩
  rw [yields_bind]
  refine ⟨u, u, yields_get.2 ⟨rfl, rfl⟩, ?_⟩
  rw [hnull]
  simp only [yields_bind, yields_ofChecked, yields_setGraph]
  refine ⟨pairs, u, ⟨hfound, rfl⟩, g', u, ⟨hfold, rfl⟩, (), _, rfl, ?_⟩
  cases pairs.isEmpty with
  | true =>
    rw [if_neg (by decide), if_pos rfl]
    exact htail _ _
  | false =>
    rw [if_pos (by decide), if_neg (by decide), yields_bind]
    exact ⟨(), _, yields_modifyAnalyses.2 rfl, htail _ _⟩

/-- Null-check elimination leaves the graph without the checks that are found. -/
theorem yields_pass {place : Nat} {u : CompUnit} (hdoms : u.analyses.dominators = some t)
    (hnull : u.analyses.nullability = some f) (hfound : redundant u.graph t f = .ok pairs)
    (hfold : pairs.foldlM removeCheck u.graph = .ok g') (hstats : u.stats = .zero)
    (hlen : pairs.length < UInt64.size) :
    ∃ u', (runGated false place pass).Yields u () u' ∧ u'.graph = g' := by
  obtain ⟨stats, hrecord⟩ : ∃ stats, u.stats.record .removedNullCheck pairs.length = .ok stats := by
    rw [hstats, Stats.record, if_pos (by simpa [Stats.get, Stats.zero] using hlen)]
    exact ⟨_, rfl⟩
  have hpass : ∀ u₁ : CompUnit, u₁.graph = u.graph → u₁.analyses = u.analyses → u₁.stats = u.stats →
      ∃ u', (runPass place pass).Yields u₁ (!pairs.isEmpty) u' ∧ u'.graph = g' := by
    intro u₁ hgraph hanalyses hstats
    obtain ⟨u₂, hu₂, hgraph₂⟩ := yields_run (u := { u₁ with journal := ⟨place, .run⟩ :: ⟨place, .start⟩ ::
        u₁.journal }) (by rw [hanalyses]; exact hdoms) (by rw [hanalyses]; exact hnull)
      (by rw [hgraph]; exact hfound) (by rw [hgraph]; exact hfold) (by rw [hstats]; exact hrecord)
    refine ⟨_, yields_runPass_wholeGraph.2 ⟨(), _, ((), !pairs.isEmpty), u₂, ((), false),
      yields_pure.2 ⟨rfl, rfl⟩, yields_bind.2 ⟨_, _, hu₂, yields_pure.2 ⟨rfl, rfl⟩⟩,
      yields_pure.2 ⟨rfl, rfl⟩, (Bool.or_false _).symm⟩, hgraph₂⟩
  have hgate : pass.gate u = true := by
    rw [pass]
    simp [hnull]
  obtain ⟨u', hu', hgraph⟩ := hpass
    { u with journal := ⟨place, .gate (pass.gate u) u.analyses.available⟩ :: u.journal } rfl rfl rfl
  refine ⟨_, yields_runGated_unverified hgate hu', ?_⟩
  split <;> exact hgraph

/-- There are no more checks than slots. -/
theorem Found.length_le (h : Found g pairs) (hw : g.WellFormed) (hg : g.Consistent) :
    pairs.length ≤ g.insts.size := by
  have hsub : pairs.map Prod.fst ⊆ g.instIds := by
    intro c hc
    obtain ⟨o, hc⟩ := mem_keys.1 hc
    obtain ⟨inst, hinst⟩ := hw.exists_inst (h.mem_attached hc)
    rw [instIds, List.mem_map]
    exact ⟨c.index, List.mem_range.2 (Array.getElem?_eq_some_iff.1 (inst_eq_ok.1 hinst)).1, rfl⟩
  have hle := ((h.nodup hg).subperm hsub).length_le
  simpa [instIds] using hle

/-- Null propagation and null-check elimination come to an end, if the counter of removed checks can count
the instructions.  What is left has the operands it had, each followed through removed checks; it is followed
to the nearest value that stays exactly when each check on the way stands in the layout before the one it
checks, and the checker accepts the graph exactly when that is so for all operands. -/
theorem accepted_iff_ascending (hg : g.Consistent) (hv : g.violations = .ok []) (hl : g.Layout)
    (hsize : g.insts.size < UInt64.size) :
    ∃ t f pairs u, DomTree.ofGraph g = .ok t ∧ NullFacts.ofGraph g t = .ok (some f) ∧
      redundant g t f = .ok pairs ∧
      (Manager.runAll false [NullPropagation.pass, pass]).run (.new g settings) = (.ok (), u) ∧
      (∀ i, i ∈ u.graph.attached ↔ i ∈ g.attached ∧ ∀ o, (i, o) ∉ pairs) ∧
      (∀ i inst', i ∈ u.graph.attached → u.graph.inst i = .ok inst' → ∃ inst, g.inst i = .ok inst ∧
        List.Forall₂ (fun v w => Behind pairs v w ∧ (Nearest pairs v w ↔ Ascending g.attached pairs v))
          inst.inputs inst'.inputs) ∧
      (u.graph.violations = .ok [] ↔ ∀ i inst v, i ∈ u.graph.attached → g.inst i = .ok inst →
        v ∈ inst.inputs → Ascending g.attached pairs v) := by
  have hw := hg.violations_eq_nil_iff.1 hv
  obtain ⟨entry, hentry, -⟩ := hw.entry
  obtain ⟨t, ht⟩ := DomTree.ofGraph_eq_ok (mem_blockIds_iff.2 ⟨entry, hentry⟩)
  obtain ⟨f, hf, hanswer⟩ := NullFacts.ofGraph_spec hw hg hl ht
  obtain ⟨pairs, hpairs, hfound⟩ := exists_found hw hg hl hanswer
  obtain ⟨g', hfold, hrewired⟩ := hfound.rewired hw hg hl
  obtain ⟨u₁, hu₁, hgraph, hstats, hdoms, hnull⟩ := yields_nullPropagation settings ht hf
  subst hgraph
  obtain ⟨u, hu, rfl⟩ := yields_pass hdoms hnull hpairs hfold hstats
    (Nat.lt_of_le_of_lt (hfound.length_le hw hg) hsize)
  -- an operand comes to a value that stays exactly when its chain ascends
  have hstays : ∀ {v : InstId}, subst pairs v ∉ pairs.map Prod.fst ↔ Ascending u₁.graph.attached pairs v :=
    (subst_not_mem_iff (hfound.nodup hg)).trans hfound.ascending_iff
  refine ⟨t, f, pairs, u, ht, hf, hpairs, yields_runFrom_cons.2 ⟨u₁, hu₁, yields_runFrom_cons.2
    ⟨u, hu, yields_pure.2 ⟨rfl, rfl⟩⟩⟩, fun i => ?_, fun i inst' hi hinst' => ?_, ?_⟩
  · rw [hrewired.mem_attached, mem_keys, not_exists]
  · obtain ⟨hatt, hgone⟩ := hrewired.mem_attached.1 hi
    obtain ⟨inst, hinst, -, hmap⟩ := hrewired.exists_inst hgone hinst'
    refine ⟨inst, hinst, ?_⟩
    rw [hmap hatt, List.forall₂_map_right_iff, List.forall₂_same]
    intro v _
    have hbehind : Behind pairs v (subst pairs v) := behind_subst (fun _ h => h) v
    refine ⟨hbehind, ?_⟩
    rw [← hstays, mem_keys, not_exists]
    exact and_iff_right hbehind
  · rw [(hrewired.consistent hg).violations_eq_nil_iff, hrewired.wellFormed_iff hw hg ?_ ?_ ?_]
    · simp only [hrewired.mem_attached, hstays, and_imp]
    · intro c hc inst hinst
      obtain ⟨o, hc⟩ := mem_keys.1 hc
      obtain ⟨inst', hinst', hkind, -⟩ := hfound.check c o hc
      rw [hinst] at hinst'
      cases hinst'
      rw [hkind]
      rfl
    · exact fun x hx => hfound.isRemoved_subst hw hx
    · exact fun b n x hb hx => hfound.settled_subst hw hg hl hb hx

/-- A check of a check, in a block that is laid out before the block of the inner check. -/
def checksBackwards : Graph := .ofEdits "checksBackwards" [
  .createBlock, .createBlock,
  .createInst (.param 0) .ref [], .appendInst ⟨0⟩ ⟨0⟩,
  .createInst .nullCheck .ref [⟨0⟩], .appendInst ⟨2⟩ ⟨1⟩,
  .createInst .nullCheck .ref [⟨1⟩], .appendInst ⟨1⟩ ⟨2⟩,
  .createInst .jump .void [], .appendInst ⟨0⟩ ⟨3⟩, .addEdge ⟨0⟩ ⟨2⟩,
  .createInst .ret .void [⟨2⟩], .appendInst ⟨1⟩ ⟨4⟩,
  .createInst .jump .void [], .appendInst ⟨2⟩ ⟨5⟩, .addEdge ⟨2⟩ ⟨1⟩]

/-- In `checksBackwards` the return is left reading the parameter, past both checks. -/
theorem accepted_iff_ascending_checksBackwards :
    checksBackwards.Consistent ∧ checksBackwards.violations = .ok [] ∧ checksBackwards.Layout ∧
      checksBackwards.insts.size < UInt64.size ∧
      (((Manager.runAll false [NullPropagation.pass, pass]).run (.new checksBackwards .default)).2.graph.inst
        ⟨4⟩).toOption = some ⟨.ret, .void, [⟨0⟩], some ⟨1⟩, false⟩ ∧
      ∃ t f pairs u, DomTree.ofGraph checksBackwards = .ok t ∧
        NullFacts.ofGraph checksBackwards t = .ok (some f) ∧ redundant checksBackwards t f = .ok pairs ∧
        (Manager.runAll false [NullPropagation.pass, pass]).run (.new checksBackwards .default) =
          (.ok (), u) ∧
        (∀ i, i ∈ u.graph.attached ↔ i ∈ checksBackwards.attached ∧ ∀ o, (i, o) ∉ pairs) ∧
        (∀ i inst', i ∈ u.graph.attached → u.graph.inst i = .ok inst' →
          ∃ inst, checksBackwards.inst i = .ok inst ∧
            List.Forall₂ (fun v w => Behind pairs v w ∧
              (Nearest pairs v w ↔ Ascending checksBackwards.attached pairs v)) inst.inputs inst'.inputs) ∧
        (u.graph.violations = .ok [] ↔ ∀ i inst v, i ∈ u.graph.attached →
          checksBackwards.inst i = .ok inst → v ∈ inst.inputs →
          Ascending checksBackwards.attached pairs v) :=
  ⟨by decide +kernel, by decide +kernel, by decide +kernel, by decide +kernel, by decide +kernel,
    accepted_iff_ascending (by decide +kernel) (by decide +kernel) (by decide +kernel) (by decide +kernel)⟩

/-- A check of a check, one right after the other. -/
def checkOfCheck : Graph := .ofEdits "checkOfCheck" [
  .createInst (.param 0) .ref [], .appendInst ⟨0⟩ ⟨0⟩,
  .createInst .nullCheck .ref [⟨0⟩], .appendInst ⟨0⟩ ⟨1⟩,
  .createInst .nullCheck .ref [⟨1⟩], .appendInst ⟨0⟩ ⟨2⟩,
  .createInst .ret .void [⟨2⟩], .appendInst ⟨0⟩ ⟨3⟩]

/-- Both checks of `checkOfCheck` go, and the return is left reading the inner one. -/
theorem checkOfCheck_reads_removed :
    checkOfCheck.Consistent ∧ checkOfCheck.violations = .ok [] ∧ checkOfCheck.Layout ∧
      ((Manager.runAll false [NullPropagation.pass, pass]).run (.new checkOfCheck .default)).2.graph.violations
        = .ok [.removedInput ⟨3⟩ 0 ⟨1⟩] :=
  ⟨by decide +kernel, by decide +kernel, by decide +kernel, by decide +kernel⟩

end Passes

end NullCheck

end Midend
