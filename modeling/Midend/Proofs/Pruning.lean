import Mathlib.Data.List.Perm.Subperm
import Mathlib.Logic.Relation
import Midend.Proofs.NullSolution
import Midend.Proofs.Rewiring

/-!
# What pruning does to nullability

A graph is pruned when instructions are taken out of it that nullability does not depend on: ones that
dereference nothing, and null checks of values that were not null where they stood.  Uses of such a check
read on behind it.  The solution of the nullability equations stays what it was, for all values that are
left.

## Shape of the argument

A null check that goes supported facts about the value behind it.  It went because something else did so
already, further up: another dereference of the value, or the value is never null.  That other dereference
may go too, so its place is taken by one still further up, and so on.  Every step goes to an instruction
that is settled where the last one stands, so the steps end, at a dereference that stays
(`Pruned.exists_deref`).

Dereferences are recorded for the value behind all checks as well.  In what is left, chains of checks are
shorter and end at the same value.
-/

namespace Midend

namespace Graph

open Relation

variable {g g' : Graph} {a b p : BlockId} {c d i o r x y z : InstId} {m n : Nat} {inst : Inst}

open NullFacts

/-! ## Settled places in order -/

/-- The number of instructions that are settled at a place. -/
noncomputable def settledCount (g : Graph) (b : BlockId) (n : Nat) : Nat :=
  open Classical in g.attached.countP fun x => decide (g.Settled b n x)

section Count

variable (hw : g.WellFormed) (hg : g.Consistent)
include hw hg

/-- Fewer instructions are settled where a settled instruction stands. -/
theorem WellFormed.settledCount_lt (hx : g.Settled b n x) (hat : g.At x a m) :
    g.settledCount a m < g.settledCount b n := by
  classical
  refine countP_lt_countP (fun y _ hy => ?_) hat.mem_attached ?_ ?_
  · rw [decide_eq_true_iff] at hy ⊢
    exact hw.settled_trans hg hat hy hx
  · exact decide_eq_false (hw.not_settled_self hg hat)
  · exact decide_eq_true hx

/-- There are no more settled values than instructions. -/
theorem WellFormed.settledCount_le : g.settledCount b n ≤ g.insts.size := by
  have hsub : g.attached ⊆ g.instIds := by
    intro i hi
    obtain ⟨inst, hinst⟩ := hw.exists_inst hi
    rw [instIds, List.mem_map]
    exact ⟨i.index, List.mem_range.2 (Array.getElem?_eq_some_iff.1 (inst_eq_ok.1 hinst)).1, rfl⟩
  have hle : g.attached.length ≤ g.instIds.length := (hg.listed_once.subperm hsub).length_le
  rw [instIds, List.length_map, List.length_range] at hle
  exact Nat.le_trans List.countP_le_length hle

end Count

/-! ## Chains of checks -/

/-- An instruction is a null check of a value. -/
def CheckOf (g : Graph) (c o : InstId) : Prop :=
  ∃ inst, g.inst c = .ok inst ∧ inst.kind = .nullCheck ∧ inst.inputs[0]? = some o

/-- A value is behind all the checks of another. -/
def Root (g : Graph) (x y : InstId) : Prop := ReflTransGen g.CheckOf x y ∧ ∀ o, ¬ g.CheckOf y o

/-- An instruction dereferences one of its operands. -/
def Reads (g : Graph) (d r : InstId) : Prop :=
  ∃ inst k, g.inst d = .ok inst ∧ inst.kind.dereferencedInput? = some k ∧ inst.inputs[k]? = some r

/-- A check has one operand. -/
theorem CheckOf.unique (h : g.CheckOf c o) (h' : g.CheckOf c x) : x = o := by
  obtain ⟨inst, hinst, -, ho⟩ := h
  obtain ⟨inst', hinst', -, hx⟩ := h'
  rw [hinst] at hinst'
  cases hinst'
  exact Option.some.inj (hx.symm.trans ho)

theorem CheckOf.reads (h : g.CheckOf c o) : g.Reads c o := by
  obtain ⟨inst, hinst, hkind, ho⟩ := h
  exact ⟨inst, 0, hinst, by rw [hkind]; rfl, ho⟩

theorem Root.head (h : g.CheckOf c o) (hy : g.Root o y) : g.Root c y := ⟨.head h hy.1, hy.2⟩

/-- Behind a check is the root of the check. -/
theorem Root.of_head (h : g.CheckOf c o) (hy : g.Root c y) : g.Root o y := by
  rcases hy.1.cases_head with rfl | ⟨o', ho', htail⟩
  · exact absurd h (hy.2 o)
  · exact ⟨h.unique ho' ▸ htail, hy.2⟩

/-- A value has one root. -/
theorem Root.unique (hy : g.Root x y) (hz : g.Root x z) : z = y := by
  obtain ⟨hpath, hend⟩ := hy
  induction hpath using ReflTransGen.head_induction_on with
  | refl =>
    rcases hz.1.cases_head with rfl | ⟨o, ho, -⟩
    · rfl
    · exact absurd ho (hend o)
  | head hlink _ ih => exact ih (hz.of_head hlink)

section Chains

variable (hw : g.WellFormed) (hg : g.Consistent) (hl : g.Furnished)
include hw hg hl

/-- What an instruction dereferences is settled where it stands. -/
theorem Reads.settled (hr : g.Reads d r) (hb : g.Reachable b) (hat : g.At d b n) : g.Settled b n r := by
  obtain ⟨inst, k, hinst, hk, hget⟩ := hr
  have hkind : inst.kind ≠ .phi := fun h => by simp [h, Kind.dereferencedInput?] at hk
  exact hw.settled_operand_at hg hb hat (fun _ h => hl.not_mem_phis hinst hkind h) hinst hget

/-- What is behind checks is settled where they are. -/
theorem settled_of_checks (hb : g.Reachable b) (hx : g.Settled b n x) (h : ReflTransGen g.CheckOf x y) :
    g.Settled b n y := by
  induction h with
  | refl => exact hx
  | tail _ hlink ih =>
    obtain ⟨inst, hinst, hkind, ho⟩ := hlink
    exact hw.settled_checked hg hl hb ih hinst hkind ho

/-- Looking through checks comes to the root. -/
theorem exists_root (hb : g.Reachable b) (hx : g.At x b n) : ∃ y, g.unchecked x = .ok y ∧ g.Root x y := by
  have key : ∀ (depth : Nat) x b n, g.Reachable b → g.At x b n → g.settledCount b n < depth →
      ∃ y, g.uncheckedWithin depth x = .ok y ∧ g.Root x y := by
    intro depth
    induction depth with
    | zero => intro x b n _ _ hlt; omega
    | succ depth ih =>
      intro x b n hb hx hlt
      obtain ⟨inst, hinst⟩ := hw.exists_inst hx.mem_attached
      have hkind : g.kind x = .ok inst.kind := kind_eq_ok.2 ⟨inst, hinst, rfl⟩
      simp only [uncheckedWithin, hkind, Checked.bind_eq_ok, Except.ok.injEq, exists_eq_left']
      by_cases hcheck : inst.kind = .nullCheck
      · obtain ⟨o, ho⟩ := hl.exists_dereferenced hx.mem_attached hinst (k := 0) (by rw [hcheck]; rfl)
        have hlink : g.CheckOf x o := ⟨inst, hinst, hcheck, ho⟩
        have hset := hlink.reads.settled hw hg hl hb hx
        obtain ⟨a, m, hat, ha⟩ := hset.exists_at hb
        have hcount := hw.settledCount_lt hg hset hat
        obtain ⟨y, hy, hroot⟩ := ih o a m ha hat (by omega)
        refine ⟨y, ?_, hroot.head hlink⟩
        rw [hcheck]
        simp only [Kind.isNullCheck, if_true, Checked.bind_eq_ok]
        exact ⟨o, input_eq_ok.2 ⟨inst, hinst, ho⟩, hy⟩
      · refine ⟨x, ?_, .refl, fun o hlink => ?_⟩
        · have hno : inst.kind.isNullCheck = false := by
            cases hk : inst.kind <;> simp_all [Kind.isNullCheck]
          simp [hno]
        · obtain ⟨inst', hinst', hkind', -⟩ := hlink
          rw [hinst] at hinst'
          cases hinst'
          exact hcheck hkind'
  exact key _ x b n hb hx (Nat.lt_succ_of_le (hw.settledCount_le hg))

omit hl in
/-- The operand of a phi is settled in its predecessor. -/
theorem Furnished.settled_phi_operand (hl : g.Furnished) {k : Nat} (hx : Live g x) (hinst : g.inst x = .ok inst)
    (hb : inst.block = some b) (hkind : inst.kind = .phi) (hy : inst.inputs[k]? = some y)
    (hp : (g.preds b)[k]? = some p) (hreach : g.Reachable p) : ∃ n, g.Settled p n y := by
  obtain ⟨b', n, hb', block, hblock, hget⟩ := hx
  have hmem := List.mem_of_getElem? hget
  obtain ⟨inst', hinst', hrec⟩ := hw.listed b' block x hblock hmem
  rw [hinst] at hinst'
  cases hinst'
  obtain rfl := Option.some.inj (hb.symm.trans hrec)
  have hphi : x ∈ block.phis := by
    rcases List.mem_append.1 hmem with hmem | hmem
    · exact hmem
    · exact absurd hkind (hl.insts b block x inst hblock hmem hinst)
  obtain ⟨pred, hpred⟩ := hw.exists_block hg hreach
  rw [preds_eq hblock] at hp
  exact ⟨_, hw.settled_phi_operand hg hb' hblock hphi hinst hy hp hreach hpred⟩

/-- An instruction faults on the operand it dereferences and on the root of that. -/
theorem derefs_iff (hb : g.Reachable b) (hat : g.At d b n) :
    NullFacts.Derefs g d x ↔ ∃ r, g.Reads d r ∧ (x = r ∨ g.Root r x) := by
  have hroot : ∀ r, g.Reads d r → (g.unchecked r = .ok x ↔ g.Root r x) := by
    intro r hr
    obtain ⟨a, m, hatr, ha⟩ := (hr.settled hw hg hl hb hat).exists_at hb
    obtain ⟨y, hy, hroot⟩ := exists_root hw hg hl ha hatr
    rw [hy]
    refine ⟨fun h => Except.ok.inj h ▸ hroot, fun h => ?_⟩
    rw [hroot.unique h]
  constructor
  · rintro ⟨inst, k, r, hinst, hk, hr, hx⟩
    have hreads : g.Reads d r := ⟨inst, k, hinst, hk, hr⟩
    exact ⟨r, hreads, hx.imp_right (hroot r hreads).1⟩
  · rintro ⟨r, hreads, hx⟩
    have hx' := hx.imp_right (hroot r hreads).2
    obtain ⟨inst, k, hinst, hk, hr⟩ := hreads
    exact ⟨inst, k, r, hinst, hk, hr, hx'⟩

end Chains

/-! ## Pruned graphs -/

/-- Instructions were taken out that dereference nothing, or are checks of values that were not null where
they stood; what read such a check reads on behind it. -/
structure Pruned (g : Graph) (σ : InstId → InstId) (gone : List InstId) (g' : Graph) : Prop where
  rewired : Rewired g σ gone g'
  isStatic : g'.isStatic = g.isStatic
  follows : ∀ x, ReflTransGen (fun c o => c ∈ gone ∧ g.CheckOf c o) x (σ x)
  idle : ∀ c ∈ gone, ∀ o, g.Reads c o → g.CheckOf c o ∧
    ∀ b n, g.Reachable b → g.At c b n → NonNull g o ∨ ∃ d, g.Settled b n d ∧ Derefs g d o

variable {σ : InstId → InstId} {gone : List InstId}

/-- What is left stands where it stood, up to what is gone before it. -/
theorem Rewired.exists_at_before (h : Rewired g σ gone g') (hat : g'.At x b n) :
    x ∉ gone ∧ ∃ m, g.At x b m := by
  obtain ⟨block', hblock', hget⟩ := hat
  obtain ⟨block, hblock, rfl⟩ := h.block_eq_ok.1 hblock'
  obtain ⟨hx, hgone⟩ := Block.mem_body_without.1 (List.mem_of_getElem? hget)
  exact ⟨hgone, exists_at hblock hx⟩

/-- What is left is live when it was. -/
theorem Rewired.live_iff (h : Rewired g σ gone g') : Live g' x ↔ Live g x ∧ x ∉ gone := by
  constructor
  · rintro ⟨b, n, hb, hat⟩
    obtain ⟨hgone, m, hat⟩ := h.exists_at_before hat
    exact ⟨⟨b, m, h.reachable.1 hb, hat⟩, hgone⟩
  · rintro ⟨⟨b, n, hb, block, hblock, hget⟩, hgone⟩
    exact ⟨b, _, h.reachable.2 hb, h.at_left hblock hget hgone⟩

section Pruned

variable (h : Pruned g σ gone g')
include h

/-- What is not gone is read as before. -/
theorem Pruned.subst_eq (hx : x ∉ gone) : σ x = x := by
  rcases (h.follows x).cases_head with heq | ⟨o, ⟨hgone, -⟩, -⟩
  · exact heq.symm
  · exact absurd hgone hx

/-- A value stands for one that its checks lead to. -/
theorem Pruned.checks (x : InstId) : ReflTransGen g.CheckOf x (σ x) :=
  ReflTransGen.mono (fun _ _ hlink => hlink.2) _ _ (h.follows x)

section WellFormed

variable (hw : g.WellFormed) (hg : g.Consistent) (hl : g.Furnished) (hw' : g'.WellFormed)
include hw hw'

/-- What is left dereferences what it did, read on behind checks that are gone. -/
theorem Pruned.reads_iff (hd : d ∈ g.attached) (hgone : d ∉ gone) :
    g'.Reads d z ↔ ∃ r, g.Reads d r ∧ σ r = z ∧ z ∉ gone := by
  constructor
  · rintro ⟨inst', k, hinst', hk, hz⟩
    obtain ⟨inst, r, hinst, hr, rfl⟩ := h.rewired.exists_operand_left hd hgone hinst' hz
    obtain ⟨inst₁, hinst₁, heq, -⟩ := h.rewired.exists_inst hgone hinst'
    obtain rfl : inst = inst₁ := Except.ok.inj (hinst.symm.trans hinst₁)
    rw [heq] at hk
    exact ⟨r, ⟨inst, k, hinst, hk, hr⟩, rfl,
      h.rewired.not_mem_gone_of_wellFormed hw hw' hd hgone hinst (List.mem_of_getElem? hr)⟩
  · rintro ⟨r, ⟨inst, k, hinst, hk, hr⟩, rfl, -⟩
    obtain ⟨xs, hinst', hxs⟩ := h.rewired.kept d inst hgone hinst
    obtain rfl := hxs hd
    exact ⟨_, k, hinst', hk, by rw [List.getElem?_map, hr]; rfl⟩

/-- A check that is left checks what its operand stands for. -/
theorem Pruned.checkOf (hd : d ∈ g.attached) (hgone : d ∉ gone) (hlink : g.CheckOf d o) :
    g'.CheckOf d (σ o) ∧ σ o ∉ gone := by
  obtain ⟨inst, hinst, hkind, ho⟩ := hlink
  obtain ⟨xs, hinst', hxs⟩ := h.rewired.kept d inst hgone hinst
  obtain rfl := hxs hd
  exact ⟨⟨_, hinst', hkind, by rw [List.getElem?_map, ho]; rfl⟩,
    h.rewired.not_mem_gone_of_wellFormed hw hw' hd hgone hinst (List.mem_of_getElem? ho)⟩

include hg hl

/-- The chain of checks from what a value is now read as has the root that the value had. -/
theorem Pruned.root (hx : Live g x) (hz : ReflTransGen (fun c o => c ∈ gone ∧ g.CheckOf c o) x z)
    (hgone : z ∉ gone) (hy : g.Root x y) : g'.Root z y := by
  obtain ⟨hpath, hend⟩ := hy
  induction hpath using ReflTransGen.head_induction_on generalizing z with
  | refl =>
    obtain rfl : z = y := by
      rcases hz.cases_head with heq | ⟨o, ⟨-, hlink⟩, -⟩
      · exact heq.symm
      · exact absurd hlink (hend o)
    refine ⟨.refl, fun o ⟨inst', hinst', hkind, ho⟩ => ?_⟩
    obtain ⟨inst, o', hinst, ho', -⟩ := h.rewired.exists_operand_left hx.mem_attached hgone hinst' ho
    obtain ⟨inst₁, hinst₁, heq, -⟩ := h.rewired.exists_inst hgone hinst'
    obtain rfl : inst = inst₁ := Except.ok.inj (hinst.symm.trans hinst₁)
    rw [heq] at hkind
    exact hend o' ⟨inst, hinst, hkind, ho'⟩
  | @head x o hlink _ ih =>
    obtain ⟨b, n, hb, hat⟩ := id hx
    obtain ⟨a, m, hato, ha⟩ := (hlink.reads.settled hw hg hl hb hat).exists_at hb
    by_cases hxgone : x ∈ gone
    · -- the check is gone, so the value is read as the one behind it
      rcases hz.cases_head with rfl | ⟨o', ⟨-, hlink'⟩, htail⟩
      · exact absurd hxgone hgone
      · obtain rfl := hlink.unique hlink'
        exact ih ⟨a, m, ha, hato⟩ htail hgone
    · obtain rfl : x = z := by
        rcases hz.cases_head with heq | ⟨o', ⟨hx', -⟩, -⟩
        · exact heq
        · exact absurd hx' hxgone
      obtain ⟨hlink', hstays⟩ := h.checkOf hw hw' hx.mem_attached hxgone hlink
      exact (ih ⟨a, m, ha, hato⟩ (h.follows o) hstays).head hlink'

/-- A dereference that stays is one of the same value. -/
theorem Pruned.derefs (hl' : g'.Furnished) (hd : Live g d) (hgone : d ∉ gone) (hx : x ∉ gone)
    (hderefs : Derefs g d x) : Derefs g' d x := by
  obtain ⟨b, n, hb, hat⟩ := id hd
  obtain ⟨b', n', hb', hat'⟩ := h.rewired.live_iff.2 ⟨hd, hgone⟩
  rw [derefs_iff hw hg hl hb hat] at hderefs
  rw [derefs_iff hw' (h.rewired.consistent hg) hl' hb' hat']
  obtain ⟨r, hr, hx'⟩ := hderefs
  obtain ⟨inst, k, hinst, hk, hget⟩ := id hr
  have hstays := h.rewired.not_mem_gone_of_wellFormed hw hw' hd.mem_attached hgone hinst
    (List.mem_of_getElem? hget)
  refine ⟨σ r, (h.reads_iff hw hw' hd.mem_attached hgone).2 ⟨r, hr, rfl, hstays⟩, ?_⟩
  rcases hx' with rfl | hroot
  · exact .inl (h.subst_eq hx).symm
  · obtain ⟨a, m, hatr, ha⟩ := (hr.settled hw hg hl hb hat).exists_at hb
    exact .inr (h.root hw hg hl hw' ⟨a, m, ha, hatr⟩ (h.follows r) hstays hroot)

/-- A dereference of what is left was one of the same value, or the value is a check. -/
theorem Pruned.derefs_before (hl' : g'.Furnished) (hd : Live g' d) (hderefs : Derefs g' d x) :
    Derefs g d x ∨ Live g x ∧ ∃ o, g.CheckOf x o := by
  obtain ⟨hlive, hgone⟩ := h.rewired.live_iff.1 hd
  obtain ⟨b, n, hb, hat⟩ := hlive
  obtain ⟨b', n', hb', hat'⟩ := hd
  rw [derefs_iff hw' (h.rewired.consistent hg) hl' hb' hat'] at hderefs
  rw [derefs_iff hw hg hl hb hat]
  obtain ⟨z, hz, hx⟩ := hderefs
  obtain ⟨r, hr, rfl, hstays⟩ := (h.reads_iff hw hw' hat.mem_attached hgone).1 hz
  have hset := hr.settled hw hg hl hb hat
  rcases hx with rfl | hroot
  · by_cases hcheck : ∃ o, g.CheckOf (σ r) o
    · obtain ⟨a, m, hatz, ha⟩ := (settled_of_checks hw hg hl hb hset (h.checks r)).exists_at hb
      exact .inr ⟨⟨a, m, ha, hatz⟩, hcheck⟩
    · exact .inl ⟨r, hr, .inr ⟨h.checks r, not_exists.1 hcheck⟩⟩
  · obtain ⟨a, m, hatr, ha⟩ := hset.exists_at hb
    obtain ⟨y, -, hy⟩ := exists_root hw hg hl ha hatr
    have hy' := h.root hw hg hl hw' ⟨a, m, ha, hatr⟩ (h.follows r) hstays hy
    exact .inl ⟨r, hr, .inr (hroot.unique hy' ▸ hy)⟩

/-- Where a value was dereferenced, a dereference of it is left on the way there, unless it is never
null. -/
theorem Pruned.exists_deref (hl' : g'.Furnished) (hx : x ∉ gone) (hb : g.Reachable b) (hat : g.At d b n)
    (hderefs : Derefs g d x) :
    NonNull g x ∨ ∃ d' b' n', d' ∉ gone ∧ g.At d' b' n' ∧ g.Dom b' b ∧ Derefs g' d' x := by
  -- by induction on what is settled where the dereference stands
  generalize hcount : g.settledCount b n = count
  induction count using Nat.strongRecOn generalizing d b n with
  | _ count ih =>
  have hup : ∀ e, g.Settled b n e → Derefs g e x →
      NonNull g x ∨ ∃ d' b' n', d' ∉ gone ∧ g.At d' b' n' ∧ g.Dom b' b ∧ Derefs g' d' x := by
    intro e hset he
    obtain ⟨a, m, hate, ha⟩ := hset.exists_at hb
    have hdom : g.Dom a b := by
      obtain ⟨a', m', hate', hpos⟩ := id hset
      obtain ⟨rfl, -⟩ := hw.at_unique hg hate hate'
      rcases hpos with ⟨rfl, -⟩ | hdom
      · exact .refl hb
      · exact hdom.1
    refine (ih _ (hcount ▸ hw.settledCount_lt hg hset hate) ha hate he rfl).imp_right ?_
    rintro ⟨d', b', n', hgone, hat', hdom', hd'⟩
    exact ⟨d', b', n', hgone, hat', hdom'.trans hdom, hd'⟩
  by_cases hgone : d ∈ gone
  · rw [derefs_iff hw hg hl hb hat] at hderefs
    obtain ⟨o, ho, hxo⟩ := hderefs
    obtain ⟨hcheck, hidle⟩ := h.idle d hgone o ho
    rcases hxo with rfl | hroot
    · rcases hidle b n hb hat with hnn | ⟨e, hset, he⟩
      · exact .inl hnn
      · exact hup e hset he
    · -- the innermost check of the chain dereferences the root itself
      rcases hroot.1.cases_tail with rfl | ⟨e, hchain, hlink⟩
      · rcases hidle b n hb hat with hnn | ⟨e, hset, he⟩
        · exact .inl hnn
        · exact hup e hset he
      · have hset := settled_of_checks hw hg hl hb (ho.settled hw hg hl hb hat) hchain
        obtain ⟨inst, k, hinst, hk, hget⟩ := hlink.reads
        exact hup e hset ⟨inst, k, x, hinst, hk, hget, .inl rfl⟩
  · exact .inr ⟨d, b, n, hgone, hat, .refl hb,
      h.derefs hw hg hl hw' hl' ⟨b, n, hb, hat⟩ hgone hx hderefs⟩

/-- A dereference that is gone was of a value that is not null. -/
theorem Pruned.derefdAt (hl' : g'.Furnished) (hx : x ∉ gone) (hderefs : DerefdAt g x p) :
    NonNull g x ∨ DerefdAt g' x p := by
  obtain ⟨d, b, n, hat, hdom, hd⟩ := hderefs
  refine (h.exists_deref hw hg hl hw' hl' hx hdom.left hat hd).imp_right ?_
  rintro ⟨d', b', n', hgone, ⟨block, hblock, hget⟩, hdom', hd'⟩
  exact ⟨d', b', _, h.rewired.at_left hblock hget hgone, h.rewired.dom.2 (hdom'.trans hdom), hd'⟩

/-! ## The solution -/

/-- A value that is never null stays so. -/
theorem Pruned.nonNull (hl' : g'.Furnished) (hx : NonNull g x) (hgone : x ∉ gone) : NonNull g' x := by
  refine ⟨fun y => NonNull g y ∧ y ∉ gone, fun y ⟨hy, hgone⟩ => ?_, hx, hgone⟩
  have hsup := hy.supported
  obtain ⟨inst, hinst, hseed⟩ := hsup.seeded
  obtain ⟨xs, hinst', hxs⟩ := h.rewired.kept y inst hgone hinst
  obtain rfl := hxs hsup.live.mem_attached
  refine ⟨h.rewired.live_iff.2 ⟨hsup.live, hgone⟩, ⟨_, hinst', ?_⟩, ?_⟩
  · rw [h.isStatic, ← hseed]
    rfl
  · intro inst₁ b hinst₁ hb hkind hty k w p hw₁ hp hreach
    rw [hinst'] at hinst₁
    cases hinst₁
    rw [List.getElem?_map, Option.map_eq_some_iff] at hw₁
    obtain ⟨v, hv, rfl⟩ := hw₁
    rw [h.rewired.edges.2] at hp
    rw [h.rewired.reachable] at hreach
    have hstays := h.rewired.not_mem_gone_of_wellFormed hw hw' hsup.live.mem_attached hgone hinst
      (List.mem_of_getElem? hv)
    have hold := hsup.phi inst b hinst hb hkind hty k v p hv hp hreach
    -- a value that is read in place of a check was dereferenced by the last check before it
    have hnew : NonNull g (σ v) ∨ DerefdAt g (σ v) p := by
      rcases (h.follows v).cases_tail with heq | ⟨e, hchain, -, hlink⟩
      · rwa [heq, or_comm]
      · obtain ⟨m, hset⟩ := hl.settled_phi_operand hw hg hsup.live hinst hb hkind hv hp hreach
        have hsete := settled_of_checks hw hg hl hreach hset
          (ReflTransGen.mono (fun _ _ hlink => hlink.2) _ _ hchain)
        obtain ⟨a, m', hate, -⟩ := hsete.exists_at hreach
        obtain ⟨einst, k', heinst, hk', hget⟩ := hlink.reads
        exact .inr ⟨e, a, m', hate, hsete.dom hreach hate fun hate' => (hw.at_unique hg hate' hate).1,
          einst, k', σ v, heinst, hk', hget, .inl rfl⟩
    rcases hnew with hnew | hnew
    · exact .inr ⟨hnew, hstays⟩
    · rcases h.derefdAt hw hg hl hw' hl' hstays hnew with hnew | hnew
      · exact .inr ⟨hnew, hstays⟩
      · exact .inl hnew

/-- A value of what is left that is never null was so before. -/
theorem Pruned.nonNull_before (hl' : g'.Furnished) (hx : NonNull g' x) : NonNull g x := by
  refine ⟨fun y => NonNull g' y ∨ Live g y ∧ ∃ o, g.CheckOf y o, fun y hy => ?_, .inl hx⟩
  rcases hy with hy | ⟨hlive, o, inst, hinst, hkind, -⟩
  swap
  · exact supported_of_check hlive hinst hkind
  have hsup := hy.supported
  obtain ⟨hlive, hgone⟩ := h.rewired.live_iff.1 hsup.live
  obtain ⟨inst', hinst', hseed⟩ := hsup.seeded
  obtain ⟨inst, hinst, heq, hmap⟩ := h.rewired.exists_inst hgone hinst'
  refine ⟨hlive, ⟨inst, hinst, ?_⟩, ?_⟩
  · rw [← hseed, h.isStatic, heq]
    rfl
  · intro inst₁ b hinst₁ hb hkind hty k v p hv hp hreach
    rw [hinst] at hinst₁
    cases hinst₁
    obtain ⟨m, hset⟩ := hl.settled_phi_operand hw hg hlive hinst hb hkind hv hp hreach
    have hstays := h.rewired.not_mem_gone_of_wellFormed hw hw' hlive.mem_attached hgone hinst
      (List.mem_of_getElem? hv)
    by_cases hv' : v ∈ gone
    · -- an operand that is gone was a check
      obtain ⟨a, m', hatv, ha⟩ := hset.exists_at hreach
      rcases (h.follows v).cases_head with hsame | ⟨o, ⟨-, hlink⟩, -⟩
      · exact absurd hv' (hsame ▸ hstays)
      · exact .inr (.inr ⟨⟨a, m', ha, hatv⟩, o, hlink⟩)
    · have hget : inst'.inputs[k]? = some v := by
        rw [hmap hlive.mem_attached, List.getElem?_map, hv, Option.map_some, h.subst_eq hv']
      rw [heq] at hinst'
      rcases hsup.phi _ b hinst' hb hkind hty k v p hget (h.rewired.edges.2 ▸ hp)
        (h.rewired.reachable.2 hreach) with ⟨d, a, m', hat, hdom, hd⟩ | hv
      · rcases h.derefs_before hw hg hl hw' hl' ⟨a, m', hdom.left, hat⟩ hd with hd | hcheck
        · obtain ⟨-, m'', hat⟩ := h.rewired.exists_at_before hat
          exact .inl ⟨d, a, m'', hat, h.rewired.dom.1 hdom, hd⟩
        · exact .inr (.inr hcheck)
      · exact .inr (.inl hv)

omit hl hw' hg in
theorem Pruned.not_mem_gone (hx : g'.isRemoved x = false) : x ∉ gone := by
  intro hmem
  obtain ⟨inst, hinst⟩ := hw.exists_inst (h.rewired.listed x hmem)
  have hlt := (Array.getElem?_eq_some_iff.1 (inst_eq_ok.1 hinst)).1
  have hinst' := inst_eq_ok.2 (Array.getElem?_eq_getElem (h.rewired.slots ▸ hlt))
  rw [isRemoved_eq hinst', (h.rewired.removed x _ hmem hinst').2] at hx
  cases hx

/-- Facts about a graph are facts about what is left, without the dereferences that are gone. -/
theorem Pruned.represents {f f' : NullFacts} (hl' : g'.Furnished) (hf : Represents g f)
    (hvalues : ∀ x, f'.isNonNull x = f.isNonNull x)
    (hderefs : ∀ x d, g'.isRemoved x = false → (d ∈ f'.derefPoints x ↔ d ∈ f.derefPoints x ∧ d ∉ gone)) :
    Represents g' f' := by
  have hstill : ∀ x, g'.isRemoved x = false → x ∉ gone ∧ g.isRemoved x = false := fun x hx => by
    have hgone := h.not_mem_gone hw hx
    exact ⟨hgone, h.rewired.isRemoved hgone ▸ hx⟩
  refine ⟨fun x hx => ?_, fun x d hx hd => ?_, fun x d hx hnn hd hxd => ?_⟩
  · obtain ⟨hgone, hold⟩ := hstill x hx
    rw [hvalues, hf.values x hold]
    exact ⟨fun hnn => h.nonNull hw hg hl hw' hl' hnn hgone, h.nonNull_before hw hg hl hw' hl'⟩
  · obtain ⟨hgone, hold⟩ := hstill x hx
    obtain ⟨hd, hdgone⟩ := (hderefs x d hx).1 hd
    obtain ⟨hlive, hxd⟩ := hf.derefs x d hold hd
    exact ⟨h.rewired.live_iff.2 ⟨hlive, hdgone⟩, h.derefs hw hg hl hw' hl' hlive hdgone hgone hxd⟩
  · obtain ⟨hgone, hold⟩ := hstill x hx
    obtain ⟨hlive, hdgone⟩ := h.rewired.live_iff.1 hd
    have hnn' : ¬ NonNull g x := fun hnn' => hnn (h.nonNull hw hg hl hw' hl' hnn' hgone)
    rcases h.derefs_before hw hg hl hw' hl' hd hxd with hxd | ⟨hx, o, inst, hinst, hkind, -⟩
    · exact (hderefs x d hx).2 ⟨hf.all_derefs x d hold hnn' hlive hxd, hdgone⟩
    · exact absurd (nonNull_of_check hx hinst hkind) hnn'

end WellFormed

end Pruned

end Graph

end Midend
