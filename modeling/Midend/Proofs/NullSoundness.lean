import Midend.Proofs.Arena
import Midend.Proofs.Execution
import Midend.Proofs.NullFacts

/-!
# Values called not null are not null

The nullability analysis is sound for every run: a value it calls not null is never null, and a value it
calls not null at a point is not null whenever the point starts executing.

## Shape of the argument

Two facts are carried along a run.  A value called not null has not been null so far; and a value is not
null while an instruction that dereferences it is settled, because the dereference would have ended the
run and neither value has been computed again since (`Run.settled_fact`).

A phi takes its operand at the end of a predecessor.  By the fixed point the operand is called not null
there, or some dereference of it dominates the predecessor, and so is settled at its end.  Nothing is
assumed about the order in which blocks were analysed, so loops need no argument of their own.
-/

namespace Midend

namespace NullFacts

open Midend.Graph

/-- What an instruction may evaluate to, as far as null goes.  A null check gives its operand; new
objects and the receiver are not null; null is a reference; dereferencing null ends the run, and so does
leaving the method. -/
def semantics (g : Graph) : Semantics Unit where
  exec inst args _ v _ :=
    inst.kind.isExit = false ∧
    ¬ inst.kind.FaultsOnNull args ∧
    (v = .null → inst.ty = .ref) ∧
    (inst.kind = .nullCheck → args[0]? = some v) ∧
    (inst.kind.isAllocation = true → v ≠ .null) ∧
    (inst.kind = .param 0 → g.isStatic = false → v ≠ .null)
  phi inst v := v = .null → inst.ty = .ref

end NullFacts

/-- A run is about to execute an instruction: it comes next in its block, or is a phi of a block that is
about to be entered. -/
def RunState.Starts {σ : Type} (g : Graph) (s : RunState σ) (i : InstId) : Prop :=
  s.Next g i ∨ ∃ block t target, g.block s.block = .ok block ∧ s.pos = block.insts.length ∧
    t ∈ block.succs ∧ g.block t = .ok target ∧ i ∈ target.phis

namespace NullFacts

open Midend.Graph

variable {g : Graph} {t : DomTree} {f : NullFacts} {s : RunState Unit} {x y d : InstId}

/-- Checks hand on what they check. -/
theorem semantics_passesChecks : (semantics g).PassesChecks :=
  fun _ _ _ _ _ hkind hexec => hexec.2.2.2.1 hkind

/-- The value of an instruction that is not null by itself. -/
theorem ne_null_of_seed {inst : Inst} {args : List Val} {v : Val} {m m' : Unit}
    (hexec : (semantics g).exec inst args m v m') (hseed : seed g.isStatic inst = .notNull)
    (hphi : inst.kind ≠ .phi) : v ≠ .null := by
  obtain ⟨-, hderef, href, hcheck, halloc, hparam⟩ := hexec
  by_cases hty : inst.ty = .ref
  · rw [seed, if_neg (not_not.2 hty)] at hseed
    cases hkind : inst.kind with
    | nullCheck =>
      rw [hkind] at hderef
      exact fun h => hderef ((hcheck hkind).trans (congrArg some h))
    | newInstance owner => exact halloc (by rw [hkind]; rfl)
    | newArray component => exact halloc (by rw [hkind]; rfl)
    | param n =>
      simp only [hkind] at hseed
      split at hseed
      · next hrecv =>
        simp only [Bool.and_eq_true, decide_eq_true_eq, Bool.not_eq_true'] at hrecv
        exact hparam (hrecv.1 ▸ hkind) hrecv.2
      · cases hseed
    | phi => exact absurd hkind hphi
    | _ => simp [hkind] at hseed
  · exact fun h => hty (href h)

section Sound

variable (hw : g.WellFormed) (hg : g.Consistent) (hl : g.Layout) (hf : Answer g t f)
include hw hg hl hf

/-- While a dereference of a value is settled, the value is not null. -/
theorem ne_null_of_deref (hrun : Run g (semantics g) (fun _ => True) s) (hd : d ∈ f.derefPoints x)
    (hset : s.Settles g d) : s.env x ≠ some .null := by
  obtain ⟨⟨b, n, hb, hat⟩, inst, k, r, hinst, hk, hr, hx⟩ := hf.derefs x d hd
  have hkind : inst.kind ≠ .phi := fun h => by simp [h, Kind.dereferencedInput?] at hk
  have hphi : ∀ b block, g.block b = .ok block → d ∉ block.phis :=
    fun _ _ h => hl.not_mem_phis hinst hkind h
  have hrset : g.Settled b n r := hw.settled_operand_at hg hb hat (fun _ h => hphi _ _ h) hinst hr
  have hxset : g.Settled b n x := by
    rcases hx with rfl | hx
    · exact hrset
    · exact hw.settled_unchecked hg hl hb hrset hx
  refine hrun.settled_fact hw hg (fun env => env x ≠ some .null) [x] hphi ?_ ?_ ?_ hset
  · intro b' n' hat' y hy
    obtain ⟨rfl, rfl⟩ := hw.at_unique hg hat hat'
    obtain rfl : y = x := by simpa using hy
    exact .inr hxset
  · intro env env' henv hne
    rwa [henv x (by simp)]
  · intro s s' args hrun hstep
    obtain ⟨hnext, hargs, v, mem, hexec, rfl⟩ := hstep.exec_inv hinst
    have hrs : s.Settles g r := hnext.settles_operand hw hg hrun.reachable hinst hr
    have harg : s.env r ≠ some .null := by
      have hget := getElem?_of_mapM hargs k
      rw [hr] at hget
      exact fun h => hexec.2.1 (Kind.faultsOnNull_iff.2 ⟨k, hk, hget.trans h⟩)
    have hxr : s.env x = s.env r := by
      rcases hx with rfl | hx
      · rfl
      · exact (hrun.env_unchecked hw hg hl semantics_passesChecks hx hrs).symm
    have hxd : x ≠ d := by
      rintro rfl
      exact hw.not_settled_self hg hat hxset
    show Function.update s.env d _ x ≠ some .null
    rwa [Function.update_of_ne hxd, hxr]

/-- A value called not null is not null in any state of a run. -/
theorem ne_null_of_isNonNull (ht : DomTree.ofGraph g = .ok t)
    (hrun : Run g (semantics g) (fun _ => True) s) (hx : f.isNonNull x = true) :
    s.env x ≠ some .null := by
  induction hrun generalizing x with
  | start => simp
  | @step s s' e hrun hstep ih =>
    obtain ⟨-, inst, hinst, hseed⟩ := hf.seeded x hx
    cases hstep with
    | @exec block i inst' args v mem hb hi hinst' hargs hexec =>
      show Function.update s.env i (some v) x ≠ some .null
      by_cases hxi : x = i
      · subst hxi
        rw [hinst] at hinst'
        cases hinst'
        rw [Function.update_self]
        have hphi := hl.insts _ _ _ _ hb (List.mem_of_getElem? hi) hinst
        exact fun h => ne_null_of_seed hexec hseed hphi (Option.some.inj h)
      · rw [Function.update_of_ne hxi]
        exact ih hx
    | @goto block target t' n hb hpos ht' htarget hn hphi =>
      show (if x ∈ target.phis then g.phiValue s.env n x else s.env x) ≠ some .null
      by_cases hmem : x ∈ target.phis
      · rw [if_pos hmem]
        intro hnull
        -- the phi takes null: it is a reference, and so is its operand on this edge
        have hkind := hl.phis _ _ _ _ htarget hmem hinst
        have hty := hphi x hmem inst _ hinst hnull rfl
        obtain ⟨inst', b', hinst', hb', hall⟩ := hf.phis x inst hx hinst hkind hty
        rw [hinst] at hinst'
        cases hinst'
        obtain ⟨inst', hinst', hrec⟩ := hw.listed _ _ x htarget (List.mem_append_left _ hmem)
        rw [hinst] at hinst'
        cases hinst'
        obtain rfl : b' = t' := Option.some.inj (hb'.symm.trans hrec)
        rw [phiValue, inst_eq_ok.1 hinst] at hnull
        simp only [Option.bind_some, Option.bind_eq_some_iff] at hnull
        obtain ⟨y, hy, hnull⟩ := hnull
        have hs := hrun.reachable
        rcases hall n y s.block hy (preds_eq htarget ▸ hn) ((DomTree.isReachable_iff hg ht).2 hs) with
          ⟨d, hd, dinst, db, hdinst, hdb, hdom⟩ | hy
        · refine ne_null_of_deref hw hg hl hf hrun hd ⟨block, hb, ?_⟩ hnull
          obtain ⟨m, hat⟩ := hg.exists_at_block hdinst hdb
          rw [hpos, ← List.length_append, ← Block.body]
          exact hat.settled_end ((DomTree.dominates_iff hg ht).1 hdom) hb
        · exact ih (by simpa [isNonNull] using hy) hnull
      · rw [if_neg hmem]
        exact ih hx

/-- A value called not null at a point is not null when the point starts. -/
theorem ne_null_of_isNonNullAt (ht : DomTree.ofGraph g = .ok t)
    (hrun : Run g (semantics g) (fun _ => True) s) {point : InstId}
    (hx : f.isNonNullAt g t x point = .ok true) (hpoint : s.Starts g point) :
    s.env x ≠ some .null := by
  rw [isNonNullAt] at hx
  split at hx
  · next hnn => exact ne_null_of_isNonNull hw hg hl hf ht hrun hnn
  obtain ⟨d, hd, htest⟩ := Checked.exists_of_anyM hx
  split at htest
  · simp at htest
  next hne =>
  refine ne_null_of_deref hw hg hl hf hrun hd ?_
  obtain ⟨⟨b, n, hb, hat⟩, inst, k, r, hinst, hk, -, -⟩ := hf.derefs x d hd
  have hkind : inst.kind ≠ .phi := fun h => by simp [h, Kind.dereferencedInput?] at hk
  rcases hpoint with ⟨block, hblock, hnext⟩ | ⟨block, t', target, hblock, hpos, hsucc, htarget, hmem⟩
  · have hset := hw.settled_of_instDominates hg ht hat (at_insts hblock hnext) hne htest
    exact ⟨block, hblock, hset⟩
  · obtain ⟨m, hm, hat'⟩ := at_phis htarget hmem
    -- only a phi of the target could stand before the phi in its block
    have hset : g.Settled t' 0 d := by
      obtain ⟨d', m', hat'', ⟨rfl, hm'⟩ | hdom⟩ := hw.settled_of_instDominates hg ht hat hat' hne htest
      · rw [at_iff_of_block htarget, Block.body, List.getElem?_append_left (by omega)] at hat''
        exact absurd (List.mem_of_getElem? hat'') (hl.not_mem_phis hinst hkind htarget)
      · exact ⟨d', m', hat'', .inr hdom⟩
    have hend := hset.of_edge hrun.reachable (succs_eq hblock ▸ hsucc) hblock
    rw [Block.body, List.length_append, ← hpos] at hend
    exact ⟨block, hblock, hend⟩

end Sound

/-- The analysis answers on every well-formed graph, and its answer holds of every run. -/
theorem ofGraph_sound (hg : g.Consistent) (hv : g.violations = .ok []) (hl : g.Layout) :
    ∃ t f, DomTree.ofGraph g = .ok t ∧ ofGraph g t = .ok (some f) ∧
      ∀ s, Run g (semantics g) (fun _ => True) s →
        (∀ x, f.nullability x = .notNull → s.env x ≠ some .null) ∧
        ∀ x point, f.isNonNullAt g t x point = .ok true → s.Starts g point → s.env x ≠ some .null := by
  have hw := hg.violations_eq_nil_iff.1 hv
  obtain ⟨entry, hentry, -⟩ := hw.entry
  obtain ⟨t, ht⟩ := DomTree.ofGraph_eq_ok (mem_blockIds_iff.2 ⟨entry, hentry⟩)
  obtain ⟨f, hf, hanswer⟩ := ofGraph_spec hw hg hl ht
  refine ⟨t, f, ht, hf, fun s hrun => ⟨fun x hx => ?_, fun x point hx hpoint => ?_⟩⟩
  · exact ne_null_of_isNonNull hw hg hl hanswer ht hrun (by simp [isNonNull, hx])
  · exact ne_null_of_isNonNullAt hw hg hl hanswer ht hrun hx hpoint

/-- Two nested loops whose phis carry a checked parameter round, and an unreachable block that would feed
null to the outer one. -/
def nestedLoops : Graph := .ofEdits "nestedLoops" [
  .setStatic true, .createBlock, .createBlock, .createBlock, .createBlock, .createBlock,
  .createInst (.param 0) .ref [], .appendInst ⟨0⟩ ⟨0⟩,
  .createInst (.param 1) .bool [], .appendInst ⟨0⟩ ⟨1⟩,
  .createInst .nullCheck .ref [⟨0⟩], .appendInst ⟨0⟩ ⟨2⟩,
  .createInst .phi .ref [⟨2⟩], .appendPhi ⟨1⟩ ⟨3⟩,
  .createInst .phi .ref [⟨3⟩], .appendPhi ⟨2⟩ ⟨4⟩, .pushInput ⟨4⟩ ⟨4⟩, .pushInput ⟨3⟩ ⟨4⟩,
  .createInst .jump .void [], .appendInst ⟨0⟩ ⟨5⟩, .addEdge ⟨0⟩ ⟨1⟩,
  .createInst .jump .void [], .appendInst ⟨1⟩ ⟨6⟩, .addEdge ⟨1⟩ ⟨2⟩,
  .createInst .branch .void [⟨1⟩], .appendInst ⟨2⟩ ⟨7⟩, .addEdge ⟨2⟩ ⟨2⟩, .addEdge ⟨2⟩ ⟨3⟩,
  .createInst .branch .void [⟨1⟩], .appendInst ⟨3⟩ ⟨8⟩, .addEdge ⟨3⟩ ⟨1⟩, .addEdge ⟨3⟩ ⟨4⟩,
  .createInst .ret .void [⟨4⟩], .appendInst ⟨4⟩ ⟨9⟩,
  .createInst .null .ref [], .appendInst ⟨5⟩ ⟨10⟩, .pushInput ⟨3⟩ ⟨10⟩,
  .createInst .jump .void [], .appendInst ⟨5⟩ ⟨11⟩, .addEdge ⟨5⟩ ⟨1⟩]

/-- A run of `nestedLoops` comes to the inner loop with an object in its phi. -/
theorem exists_run_nestedLoops : ∃ s, Run nestedLoops (semantics nestedLoops) (fun _ => True) s ∧
    s.Starts nestedLoops ⟨7⟩ ∧ s.env ⟨4⟩ = some (.obj 0) := by
  have hphi : ∀ phi inst, phi = ⟨3⟩ ∨ phi = ⟨4⟩ → nestedLoops.inst phi = .ok inst → inst.ty = .ref := by
    rintro _ _ (rfl | rfl) ⟨⟩ <;> rfl
  have h₀ : Run nestedLoops (semantics nestedLoops) (fun _ => True) ⟨⟨0⟩, 0, fun _ => none, ()⟩ :=
    .start trivial
  have h₁ : Run nestedLoops (semantics nestedLoops) (fun _ => True) ⟨_, _, _, ()⟩ :=
    h₀.step (.exec (v := .obj 0) rfl rfl rfl rfl ⟨rfl, id, nofun, nofun, nofun, nofun⟩)
  have h₂ : Run nestedLoops (semantics nestedLoops) (fun _ => True) ⟨_, _, _, ()⟩ :=
    h₁.step (.exec (v := .num 1) rfl rfl rfl rfl ⟨rfl, id, nofun, nofun, nofun, nofun⟩)
  have h₃ : Run nestedLoops (semantics nestedLoops) (fun _ => True) ⟨_, _, _, ()⟩ :=
    h₂.step (.exec (v := .obj 0) rfl rfl rfl rfl
      ⟨rfl, by rintro ⟨⟩, nofun, fun _ => rfl, nofun, nofun⟩)
  have h₄ : Run nestedLoops (semantics nestedLoops) (fun _ => True) ⟨_, _, _, ()⟩ :=
    h₃.step (.exec (v := .num 0) rfl rfl rfl rfl ⟨rfl, id, nofun, nofun, nofun, nofun⟩)
  have h₅ := h₄.step (.goto (t := ⟨1⟩) (n := 0) rfl rfl (by decide) rfl rfl
    fun phi hmem inst _ hinst _ _ => hphi phi inst (.inl (List.mem_singleton.1 hmem)) hinst)
  have h₆ : Run nestedLoops (semantics nestedLoops) (fun _ => True) ⟨_, _, _, ()⟩ :=
    h₅.step (.exec (v := .num 0) rfl rfl rfl rfl ⟨rfl, id, nofun, nofun, nofun, nofun⟩)
  have h₇ := h₆.step (.goto (t := ⟨2⟩) (n := 0) rfl rfl (by decide) rfl rfl
    fun phi hmem inst _ hinst _ _ => hphi phi inst (.inr (List.mem_singleton.1 hmem)) hinst)
  exact ⟨_, h₇, .inl ⟨_, rfl, rfl⟩, rfl⟩

/-- In `nestedLoops` both phis are called not null, and a run has an object in the inner one. -/
theorem ofGraph_sound_nestedLoops :
    nestedLoops.Consistent ∧ nestedLoops.violations = .ok [] ∧ nestedLoops.Layout ∧
      (∃ s, Run nestedLoops (semantics nestedLoops) (fun _ => True) s ∧ s.Starts nestedLoops ⟨7⟩ ∧
        s.env ⟨4⟩ = some (.obj 0)) ∧
      ∃ t f, DomTree.ofGraph nestedLoops = .ok t ∧ ofGraph nestedLoops t = .ok (some f) ∧
        (f.nullability ⟨3⟩ = .notNull ∧ f.nullability ⟨4⟩ = .notNull) ∧
        ∀ s, Run nestedLoops (semantics nestedLoops) (fun _ => True) s →
          (∀ x, f.nullability x = .notNull → s.env x ≠ some .null) ∧
          ∀ x point, f.isNonNullAt nestedLoops t x point = .ok true → s.Starts nestedLoops point →
            s.env x ≠ some .null := by
  have hconsistent : nestedLoops.Consistent := by decide +kernel
  have hv : nestedLoops.violations = .ok [] := by decide +kernel
  have hl : nestedLoops.Layout := by decide +kernel
  obtain ⟨t, f, ht, hf, hsound⟩ := ofGraph_sound hconsistent hv hl
  have hphis : (do (ofGraph nestedLoops (← DomTree.ofGraph nestedLoops)) : Checked _).map (fun o =>
      o.map fun f => (f.nullability ⟨3⟩, f.nullability ⟨4⟩)) = .ok (some (.notNull, .notNull)) := by
    decide +kernel
  rw [ht] at hphis
  rw [show (do (ofGraph nestedLoops (← Except.ok t)) : Checked _) = .ok (some f) from hf] at hphis
  have hpair := Prod.mk.inj (Option.some.inj (Except.ok.inj hphis))
  exact ⟨hconsistent, hv, hl, exists_run_nestedLoops, t, f, ht, hf, hpair, hsound⟩

end NullFacts

end Midend
