import Mathlib.Logic.Function.Basic
import Midend.Proofs.Availability

/-!
# Runs of a graph

A run starts at the entry block with no values, executes the instructions of a block in order, and at
its end goes along one of the block's edges, where the phis of the target take the operands of that
edge, all at once.  What an instruction does with the values of its operands and with memory is a
parameter; an instruction that has no outcome ends the run.

## Shape of the argument

Properties of all runs are proved state by state.  What a settled instruction has established about
itself and about values settled where it stands holds as long as it is settled: one step cannot change
those values without unsettling the instruction (`Step.settled_fact`).
-/

namespace Midend

/-- A value. -/
inductive Val where
  | null
  | obj (id : Nat)
  | num (n : Int)
deriving DecidableEq, Repr

/-- What dereferences null: an access to a field of an object, to an array or to its length, a null check,
a monitor operation, and a call of a method that has a receiver. -/
def Kind.FaultsOnNull (k : Kind) (args : List Val) : Prop :=
  match k with
  | .instanceGet _ | .instanceSet _ => args[0]? = some .null
  | .arrayGet | .arraySet | .arrayLength => args[0]? = some .null
  | .nullCheck | .monitorEnter | .monitorExit => args[0]? = some .null
  | .invoke .static _ => False
  | .invoke _ _ => args[0]? = some .null
  | _ => False

/-- The operand that the nullability analysis takes for dereferenced is the one that must not be null. -/
theorem Kind.faultsOnNull_iff {k : Kind} {args : List Val} :
    k.FaultsOnNull args ↔ ∃ n, k.dereferencedInput? = some n ∧ args[n]? = some .null := by
  cases k with
  | invoke mode target => cases mode <;> simp [FaultsOnNull, dereferencedInput?, CallMode.hasReceiver]
  | _ => simp [FaultsOnNull, dereferencedInput?]

/-- The values of the instructions executed so far. -/
abbrev Env := InstId → Option Val

/-- What instructions do with a memory of some type. -/
structure Semantics (σ : Type) where
  /-- May an instruction with these operand values come to this result and leave memory so? -/
  exec : Inst → List Val → σ → Val → σ → Prop
  /-- May a phi take this value? -/
  phi : Inst → Val → Prop

/-- Where a run is: the block, how many of its ordinary instructions were executed, and what was
computed. -/
structure RunState (σ : Type) where
  block : BlockId
  pos : Nat
  env : Env
  mem : σ

/-- What a step does. -/
inductive Event where
  | exec (i : InstId) (args : List Val)
  | goto (source target : BlockId)

namespace Graph

/-- The value a phi takes when its block is entered by the edge at a position. -/
def phiValue (g : Graph) (env : Env) (n : Nat) (phi : InstId) : Option Val :=
  (g.insts[phi.index]?.bind (·.inputs[n]?)).bind env

end Graph

variable {σ : Type} {g : Graph} {sem : Semantics σ} {s s' : RunState σ} {e : Event} {x y : InstId}

/-- One step of a run.  An edge that occurs several times may be taken at any of its positions. -/
inductive Step (g : Graph) (sem : Semantics σ) : RunState σ → Event → RunState σ → Prop
  | exec {s : RunState σ} {block : Block} {i : InstId} {inst : Inst} {args : List Val} {v : Val} {mem : σ} :
    g.block s.block = .ok block → block.insts[s.pos]? = some i → g.inst i = .ok inst →
    inst.inputs.mapM s.env = some args → sem.exec inst args s.mem v mem →
    Step g sem s (.exec i args) ⟨s.block, s.pos + 1, Function.update s.env i (some v), mem⟩
  | goto {s : RunState σ} {block target : Block} {t : BlockId} {n : Nat} :
    g.block s.block = .ok block → s.pos = block.insts.length → t ∈ block.succs →
    g.block t = .ok target → target.preds[n]? = some s.block →
    (∀ phi ∈ target.phis, ∀ inst v, g.inst phi = .ok inst → g.phiValue s.env n phi = some v →
      sem.phi inst v) →
    Step g sem s (.goto s.block t)
      ⟨t, 0, fun i => if i ∈ target.phis then g.phiValue s.env n i else s.env i, s.mem⟩

/-- The states of the runs that start with some memory. -/
inductive Run (g : Graph) (sem : Semantics σ) (start : σ → Prop) : RunState σ → Prop
  | start {mem : σ} : start mem → Run g sem start ⟨g.entry, 0, fun _ => none, mem⟩
  | step {s s' : RunState σ} {e : Event} : Run g sem start s → Step g sem s e s' → Run g sem start s'

namespace RunState

/-- The instruction that a run executes next. -/
def Next (g : Graph) (s : RunState σ) (i : InstId) : Prop :=
  ∃ block, g.block s.block = .ok block ∧ block.insts[s.pos]? = some i

/-- The instruction is settled where a run is. -/
def Settles (g : Graph) (s : RunState σ) (x : InstId) : Prop :=
  ∃ block, g.block s.block = .ok block ∧ g.Settled s.block (block.phis.length + s.pos) x

theorem Settles.of_block {block : Block} (h : s.Settles g x) (hb : g.block s.block = .ok block) :
    g.Settled s.block (block.phis.length + s.pos) x := by
  obtain ⟨block', hb', h⟩ := h
  rw [hb] at hb'
  cases hb'
  exact h

end RunState

/-- What a step that executes an instruction is made of. -/
theorem Step.exec_inv {i : InstId} {inst : Inst} {args : List Val} (h : Step g sem s (.exec i args) s')
    (hinst : g.inst i = .ok inst) :
    s.Next g i ∧ inst.inputs.mapM s.env = some args ∧ ∃ v mem, sem.exec inst args s.mem v mem ∧
      s' = ⟨s.block, s.pos + 1, Function.update s.env i (some v), mem⟩ := by
  cases h with
  | @exec block i inst' args v mem hb hi hinst' hargs hexec =>
    rw [hinst] at hinst'
    cases hinst'
    exact ⟨⟨block, hb, hi⟩, hargs, v, mem, hexec, rfl⟩

theorem Step.next {i : InstId} {args : List Val} (h : Step g sem s (.exec i args) s') : s.Next g i := by
  cases h with
  | exec hb hi => exact ⟨_, hb, hi⟩

/-- A step stays among reachable blocks. -/
theorem Step.reachable (h : Step g sem s e s') (hs : g.Reachable s.block) : g.Reachable s'.block := by
  cases h with
  | exec => exact hs
  | goto hb _ ht => exact hs.succ (Graph.succs_eq hb ▸ ht)

/-- A run is in reachable blocks only. -/
theorem Run.reachable {start : σ → Prop} (h : Run g sem start s) : g.Reachable s.block := by
  induction h with
  | start => exact Graph.reachable_entry
  | step _ hstep ih => exact hstep.reachable ih

open Midend.Graph in
/-- What is settled after a step was settled before and has kept its value, or was just executed, or is
a phi of the block just entered. -/
theorem Step.settles_cases (h : Step g sem s e s') (hs : g.Reachable s.block) (hx : s'.Settles g x) :
    (s.Settles g x ∧ s'.env x = s.env x) ∨ (∃ args, e = .exec x args) ∨
      ∃ block, g.block s'.block = .ok block ∧ s'.pos = 0 ∧ x ∈ block.phis := by
  cases h with
  | @exec block i inst args v mem hb hi hinst hargs hexec =>
    by_cases hxi : x = i
    · exact .inr (.inl ⟨args, hxi ▸ rfl⟩)
    · refine .inl ⟨⟨block, hb, ?_⟩, Function.update_of_ne hxi _ _⟩
      exact (hx.of_block hb).of_succ (at_insts hb hi) hxi
  | @goto block target t n hb hpos ht htarget hn hphi =>
    by_cases hphi : x ∈ target.phis
    · exact .inr (.inr ⟨target, htarget, rfl, hphi⟩)
    · refine .inl ⟨⟨block, hb, ?_⟩, if_neg hphi⟩
      have hstart : g.Settled t 0 x := by
        obtain ⟨d, m, hat, ⟨rfl, hm⟩ | hdom⟩ := hx.of_block htarget
        · rw [at_iff_of_block htarget, Block.body, List.getElem?_append_left hm] at hat
          exact absurd (List.mem_of_getElem? hat) hphi
        · exact ⟨d, m, hat, .inr hdom⟩
      have hend := hstart.of_edge hs (succs_eq hb ▸ ht) hb
      rwa [Block.body, List.length_append, ← hpos] at hend

open Midend.Graph in
/-- When a run starts, only phis are settled. -/
theorem RunState.not_settles_start {env : Env} {mem : σ}
    (hphi : ∀ b block, g.block b = .ok block → y ∉ block.phis) :
    ¬ (⟨g.entry, 0, env, mem⟩ : RunState σ).Settles g y := by
  rintro ⟨block, hb, d, m, hat, ⟨rfl, hm⟩ | hdom⟩
  · rw [Nat.add_zero] at hm
    rw [at_iff_of_block hb, Block.body, List.getElem?_append_left hm] at hat
    exact absurd (List.mem_of_getElem? hat) (hphi _ _ hb)
  · exact absurd hdom.1.eq_entry hdom.2

section WellFormed

open Midend.Graph

variable (hw : g.WellFormed) (hg : g.Consistent)
include hw hg

/-- What is executed next is not settled yet. -/
theorem RunState.Next.not_settles {i : InstId} (h : s.Next g i) : ¬ s.Settles g i := by
  obtain ⟨block, hb, hi⟩ := h
  intro hset
  exact hw.not_settled_self hg (at_insts hb hi) (hset.of_block hb)

/-- An instruction is executed at its place only. -/
theorem RunState.Next.place {i : InstId} {b : BlockId} {block : Block} {n : Nat} (h : s.Next g i)
    (hb : g.block b = .ok block) (hi : block.insts[n]? = some i) : b = s.block ∧ n = s.pos := by
  obtain ⟨block', hb', hi'⟩ := h
  obtain ⟨rfl, hplace⟩ := hw.at_unique hg (at_insts hb hi) (at_insts hb' hi')
  rw [hb] at hb'
  cases hb'
  exact ⟨rfl, Nat.add_left_cancel hplace⟩

/-- The operands of the next instruction are settled. -/
theorem RunState.Next.settles_operand {i : InstId} {inst : Inst} {k : Nat} (h : s.Next g i)
    (hs : g.Reachable s.block) (hinst : g.inst i = .ok inst) (hx : inst.inputs[k]? = some x) :
    s.Settles g x := by
  obtain ⟨block, hb, hi⟩ := h
  exact ⟨block, hb, hw.settled_operand hg hs hb hi hinst hx⟩

/-- The last operand of what is executed next is settled. -/
theorem RunState.Next.settles_last {i : InstId} {inst : Inst} (h : s.Next g i) (hs : g.Reachable s.block)
    (hinst : g.inst i = .ok inst) (hx : inst.inputs.getLast? = some x) : s.Settles g x := by
  obtain ⟨k, hk⟩ := List.mem_iff_getElem?.1 (List.mem_of_getLast? hx)
  exact h.settles_operand hw hg hs hinst hk

/-- An instruction changes no settled value. -/
theorem Step.env_exec {i : InstId} {args : List Val} (h : Step g sem s (.exec i args) s')
    (hx : s.Settles g x) : s'.env x = s.env x := by
  have hnext := h.next
  cases h with
  | exec =>
    refine Function.update_of_ne ?_ ..
    rintro rfl
    exact hnext.not_settles hw hg hx

/-- An edge changes no value settled above the block it leads to. -/
theorem Step.env_goto {p b : BlockId} (h : Step g sem s (.goto p b) s') (hx : g.Settled b 0 x) :
    s'.env x = s.env x := by
  cases h with
  | goto _ _ _ htarget =>
    refine if_neg fun hphi => ?_
    obtain ⟨n, -, hat⟩ := at_phis htarget hphi
    exact hw.not_settled_self hg hat (hx.mono (Nat.zero_le n))

/-- What an instruction that is no phi establishes about some values when it is executed, each of them
its own or settled where it stands, stays true while it is settled. -/
theorem Step.settled_fact (P : Env → Prop) (xs : List InstId) (h : Step g sem s e s')
    (hs : g.Reachable s.block) (hphi : ∀ b block, g.block b = .ok block → y ∉ block.phis)
    (hxs : ∀ d m, g.At y d m → ∀ x ∈ xs, x = y ∨ g.Settled d m x)
    (hP : ∀ env env' : Env, (∀ x ∈ xs, env' x = env x) → P env → P env')
    (hexec : ∀ args, e = .exec y args → P s'.env) (hbefore : s.Settles g y → P s.env)
    (hy : s'.Settles g y) : P s'.env := by
  rcases h.settles_cases hs hy with ⟨hset, henv⟩ | ⟨args, he⟩ | ⟨block, hb, -, hmem⟩
  · refine hP s.env s'.env (fun x hx => ?_) (hbefore hset)
    obtain ⟨block, hb, hset'⟩ := hy
    obtain ⟨d, m, hat, hpos⟩ := id hset'
    rcases hxs d m hat x hx with rfl | hxset
    · exact henv
    have hx' : s'.Settles g x := ⟨block, hb, hw.settled_trans hg hat hxset hset'⟩
    rcases h.settles_cases hs hx' with ⟨-, henv⟩ | ⟨args, rfl⟩ | ⟨block', hb', hpos0, hmem⟩
    · exact henv
    · -- an instruction settled before the step is not the one it executes
      obtain ⟨block', hb', hset⟩ := hset
      cases h with
      | exec hb'' hi =>
        exact absurd ⟨block', hb', hw.settled_trans hg hat hxset hset⟩
          (RunState.Next.not_settles hw hg ⟨_, hb'', hi⟩)
    · -- where a block starts, what is settled and no phi stands above its phis
      rw [hb] at hb'
      cases hb'
      obtain ⟨k, hk, hatx⟩ := at_phis hb hmem
      have hstart : g.Settled s'.block 0 y := by
        refine ⟨d, m, hat, hpos.imp_left ?_⟩
        rintro ⟨rfl, hm⟩
        rw [hpos0, Nat.add_zero] at hm
        rw [at_iff_of_block hb, Block.body, List.getElem?_append_left hm] at hat
        exact absurd (List.mem_of_getElem? hat) (hphi _ _ hb)
      exact absurd ((hw.settled_trans hg hat hxset hstart).mono (Nat.zero_le k))
        (hw.not_settled_self hg hatx)
  · exact hexec args he
  · exact absurd hmem (hphi _ _ hb)

/-- The same along a whole run. -/
theorem Run.settled_fact (P : Env → Prop) (xs : List InstId) {start : σ → Prop} (h : Run g sem start s)
    (hphi : ∀ b block, g.block b = .ok block → y ∉ block.phis)
    (hxs : ∀ d m, g.At y d m → ∀ x ∈ xs, x = y ∨ g.Settled d m x)
    (hP : ∀ env env' : Env, (∀ x ∈ xs, env' x = env x) → P env → P env')
    (hexec : ∀ s s' args, Run g sem start s → Step g sem s (.exec y args) s' → P s'.env)
    (hy : s.Settles g y) : P s.env := by
  induction h with
  | start => exact absurd hy (RunState.not_settles_start hphi)
  | @step s s' e hrun hstep ih =>
    refine hstep.settled_fact hw hg P xs hrun.reachable hphi hxs hP ?_ ih hy
    rintro args rfl
    exact hexec s s' args hrun hstep

end WellFormed

/-- Values are read one by one. -/
theorem getElem?_of_mapM {xs : List InstId} {env : Env} {vs : List Val} (h : xs.mapM env = some vs)
    (k : Nat) : vs[k]? = xs[k]?.bind env := by
  induction xs generalizing vs k with
  | nil =>
    obtain rfl : [] = vs := by simpa using h
    simp
  | cons x xs ih =>
    simp only [List.mapM_cons, Option.bind_eq_bind, Option.bind_eq_some_iff, Option.pure_def,
      Option.some.injEq] at h
    obtain ⟨v, hv, ws, hws, rfl⟩ := h
    cases k with
    | zero => simp [hv]
    | succ k => simpa using ih hws k

theorem length_of_mapM {xs : List InstId} {env : Env} {vs : List Val} (h : xs.mapM env = some vs) :
    vs.length = xs.length := by
  induction xs generalizing vs with
  | nil =>
    obtain rfl : [] = vs := by simpa using h
    rfl
  | cons x xs ih =>
    simp only [List.mapM_cons, Option.bind_eq_bind, Option.bind_eq_some_iff, Option.pure_def,
      Option.some.injEq] at h
    obtain ⟨v, -, ws, hws, rfl⟩ := h
    simp [ih hws]

/-- The last value is that of the last operand. -/
theorem getLast?_of_mapM {xs : List InstId} {env : Env} {vs : List Val} (h : xs.mapM env = some vs) :
    vs.getLast? = xs.getLast?.bind env := by
  rw [List.getLast?_eq_getElem?, List.getLast?_eq_getElem?, length_of_mapM h, getElem?_of_mapM h]

/-! ## Null checks -/

/-- A null check that comes to a result comes to its operand. -/
def Semantics.PassesChecks (sem : Semantics σ) : Prop :=
  ∀ inst args m v m', inst.kind = .nullCheck → sem.exec inst args m v m' → args[0]? = some v

namespace Run

open Midend.Graph

variable {start : σ → Prop} {i : InstId}

/-- A settled null check has the value of its operand. -/
theorem env_nullCheck (h : Run g sem start s) (hw : g.WellFormed) (hg : g.Consistent) (hl : g.Layout)
    (hsem : sem.PassesChecks) {inst : Inst} (hinst : g.inst i = .ok inst) (hkind : inst.kind = .nullCheck)
    (hx : inst.inputs[0]? = some x) (hi : s.Settles g i) : s.env i = s.env x := by
  have hphi : ∀ b block, g.block b = .ok block → i ∉ block.phis :=
    fun b block hb => hl.not_mem_phis hinst (by simp [hkind]) hb
  obtain ⟨d, m, hat, hd⟩ : ∃ d m, g.At i d m ∧ g.Reachable d := by
    obtain ⟨block, -, hset⟩ := hi
    exact hset.exists_at h.reachable
  have hset : g.Settled d m x := hw.settled_operand_at hg hd hat (fun _ hb => hphi _ _ hb) hinst hx
  have hne : x ≠ i := by
    rintro rfl
    exact hw.not_settled_self hg hat hset
  refine h.settled_fact hw hg (fun env => env i = env x) [i, x] hphi ?_ ?_ ?_ hi
  · intro d' m' hat' y hy
    obtain ⟨rfl, rfl⟩ := hw.at_unique hg hat hat'
    simp only [List.mem_cons, List.not_mem_nil, or_false] at hy
    rcases hy with rfl | rfl
    · exact .inl rfl
    · exact .inr hset
  · intro env env' henv heq
    simp only [List.mem_cons, List.not_mem_nil, or_false, forall_eq_or_imp, forall_eq] at henv
    rw [henv.1, henv.2, heq]
  · intro s s' args hrun hstep
    obtain ⟨-, hargs, v, mem, hexec, rfl⟩ := hstep.exec_inv hinst
    have harg := getElem?_of_mapM hargs 0
    rw [hsem _ _ _ _ _ hkind hexec, hx] at harg
    calc Function.update s.env i _ i
      _ = s.env x := (Function.update_self ..).trans harg
      _ = Function.update s.env i _ x := (Function.update_of_ne hne ..).symm

/-- Looking through null checks does not change the value. -/
theorem env_unchecked (h : Run g sem start s) (hw : g.WellFormed) (hg : g.Consistent) (hl : g.Layout)
    (hsem : sem.PassesChecks) (hx : g.unchecked x = .ok y) (hset : s.Settles g x) :
    s.env x = s.env y := by
  have hboth : s.Settles g y ∧ s.env x = s.env y := by
    refine unchecked_induction (P := fun z => s.Settles g z ∧ s.env x = s.env z) hx ⟨hset, rfl⟩ ?_
    rintro z inst z' ⟨hz, henv⟩ hinst hkind hz'
    refine ⟨?_, henv.trans (h.env_nullCheck hw hg hl hsem hinst hkind hz' hz)⟩
    obtain ⟨block, hb, hz⟩ := hz
    exact ⟨block, hb, hw.settled_checked hg hl h.reachable hz hinst hkind hz'⟩
  exact hboth.2

end Run

end Midend
