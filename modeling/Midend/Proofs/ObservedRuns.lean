import Midend.Proofs.Behaviour
import Midend.Proofs.Singletons

/-!
# What is observed is executed

Every run that can be observed of a well-formed graph is one of its executions: at each point of the observed
run an execution is at the same place, with the same memory and the same values.  So what is proved of all
executions holds along every run that is observed.

## Shape of the argument

Instruction by instruction, what acts executes (`Acts.executes`) and what faults throws (`Faults.throws`).
Runs that are observed take any value for what was not computed yet and any number of operands; executions do
not.  The graph makes up for it: its instructions have the operands that their kinds ask for, and the operands
are settled, so the execution has computed them (`Follows.settled`).

An observed run goes along an edge in one step.  The execution takes two: the end of the block, which has a
value of no interest, and the edge.
-/

namespace Midend

open Midend.Graph

/-- What code outside may hand over it may hand over later, whatever is executed meanwhile. -/
theorem Executes.outside {g : Graph} {inst : Inst} {args : List Val} {m m' : Memory} {v w : Val}
    (h : Executes g inst args m v m') (hw : m.Outside w) : m'.Outside w := by
  intro o ho
  obtain ⟨hlive, hhidden⟩ := hw o ho
  refine ⟨(h.live hlive).1, fun hhidden' => hhidden ?_⟩
  cases h with
  | computes => exact hhidden'
  | allocates _ hnew =>
    refine ((hnew.hidden o).1 hhidden').resolve_right ?_
    rintro rfl
    exact hnew.fresh hlive
  | load => exact hhidden'
  | store => exact hhidden'.1
  | disturbs _ _ hdisturbs => exact ((hdisturbs.hidden o).1 hhidden').1

namespace Behaviour

variable {g : Graph} {M : Meaning} {inst : Inst} {args : List Val} {m m' : Memory} {deed : Deed} {v : Val}
  {c : Cell} {i x : InstId} {r : RunState Memory} {s s' : Point}

/-! ## Instructions -/

/-- The operands are as many as the kind asks for. -/
def Supplied (k : Kind) (args : List Val) : Prop := ∀ n, k.arity? = some n → args.length = n

/-- With the operands that its kind asks for, an access accesses the cell that it touches. -/
theorem Touches.accesses (h : Touches g inst args c) (hargs : Supplied inst.kind args) :
    Accesses g inst args c := by
  cases h with
  | field hk hf ho =>
    rcases hk with hk | hk <;> rw [hk] at hargs
    · obtain ⟨a, rfl⟩ := List.length_eq_one_iff.1 (hargs 1 rfl)
      cases ho
      exact .instanceGet hk hf
    · obtain ⟨a, b, rfl⟩ := List.length_eq_two.1 (hargs 2 rfl)
      cases ho
      exact .instanceSet hk hf
  | static hk hf =>
    rcases hk with hk | hk <;> rw [hk] at hargs
    · obtain rfl := List.length_eq_zero_iff.1 (hargs 0 rfl)
      exact .staticGet hk hf
    · obtain ⟨a, rfl⟩ := List.length_eq_one_iff.1 (hargs 1 rfl)
      exact .staticSet hk hf
  | load hk ho hi =>
    rw [hk] at hargs
    obtain ⟨a, b, rfl⟩ := List.length_eq_two.1 (hargs 2 rfl)
    cases ho
    cases hi
    exact .arrayGet hk
  | store hk ho hi =>
    rw [hk] at hargs
    obtain ⟨a, b, d, rfl⟩ := List.length_eq_three.1 (hargs 3 rfl)
    cases ho
    cases hi
    exact .arraySet hk

/-- The parameters are what code outside may hand over, the receiver is not null, and arithmetic comes to
numbers. -/
structure Meaning.Fits (M : Meaning) (g : Graph) (m : Memory) : Prop where
  param : ∀ n, m.Outside (M.param n)
  receiver : g.isStatic = false → M.param 0 ≠ .null
  binary : ∀ op args, ∃ n, M.binary op args = .num n
  compare : ∀ op args, ∃ n, M.compare op args = .num n

/-- What an instruction is observed to do it may do. -/
theorem Acts.executes (h : Acts g M inst args m deed v m') (hM : M.Fits g m)
    (hargs : Supplied inst.kind args) (hphi : inst.kind ≠ .phi) : Executes g inst args m v m' := by
  cases h with
  | @param n hk =>
    rw [hk] at hargs
    obtain rfl := List.length_eq_zero_iff.1 (hargs 0 rfl)
    refine .computes (hk ▸ .param (hM.param n) ?_)
    rintro rfl
    exact hM.receiver
  | const hk =>
    rw [hk] at hargs
    obtain rfl := List.length_eq_zero_iff.1 (hargs 0 rfl)
    exact .computes (hk ▸ .const)
  | null hk =>
    rw [hk] at hargs
    obtain rfl := List.length_eq_zero_iff.1 (hargs 0 rfl)
    exact .computes (hk ▸ .null)
  | phi hk => exact absurd hk hphi
  | @binary op hk =>
    rw [hk] at hargs
    obtain ⟨a, b, rfl⟩ := List.length_eq_two.1 (hargs 2 rfl)
    obtain ⟨n, hn⟩ := hM.binary op [a, b]
    exact .computes (hk ▸ hn ▸ .binary)
  | @compare op hk =>
    rw [hk] at hargs
    obtain ⟨a, b, rfl⟩ := List.length_eq_two.1 (hargs 2 rfl)
    obtain ⟨n, hn⟩ := hM.compare op [a, b]
    exact .computes (hk ▸ hn ▸ .compare)
  | arrayLength hk ho =>
    rw [hk] at hargs
    obtain ⟨a, rfl⟩ := List.length_eq_one_iff.1 (hargs 1 rfl)
    cases ho
    exact .computes (hk ▸ .arrayLength)
  | nullCheck hk hv hne =>
    rw [hk] at hargs
    obtain ⟨a, rfl⟩ := List.length_eq_one_iff.1 (hargs 1 rfl)
    cases hv
    exact .computes (hk ▸ .nullCheck hne)
  | @allocate o m' hk hnew hlength =>
    refine .allocates hk hnew fun component hcomponent => ?_
    obtain ⟨hsize, hle⟩ := hlength component hcomponent
    rw [hcomponent] at hargs
    obtain ⟨a, rfl⟩ := List.length_eq_one_iff.1 (hargs 1 rfl)
    cases hsize
    exact ⟨rfl, hle⟩
  | load hk hc hhas => exact .load hk (hc.accesses hargs) hhas
  | store hk hc hhas hv => exact .store hk (hc.accesses hargs) hhas hv
  | outside hk hnull hdisturbs => exact .disturbs hk hnull hdisturbs

/-- What makes an instruction fail may make it throw. -/
theorem Faults.throws {k : Kind} (h : Faults m k args) : Throws m k args := by
  cases h with
  | divisor hk hop =>
    rw [hk]
    rcases hop with rfl | rfl <;> rfl
  | null hnull =>
    cases k with
    | arrayGet | arraySet => exact .inl hnull
    | instanceGet | instanceSet | arrayLength | nullCheck => exact hnull
    | invoke | monitorEnter | monitorExit => exact rfl
    | _ => exact hnull.elim
  | bounds hk ho hi hout => rcases hk with rfl | rfl <;> exact .inr ⟨_, _, ho, hi, hout⟩
  | exhausted hk => cases k <;> first | rfl | cases hk
  | outside hk => cases k <;> first | rfl | cases hk

/-! ## Runs -/

/-- What the two ways to run a graph need to agree on: operands as the kinds ask for them, none of them the end
of a block, and no phis where there is no edge to take them from. -/
structure Regular (g : Graph) : Prop where
  layout : g.Layout
  operands : ∀ i ∈ g.attached, ∀ inst, g.inst i = .ok inst → ∀ x ∈ inst.inputs, ∀ k, g.kind? x = some k →
    k.isTerminator = false
  entry : ∀ block, g.block g.entry = .ok block → block.phis = []

/-- Whether a graph is regular can be decided from its lists. -/
theorem regular_iff : Regular g ↔ g.Layout ∧
    (∀ i ∈ g.attached, ∀ inst ∈ g.insts[i.index]?, ∀ x ∈ inst.inputs, ∀ k ∈ g.kind? x,
      k.isTerminator = false) ∧
    ∀ block ∈ g.blocks[g.entry.index]?, block.phis = [] := by
  simp only [Option.mem_def, ← inst_eq_ok, ← block_eq_ok]
  exact ⟨fun h => ⟨h.layout, h.operands, h.entry⟩, fun h => ⟨h.1, h.2.1, h.2.2⟩⟩

instance (g : Graph) : Decidable (Regular g) := decidable_of_iff _ regular_iff.symm

/-- A method that doubles its parameter. -/
example : Regular (.ofEdits "double" [
    .createInst (.param 0) .int [], .appendInst ⟨0⟩ ⟨0⟩,
    .createInst (.binary .add) .int [⟨0⟩, ⟨0⟩], .appendInst ⟨0⟩ ⟨1⟩,
    .createInst .ret .void [⟨1⟩], .appendInst ⟨0⟩ ⟨2⟩]) := by
  decide +kernel

/-- An execution is where the observed run is, with the same memory and, but for ends of blocks, the same
values.  What is settled it has computed. -/
structure Follows (g : Graph) (M : Meaning) (r : RunState Memory) (s : Point) : Prop where
  block : r.block = s.block
  pos : r.pos = s.pos
  mem : r.mem = s.mem
  env : ∀ x v, r.env x = some v → (∀ k, g.kind? x = some k → k.isTerminator = false) → s.env x = v
  settled : ∀ x, r.Settles g x → ∃ v, r.env x = some v
  fits : M.Fits g s.mem

/-- Values that are all there are read. -/
theorem mapM_eq_some_map {xs : List InstId} {env : Env} {f : InstId → Val}
    (h : ∀ x ∈ xs, env x = some (f x)) : xs.mapM env = some (xs.map f) := by
  induction xs with
  | nil => rfl
  | cons x xs ih =>
    rw [List.mapM_cons, h x List.mem_cons_self, ih fun y hy => h y (List.mem_cons_of_mem x hy)]
    rfl

section Graph

variable (hw : g.WellFormed) (hg : g.Consistent) (hr : Regular g)
include hw hg hr

/-- The execution has the operands of what comes next. -/
theorem Follows.operands (h : Follows g M r s) (hreach : g.Reachable r.block) (hnext : s.Next g i inst args) :
    r.Next g i ∧ inst.inputs.mapM r.env = some args := by
  obtain ⟨block, hblock, hget, hinst, rfl⟩ := hnext
  have hrnext : r.Next g i := ⟨block, h.block ▸ hblock, h.pos ▸ hget⟩
  have hatt := (at_insts hblock hget).mem_attached
  refine ⟨hrnext, mapM_eq_some_map fun x hx => ?_⟩
  obtain ⟨k, hk⟩ := List.mem_iff_getElem?.1 hx
  obtain ⟨v, hv⟩ := h.settled x (hrnext.settles_operand hw hg hreach hinst hk)
  rw [hv, h.env x v hv (hr.operands i hatt inst hinst x hx)]

/-- Where the observed run executes an instruction, so does the execution.  The value may differ at the end of
a block. -/
theorem Follows.exec {env : InstId → Val} (h : Follows g M r s) (hreach : g.Reachable r.block)
    (hnext : s.Next g i inst args) (hexec : Executes g inst args s.mem v m)
    (henv : ∀ x, x ≠ i → env x = s.env x) (hi : inst.kind.isTerminator = true ∨ env i = v) :
    ∃ r', Midend.Step g (memorySemantics g) r (.exec i args) r' ∧
      Follows g M r' ⟨s.block, s.pos + 1, env, m⟩ := by
  obtain ⟨⟨block, hblock, hget⟩, hargs⟩ := h.operands hw hg hr hreach hnext
  obtain ⟨-, -, -, hinst, -⟩ := hnext
  have hstep : Midend.Step g (memorySemantics g) r (.exec i args) _ :=
    .exec hblock hget hinst hargs (h.mem ▸ hexec)
  refine ⟨_, hstep, h.block, congrArg (· + 1) h.pos, rfl, fun x w hx hend => ?_, fun x hx => ?_, ?_⟩
  · by_cases hxi : x = i
    · subst hxi
      dsimp only at hx
      rw [Function.update_self] at hx
      cases hx
      refine hi.resolve_left fun hterminator => ?_
      rw [hend _ (kind?_eq hinst)] at hterminator
      cases hterminator
    · dsimp only at hx
      rw [Function.update_of_ne hxi] at hx
      exact (henv x hxi).trans (h.env x w hx hend)
  · rcases hstep.settles_cases hreach hx with ⟨hset, hsame⟩ | ⟨args', he⟩ | ⟨_, -, hpos, -⟩
    · rw [hsame]
      exact h.settled x hset
    · cases he
      exact ⟨v, Function.update_self ..⟩
    · cases hpos
  · exact ⟨fun n => hexec.outside (h.fits.param n), h.fits.receiver, h.fits.binary, h.fits.compare⟩

/-- Where the observed run takes an edge from the end of a block, so does the execution. -/
theorem Follows.goto {block target : Block} {t : BlockId} {n : Nat} (h : Follows g M r s)
    (hreach : g.Reachable r.block) (hblock : g.block s.block = .ok block) (hpos : s.pos = block.insts.length)
    (ht : t ∈ block.succs) (htarget : g.block t = .ok target) (hn : target.preds[n]? = some s.block) :
    ∃ r', Midend.Step g (memorySemantics g) r (.goto r.block t) r' ∧
      Follows g M r' ⟨t, 0, fun x => if x ∈ target.phis then incoming g s.env n x else s.env x, s.mem⟩ := by
  have hstep : Midend.Step g (memorySemantics g) r (.goto r.block t) _ :=
    .goto (h.block ▸ hblock) (h.pos.trans hpos) ht htarget (h.block ▸ hn) fun _ _ _ _ _ _ => trivial
  have hreach' := hstep.reachable hreach
  refine ⟨_, hstep, rfl, rfl, h.mem, fun x v hx hend => ?_, fun x hx => ?_, h.fits⟩
  · dsimp only at hx ⊢
    by_cases hphi : x ∈ target.phis
    · rw [if_pos hphi] at hx ⊢
      have hatt := mem_attached.2 ⟨t, target, htarget, List.mem_append_left _ hphi⟩
      obtain ⟨inst, hinst, -⟩ := hw.listed t target x htarget (List.mem_append_left _ hphi)
      rw [phiValue, inst_eq_ok.1 hinst, Option.bind_some] at hx
      obtain ⟨y, hy, hyv⟩ := Option.bind_eq_some_iff.1 hx
      rw [incoming, operandsOf_eq hinst, hy]
      exact h.env y v hyv (hr.operands x hatt inst hinst y (List.mem_of_getElem? hy))
    · rw [if_neg hphi] at hx ⊢
      exact h.env x v hx hend
  · rcases hstep.settles_cases hreach hx with ⟨hset, hsame⟩ | ⟨args, he⟩ | ⟨target', htarget', -, hphi⟩
    · rw [hsame]
      exact h.settled x hset
    · cases he
    · -- a phi has an operand for the edge, which is settled at the end of the block that the edge leaves
      obtain rfl : target = target' := Except.ok.inj (htarget.symm.trans htarget')
      obtain ⟨inst, hinst, -⟩ := hw.listed t target x htarget (List.mem_append_left _ hphi)
      have hlt : n < inst.inputs.length := by
        rw [hw.phi_inputs t target x inst htarget hphi hinst]
        exact (List.getElem?_eq_some_iff.1 hn).1
      have hy := List.getElem?_eq_getElem hlt
      generalize inst.inputs[n] = y at hy
      have hset := hw.settled_phi_operand hg hreach' htarget hphi hinst hy hn (h.block ▸ hreach) hblock
      rw [Block.body, List.length_append, ← hpos, ← h.pos, ← h.block] at hset
      obtain ⟨v, hv⟩ := h.settled y ⟨block, h.block ▸ hblock, hset⟩
      refine ⟨v, ?_⟩
      dsimp only
      rw [if_pos hphi, phiValue, inst_eq_ok.1 hinst, Option.bind_some, hy]
      exact hv

omit hg hr in
/-- The end of a block comes last. -/
theorem length_eq_of_isTerminator {block : Block} {b : BlockId} {n : Nat} (hblock : g.block b = .ok block)
    (hget : block.insts[n]? = some i) (hinst : g.inst i = .ok inst) (hend : inst.kind.isTerminator = true) :
    n + 1 = block.insts.length := by
  obtain ⟨init, last, hinsts, hinit, -⟩ := hw.ends b block hblock
  have hlt := (List.getElem?_eq_some_iff.1 hget).1
  rw [hinsts, List.length_append, List.length_singleton] at hlt ⊢
  by_contra hne
  rw [hinsts, List.getElem?_append_left (by omega)] at hget
  obtain ⟨inst', hinst', hplain⟩ := hinit i (List.mem_of_getElem? hget)
  obtain rfl : inst = inst' := Except.ok.inj (hinst.symm.trans hinst')
  rw [hend] at hplain
  cases hplain

/-- A step that is observed is one step of the execution, or two where it takes an edge. -/
theorem Follows.step {e : Event} (h : Follows g M r s) (hrun : Run g (memorySemantics g) Memory.Initial r)
    (hstep : Step g M s e s') : ∃ r', Run g (memorySemantics g) Memory.Initial r' ∧ Follows g M r' s' := by
  cases hstep with
  | @acts i inst args deed v m hnext hacts =>
    obtain ⟨block, hblock, hget, hinst, hargs⟩ := id hnext
    have hatt := (at_insts hblock hget).mem_attached
    have hsupplied : Supplied inst.kind args := fun n hn => by
      rw [hargs, List.length_map]
      exact hr.layout.arity i inst n hatt hinst hn
    have hphi := hr.layout.insts _ block i inst hblock (List.mem_of_getElem? hget) hinst
    obtain ⟨r', hstep', hfollows⟩ := h.exec hw hg hr hrun.reachable hnext
      (hacts.executes h.fits hsupplied hphi) (fun x hx => Function.update_of_ne hx ..)
      (.inr (Function.update_self ..))
    exact ⟨r', hrun.step hstep', hfollows⟩
  | @goes i inst args target t k n hnext hleads hsucc htarget hn _ =>
    obtain ⟨block, hblock, hget, hinst, hargs⟩ := id hnext
    have hatt := (at_insts hblock hget).mem_attached
    have hexec : inst.kind.isTerminator = true ∧ Executes g inst args s.mem (.num 0) s.mem := by
      have harity := hr.layout.arity i inst
      cases hk : inst.kind with
      | jump =>
        have hnone := List.length_eq_zero_iff.1 (harity 0 hatt hinst (by rw [hk]; rfl))
        rw [hargs, hnone]
        exact ⟨rfl, .computes (hk ▸ .jump)⟩
      | branch =>
        obtain ⟨x, hone⟩ := List.length_eq_one_iff.1 (harity 1 hatt hinst (by rw [hk]; rfl))
        rw [hargs, hone]
        exact ⟨rfl, .computes (hk ▸ .branch)⟩
      | _ =>
        rw [hk] at hleads
        cases hleads
    obtain ⟨r₁, hstep₁, hfollows₁⟩ := h.exec hw hg hr hrun.reachable hnext hexec.2
      (fun _ _ => rfl) (.inl hexec.1)
    have hrun₁ := hrun.step hstep₁
    obtain ⟨r', hstep', hfollows⟩ := hfollows₁.goto hw hg hr hrun₁.reachable hblock
      (length_eq_of_isTerminator hw hblock hget hinst hexec.1)
      (succs_eq hblock ▸ List.mem_of_getElem? hsucc) htarget hn
    exact ⟨r', hrun₁.step hstep', hfollows⟩

/-- An execution follows every observed run from the entry. -/
theorem Trace.exists_follows {env : InstId → Val} {τ : List Event} (hm : m.Initial) (hM : M.Fits g m)
    (h : Trace g M ⟨g.entry, 0, env, m⟩ τ s) :
    ∃ r, Run g (memorySemantics g) Memory.Initial r ∧ Follows g M r s := by
  induction h with
  | nil =>
    refine ⟨_, .start hm, rfl, rfl, rfl, fun x v hx => (by cases hx), ?_, hM⟩
    -- nothing is settled where a run starts
    rintro x ⟨block, hblock, d, n, -, ⟨-, hlt⟩ | hdom⟩
    · rw [hr.entry block hblock] at hlt
      cases hlt
    · exact absurd hdom.1.eq_entry hdom.2
  | snoc _ hstep ih =>
    obtain ⟨r, hrun, hfollows⟩ := ih
    exact hfollows.step hw hg hr hrun hstep

/-- What is observed is executed: for whatever a run is observed to do, an execution of the graph leaves the
same memory.  Where the observed run faults, the execution is about to execute the same instruction with the
same operands, and may throw. -/
theorem Behaves.exists_run {env : InstId → Val} {τ : List Event} {after : Memory} {o : Option Ending}
    (hm : m.Initial) (hM : M.Fits g m) (h : Behaves g M env m τ after o) :
    ∃ r, Run g (memorySemantics g) Memory.Initial r ∧ r.mem = after ∧
      ∀ i args, o = some (.faulted i args) → r.Next g i ∧ ∃ inst, g.inst i = .ok inst ∧
        inst.inputs.mapM r.env = some args ∧ Throws after inst.kind args := by
  obtain ⟨s, htrace, rfl, hends⟩ := h
  obtain ⟨r, hrun, hfollows⟩ := htrace.exists_follows hw hg hr hm hM
  refine ⟨r, hrun, hfollows.mem, fun i args ho => ?_⟩
  cases hends _ ho with
  | faulted hnext hfault =>
    obtain ⟨hrnext, hargs⟩ := hfollows.operands hw hg hr hrun.reachable hnext
    obtain ⟨-, -, -, hinst, -⟩ := hnext
    exact ⟨hrnext, _, hinst, hargs, hfault.throws⟩

end Graph

end Behaviour

end Midend
