import Midend.Proofs.Behaviour
import Midend.Proofs.DeadSet

/-!
# Dead code elimination preserves behaviour

What can be observed of a graph without its dead code is what can be observed of the graph, when the removed
instructions are left out of the picture.

## Shape of the argument

Two runs go side by side, at the same place of the same block counted in instructions that stay, with the same
memory and the same values of what stays (`Matches`).  A step of the graph is the same step of the smaller
graph, or executes a removed instruction and is no step there.  The other way round, the graph first executes
the removed instructions in front of it, which it always can.

Both need that a removed instruction never fails, never leads control, leaves memory alone and has something
to come to whatever its operands are.  That is read off the kinds: what is idle is a constant, a phi, an
arithmetic operation that is no division, a comparison, or a read of a static field that is not volatile.
-/

namespace Midend

namespace Behaviour

open Midend.Graph DeadCode

variable {g g' : Graph} {M : Meaning} {gone : List InstId} {i x : InstId} {inst : Inst} {args : List Val}
  {m m' : Memory} {deed : Deed} {v : Val} {s s' t : Point} {e : Event} {block : Block}

/-! ## Instructions without effect -/

/-- Kinds that do nothing but come to a value. -/
def Silent (g : Graph) : Kind → Prop
  | .const _ | .null | .phi | .compare _ => True
  | .binary op => op ≠ .div ∧ op ≠ .rem
  | .staticGet f => g.isVolatile f = false
  | _ => False

/-- Idle instructions are silent. -/
theorem silent_of_idle (h : g.Idle i) (hinst : g.inst i = .ok inst) : Silent g inst.kind := by
  obtain ⟨_, inst', -, -, hinst', hterminator, hparam, hthrow, hstore, hopen⟩ := h
  obtain rfl : inst = inst' := Except.ok.inj (hinst.symm.trans hinst')
  cases hk : inst.kind with
  | const | null | phi | compare => trivial
  | binary op =>
    rw [hk] at hthrow
    have hop : op ≠ .div ∧ op ≠ .rem := by simpa [Kind.canThrow] using hthrow
    exact hop
  | staticGet f =>
    rw [hk] at hopen
    exact hopen
  | staticSet f =>
    rw [hk] at hstore
    cases hstore
  | param n =>
    rw [hk] at hparam
    cases hparam
  | jump | branch | ret | retVoid =>
    rw [hk] at hterminator
    cases hterminator
  | newInstance | newArray | instanceGet | instanceSet | arrayGet | arraySet | arrayLength | nullCheck | invoke
  | monitorEnter | monitorExit | unknown | raise =>
    rw [hk] at hthrow
    cases hthrow

/-- What is silent neither faults, allocates, stores nor leaves the method. -/
theorem Silent.plain {k : Kind} (h : Silent g k) : (∀ args, ¬ k.FaultsOnNull args) ∧ k.isAllocation = false ∧
    k.isStore = false ∧ k.isForeign = false ∧ g.isOpen k = false ∧ k.isTerminator = false := by
  cases k with
  | const | null | phi | binary | compare => exact ⟨fun _ => id, rfl, rfl, rfl, rfl, rfl⟩
  | staticGet f => exact ⟨fun _ => id, rfl, rfl, rfl, h, rfl⟩
  | _ => exact h.elim

theorem Silent.not_faults (h : Silent g inst.kind) : ¬ Faults m inst.kind args := by
  obtain ⟨hderef, halloc, -, houtside, -, -⟩ := h.plain
  intro hfault
  cases hfault with
  | divisor hk hop =>
    rw [hk] at h
    exact hop.elim h.1 h.2
  | null hk => exact hderef args hk
  | bounds hk => rcases hk with hk | hk <;> exact (hk ▸ h).elim
  | exhausted hk =>
    rw [halloc] at hk
    cases hk
  | outside hk =>
    rw [houtside] at hk
    cases hk

/-- A silent instruction can be executed with any operands. -/
theorem Silent.exists_acts (h : Silent g inst.kind) (M : Meaning) (args : List Val) (m : Memory) :
    ∃ deed v, Acts g M inst args m deed v m := by
  have hfine : ¬ Faults m inst.kind args := h.not_faults
  cases hk : inst.kind with
  | const => exact ⟨_, _, .const hk⟩
  | null => exact ⟨_, _, .null hk⟩
  | phi => exact ⟨_, _, .phi hk⟩
  | compare => exact ⟨_, _, .compare hk⟩
  | binary => exact ⟨_, _, .binary hk hfine⟩
  | staticGet f =>
    rw [hk] at h
    exact ⟨_, _, .load (by rw [hk]; rfl) (.static (.inl hk) h) trivial⟩
  | _ =>
    rw [hk] at h
    exact h.elim

/-- A silent instruction leaves memory alone. -/
theorem Silent.mem_eq (h : Silent g inst.kind) (hacts : Acts g M inst args m deed v m') : m' = m := by
  obtain ⟨-, halloc, hstore, -, hopen, -⟩ := h.plain
  cases hacts with
  | allocate hk =>
    rw [halloc] at hk
    cases hk
  | store hk =>
    rw [hstore] at hk
    cases hk
  | outside hk =>
    rw [hopen] at hk
    cases hk
  | _ => rfl

/-! ## What stays does the same -/

/-- Touching a cell depends on the fields and on the type that is stored. -/
theorem Touches.congr {c : Cell} (h : Touches g inst args c) (hfields : g'.fields = g.fields)
    (hty : g'.operandTy inst 2 = g.operandTy inst 2) : Touches g' inst args c := by
  have hplain : ∀ f, g.isVolatile f = false → g'.isVolatile f = false := fun f hf => by
    rwa [isVolatile, hfields]
  cases h with
  | field hk hf ho => exact .field hk (hplain _ hf) ho
  | static hk hf => exact .static hk (hplain _ hf)
  | load hk ho hi => exact .load hk ho hi
  | store hk ho hi => exact hty ▸ .store hk ho hi

/-- Acting depends on the fields and on the type that is stored. -/
theorem Acts.congr (h : Acts g M inst args m deed v m') (hfields : g'.fields = g.fields)
    (hty : g'.operandTy inst 2 = g.operandTy inst 2) : Acts g' M inst args m deed v m' := by
  cases h with
  | param hk => exact .param hk
  | const hk => exact .const hk
  | null hk => exact .null hk
  | phi hk => exact .phi hk
  | binary hk hfine => exact .binary hk hfine
  | compare hk => exact .compare hk
  | arrayLength hk ho => exact .arrayLength hk ho
  | nullCheck hk hv hne => exact .nullCheck hk hv hne
  | allocate hk halloc hlength => exact .allocate hk halloc hlength
  | load hk hc hhas => exact .load hk (hc.congr hfields hty) hhas
  | store hk hc hhas hv => exact .store hk (hc.congr hfields hty) hhas hv
  | outside hk hnull hdisturbs =>
    exact .outside (isOpen_congr hfields ▸ hk) hnull hdisturbs

theorem length_filter_take_succ {xs : List InstId} {n : Nat} (hget : xs[n]? = some i) (p : InstId → Bool) :
    ((xs.take (n + 1)).filter p).length = ((xs.take n).filter p).length + if p i then 1 else 0 := by
  obtain ⟨hlt, rfl⟩ := List.getElem?_eq_some_iff.1 hget
  rw [List.take_succ_eq_append_getElem hlt, List.filter_append, List.length_append, List.filter_singleton]
  cases p xs[n] <;> rfl

/-- How a run may end depends on what comes next and on memory only. -/
theorem Ends.exists_next {o : Ending} (h : Ends g s o) : ∃ i inst args, s.Next g i inst args ∧
    (inst.kind.isTerminator = true ∨ Faults s.mem inst.kind args) ∧
    ∀ g₁ s₁, s₁.mem = s.mem → s₁.Next g₁ i inst args → Ends g₁ s₁ o := by
  cases h with
  | returned hnext hk =>
    refine ⟨_, _, _, hnext, .inl ?_, fun _ _ _ hnext₁ => .returned hnext₁ hk⟩
    rcases hk with hk | hk <;> (rw [hk]; rfl)
  | thrown hnext hk =>
    refine ⟨_, _, _, hnext, .inl ?_, fun _ _ _ hnext₁ => .thrown hnext₁ hk⟩
    rw [hk]
    rfl
  | faulted hnext hfault =>
    exact ⟨_, _, _, hnext, .inr hfault, fun _ _ hmem hnext₁ => .faulted hnext₁ (hmem ▸ hfault)⟩

section Purged

variable (hp : Purged g gone g')
include hp

/-- What stays reads nothing that is gone. -/
theorem not_mem_of_operand (hatt : i ∈ g.attached) (hi : i ∉ gone) (hinst : g.inst i = .ok inst)
    (hx : x ∈ inst.inputs) : x ∉ gone := by
  intro hgone
  obtain ⟨k, hk⟩ := List.mem_iff_getElem?.1 hx
  have hused := hp.cleared.rewired.operand i inst k x hatt hi ((hp.left i hi).trans hinst) hk
  rw [hp.cleared.unused x hgone] at hused
  cases hused

/-- What is left stores the same types. -/
theorem operandTy_eq (hatt : i ∈ g.attached) (hi : i ∉ gone) (hinst : g.inst i = .ok inst) (n : Nat) :
    g'.operandTy inst n = g.operandTy inst n := by
  rw [operandTy, operandTy]
  cases hx : inst.inputs[n]? with
  | none => rfl
  | some x =>
    have hleft := hp.left x (not_mem_of_operand hp hatt hi hinst (List.mem_of_getElem? hx))
    have hslot : g'.insts[x.index]? = g.insts[x.index]? := Option.ext fun y => by
      rw [← inst_eq_ok, ← inst_eq_ok, hleft]
    simp only [Option.bind_some, hslot]

theorem operandsOf_eq_left (hi : i ∉ gone) : g'.operandsOf i = g.operandsOf i := by
  have hslot : g'.insts[i.index]? = g.insts[i.index]? := Option.ext fun y => by
    rw [← inst_eq_ok, ← inst_eq_ok, hp.left i hi]
  rw [operandsOf, operandsOf, hslot]

/-- What is gone is silent. -/
theorem silent_of_gone (hi : i ∈ gone) (hinst : g.inst i = .ok inst) : Silent g inst.kind :=
  silent_of_idle (hp.dead i hi).idle hinst

/-! ## Two runs side by side -/

omit hp in
/-- The runs are at the same place, counting what stays, with the same memory and the same values of what
stays. -/
structure Matches (g : Graph) (gone : List InstId) (s s' : Point) : Prop where
  block : s'.block = s.block
  pos : ∀ block, g.block s.block = .ok block → s'.pos = ((block.insts.take s.pos).filter (· ∉ gone)).length
  env : ∀ x, x ∉ gone → s'.env x = s.env x
  mem : s'.mem = s.mem

/-- An instruction that stays comes next in both runs, with the same operands. -/
theorem Matches.next (h : Matches g gone s s') (hi : i ∉ gone) (hnext : s.Next g i inst args) :
    s'.Next g' i inst args := by
  obtain ⟨block, hblock, hget, hinst, rfl⟩ := hnext
  have hatt := (at_insts hblock hget).mem_attached
  refine ⟨block.without gone, ?_, ?_, (hp.left i hi).trans hinst, ?_⟩
  · rw [h.block]
    exact hp.cleared.rewired.block_eq_ok.2 ⟨block, hblock, rfl⟩
  · rw [h.pos block hblock]
    exact getElem?_filter_take hget (decide_eq_true hi)
  · refine List.map_congr_left fun x hx => (h.env x ?_).symm
    exact not_mem_of_operand hp hatt hi hinst hx

/-- A removed instruction is executed in one run only. -/
theorem Matches.skip (h : Matches g gone s s') (hi : i ∈ gone) (hnext : s.Next g i inst args)
    (hacts : Acts g M inst args s.mem deed v m) :
    Matches g gone ⟨s.block, s.pos + 1, Function.update s.env i v, m⟩ s' := by
  obtain ⟨block, hblock, hget, hinst, rfl⟩ := hnext
  refine ⟨h.block, fun block' hblock' => ?_, fun x hx => ?_, ?_⟩
  · obtain rfl : block = block' := Except.ok.inj (hblock.symm.trans hblock')
    rw [h.pos block hblock, length_filter_take_succ hget]
    simp [hi]
  · have hne : x ≠ i := fun hxi => hx (hxi ▸ hi)
    exact (h.env x hx).trans (Function.update_of_ne hne v s.env).symm
  · rw [h.mem, (silent_of_gone hp hi hinst).mem_eq hacts]

omit hp in
/-- An instruction that stays is executed in both runs. -/
theorem Matches.both (h : Matches g gone s s') (hi : i ∉ gone) (hnext : s.Next g i inst args) :
    Matches g gone ⟨s.block, s.pos + 1, Function.update s.env i v, m⟩
      ⟨s'.block, s'.pos + 1, Function.update s'.env i v, m⟩ := by
  obtain ⟨block, hblock, hget, hinst, rfl⟩ := hnext
  refine ⟨h.block, fun block' hblock' => ?_, fun x hx => ?_, rfl⟩
  · obtain rfl : block = block' := Except.ok.inj (hblock.symm.trans hblock')
    rw [h.pos block hblock, length_filter_take_succ hget]
    simp [hi]
  · show Function.update s'.env i v x = Function.update s.env i v x
    by_cases hxi : x = i
    · rw [hxi, Function.update_self, Function.update_self]
    · rw [Function.update_of_ne hxi, Function.update_of_ne hxi, h.env x hx]

/-- Along an edge the phis that stay take the same values. -/
theorem Matches.enter {target : Block} {b : BlockId} {n : Nat} (h : Matches g gone s s')
    (htarget : g.block b = .ok target) :
    Matches g gone
      ⟨b, 0, fun x => if x ∈ target.phis then incoming g s.env n x else s.env x, s.mem⟩
      ⟨b, 0, fun x => if x ∈ (target.without gone).phis then incoming g' s'.env n x else s'.env x, s'.mem⟩ := by
  refine ⟨rfl, fun _ _ => by simp, fun x hx => ?_, h.mem⟩
  have hphis : x ∈ (target.without gone).phis ↔ x ∈ target.phis := by simp [Block.without, hx]
  simp only [hphis]
  split
  · next hmem =>
    obtain ⟨k, -, hat⟩ := at_phis htarget hmem
    rw [incoming, incoming, operandsOf_eq_left hp hx, h.env x hx]
    cases hy : (g.operandsOf x)[n]? with
    | none => rfl
    | some y =>
      obtain ⟨inst, hinst, hget⟩ := getElem?_operandsOf.1 hy
      have hstays := not_mem_of_operand hp hat.mem_attached hx hinst (List.mem_of_getElem? hget)
      simp [h.env y hstays]
  · exact h.env x hx

/-! ## From the graph to what is left -/

/-- An event is one of the graph that is left when its instruction is. -/
theorem isOf_acts (hnext : s.Next g i inst args) (deed : Deed) (v : Val) :
    (Event.acts i args deed v).isOf g' = true ↔ i ∉ gone := by
  obtain ⟨block, hblock, hget, -⟩ := hnext
  rw [Event.isOf, decide_eq_true_eq, hp.cleared.rewired.mem_attached]
  exact and_iff_right (at_insts hblock hget).mem_attached

/-- The end of a block stays. -/
theorem not_mem_of_isTerminator (hnext : s.Next g i inst args) (hk : inst.kind.isTerminator = true) :
    i ∉ gone := by
  obtain ⟨-, -, -, hinst, -⟩ := hnext
  intro hi
  have hplain := (silent_of_gone hp hi hinst).plain.2.2.2.2.2
  rw [hk] at hplain
  cases hplain

/-- A step of the graph executes a removed instruction, or is a step of what is left. -/
theorem Matches.step (h : Matches g gone s s') (hstep : Step g M s e t) :
    (e.isOf g' = false ∧ Matches g gone t s') ∨
      (e.isOf g' = true ∧ ∃ t', Step g' M s' e t' ∧ Matches g gone t t') := by
  cases hstep with
  | @acts i inst args deed v m hnext hacts =>
    have hshown := isOf_acts hp hnext deed v
    by_cases hi : i ∈ gone
    · exact .inl ⟨by simpa [hi] using hshown, h.skip hp hi hnext hacts⟩
    · refine .inr ⟨hshown.2 hi, _, .acts (h.next hp hi hnext) ?_, h.both hi hnext⟩
      obtain ⟨block, hblock, hget, hinst, -⟩ := hnext
      rw [h.mem]
      exact hacts.congr hp.fields (operandTy_eq hp (at_insts hblock hget).mem_attached hi hinst 2)
  | @goes i inst args target b k n hnext hleads htarget hblock hplace hcount =>
    have hi : i ∉ gone := by
      refine not_mem_of_isTerminator hp hnext ?_
      generalize inst.kind = kind at hleads
      cases kind <;> first | rfl | cases hleads
    have hblock' := hp.cleared.rewired.block_eq_ok.2 ⟨target, hblock, rfl⟩
    have hsuccs : g'.succs s'.block = g.succs s.block := by rw [h.block, hp.cleared.trimmed.succs]
    rw [← h.block] at hplace hcount ⊢
    refine .inr ⟨rfl, _, .goes (h.next hp hi hnext) hleads (hsuccs ▸ htarget) hblock' hplace ?_,
      h.enter hp hblock⟩
    rwa [hsuccs, ← h.block]

/-- A run of the graph is a run of what is left, without the removed instructions. -/
theorem Matches.trace {s₀ s₀' : Point} {τ : List Event} (h : Matches g gone s₀ s₀')
    (htrace : Trace g M s₀ τ s) : ∃ s', Trace g' M s₀' (τ.filter (·.isOf g')) s' ∧ Matches g gone s s' := by
  induction htrace with
  | nil => exact ⟨s₀', .nil, h⟩
  | snoc _ hstep ih =>
    obtain ⟨s', htrace', hmatches⟩ := ih
    rw [List.filter_append]
    rcases hmatches.step hp hstep with ⟨hhidden, hnext⟩ | ⟨hshown, t', hstep', hnext⟩
    · exact ⟨s', by simpa [hhidden] using htrace', hnext⟩
    · exact ⟨t', by simpa [hshown] using htrace'.snoc hstep', hnext⟩

/-- Where the graph may end, so may what is left. -/
theorem Matches.ends {o : Ending} (h : Matches g gone s s') (hends : Ends g s o) : Ends g' s' o := by
  obtain ⟨i, inst, args, hnext, hlast, hsame⟩ := hends.exists_next
  have hi : i ∉ gone := by
    rcases hlast with hk | hfault
    · exact not_mem_of_isTerminator hp hnext hk
    · obtain ⟨-, -, -, hinst, -⟩ := hnext
      exact fun hi => (silent_of_gone hp hi hinst).not_faults hfault
  exact hsame g' s' h.mem (h.next hp hi hnext)

/-! ## From what is left to the graph -/

/-- The graph comes to the instruction that is next in what is left by executing removed ones. -/
theorem Matches.catch_up (h : Matches g gone s s') (hnext : s'.Next g' i inst args) (M : Meaning) :
    ∃ τ s₁, Trace g M s τ s₁ ∧ τ.filter (·.isOf g') = [] ∧ Matches g gone s₁ s' ∧ s₁.Next g i inst args ∧
      i ∉ gone := by
  obtain ⟨block', hblock', hget', hinst', hargs⟩ := id hnext
  rw [h.block] at hblock'
  obtain ⟨block, hblock, rfl⟩ := hp.cleared.rewired.block_eq_ok.1 hblock'
  -- by induction on how much of the block lies ahead: each removed instruction in front is executed
  generalize hleft : block.insts.length - s.pos = left
  induction left generalizing s with
  | zero =>
    -- everything in the block is behind the run, so nothing is next
    rw [h.pos block hblock, List.take_of_length_le (by omega)] at hget'
    rw [show (block.without gone).insts = block.insts.filter (· ∉ gone) from rfl,
      List.getElem?_eq_none (Nat.le_refl _)] at hget'
    cases hget'
  | succ left ih =>
    have hlt : s.pos < block.insts.length := by omega
    have hget := List.getElem?_eq_getElem hlt
    generalize block.insts[s.pos] = j at hget
    have hatt := (at_insts hblock hget).mem_attached
    by_cases hj : j ∈ gone
    · obtain ⟨-, instj, -, -, hinstj, -⟩ := (hp.dead j hj).idle
      have hnextj : s.Next g j instj (instj.inputs.map s.env) := ⟨block, hblock, hget, hinstj, rfl⟩
      obtain ⟨deed, v, hacts⟩ := (silent_of_gone hp hj hinstj).exists_acts M (instj.inputs.map s.env) s.mem
      have hhidden : (Event.acts j (instj.inputs.map s.env) deed v).isOf g' = false := by
        rw [Bool.eq_false_iff, ne_eq, isOf_acts hp hnextj]
        exact not_not_intro hj
      obtain ⟨τ, s₁, htrace, hquiet, hrest⟩ :=
        ih (h.skip hp hj hnextj hacts) hblock hblock' (by simp only; omega)
      exact ⟨_ :: τ, s₁, (Step.acts hnextj hacts).trace.trans htrace, by simpa [hhidden] using hquiet, hrest⟩
    · rw [h.pos block hblock] at hget'
      obtain rfl : j = i :=
        Option.some.inj ((getElem?_filter_take hget (decide_eq_true hj)).symm.trans hget')
      -- the first instruction in front that stays is the one that is next in what is left
      have hinst := (hp.left j hj).symm.trans hinst'
      refine ⟨[], s, .nil, rfl, h, ⟨block, hblock, hget, hinst, ?_⟩, hj⟩
      rw [hargs]
      exact List.map_congr_left fun x hx => h.env x (not_mem_of_operand hp hatt hj hinst hx)

/-- A step of what is left is a step of the graph, after removed instructions. -/
theorem Matches.step_left {t' : Point} (h : Matches g gone s s') (hstep : Step g' M s' e t') :
    ∃ τ t, Trace g M s τ t ∧ τ.filter (·.isOf g') = [e] ∧ Matches g gone t t' := by
  cases hstep with
  | @acts i inst args deed v m hnext' hacts =>
    obtain ⟨τ, s₁, htrace, hquiet, h₁, hnext, hi⟩ := h.catch_up hp hnext' M
    have hshown := (isOf_acts hp hnext deed v).2 hi
    have hacts₁ : Acts g M inst args s₁.mem deed v m := by
      obtain ⟨block, hblock, hget, hinst, -⟩ := hnext
      rw [← h₁.mem]
      exact hacts.congr hp.fields.symm (operandTy_eq hp (at_insts hblock hget).mem_attached hi hinst 2).symm
    exact ⟨_, _, htrace.snoc (.acts hnext hacts₁), by simp [List.filter_append, hquiet, hshown],
      h₁.both hi hnext⟩
  | @goes i inst args target' b k n hnext' hleads htarget hblock' hplace hcount =>
    obtain ⟨τ, s₁, htrace, hquiet, h₁, hnext, hi⟩ := h.catch_up hp hnext' M
    obtain ⟨target, hblock, rfl⟩ := hp.cleared.rewired.block_eq_ok.1 hblock'
    rw [h₁.block, hp.cleared.trimmed.succs] at htarget hcount
    rw [h₁.block] at hplace ⊢
    exact ⟨_, _, htrace.snoc (.goes hnext hleads htarget hblock hplace hcount),
      by simp [List.filter_append, hquiet], h₁.enter hp hblock⟩

/-- A run of what is left is a run of the graph that shows the removed instructions too. -/
theorem Matches.trace_left {s₀ s₀' : Point} {τ' : List Event} (h : Matches g gone s₀ s₀')
    (htrace : Trace g' M s₀' τ' s') :
    ∃ τ s, Trace g M s₀ τ s ∧ τ.filter (·.isOf g') = τ' ∧ Matches g gone s s' := by
  induction htrace with
  | nil => exact ⟨[], s₀, .nil, rfl, h⟩
  | snoc _ hstep ih =>
    obtain ⟨τ, s, htrace, rfl, hmatches⟩ := ih
    obtain ⟨τ₁, t, htrace₁, hshown, hmatches₁⟩ := hmatches.step_left hp hstep
    exact ⟨τ ++ τ₁, t, htrace.trans htrace₁, by rw [List.filter_append, hshown], hmatches₁⟩

/-- Where what is left may end, so may the graph, after removed instructions. -/
theorem Matches.ends_left {o : Ending} (h : Matches g gone s s') (hends : Ends g' s' o) (M : Meaning) :
    ∃ τ s₁, Trace g M s τ s₁ ∧ τ.filter (·.isOf g') = [] ∧ Matches g gone s₁ s' ∧ Ends g s₁ o := by
  obtain ⟨i, inst, args, hnext', -, hsame⟩ := hends.exists_next
  obtain ⟨τ, s₁, htrace, hquiet, h₁, hnext, -⟩ := h.catch_up hp hnext' M
  exact ⟨τ, s₁, htrace, hquiet, h₁, hsame g s₁ h₁.mem.symm hnext⟩

/-! ## Whole runs -/

/-- What is left behaves as the graph does, but for the removed instructions. -/
theorem behaves_iff (M : Meaning) (env : InstId → Val) (m after : Memory) (τ' : List Event)
    (o : Option Ending) :
    Behaves g' M env m τ' after o ↔ ∃ τ, Behaves g M env m τ after o ∧ τ.filter (·.isOf g') = τ' := by
  have hstart : Matches g gone ⟨g.entry, 0, env, m⟩ ⟨g'.entry, 0, env, m⟩ :=
    ⟨hp.cleared.trimmed.entry, fun _ _ => by simp, fun _ _ => rfl, rfl⟩
  constructor
  · rintro ⟨s', htrace', rfl, hends'⟩
    obtain ⟨τ, s, htrace, rfl, hmatches⟩ := hstart.trace_left hp htrace'
    cases o with
    | none => exact ⟨τ, ⟨s, htrace, hmatches.mem.symm, fun e he => by cases he⟩, rfl⟩
    | some e =>
      obtain ⟨τ₁, s₁, htrace₁, hquiet, hmatches₁, hends⟩ := hmatches.ends_left hp (hends' e rfl) M
      refine ⟨τ ++ τ₁, ⟨s₁, htrace.trans htrace₁, hmatches₁.mem.symm, ?_⟩, ?_⟩
      · rintro _ ⟨⟩
        exact hends
      · rw [List.filter_append, hquiet, List.append_nil]
  · rintro ⟨τ, ⟨s, htrace, rfl, hends⟩, rfl⟩
    obtain ⟨s', htrace', hmatches⟩ := hstart.trace hp htrace
    exact ⟨s', htrace', hmatches.mem, fun e he => hmatches.ends hp (hends e he)⟩

end Purged

/-- Dead code elimination succeeds on every graph without violations and leaves one.  What it takes away is
dead, the rest is as it was, and the runs of what is left are the runs of the graph with the removed
instructions left out: through the same blocks, with the same reads, writes, allocations and outside
operations of the same operands, to the same memory and the same end. -/
theorem eliminate_preserves_behaviour (hg : g.Built) (hv : g.violations = .ok []) (hf : g.FieldsDeclared)
    (maxSweeps : Nat) :
    ∃ g' outcome, eliminate g maxSweeps = .ok (g', outcome) ∧ g'.violations = .ok [] ∧
      (∀ i ∈ g.attached, i ∉ g'.attached → g.Dead i) ∧
      (∀ i ∈ g'.attached, i ∈ g.attached ∧ g'.inst i = g.inst i) ∧
      ∀ M env m after τ' o, Behaves g' M env m τ' after o ↔
        ∃ τ, Behaves g M env m τ after o ∧ τ.filter (·.isOf g') = τ' := by
  have hi := hg.intact
  have hw := hi.consistent.violations_eq_nil_iff.1 hv
  obtain ⟨g', gone, outcome, hrun, hp, -⟩ := exists_purged_eliminate hw hi hf maxSweeps
  have hattached : ∀ i, i ∈ g'.attached ↔ i ∈ g.attached ∧ i ∉ gone := fun i =>
    hp.cleared.rewired.mem_attached
  refine ⟨g', outcome, hrun, ?_, fun i hmem hnot => ?_, fun i hmem => ?_, behaves_iff hp⟩
  · exact (hp.cleared.trimmed.intact hi).consistent.violations_eq_nil_iff.2
      (hp.cleared.wellFormed hw hi.consistent)
  · by_contra hdead
    exact hnot ((hattached i).2 ⟨hmem, fun hgone => hdead (hp.dead i hgone)⟩)
  · obtain ⟨hold, hstays⟩ := (hattached i).1 hmem
    exact ⟨hold, hp.left i hstays⟩

/-- Everything comes to zero, and branches go to their second successor. -/
def Meaning.zero : Meaning where
  param _ := .num 0
  binary _ _ := .num 0
  compare _ _ := .num 0
  phi _ := .num 0
  taken _ := false

/-- The memory that `looseChain` leaves. -/
def sevenStored : Memory :=
  { Memory.zero with cell := Function.update Memory.zero.cell (.static ⟨0⟩) (.num 7), hidden := fun o =>
    Memory.zero.hidden o ∧ Val.num 7 ≠ .obj o }

/-- A run through `looseChain` that leaves the loop at once, and stores. -/
theorem behaves_looseChain : Behaves looseChain .zero (fun _ => .num 0) .zero
    [.acts ⟨0⟩ [] .compute (.num 0), .acts ⟨1⟩ [] (.read (.static ⟨0⟩)) (.num 0),
      .acts ⟨3⟩ [] .compute (.num 0), .goes ⟨0⟩ ⟨1⟩ 0, .goes ⟨1⟩ ⟨3⟩ 0, .acts ⟨8⟩ [] .compute (.num 7),
      .acts ⟨9⟩ [.num 7] (.write (.static ⟨0⟩) (.num 7)) (.num 0)] sevenStored (some (.returned [])) := by
  have h₀ : looseChain.block ⟨0⟩ = .ok ⟨[], [⟨0⟩, ⟨1⟩, ⟨3⟩, ⟨2⟩], [], [⟨1⟩]⟩ := by decide +kernel
  have h₁ : looseChain.block ⟨1⟩ = .ok ⟨[⟨4⟩], [⟨5⟩], [⟨0⟩, ⟨2⟩], [⟨2⟩, ⟨3⟩]⟩ := by decide +kernel
  have h₃ : looseChain.block ⟨3⟩ = .ok ⟨[], [⟨8⟩, ⟨9⟩, ⟨10⟩], [⟨1⟩], []⟩ := by decide +kernel
  have hsuccs₀ : looseChain.succs ⟨0⟩ = [⟨1⟩] := by decide +kernel
  have hsuccs₁ : looseChain.succs ⟨1⟩ = [⟨2⟩, ⟨3⟩] := by decide +kernel
  have hparam : looseChain.inst ⟨0⟩ = .ok ⟨.param 0, .bool, [], some ⟨0⟩, false⟩ := by decide +kernel
  have hread : looseChain.inst ⟨1⟩ = .ok ⟨.staticGet ⟨0⟩, .int, [], some ⟨0⟩, false⟩ := by decide +kernel
  have hconst : looseChain.inst ⟨3⟩ = .ok ⟨.const 0, .int, [], some ⟨0⟩, false⟩ := by decide +kernel
  have hjump : looseChain.inst ⟨2⟩ = .ok ⟨.jump, .void, [], some ⟨0⟩, false⟩ := by decide +kernel
  have hbranch : looseChain.inst ⟨5⟩ = .ok ⟨.branch, .void, [⟨0⟩], some ⟨1⟩, false⟩ := by decide +kernel
  have hseven : looseChain.inst ⟨8⟩ = .ok ⟨.const 7, .int, [], some ⟨3⟩, false⟩ := by decide +kernel
  have hstore : looseChain.inst ⟨9⟩ = .ok ⟨.staticSet ⟨0⟩, .void, [⟨8⟩], some ⟨3⟩, false⟩ := by decide +kernel
  have hret : looseChain.inst ⟨10⟩ = .ok ⟨.retVoid, .void, [], some ⟨3⟩, false⟩ := by decide +kernel
  have hplain : looseChain.isVolatile ⟨0⟩ = false := by decide +kernel
  have hentry : looseChain.entry = ⟨0⟩ := by decide +kernel
  rw [Behaves, hentry]
  have hstart : Trace looseChain .zero ⟨⟨0⟩, 0, fun _ => .num 0, .zero⟩ [] _ := .nil
  have hfirst := ((hstart.snoc (.acts ⟨_, h₀, rfl, hparam, rfl⟩ (.param rfl))).snoc
    (.acts ⟨_, h₀, rfl, hread, rfl⟩ (.load rfl (.static (.inl rfl) hplain) trivial))).snoc
    (.acts ⟨_, h₀, rfl, hconst, rfl⟩ (.const rfl))
  have hhead := hfirst.snoc
    (.goes (n := 0) ⟨_, h₀, rfl, hjump, rfl⟩ rfl (by rw [hsuccs₀]; rfl) h₁ rfl rfl)
  have hleave := hhead.snoc
    (.goes (k := 1) (n := 0) ⟨_, h₁, rfl, hbranch, rfl⟩ rfl (by rw [hsuccs₁]; rfl) h₃ rfl
      (by rw [hsuccs₁]; decide))
  have hrun := (hleave.snoc (.acts ⟨_, h₃, rfl, hseven, rfl⟩ (.const rfl))).snoc
    (.acts ⟨_, h₃, rfl, hstore, rfl⟩ (.store rfl (.static (.inr rfl) hplain) trivial rfl))
  refine ⟨_, hrun, rfl, ?_⟩
  rintro _ ⟨⟩
  exact .returned ⟨_, h₃, rfl, hret, rfl⟩ (.inr rfl)

/-- Without its dead code `looseChain` shows the same run but for the read and the constant that went. -/
theorem eliminate_preserves_behaviour_looseChain :
    looseChain.Built ∧ looseChain.violations = .ok [] ∧ looseChain.FieldsDeclared ∧
    ∃ g' outcome, eliminate looseChain 0 = .ok (g', outcome) ∧ g'.violations = .ok [] ∧
      Behaves g' .zero (fun _ => .num 0) .zero
        [.acts ⟨0⟩ [] .compute (.num 0), .goes ⟨0⟩ ⟨1⟩ 0, .goes ⟨1⟩ ⟨3⟩ 0, .acts ⟨8⟩ [] .compute (.num 7),
          .acts ⟨9⟩ [.num 7] (.write (.static ⟨0⟩) (.num 7)) (.num 0)] sevenStored (some (.returned [])) := by
  have hg : looseChain.Built := built_ofEdits _ _
  have hv : looseChain.violations = .ok [] := by decide +kernel
  have hf : looseChain.FieldsDeclared := by decide +kernel
  obtain ⟨g', outcome, hrun, hv', -, -, hbehaves⟩ := eliminate_preserves_behaviour hg hv hf 0
  have hleft : (eliminate looseChain 0).map (·.1.attached) =
      .ok [⟨0⟩, ⟨2⟩, ⟨5⟩, ⟨7⟩, ⟨8⟩, ⟨9⟩, ⟨10⟩] := by decide +kernel
  rw [hrun] at hleft
  refine ⟨hg, hv, hf, g', outcome, hrun, hv', (hbehaves _ _ _ _ _ _).2 ⟨_, behaves_looseChain, ?_⟩⟩
  simp [Event.isOf, Except.ok.inj hleft]

end Behaviour

end Midend
