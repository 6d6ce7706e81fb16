import Midend.Proofs.Arena
import Midend.Proofs.Locations

/-!
# Objects that one instruction knows

An object that a singleton allocation creates is the value of that allocation alone, in every state of an
execution, the states before it is created and after the allocation has created another one included.  So two
accesses that touch the same cell at any two moments of an execution have locations that may alias.

## Shape of the argument

From the state in which the object comes into being on, one step after the other keeps it hidden, out of
memory and out of the values of all other instructions (`RunState.Confines.step`).  Before that state the
object does not exist, and what does not exist is no value (`Step.env_singleton`, `History.live`).  Both
together are an invariant of the states that an execution has gone through (`History.confines`).
-/

namespace Midend

open Midend.Graph

variable {g : Graph} {s s' : RunState Memory} {states : List (RunState Memory)} {e : Event} {x i : InstId}
  {inst : Inst} {o : Nat} {c : Cell}

/-! ## Executions -/

/-- The states that one execution has gone through, the latest first. -/
inductive History (g : Graph) : List (RunState Memory) → Prop
  | start {m : Memory} : m.Initial → History g [⟨g.entry, 0, fun _ => none, m⟩]
  | step {s s' : RunState Memory} {e : Event} {past : List (RunState Memory)} : History g (s :: past) →
    Step g (memorySemantics g) s e s' → History g (s' :: s :: past)

/-- Every state of a history ends a run. -/
theorem History.run (h : History g states) (hs : s ∈ states) : Run g (memorySemantics g) Memory.Initial s := by
  induction h generalizing s with
  | start hm =>
    rw [List.mem_singleton.1 hs]
    exact .start hm
  | step _ hstep ih =>
    rcases List.mem_cons.1 hs with rfl | hs
    · exact (ih List.mem_cons_self).step hstep
    · exact ih hs

/-- Objects stay live. -/
theorem Step.live (hstep : Step g (memorySemantics g) s e s') (ho : s.mem.live o) : s'.mem.live o := by
  cases hstep with
  | exec _ _ _ _ hexec => exact (Executes.live hexec ho).1
  | goto => exact ho

/-- What has existed exists. -/
theorem History.live (h : History g (s :: states)) (hs' : s' ∈ states) (ho : s'.mem.live o) : s.mem.live o := by
  generalize hall : s :: states = all at h
  induction h generalizing s states with
  | start =>
    cases hall
    cases hs'
  | @step t _ _ past hpast hstep ih =>
    cases hall
    rcases List.mem_cons.1 hs' with rfl | hs'
    · exact hstep.live ho
    · exact hstep.live (ih hs' rfl)

/-! ## One name in one state -/

/-- No instruction but one has the object as its value, and no cell holds it. -/
structure RunState.Confines (s : RunState Memory) (x : InstId) (o : Nat) : Prop where
  env : ∀ y, s.env y = some (.obj o) → y = x
  cell : ∀ c, s.mem.cell c ≠ .obj o

/-- An object that does not exist is nowhere. -/
theorem Tidy.confines_of_not_live (h : Tidy g s) (ho : ¬ s.mem.live o) : s.Confines x o where
  env y hy := absurd (h.env_live y o hy) ho
  cell c hc := ho (h.cell_live c o hc)

/-- In a tidy state a single object is confined. -/
theorem Tidy.confines (h : Tidy g s) (hx : g.Single x) (ho : s.env x = some (.obj o)) : s.Confines x o where
  env y := h.single_env x o y hx ho
  cell c := h.single_cell x o c hx ho

section Steps

variable (hw : g.WellFormed) (hl : g.Layout) (hs : Tidy g s) (hx : g.Single x)
include hw hl hs hx

/-- A step neither lets out the object of a singleton nor gives it another name, even if the allocation has
created another object meanwhile. -/
theorem RunState.Confines.step (h : s.Confines x o) (ho : s.mem.hidden o)
    (hstep : Step g (memorySemantics g) s e s') : s'.mem.hidden o ∧ s'.Confines x o := by
  cases hstep with
  | @exec block i inst args v mem hb hi hinst hargs hexec =>
    have hatt : i ∈ g.attached :=
      mem_attached.2 ⟨s.block, block, hb, List.mem_append_right _ (List.mem_of_getElem? hi)⟩
    obtain ⟨ho', hcell, hv⟩ := Executes.untouched hexec hs.hidden_live ho h.cell fun k hk => by
      obtain ⟨y, hy, henv⟩ := exists_operand hargs hk
      obtain rfl := h.env y henv
      exact hx.fate_ne_shared hw hatt hinst hy
    refine ⟨ho', fun y hy => h.env y ?_, hcell⟩
    by_cases hyi : y = i
    · subst hyi
      dsimp only at hy
      rw [Function.update_self] at hy
      exact absurd (Option.some.inj hy) hv
    · exact (Function.update_of_ne hyi ..).symm.trans hy
  | goto _ _ _ ht =>
    refine ⟨ho, fun y hy => ?_, h.cell⟩
    rcases exists_source_of_goto hy with ⟨-, hy⟩ | ⟨inst, z, hmem, hinst, hz, hzo⟩
    · exact h.env y hy
    · obtain rfl := h.env z hzo
      exact absurd hz (hx.not_mem_inputs_phi hw hl ht hmem hinst)

/-- The object that a singleton has after a step is the one it had before, or has just come into being. -/
theorem Step.env_singleton (hstep : Step g (memorySemantics g) s e s') (ho : s'.env x = some (.obj o)) :
    s.env x = some (.obj o) ∨ ¬ s.mem.live o := by
  cases hstep with
  | @exec block i inst args v mem hb hi hinst hargs hexec =>
    by_cases hxi : x = i
    · subst hxi
      dsimp only at ho
      rw [Function.update_self] at ho
      obtain rfl := Option.some.inj ho
      obtain ⟨o', ho', hfresh, -⟩ := Executes.allocation hexec (hx.isAllocation hinst) hs.cell_live
      cases ho'
      exact .inr hfresh
    · exact .inl ((Function.update_of_ne hxi ..).symm.trans ho)
  | goto _ _ _ ht => exact .inl ((if_neg (hx.not_mem_phis hw hl ht)).symm.trans ho)

end Steps

/-! ## One name in an execution -/

section History

variable (hw : g.WellFormed) (hl : g.Layout) (hx : g.Single x)
include hw hl hx

/-- Once a singleton has an object, the object is hidden at the end of the execution, and no state of the
execution has another name for it. -/
theorem History.confines_all (h : History g (s :: states)) (hs' : s' ∈ s :: states)
    (ho : s'.env x = some (.obj o)) : s.mem.hidden o ∧ ∀ t ∈ s :: states, t.Confines x o := by
  generalize hall : s :: states = all at h hs' ⊢
  induction h generalizing s s' states with
  | start hm =>
    rw [List.mem_singleton.1 hs'] at ho
    cases ho
  | @step last next _ past hpast hstep ih =>
    cases hall
    have htidy : Tidy g last := (hpast.run List.mem_cons_self).tidy hw hl
    have htidy' : Tidy g next := htidy.step hw hl hstep
    -- whether the object is in use before the step or created by it
    have hcases : (∃ t ∈ last :: past, t.env x = some (.obj o)) ∨
        (next.env x = some (.obj o) ∧ ¬ last.mem.live o) := by
      rcases List.mem_cons.1 hs' with rfl | hs'
      · exact (hstep.env_singleton hw hl htidy hx ho).imp (fun h => ⟨last, List.mem_cons_self, h⟩)
          fun h => ⟨ho, h⟩
      · exact .inl ⟨s', hs', ho⟩
    rcases hcases with ⟨t, ht, hto⟩ | ⟨hnext, hdead⟩
    · obtain ⟨hhidden, hconf⟩ := ih hto rfl ht
      obtain ⟨hhidden', hconf'⟩ := (hconf last List.mem_cons_self).step hw hl htidy hx hhidden hstep
      exact ⟨hhidden', List.forall_mem_cons.2 ⟨hconf', hconf⟩⟩
    · refine ⟨htidy'.single_hidden x o hx hnext,
        List.forall_mem_cons.2 ⟨htidy'.confines hx hnext, fun t ht => ?_⟩⟩
      have hdead' : ¬ t.mem.live o := by
        rcases List.mem_cons.1 ht with rfl | hpast'
        · exact hdead
        · exact fun hlive => hdead (hpast.live hpast' hlive)
      exact ((hpast.run ht).tidy hw hl).confines_of_not_live hdead'

/-- An object that a value names later is confined at every state of the history. -/
theorem History.confines (h : History g states) (hs' : s' ∈ states) (ho : s'.env x = some (.obj o))
    (hs : s ∈ states) : s.Confines x o := by
  cases states with
  | nil => cases hs
  | cons => exact (h.confines_all hw hl hx hs' ho).2 s hs

end History

/-! ## Operations that are given an object -/

/-- The instruction that an execution comes to next has an operand that is the object. -/
def RunState.Gives (g : Graph) (s : RunState Memory) (o : Nat) (inst : Inst) : Prop :=
  ∃ i, s.Next g i ∧ g.inst i = .ok inst ∧ ∃ y ∈ inst.inputs, s.env y = some (.obj o)

/-- What a private value is used for does not leave the method. -/
theorem Graph.leaves_not_mem_of_isPrivate (h : (g.escapeOf x).isPrivate = true) :
    .leaves ∉ (g.uses x).map g.fateOf := by
  rw [escapeOf] at h
  split at h
  · simp only [Bool.and_eq_true] at h
    simpa using h.2
  · simp [Escape.escaped] at h

/-- An operand of a call or a monitor is shared. -/
theorem fate_isForeign {k : Kind} (h : k.isForeign = true) (n : Nat) : Escape.fate k n = .shared := by
  cases k <;> first | rfl | cases h

/-- An instruction whose operand is an object that one instruction knows reads that instruction. -/
theorem RunState.Gives.exists_fateOf (h : s.Gives g o inst) (hw : g.WellFormed) (hconf : s.Confines x o) :
    ∃ k, Escape.fate inst.kind k ∈ (g.uses x).map g.fateOf := by
  obtain ⟨i, ⟨block, hb, hi⟩, hinst, y, hy, henv⟩ := h
  obtain rfl := hconf.env y henv
  obtain ⟨k, hk⟩ := List.mem_iff_getElem?.1 hy
  have hatt : i ∈ g.attached :=
    mem_attached.2 ⟨s.block, block, hb, List.mem_append_right _ (List.mem_of_getElem? hi)⟩
  exact ⟨k, hw.fateOf_operand hatt hinst hk⟩

/-- The object of a singleton is not handed to code that cannot be seen. -/
theorem RunState.Gives.isForeign_eq_false (h : s.Gives g o inst) (hw : g.WellFormed) (hx : g.Single x)
    (hconf : s.Confines x o) : inst.kind.isForeign = false := by
  obtain ⟨k, hk⟩ := h.exists_fateOf hw hconf
  rw [Bool.eq_false_iff]
  intro hforeign
  rw [fate_isForeign hforeign] at hk
  exact hx.shared_not_mem hk

/-- The object of a private allocation does not leave the method. -/
theorem RunState.Gives.not_leaves (h : s.Gives g o inst) (hw : g.WellFormed)
    (hx : (g.escapeOf x).isPrivate = true) (hconf : s.Confines x o) :
    inst.kind ≠ .ret ∧ inst.kind ≠ .raise := by
  obtain ⟨k, hk⟩ := h.exists_fateOf hw hconf
  have hno := leaves_not_mem_of_isPrivate hx
  constructor <;> intro hkind <;> rw [hkind] at hk <;> exact hno hk

/-! ## Accesses at two moments -/

/-- The instruction that an execution comes to next is an access that touches the cell; its field, if it names
one, is among those of the graph. -/
structure RunState.Accessing (g : Graph) (s : RunState Memory) (i : InstId) (c : Cell) : Prop where
  next : s.Next g i
  declared : ∀ inst f, g.inst i = .ok inst → inst.kind.field? = some f → ∃ field, g.field f = .ok field
  touches : ∃ args, s.Touches g i args c

/-- An access has a location, and this denotes the cell that the access touches. -/
theorem RunState.Accessing.exists_denotes (h : s.Accessing g i c) (hw : g.WellFormed) (hg : g.Consistent)
    (hl : g.Layout) (hs : Run g (memorySemantics g) Memory.Initial s) :
    ∃ l, g.location? i = .ok (some l) ∧ l.Denotes s.env s.mem c := by
  obtain ⟨args, htouch⟩ := h.touches
  obtain ⟨inst, hinst, -, haccess, -⟩ := id htouch
  obtain ⟨block, hblock, hi⟩ := h.next
  obtain ⟨l?, hloc⟩ := exists_location? hw hg hl.furnished hs.reachable hblock (List.mem_of_getElem? hi) hinst
    fun f => h.declared inst f hinst
  cases l? with
  | none => exact absurd haccess (not_accesses_of_location? hinst hloc args c)
  | some l => exact ⟨l, hloc, hs.denotes hw hg hl h.next hloc htouch⟩

/-- Two accesses of one execution that touch the same cell may alias, whichever comes first. -/
theorem History.mayAlias {s₁ s₂ : RunState Memory} {l₁ l₂ : Location} (h : History g states) (hw : g.WellFormed)
    (hl : g.Layout) (h₁ : s₁ ∈ states) (h₂ : s₂ ∈ states) (hl₁ : l₁.Denotes s₁.env s₁.mem c)
    (hl₂ : l₂.Denotes s₂.env s₂.mem c) :
    l₁.mayAlias g (fun r => (g.escapeOf r).isSingleton) l₂ = true := by
  refine ((h.run h₁).tidy hw hl).mayAlias_of_denotes ((h.run h₂).tidy hw hl) (fun r r' o hr hr' => ?_) hl₁ hl₂
  by_cases heq : r = r'
  · exact .inl heq
  · refine .inr ⟨?_, ?_⟩ <;> rw [Bool.eq_false_iff] <;> intro hs
    · exact heq ((h.confines hw hl hs h₁ hr h₂).env r' hr').symm
    · exact heq ((h.confines hw hl hs h₂ hr' h₁).env r hr)

/-- In every execution, the object of a singleton allocation is the value of no other instruction, is held in
no cell and is given to no call, unknown operation or monitor operation, and if the allocation is private it
is not returned or thrown either.  Two accesses that touch the same cell at any two moments of the execution
have locations that may alias, in both orders. -/
theorem singletons_confined (hg : g.Consistent) (hv : g.violations = .ok []) (hl : g.Layout)
    (h : History g states) :
    (∀ x o, (g.escapeOf x).isSingleton = true → (∃ s ∈ states, s.env x = some (.obj o)) → ∀ s ∈ states,
      (∀ y, s.env y = some (.obj o) → y = x) ∧ (∀ c, s.mem.cell c ≠ .obj o) ∧
        ∀ inst, s.Gives g o inst → inst.kind.isForeign = false ∧
          ((g.escapeOf x).isPrivate = true → inst.kind ≠ .ret ∧ inst.kind ≠ .raise)) ∧
    ∀ s₁ ∈ states, ∀ s₂ ∈ states, ∀ i₁ i₂ c, s₁.Accessing g i₁ c → s₂.Accessing g i₂ c →
      ∃ l₁ l₂, g.location? i₁ = .ok (some l₁) ∧ g.location? i₂ = .ok (some l₂) ∧
        l₁.mayAlias g (fun r => (g.escapeOf r).isSingleton) l₂ = true ∧
        l₂.mayAlias g (fun r => (g.escapeOf r).isSingleton) l₁ = true := by
  have hw := hg.violations_eq_nil_iff.1 hv
  refine ⟨?_, ?_⟩
  · rintro x o hx ⟨s', hs', ho⟩ s hs
    have hconf := h.confines hw hl hx hs' ho hs
    exact ⟨hconf.env, hconf.cell, fun inst hgives =>
      ⟨hgives.isForeign_eq_false hw hx hconf, fun hprivate => hgives.not_leaves hw hprivate hconf⟩⟩
  · intro s₁ h₁ s₂ h₂ i₁ i₂ c ha₁ ha₂
    obtain ⟨l₁, hloc₁, hl₁⟩ := ha₁.exists_denotes hw hg hl (h.run h₁)
    obtain ⟨l₂, hloc₂, hl₂⟩ := ha₂.exists_denotes hw hg hl (h.run h₂)
    exact ⟨l₁, l₂, hloc₁, hloc₂, h.mayAlias hw hl h₁ h₂ hl₁ hl₂, h.mayAlias hw hl h₂ h₁ hl₂ hl₁⟩

/-- A loop that creates an object, sets a field of it and reads it; an object created after the loop is
returned. -/
def allocatingLoop : Graph := .ofEdits "allocatingLoop" [
  .setStatic true, .createBlock, .createBlock, .internField ⟨"C", "f", .bool, 8, false, false⟩,
  .createInst (.param 0) .bool [], .appendInst ⟨0⟩ ⟨0⟩,
  .createInst .jump .void [], .appendInst ⟨0⟩ ⟨1⟩, .addEdge ⟨0⟩ ⟨1⟩,
  .createInst (.newInstance "C") .ref [], .appendInst ⟨1⟩ ⟨2⟩,
  .createInst (.instanceSet ⟨0⟩) .void [⟨2⟩, ⟨0⟩], .appendInst ⟨1⟩ ⟨3⟩,
  .createInst (.instanceGet ⟨0⟩) .bool [⟨2⟩], .appendInst ⟨1⟩ ⟨4⟩,
  .createInst .branch .void [⟨4⟩], .appendInst ⟨1⟩ ⟨5⟩, .addEdge ⟨1⟩ ⟨1⟩, .addEdge ⟨1⟩ ⟨2⟩,
  .createInst (.newInstance "C") .ref [], .appendInst ⟨2⟩ ⟨6⟩,
  .createInst .ret .void [⟨6⟩], .appendInst ⟨2⟩ ⟨7⟩]

/-- Memory after a new object is made, with numbers in its cells. -/
def Memory.allocate (m : Memory) (o : Nat) : Memory where
  cell c := if c.object? = some o then .num 0 else m.cell c
  live p := m.live p ∨ p = o
  hidden p := m.hidden p ∨ p = o
  length := m.length

/-- Allocating takes an object that is not live. -/
theorem Memory.allocates {m : Memory} (h : ¬ m.live o) : Allocates m o (m.allocate o) where
  fresh := h
  live _ := .rfl
  hidden _ := .rfl
  cells _ hc := if_neg hc
  contents c p hc := by simp [allocate, hc]
  length _ _ := rfl

/-- An execution of `allocatingLoop` goes through the loop twice, each time with an object of its own. -/
theorem exists_history_allocatingLoop : ∃ states, History allocatingLoop states ∧
    (∃ s ∈ states, s.env ⟨2⟩ = some (.obj 1)) ∧ (∃ s ∈ states, s.env ⟨2⟩ = some (.obj 2)) ∧
    ∃ s₁ ∈ states, ∃ s₂ ∈ states, s₁.Accessing allocatingLoop ⟨3⟩ (.field 1 ⟨0⟩) ∧
      s₂.Accessing allocatingLoop ⟨4⟩ (.field 1 ⟨0⟩) := by
  have hset : ∀ o, Accesses allocatingLoop ⟨.instanceSet ⟨0⟩, .void, [⟨2⟩, ⟨0⟩], some ⟨1⟩, false⟩
      [.obj o, .num 1] (.field o ⟨0⟩) := fun _ => .instanceSet rfl (by decide +kernel)
  have hget : ∀ o, Accesses allocatingLoop ⟨.instanceGet ⟨0⟩, .bool, [⟨2⟩], some ⟨1⟩, false⟩
      [.obj o] (.field o ⟨0⟩) := fun _ => .instanceGet rfl (by decide +kernel)
  have hentry : allocatingLoop.block ⟨0⟩ = .ok ⟨[], [⟨0⟩, ⟨1⟩], [], [⟨1⟩]⟩ := by
    decide +kernel
  have hloop : allocatingLoop.block ⟨1⟩ =
      .ok ⟨[], [⟨2⟩, ⟨3⟩, ⟨4⟩, ⟨5⟩], [⟨0⟩, ⟨1⟩], [⟨1⟩, ⟨2⟩]⟩ := by decide +kernel
  have hparam : allocatingLoop.inst ⟨0⟩ = .ok ⟨.param 0, .bool, [], some ⟨0⟩, false⟩ := by decide +kernel
  have hjump : allocatingLoop.inst ⟨1⟩ = .ok ⟨.jump, .void, [], some ⟨0⟩, false⟩ := by decide +kernel
  have hnew : allocatingLoop.inst ⟨2⟩ = .ok ⟨.newInstance "C", .ref, [], some ⟨1⟩, false⟩ := by decide +kernel
  have hstore : allocatingLoop.inst ⟨3⟩ =
      .ok ⟨.instanceSet ⟨0⟩, .void, [⟨2⟩, ⟨0⟩], some ⟨1⟩, false⟩ := by decide +kernel
  have hload : allocatingLoop.inst ⟨4⟩ = .ok ⟨.instanceGet ⟨0⟩, .bool, [⟨2⟩], some ⟨1⟩, false⟩ := by
    decide +kernel
  have hbranch : allocatingLoop.inst ⟨5⟩ = .ok ⟨.branch, .void, [⟨4⟩], some ⟨1⟩, false⟩ := by decide +kernel
  have hfield : allocatingLoop.field ⟨0⟩ = .ok ⟨"C", "f", .bool, 8, false, false⟩ := by decide +kernel
  have hstart : allocatingLoop.entry = ⟨0⟩ := by decide +kernel
  have h₀ : History allocatingLoop [⟨⟨0⟩, 0, fun _ => none, .zero⟩] := hstart ▸ .start Memory.initial_zero
  have h₁ := h₀.step (.exec hentry rfl hparam rfl
    (.computes (.param (Memory.outside_num _ 1) (by decide +kernel))))
  have h₂ := h₁.step (.exec hentry rfl hjump rfl (.computes (.jump (n := 0))))
  have h₃ := h₂.step (.goto (t := ⟨1⟩) (n := 0) hentry rfl (by decide) hloop rfl (by rintro _ ⟨⟩))
  have h₄ := h₃.step (.exec hloop rfl hnew rfl
    (.allocates (o := 1) rfl (Memory.allocates (by simp [Memory.zero])) nofun))
  have h₅ := h₄.step (.exec hloop rfl hstore rfl (.store (n := 0) rfl (hset 1) trivial rfl))
  have h₆ := h₅.step (.exec hloop rfl hload rfl (.load rfl (hget 1) trivial))
  have h₇ := h₆.step (.exec hloop rfl hbranch rfl (.computes (.branch (n := 0))))
  have h₈ := h₇.step (.goto (t := ⟨1⟩) (n := 1) hloop rfl (by decide) hloop rfl (by rintro _ ⟨⟩))
  have h₉ := h₈.step (.exec hloop rfl hnew rfl
    (.allocates (o := 2) rfl (Memory.allocates (by simp [Memory.zero, Memory.allocate])) nofun))
  refine ⟨_, h₉, ⟨_, List.mem_of_getElem? (i := 4) rfl, rfl⟩, ⟨_, List.mem_of_getElem? (i := 0) rfl, rfl⟩,
    _, List.mem_of_getElem? (i := 5) rfl, _, List.mem_of_getElem? (i := 4) rfl,
    ⟨⟨_, hloop, rfl⟩, ?_, _, _, hstore, rfl, hset 1, trivial⟩,
    ⟨⟨_, hloop, rfl⟩, ?_, _, _, hload, rfl, hget 1, trivial⟩⟩
  · intro inst f hinst hf
    obtain rfl := Except.ok.inj (hstore.symm.trans hinst)
    cases hf
    exact ⟨_, hfield⟩
  · intro inst f hinst hf
    obtain rfl := Except.ok.inj (hload.symm.trans hinst)
    cases hf
    exact ⟨_, hfield⟩

/-- In a history of `allocatingLoop` an allocation names two objects in turn, and two instructions access
the same field of the first. -/
theorem singletons_confined_allocatingLoop :
    allocatingLoop.Consistent ∧ allocatingLoop.violations = .ok [] ∧ allocatingLoop.Layout ∧
      allocatingLoop.escapeOf ⟨2⟩ = ⟨true, true⟩ ∧ allocatingLoop.escapeOf ⟨6⟩ = ⟨true, false⟩ ∧
      ∃ states, History allocatingLoop states ∧
        ((∃ s ∈ states, s.env ⟨2⟩ = some (.obj 1)) ∧ (∃ s ∈ states, s.env ⟨2⟩ = some (.obj 2)) ∧
          ∃ s₁ ∈ states, ∃ s₂ ∈ states, s₁.Accessing allocatingLoop ⟨3⟩ (.field 1 ⟨0⟩) ∧
            s₂.Accessing allocatingLoop ⟨4⟩ (.field 1 ⟨0⟩)) ∧
        (∀ x o, (allocatingLoop.escapeOf x).isSingleton = true → (∃ s ∈ states, s.env x = some (.obj o)) →
          ∀ s ∈ states, (∀ y, s.env y = some (.obj o) → y = x) ∧ (∀ c, s.mem.cell c ≠ .obj o) ∧
            ∀ inst, s.Gives allocatingLoop o inst → inst.kind.isForeign = false ∧
              ((allocatingLoop.escapeOf x).isPrivate = true → inst.kind ≠ .ret ∧ inst.kind ≠ .raise)) ∧
        ∀ s₁ ∈ states, ∀ s₂ ∈ states, ∀ i₁ i₂ c, s₁.Accessing allocatingLoop i₁ c →
          s₂.Accessing allocatingLoop i₂ c →
            ∃ l₁ l₂, allocatingLoop.location? i₁ = .ok (some l₁) ∧ allocatingLoop.location? i₂ = .ok (some l₂) ∧
              l₁.mayAlias allocatingLoop (fun r => (allocatingLoop.escapeOf r).isSingleton) l₂ = true ∧
              l₂.mayAlias allocatingLoop (fun r => (allocatingLoop.escapeOf r).isSingleton) l₁ = true := by
  obtain ⟨states, h, hstates⟩ := exists_history_allocatingLoop
  exact ⟨by decide +kernel, by decide +kernel, by decide +kernel, by decide +kernel, by decide +kernel,
    states, h, hstates, singletons_confined (by decide +kernel) (by decide +kernel) (by decide +kernel) h⟩

end Midend
