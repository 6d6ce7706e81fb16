import Midend.Heap.Escape
import Midend.Proofs.Memory

/-!
# One name for an object

What is true of values and memory in every state of a run: references lead to objects that exist,
constants and new objects are what they say, and the object of a singleton allocation is known by that
allocation alone.

## Shape of the argument

A singleton's object gets another name only where the allocation is an operand of an instruction that
shares it, and the use chains show that there is none.  Nothing else can come up with the object: no cell
holds it, and code that cannot be seen does not know it while it is hidden.
-/

namespace Midend

open Midend.Graph

variable {g : Graph} {s s' : RunState Memory} {e : Event} {x y i : InstId} {o : Nat}

/-- The instruction is the only name for the object it creates. -/
def Graph.Single (g : Graph) (x : InstId) : Prop := (g.escapeOf x).isSingleton = true

/-- A single value is allocated. -/
theorem Graph.Single.isAllocation {inst : Inst} (h : g.Single x) (hinst : g.inst x = .ok inst) :
    inst.kind.isAllocation = true := by
  rw [Single, escapeOf, kind?, inst_eq_ok.1 hinst] at h
  by_contra hno
  simp [hno, Escape.escaped] at h

/-- The use of an operand is among the fates of the operand. -/
theorem Graph.WellFormed.fateOf_operand (hw : g.WellFormed) {inst : Inst} {k : Nat} (hi : i ∈ g.attached)
    (hinst : g.inst i = .ok inst) (hx : inst.inputs[k]? = some x) :
    Escape.fate inst.kind k ∈ (g.uses x).map g.fateOf := by
  rw [List.mem_map]
  refine ⟨⟨i, k⟩, (hw.operand i inst k x hi hinst hx).2, ?_⟩
  rw [fateOf, kind?, inst_eq_ok.1 hinst]
  rfl

/-- A single value is not shared. -/
theorem Graph.Single.shared_not_mem (h : g.Single x) : .shared ∉ (g.uses x).map g.fateOf := by
  rw [Single, escapeOf] at h
  split at h
  · simpa using h
  · simp [Escape.escaped] at h

/-- No instruction shares the object of a singleton. -/
theorem Graph.Single.fate_ne_shared (h : g.Single x) (hw : g.WellFormed) {inst : Inst} {k : Nat}
    (hi : i ∈ g.attached) (hinst : g.inst i = .ok inst) (hx : inst.inputs[k]? = some x) :
    Escape.fate inst.kind k ≠ .shared := by
  intro hfate
  have hmem := hw.fateOf_operand hi hinst hx
  rw [hfate] at hmem
  exact h.shared_not_mem hmem

/-- What is true of values and memory in every state of a run. -/
structure Tidy (g : Graph) (s : RunState Memory) : Prop where
  env_live : ∀ x o, s.env x = some (.obj o) → s.mem.live o
  cell_live : ∀ c o, s.mem.cell c = .obj o → s.mem.live o
  hidden_live : ∀ o, s.mem.hidden o → s.mem.live o
  consts : ∀ x inst n v, g.inst x = .ok inst → inst.kind = .const n → s.env x = some v → v = .num n
  allocs : ∀ x inst v, g.inst x = .ok inst → inst.kind.isAllocation = true → s.env x = some v →
    ∃ o, v = .obj o
  receiver : ∀ x inst v, g.inst x = .ok inst → inst.kind = .param 0 → g.isStatic = false →
    s.env x = some v → v ≠ .null
  single_hidden : ∀ x o, g.Single x → s.env x = some (.obj o) → s.mem.hidden o
  single_env : ∀ x o y, g.Single x → s.env x = some (.obj o) → s.env y = some (.obj o) → y = x
  single_cell : ∀ x o c, g.Single x → s.env x = some (.obj o) → s.mem.cell c ≠ .obj o

/-- A run starts tidy. -/
theorem Tidy.initial {m : Memory} (hm : m.Initial) : Tidy g ⟨g.entry, 0, fun _ => none, m⟩ where
  env_live := by simp
  cell_live := hm.2
  hidden_live o ho := absurd ho (hm.1 o)
  consts := by simp
  allocs := by simp
  receiver := by simp
  single_hidden := by simp
  single_env := by simp
  single_cell := by simp

/-! ## What going along an edge does -/

/-- A value after going along an edge was one before it, and of the same instruction if that is no phi. -/
theorem exists_source_of_goto {target : Block} {n : Nat} {v : Val}
    (hv : (if y ∈ target.phis then g.phiValue s.env n y else s.env y) = some v) :
    (y ∉ target.phis ∧ s.env y = some v) ∨ ∃ inst z, y ∈ target.phis ∧ g.inst y = .ok inst ∧
      inst.inputs[n]? = some z ∧ s.env z = some v := by
  by_cases hy : y ∈ target.phis
  · rw [if_pos hy, phiValue, Option.bind_eq_some_iff] at hv
    obtain ⟨z, hz, hv⟩ := hv
    obtain ⟨inst, hinst, hz⟩ := Option.bind_eq_some_iff.1 hz
    exact .inr ⟨inst, z, hy, inst_eq_ok.2 hinst, hz, hv⟩
  · rw [if_neg hy] at hv
    exact .inl ⟨hy, hv⟩

/-- A singleton is no phi. -/
theorem Graph.Single.not_mem_phis (h : g.Single x) (hw : g.WellFormed) (hl : g.Layout) {t : BlockId}
    {target : Block} (ht : g.block t = .ok target) : x ∉ target.phis := by
  intro hmem
  obtain ⟨inst, hinst, -⟩ := hw.listed t target x ht (List.mem_append_left _ hmem)
  have halloc := h.isAllocation hinst
  rw [hl.phis t target x inst ht hmem hinst] at halloc
  simp [Kind.isAllocation] at halloc

/-- No phi reads a singleton. -/
theorem Graph.Single.not_mem_inputs_phi (h : g.Single x) (hw : g.WellFormed) (hl : g.Layout) {t : BlockId}
    {target : Block} {inst : Inst} {k : Nat} (ht : g.block t = .ok target) (hy : y ∈ target.phis)
    (hinst : g.inst y = .ok inst) : inst.inputs[k]? ≠ some x := by
  intro hx
  have hatt : y ∈ g.attached := mem_attached.2 ⟨t, target, ht, List.mem_append_left _ hy⟩
  refine h.fate_ne_shared hw hatt hinst hx ?_
  rw [hl.phis t target y inst ht hy hinst]
  rfl

/-! ## What one instruction may do -/

/-- An operand value that is an object is the value of an operand. -/
theorem exists_operand {inst : Inst} {env : Env} {args : List Val} {v : Val} {k : Nat}
    (hargs : inst.inputs.mapM env = some args) (hv : args[k]? = some v) :
    ∃ y, inst.inputs[k]? = some y ∧ env y = some v := by
  rw [getElem?_of_mapM hargs, Option.bind_eq_some_iff] at hv
  exact hv

theorem env_operand {inst : Inst} {env : Env} {args : List Val} {v : Val} {k : Nat} {y : InstId}
    (hargs : inst.inputs.mapM env = some args) (hv : args[k]? = some v) (hy : inst.inputs[k]? = some y) :
    env y = some v := by
  obtain ⟨y', hy', henv⟩ := exists_operand hargs hv
  rw [hy] at hy'
  cases hy'
  exact henv

/-- A stored value is shared. -/
theorem fate_store {inst : Inst} {args : List Val} {c : Cell} {v : Val}
    (hstore : inst.kind.isStore = true) (hc : Accesses g inst args c) (hv : args.getLast? = some v) :
    ∃ k, args[k]? = some v ∧ Escape.fate inst.kind k = .shared := by
  cases hc with
  | instanceSet hkind => exact ⟨1, by simpa using hv, by rw [hkind]; rfl⟩
  | staticSet hkind => exact ⟨0, by simpa using hv, by rw [hkind]; rfl⟩
  | arraySet hkind => exact ⟨2, by simpa using hv, by rw [hkind]; rfl⟩
  | instanceGet hkind => simp [hkind, Kind.isStore] at hstore
  | staticGet hkind => simp [hkind, Kind.isStore] at hstore
  | arrayGet hkind => simp [hkind, Kind.isStore] at hstore

theorem fate_letsOut {k : Kind} {n : Nat} (hopen : g.isOpen k = true) (h : k.letsOut n = true) :
    Escape.fate k n = .shared := by
  cases k <;> simp_all [Kind.letsOut, Escape.fate, isOpen, Kind.isForeign, Kind.field?]

/-- The steps of an instruction, as far as one object that is hidden and in no cell is concerned: unless
the instruction shares it, it stays so, and is not the result. -/
theorem Executes.untouched {inst : Inst} {args : List Val} {m m' : Memory} {v : Val}
    (h : Executes g inst args m v m') (hlive : ∀ p, m.hidden p → m.live p) (ho : m.hidden o)
    (hcell : ∀ c, m.cell c ≠ .obj o)
    (hargs : ∀ k, args[k]? = some (.obj o) → Escape.fate inst.kind k ≠ .shared) :
    m'.hidden o ∧ (∀ c, m'.cell c ≠ .obj o) ∧ v ≠ .obj o := by
  cases h with
  | computes hcomp =>
    refine ⟨ho, hcell, ?_⟩
    rintro rfl
    generalize hk : inst.kind = k at hcomp
    cases hcomp with
    | param hout => exact (hout o rfl).2 ho
    | nullCheck => exact hargs 0 rfl (by rw [hk]; rfl)
  | @allocates _ o' _ halloc _ =>
    have hne : o ≠ o' := by
      rintro rfl
      exact halloc.fresh (hlive o ho)
    refine ⟨(halloc.hidden o).2 (.inl ho), fun c => ?_, fun hv => hne (Val.obj.inj hv).symm⟩
    by_cases hc : c.object? = some o'
    · exact halloc.contents c o hc
    · rw [halloc.cells c hc]
      exact hcell c
  | load => exact ⟨ho, hcell, hcell _⟩
  | @store c v n hstore hc hhas hv =>
    have hne : v ≠ .obj o := by
      rintro rfl
      obtain ⟨k, hk, hfate⟩ := fate_store hstore hc hv
      exact hargs k hk hfate
    refine ⟨⟨ho, hne⟩, fun c' => ?_, by simp⟩
    by_cases hcc : c' = c
    · rw [hcc]
      exact fun h => hne ((Function.update_self ..).symm.trans h)
    · exact fun h => hcell c' ((Function.update_of_ne hcc ..).symm.trans h)
  | disturbs hopen _ hdist =>
    have ho' : m'.hidden o := by
      refine (hdist.hidden o).2 ⟨ho, ?_⟩
      rintro ⟨n, hn, hget⟩
      exact hargs n hget (fate_letsOut hopen hn)
    refine ⟨ho', fun c hc => ?_, fun hv => (hdist.result o hv).2 ho'⟩
    rcases hdist.contents c with hsame | hout
    · exact hcell c (hsame.symm.trans hc)
    · exact (hout o hc).2 ho'

/-- What exists goes on existing, and arrays keep their length. -/
theorem Executes.live {inst : Inst} {args : List Val} {m m' : Memory} {v : Val}
    (h : Executes g inst args m v m') (ho : m.live o) : m'.live o ∧ m'.length o = m.length o := by
  cases h with
  | computes => exact ⟨ho, rfl⟩
  | @allocates _ o' _ halloc _ =>
    refine ⟨(halloc.live o).2 (.inl ho), halloc.length o ?_⟩
    rintro rfl
    exact halloc.fresh ho
  | load => exact ⟨ho, rfl⟩
  | store => exact ⟨ho, rfl⟩
  | disturbs _ _ hdist => exact ⟨hdist.live o ho, hdist.length o ho⟩

/-- Objects that show up after an instruction exist. -/
theorem Executes.no_dangling {inst : Inst} {args : List Val} {m m' : Memory} {v : Val}
    (h : Executes g inst args m v m') (hcell : ∀ c p, m.cell c = .obj p → m.live p)
    (hhidden : ∀ p, m.hidden p → m.live p) (hargs : ∀ (k p : Nat), args[k]? = some (.obj p) → m.live p) :
    (∀ p, v = .obj p → m'.live p) ∧ (∀ c p, m'.cell c = .obj p → m'.live p) ∧
      ∀ p, m'.hidden p → m'.live p := by
  cases h with
  | computes hcomp =>
    refine ⟨?_, hcell, hhidden⟩
    rintro p rfl
    generalize inst.kind = k at hcomp
    cases hcomp with
    | param hout => exact (hout p rfl).1
    | nullCheck => exact hargs 0 p rfl
  | @allocates _ o' _ halloc _ =>
    refine ⟨fun p hp => ?_, fun c p hp => ?_, fun p hp => ?_⟩
    · exact (halloc.live p).2 (.inr (Val.obj.inj hp).symm)
    · by_cases hc : c.object? = some o'
      · exact absurd hp (halloc.contents c p hc)
      · exact (halloc.live p).2 (.inl (hcell c p (halloc.cells c hc ▸ hp)))
    · exact (halloc.live p).2 (((halloc.hidden p).1 hp).imp_left (hhidden p))
  | load => exact ⟨fun p => hcell _ p, hcell, hhidden⟩
  | @store c v n hstore hc hhas hv =>
    refine ⟨by simp, fun c' p hp => ?_, fun p hp => hhidden p hp.1⟩
    by_cases hcc : c' = c
    · subst hcc
      obtain ⟨k, hk, -⟩ := fate_store hstore hc hv
      have hvp : v = .obj p := (Function.update_self ..).symm.trans hp
      exact hargs k p (hvp ▸ hk)
    · exact hcell c' p ((Function.update_of_ne hcc ..).symm.trans hp)
  | disturbs _ _ hdist =>
    refine ⟨fun p hp => (hdist.result p hp).1, fun c p hp => ?_, fun p hp => ?_⟩
    · rcases hdist.contents c with hsame | hout
      · exact hdist.live p (hcell c p (hsame.symm.trans hp))
      · exact (hout p hp).1
    · exact hdist.live p (hhidden p ((hdist.hidden p).1 hp).1)

/-- An allocation gives a new object, which is hidden and in no cell. -/
theorem Executes.allocation {inst : Inst} {args : List Val} {m m' : Memory} {v : Val}
    (h : Executes g inst args m v m') (halloc : inst.kind.isAllocation = true)
    (hcell : ∀ c p, m.cell c = .obj p → m.live p) :
    ∃ o, v = .obj o ∧ ¬ m.live o ∧ m'.hidden o ∧ ∀ c, m'.cell c ≠ .obj o := by
  cases h with
  | @allocates _ o _ hnew _ =>
    refine ⟨o, rfl, hnew.fresh, (hnew.hidden o).2 (.inr rfl), fun c hc => ?_⟩
    by_cases hco : c.object? = some o
    · exact hnew.contents c o hco hc
    · exact hnew.fresh (hcell c o (hnew.cells c hco ▸ hc))
  | computes hcomp =>
    generalize inst.kind = k at hcomp halloc
    cases hcomp <;> simp [Kind.isAllocation] at halloc
  | load hload => cases hk : inst.kind <;> simp_all [Kind.isLoad, Kind.isAllocation]
  | store hstore => cases hk : inst.kind <;> simp_all [Kind.isStore, Kind.isAllocation]
  | disturbs hopen => cases hk : inst.kind <;> simp_all [isOpen, Kind.isForeign, Kind.field?, Kind.isAllocation]

/-- A constant and the receiver evaluate to what they are. -/
theorem Executes.computes_inv {inst : Inst} {args : List Val} {m m' : Memory} {v : Val}
    (h : Executes g inst args m v m') (hload : inst.kind.isLoad = false)
    (hstore : inst.kind.isStore = false) (halloc : inst.kind.isAllocation = false)
    (hopen : g.isOpen inst.kind = false) : Computes g m inst.kind args v ∧ m' = m := by
  cases h with
  | computes hcomp => exact ⟨hcomp, rfl⟩
  | allocates h => simp [h] at halloc
  | load h => simp [h] at hload
  | store h => simp [h] at hstore
  | disturbs h => simp [h] at hopen

/-! ## Every state of a run -/

section WellFormed

variable (hw : g.WellFormed) (hl : g.Layout)
include hw

/-- An attached instruction whose operand value is the object of a singleton does not share it. -/
theorem Tidy.fate_ne_shared (h : Tidy g s) (hx : g.Single x) (ho : s.env x = some (.obj o)) {inst : Inst}
    {args : List Val} {k : Nat} (hi : i ∈ g.attached) (hinst : g.inst i = .ok inst)
    (hargs : inst.inputs.mapM s.env = some args) (hk : args[k]? = some (.obj o)) :
    Escape.fate inst.kind k ≠ .shared := by
  obtain ⟨y, hy, henv⟩ := exists_operand hargs hk
  obtain rfl := h.single_env x o y hx ho henv
  exact hx.fate_ne_shared hw hi hinst hy

/-- Executing an instruction leaves the run tidy. -/
theorem Tidy.exec {inst : Inst} {args : List Val} {v : Val} {m' : Memory} (h : Tidy g s)
    (hi : i ∈ g.attached) (hinst : g.inst i = .ok inst) (hargs : inst.inputs.mapM s.env = some args)
    (hexec : Executes g inst args s.mem v m') (b : BlockId) (n : Nat) :
    Tidy g ⟨b, n, Function.update s.env i (some v), m'⟩ := by
  have hlive := hexec.no_dangling h.cell_live h.hidden_live fun k p hk => by
    obtain ⟨y, -, henv⟩ := exists_operand hargs hk
    exact h.env_live y p henv
  -- the object of a singleton executed earlier
  have hold : ∀ x o, g.Single x → s.env x = some (.obj o) →
      m'.hidden o ∧ (∀ c, m'.cell c ≠ .obj o) ∧ v ≠ .obj o := fun x o hx ho =>
    hexec.untouched h.hidden_live (h.single_hidden x o hx ho) (fun c => h.single_cell x o c hx ho)
      fun k hk => h.fate_ne_shared hw hx ho hi hinst hargs hk
  -- the object of a singleton executed now
  have hnew : ∀ o, g.Single i → v = .obj o →
      ¬ s.mem.live o ∧ m'.hidden o ∧ ∀ c, m'.cell c ≠ .obj o := by
    rintro o hx rfl
    obtain ⟨o', ho', hnew⟩ := hexec.allocation (hx.isAllocation hinst) h.cell_live
    cases ho'
    exact hnew
  have hself : ∀ {inst' : Inst} {v' : Val}, g.inst i = .ok inst' →
      Function.update s.env i (some v) i = some v' → inst' = inst ∧ v' = v := by
    intro inst' v' hinst' hv'
    rw [hinst] at hinst'
    rw [Function.update_self] at hv'
    exact ⟨(Except.ok.inj hinst').symm, (Option.some.inj hv').symm⟩
  have hother : ∀ {y : InstId} {v' : Val}, y ≠ i → Function.update s.env i (some v) y = some v' →
      s.env y = some v' := fun hy hv' => (Function.update_of_ne hy ..).symm.trans hv'
  refine { env_live := ?env_live, cell_live := hlive.2.1, hidden_live := hlive.2.2, consts := ?consts,
           allocs := ?allocs, receiver := ?receiver, single_hidden := ?single_hidden,
           single_env := ?single_env, single_cell := ?single_cell }
  case env_live =>
    intro x o ho
    by_cases hx : x = i
    · subst hx
      exact hlive.1 o (hself hinst ho).2.symm
    · exact (hexec.live (h.env_live x o (hother hx ho))).1
  case consts =>
    intro x inst' n v' hinst' hkind hv'
    by_cases hx : x = i
    · subst hx
      obtain ⟨rfl, rfl⟩ := hself hinst' hv'
      obtain ⟨hcomp, -⟩ := hexec.computes_inv (by rw [hkind]; rfl) (by rw [hkind]; rfl)
        (by rw [hkind]; rfl) (by rw [hkind]; rfl)
      rw [hkind] at hcomp
      cases hcomp
      rfl
    · exact h.consts x inst' n v' hinst' hkind (hother hx hv')
  case allocs =>
    intro x inst' v' hinst' hkind hv'
    by_cases hx : x = i
    · subst hx
      obtain ⟨rfl, rfl⟩ := hself hinst' hv'
      obtain ⟨o, ho, -⟩ := hexec.allocation hkind h.cell_live
      exact ⟨o, ho⟩
    · exact h.allocs x inst' v' hinst' hkind (hother hx hv')
  case receiver =>
    intro x inst' v' hinst' hkind hstatic hv'
    by_cases hx : x = i
    · subst hx
      obtain ⟨rfl, rfl⟩ := hself hinst' hv'
      obtain ⟨hcomp, -⟩ := hexec.computes_inv (by rw [hkind]; rfl) (by rw [hkind]; rfl)
        (by rw [hkind]; rfl) (by rw [hkind]; rfl)
      rw [hkind] at hcomp
      cases hcomp with
      | param _ hnull => exact hnull rfl hstatic
    · exact h.receiver x inst' v' hinst' hkind hstatic (hother hx hv')
  case single_hidden =>
    intro x o hx ho
    by_cases hxi : x = i
    · subst hxi
      exact (hnew o hx (hself hinst ho).2.symm).2.1
    · exact (hold x o hx (hother hxi ho)).1
  case single_env =>
    intro x o y hx ho hy
    -- a new object is no earlier value, and an old singleton is no result
    by_cases hxi : x = i <;> by_cases hyi : y = i
    · rw [hxi, hyi]
    · subst hxi
      exact absurd (h.env_live y o (hother hyi hy)) (hnew o hx (hself hinst ho).2.symm).1
    · subst hyi
      exact absurd (hself hinst hy).2.symm (hold x o hx (hother hxi ho)).2.2
    · exact h.single_env x o y hx (hother hxi ho) (hother hyi hy)
  case single_cell =>
    intro x o c hx ho
    by_cases hxi : x = i
    · subst hxi
      exact (hnew o hx (hself hinst ho).2.symm).2.2 c
    · exact (hold x o hx (hother hxi ho)).2.1 c

include hl

/-- Going along an edge gives phis the values of their operands, and no other value changes. -/
theorem Tidy.goto {t : BlockId} {target : Block} {n : Nat} (h : Tidy g s) (ht : g.block t = .ok target) :
    Tidy g ⟨t, 0, fun i => if i ∈ target.phis then g.phiValue s.env n i else s.env i, s.mem⟩ := by
  have hkept : ∀ y inst v, g.inst y = .ok inst → inst.kind ≠ .phi →
      (if y ∈ target.phis then g.phiValue s.env n y else s.env y) = some v → s.env y = some v := by
    intro y inst v hinst hkind hv
    rwa [if_neg (hl.not_mem_phis hinst hkind ht)] at hv
  have hsingle : ∀ y o, g.Single y →
      (if y ∈ target.phis then g.phiValue s.env n y else s.env y) = some (.obj o) →
        s.env y = some (.obj o) := by
    intro y o hy ho
    rwa [if_neg (hy.not_mem_phis hw hl ht)] at ho
  refine { env_live := ?env_live, cell_live := h.cell_live, hidden_live := h.hidden_live, consts := ?consts,
           allocs := ?allocs, receiver := ?receiver, single_hidden := ?single_hidden,
           single_env := ?single_env, single_cell := ?single_cell }
  case env_live =>
    intro y o ho
    rcases exists_source_of_goto ho with ⟨-, ho⟩ | ⟨-, z, -, -, -, ho⟩
    · exact h.env_live y o ho
    · exact h.env_live z o ho
  case consts =>
    intro y inst c v hinst hkind hv
    exact h.consts y inst c v hinst hkind (hkept y inst v hinst (by simp [hkind]) hv)
  case allocs =>
    intro y inst v hinst hkind hv
    refine h.allocs y inst v hinst hkind (hkept y inst v hinst ?_ hv)
    intro hphi
    simp [hphi, Kind.isAllocation] at hkind
  case receiver =>
    intro y inst v hinst hkind hstatic hv
    exact h.receiver y inst v hinst hkind hstatic (hkept y inst v hinst (by simp [hkind]) hv)
  case single_hidden =>
    exact fun y o hy ho => h.single_hidden y o hy (hsingle y o hy ho)
  case single_env =>
    intro x o y hx ho hy
    rcases exists_source_of_goto hy with ⟨-, hy⟩ | ⟨inst, z, hmem, hinst, hz, hzo⟩
    · exact h.single_env x o y hx (hsingle x o hx ho) hy
    · obtain rfl := h.single_env x o z hx (hsingle x o hx ho) hzo
      exact absurd hz (hx.not_mem_inputs_phi hw hl ht hmem hinst)
  case single_cell =>
    exact fun y o c hy ho => h.single_cell y o c hy (hsingle y o hy ho)

/-- A step leaves the run tidy. -/
theorem Tidy.step (h : Tidy g s) (hstep : Step g (memorySemantics g) s e s') : Tidy g s' := by
  cases hstep with
  | @exec block i inst args v mem hb hi hinst hargs hexec =>
    have hatt : i ∈ g.attached :=
      mem_attached.2 ⟨s.block, block, hb, List.mem_append_right _ (List.mem_of_getElem? hi)⟩
    exact h.exec hw hatt hinst hargs hexec _ _
  | goto _ _ _ htarget => exact h.goto hw hl htarget

/-- Every run is tidy. -/
theorem Run.tidy (h : Run g (memorySemantics g) Memory.Initial s) : Tidy g s := by
  induction h with
  | start hm => exact Tidy.initial hm
  | step _ hstep ih => exact ih.step hw hl hstep

end WellFormed

end Midend
