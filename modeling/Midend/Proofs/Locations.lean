import Midend.Proofs.EffectSummary
import Midend.Proofs.Singletons

/-!
# The cells that locations denote

A location names a cell by the instructions that give the object and the index.  In a state of a run it
denotes the cell that the present values of these instructions make up.  Whatever an access touches is
denoted by its location (`Run.denotes`), and two locations that the analysis keeps apart denote different
cells, each in a state of its own (`Tidy.mayAlias_of_denotes`) or both in one (`Tidy.mayAlias`).

An element outside its array is no cell, so a location that denotes one can be accessed without a fault.
-/

namespace Midend

open Midend.Graph

variable {g : Graph} {s s' : RunState Memory} {e : Event} {x i : InstId} {inst : Inst} {l l' : Location}
  {c : Cell}

/-! ## The location of an access -/

/-- The location of an access, read off the instruction. -/
inductive Graph.Locates (g : Graph) (inst : Inst) : Location → Prop
  | field {f : FieldId} {x r : InstId} : inst.kind = .instanceGet f ∨ inst.kind = .instanceSet f →
    g.isVolatile f = false → inst.inputs[0]? = some x → g.unchecked x = .ok r →
    Locates g inst ⟨some r, .instanceField f⟩
  | static {f : FieldId} : inst.kind = .staticGet f ∨ inst.kind = .staticSet f →
    g.isVolatile f = false → Locates g inst ⟨none, .staticField f⟩
  | element {x r k : InstId} {component : Ty} :
    inst.kind = .arrayGet ∧ component = inst.ty ∨ inst.kind = .arraySet ∧ component = g.operandTy inst 2 →
    inst.inputs[0]? = some x → g.unchecked x = .ok r → inst.inputs[1]? = some k →
    Locates g inst ⟨some r, .arrayElement k component⟩

/-- An access with a location can be seen through, and does not end the method. -/
theorem Graph.Locates.plain {l : Location} (h : g.Locates inst l) :
    g.isOpen inst.kind = false ∧ inst.kind.isExit = false := by
  cases h with
  | field hk hvol | static hk hvol =>
    rcases hk with hk | hk <;> simp [hk, isOpen, Kind.isForeign, Kind.field?, hvol, Kind.isExit]
  | element hk => 
    rcases hk with ⟨hk, -⟩ | ⟨hk, -⟩ <;> simp [hk, isOpen, Kind.isForeign, Kind.field?, Kind.isExit]

/-- A field has a location unless it is volatile. -/
theorem Graph.fieldLocation?_eq_ok {f : FieldId} {object : Checked (Option InstId)}
    {slot : FieldId → Slot} {r : Option Location} (h : g.fieldLocation? f object slot = .ok r) :
    (g.isVolatile f = true ∧ r = none) ∨
      (g.isVolatile f = false ∧ ∃ o, object = .ok o ∧ r = some ⟨o, slot f⟩) := by
  rw [fieldLocation?, Checked.bind_eq_ok] at h
  obtain ⟨field, hfield, h⟩ := h
  have hvol : g.isVolatile f = field.isVolatile := by
    rw [isVolatile, Checked.ofOption_eq_ok.1 hfield]
    rfl
  rw [hvol]
  cases hv : field.isVolatile with
  | true =>
    rw [if_pos hv] at h
    exact .inl ⟨rfl, (Checked.pure_eq_ok.1 h).symm⟩
  | false =>
    rw [if_neg (by simp [hv])] at h
    obtain ⟨o, ho, h⟩ := Checked.bind_eq_ok.1 h
    exact .inr ⟨rfl, o, ho, (Checked.pure_eq_ok.1 h).symm⟩

/-- What the location of an instruction says about it. -/
theorem Graph.location?_eq_some (hinst : g.inst i = .ok inst) (h : g.location? i = .ok (some l)) :
    g.Locates inst l := by
  have hinput : ∀ {k : Nat} {x : InstId}, g.input i k = .ok x → inst.inputs[k]? = some x := by
    intro k x hx
    obtain ⟨inst', hinst', hx⟩ := input_eq_ok.1 hx
    rw [hinst] at hinst'
    cases hinst'
    exact hx
  have hobject : ∀ {o : Option InstId}, (do return some (← g.unchecked (← g.input i 0))) = Except.ok o →
      ∃ x r, inst.inputs[0]? = some x ∧ g.unchecked x = .ok r ∧ o = some r := by
    intro o ho
    simp only [Checked.bind_eq_ok, Checked.pure_eq_ok] at ho
    obtain ⟨x, hx, r, hr, rfl⟩ := ho
    exact ⟨x, r, hinput hx, hr, rfl⟩
  rw [location?, Checked.bind_eq_ok] at h
  obtain ⟨kind, hkind, h⟩ := h
  have hkind : inst.kind = kind := by
    obtain ⟨inst', hinst', hkind⟩ := kind_eq_ok.1 hkind
    rw [hinst] at hinst'
    cases hinst'
    exact hkind
  have hfield : ∀ {f : FieldId}, inst.kind = .instanceGet f ∨ inst.kind = .instanceSet f →
      g.fieldLocation? f (do return some (← g.unchecked (← g.input i 0))) .instanceField = .ok (some l) →
      g.Locates inst l := by
    intro f hkind h
    rcases fieldLocation?_eq_ok h with ⟨-, hnone⟩ | ⟨hvol, o, ho, hsome⟩
    · cases hnone
    · obtain ⟨x, r, hx, hr, rfl⟩ := hobject ho
      cases hsome
      exact .field hkind hvol hx hr
  have hstatic : ∀ {f : FieldId}, inst.kind = .staticGet f ∨ inst.kind = .staticSet f →
      g.fieldLocation? f (return none) .staticField = .ok (some l) → g.Locates inst l := by
    intro f hkind h
    rcases fieldLocation?_eq_ok h with ⟨-, hnone⟩ | ⟨hvol, o, ho, hsome⟩
    · cases hnone
    · cases ho
      cases hsome
      exact .static hkind hvol
  split at h
  · exact hfield (.inl hkind) h
  · exact hfield (.inr hkind) h
  · exact hstatic (.inl hkind) h
  · exact hstatic (.inr hkind) h
  · simp only [Checked.bind_eq_ok, Checked.pure_eq_ok, Option.some.injEq] at h
    obtain ⟨o, ⟨x, hx, r, hr, rfl⟩, k, hk, t, ht, rfl⟩ := h
    obtain ⟨inst', hinst', rfl⟩ := ty_eq_ok.1 ht
    rw [hinst] at hinst'
    cases hinst'
    exact .element (.inl ⟨hkind, rfl⟩) (hinput hx) hr (hinput hk)
  · simp only [Checked.bind_eq_ok, Checked.pure_eq_ok, Option.some.injEq] at h
    obtain ⟨o, ⟨x, hx, r, hr, rfl⟩, k, hk, v, hv, t, ht, rfl⟩ := h
    obtain ⟨vinst, hvinst, rfl⟩ := ty_eq_ok.1 ht
    refine .element (.inr ⟨hkind, ?_⟩) (hinput hx) hr (hinput hk)
    rw [operandTy, hinput hv, Option.bind_some, inst_eq_ok.1 hvinst]
    rfl
  · cases h

/-- An instruction without a location touches no cell of its own. -/
theorem Graph.not_accesses_of_location? (hinst : g.inst i = .ok inst) (h : g.location? i = .ok none)
    (args : List Val) (c : Cell) : ¬ Accesses g inst args c := by
  have hkind := kind_eq_ok.2 ⟨inst, hinst, rfl⟩
  have hfield : ∀ {f : FieldId} {object : Checked (Option InstId)} {slot : FieldId → Slot},
      g.isVolatile f = false → g.fieldLocation? f object slot ≠ .ok none := by
    intro f object slot hvol hnone
    rcases fieldLocation?_eq_ok hnone with ⟨hvol', -⟩ | ⟨-, o, -, hsome⟩
    · simp [hvol] at hvol'
    · cases hsome
  rw [location?, hkind] at h
  intro hc
  cases hc with
  | instanceGet hk hvol | instanceSet hk hvol | staticGet hk hvol | staticSet hk hvol =>
    rw [hk] at h
    exact hfield hvol h
  | arrayGet hk | arraySet hk =>
    rw [hk] at h
    simp [Checked.bind_eq_ok] at h

/-- Where an instruction goes to can be told if the field that it names and the operands that it is asked for
are there. -/
theorem Graph.exists_location?_of_operands (hinst : g.inst i = .ok inst)
    (hdeclared : ∀ f, inst.kind.field? = some f → ∃ field, g.field f = .ok field)
    (hunchecked : 0 < inst.kind.needs → ∃ x y, g.input i 0 = .ok x ∧ g.unchecked x = .ok y)
    (hinput : ∀ k < inst.kind.needs, ∃ x, g.input i k = .ok x ∧ ∃ ty, g.ty x = .ok ty) :
    ∃ l, g.location? i = .ok l := by
  have hfield : ∀ {f object slot}, inst.kind.field? = some f → (∃ o, object = .ok o) →
      ∃ l, g.fieldLocation? f object slot = .ok l := by
    intro f object slot hf hobject
    refine Checked.bind_total (hdeclared f hf) fun field _ => ?_
    split
    · exact ⟨_, rfl⟩
    · exact Checked.bind_total hobject fun _ _ => ⟨_, rfl⟩
  have hobject : 0 < inst.kind.needs → ∃ o : Option InstId,
      (do return some (← g.unchecked (← g.input i 0)) : Checked (Option InstId)) = .ok o := by
    intro hneeds
    obtain ⟨x, y, hx, hy⟩ := hunchecked hneeds
    exact Checked.bind_total_of_eq hx (Checked.bind_total_of_eq hy ⟨_, rfl⟩)
  refine Checked.bind_total_of_eq (kind_eq_ok.2 ⟨inst, hinst, rfl⟩) ?_
  cases hk : inst.kind with
  | instanceGet f | instanceSet f => exact hfield (by rw [hk]; rfl) (hobject (by rw [hk]; exact Nat.one_pos))
  | staticGet f | staticSet f => exact hfield (by rw [hk]; rfl) ⟨_, rfl⟩
  | arrayGet =>
    obtain ⟨x, hx, -⟩ := hinput 1 (by rw [hk]; decide)
    exact Checked.bind_total (hobject (by rw [hk]; decide)) fun _ _ => Checked.bind_total_of_eq hx
      (Checked.bind_total ⟨_, ty_eq_ok.2 ⟨inst, hinst, rfl⟩⟩ fun _ _ => ⟨_, rfl⟩)
  | arraySet =>
    obtain ⟨x, hx, -⟩ := hinput 1 (by rw [hk]; decide)
    obtain ⟨y, hy, hty⟩ := hinput 2 (by rw [hk]; decide)
    exact Checked.bind_total (hobject (by rw [hk]; decide)) fun _ _ => Checked.bind_total_of_eq hx
      (Checked.bind_total_of_eq hy (Checked.bind_total hty fun _ _ => ⟨_, rfl⟩))
  | _ => exact ⟨_, rfl⟩

section Exists

variable {b : BlockId} {block : Block} (hw : g.WellFormed) (hg : g.Consistent) (hl : g.Furnished)
  (hb : g.Reachable b) (hblock : g.block b = .ok block) (hi : i ∈ block.insts) (hinst : g.inst i = .ok inst)
include hw hg hl hb hblock hi hinst

/-- An operand that a kind of instruction is asked for is there, in a block. -/
theorem Graph.exists_attached_operand {k : Nat} (hk : k < inst.kind.needs) :
    ∃ x xinst, inst.inputs[k]? = some x ∧ g.inst x = .ok xinst := by
  obtain ⟨x, hx⟩ := hl.exists_operand (mem_attached.2 ⟨b, block, hblock, List.mem_append_right _ hi⟩) hinst hk
  obtain ⟨n, hn⟩ := List.mem_iff_getElem?.1 hi
  obtain ⟨d, m, hat, -⟩ := (hw.settled_operand hg hb hblock hn hinst hx).exists_at hb
  obtain ⟨xinst, hxinst⟩ := hw.exists_inst hat.mem_attached
  exact ⟨x, xinst, hx, hxinst⟩

/-- The reference behind the first operand, and where it stands. -/
theorem Graph.exists_dereferenced_unchecked (hneeds : 0 < inst.kind.needs) :
    ∃ x y, g.input i 0 = .ok x ∧ g.unchecked x = .ok y ∧ ∃ inst', g.inst y = .ok inst' := by
  have hatt : i ∈ g.attached := mem_attached.2 ⟨b, block, hblock, List.mem_append_right _ hi⟩
  obtain ⟨x, hx⟩ := hl.exists_operand hatt hinst hneeds
  obtain ⟨n, hn⟩ := List.mem_iff_getElem?.1 hi
  have hset := hw.settled_operand hg hb hblock hn hinst hx
  obtain ⟨d, m, hat, hd⟩ := hset.exists_at hb
  obtain ⟨y, hy⟩ := hw.exists_unchecked hg hl hd hat
  obtain ⟨d', m', hat', -⟩ := (hw.settled_unchecked hg hl hb hset hy).exists_at hb
  exact ⟨x, y, input_eq_ok.2 ⟨inst, hinst, hx⟩, hy, hw.exists_inst hat'.mem_attached⟩

/-- Where an instruction of a reachable block goes to can be told, if the field that it names is there. -/
theorem Graph.exists_location? (hdeclared : ∀ f, inst.kind.field? = some f → ∃ field, g.field f = .ok field) :
    ∃ l, g.location? i = .ok l := by
  refine exists_location?_of_operands hinst hdeclared (fun hneeds => ?_) fun k hk => ?_
  · obtain ⟨x, y, hx, hy, -⟩ := exists_dereferenced_unchecked hw hg hl hb hblock hi hinst hneeds
    exact ⟨x, y, hx, hy⟩
  · obtain ⟨x, xinst, hx, hxinst⟩ := exists_attached_operand hw hg hl hb hblock hi hinst hk
    exact ⟨x, input_eq_ok.2 ⟨inst, hinst, hx⟩, _, ty_eq_ok.2 ⟨xinst, hxinst, rfl⟩⟩

end Exists

/-! ## Denotation -/

/-- The instructions whose values a location depends on. -/
def Location.ids (l : Location) : List InstId :=
  l.object.toList ++ match l.slot with
    | .arrayElement k _ => [k]
    | _ => []

/-- The cell that a location denotes, given the values of instructions. -/
inductive Location.Denotes (env : Env) (m : Memory) : Location → Cell → Prop
  | field {r : InstId} {f : FieldId} {o : Nat} :
    env r = some (.obj o) → Denotes env m ⟨some r, .instanceField f⟩ (.field o f)
  | static {f : FieldId} : Denotes env m ⟨none, .staticField f⟩ (.static f)
  | element {r k : InstId} {component : Ty} {o : Nat} {v : Val} :
    env r = some (.obj o) → env k = some v → m.InBounds o v →
    Denotes env m ⟨some r, .arrayElement k component⟩ (.element o component v)

/-- A location denotes one cell. -/
theorem Location.Denotes.unique {env : Env} {m : Memory} {c' : Cell} (h : l.Denotes env m c)
    (h' : l.Denotes env m c') : c' = c := by
  cases h with
  | field hr =>
    cases h' with
    | field hr' =>
      rw [hr] at hr'
      cases hr'
      rfl
  | static =>
    cases h'
    rfl
  | element hr hk =>
    cases h' with
    | element hr' hk' =>
      rw [hr] at hr'
      rw [hk] at hk'
      cases hr'
      cases hk'
      rfl

/-- A location goes on denoting the same cell while the instructions it depends on keep their values. -/
theorem Location.Denotes.congr {env env' : Env} {m m' : Memory} (h : l.Denotes env m c)
    (henv : ∀ x ∈ l.ids, env' x = env x)
    (hlength : ∀ x o, env x = some (.obj o) → m'.length o = m.length o) : l.Denotes env' m' c := by
  cases h with
  | field hr => exact .field ((henv _ (by simp [ids])).trans hr)
  | static => exact .static
  | @element r k _ o v hr hk hin =>
    refine .element ((henv r (by simp [ids])).trans hr) ((henv k (by simp [ids])).trans hk) ?_
    rw [Memory.InBounds, hlength r o hr]
    exact hin

/-- The object of a location that denotes a cell. -/
theorem Location.Denotes.object {env : Env} {m : Memory} {r : InstId} (h : l.Denotes env m c)
    (hr : l.object = some r) : ∃ o, env r = some (.obj o) ∧ c.object? = some o := by
  cases h with
  | field h | element h =>
    cases hr
    exact ⟨_, h, rfl⟩
  | static => cases hr

theorem Location.Denotes.has {env : Env} {m : Memory} (h : l.Denotes env m c) : m.Has c := by
  cases h with
  | field | static => trivial
  | element _ _ hin => exact hin

/-- The cell that a location denotes belongs to an object that exists. -/
theorem Tidy.live_of_denotes (h : Tidy g s) {o : Nat} (hc : l.Denotes s.env s.mem c)
    (ho : c.object? = some o) : s.mem.live o := by
  cases hc with
  | field hr | element hr =>
    cases ho
    exact h.env_live _ _ hr
  | static => cases ho

/-! ## Locations that are kept apart -/

/-- A constant has its value. -/
theorem Tidy.eq_of_constant? (h : Tidy g s) {k : InstId} {n : Int} {v : Val} (hk : g.constant? k = some n)
    (hv : s.env k = some v) : v = .num n := by
  rw [constant?, kind?] at hk
  cases hinst : g.insts[k.index]? with
  | none => simp [hinst] at hk
  | some inst =>
    rw [hinst, Option.map_some] at hk
    split at hk
    · rename_i heq
      cases hk
      exact h.consts k inst n v (inst_eq_ok.2 hinst) (Option.some.inj heq) hv
    · cases hk

/-- Two locations that denote the same cell, each in a state of its own, may alias as the analysis sees it,
if it calls no name for an object a singleton that the object has another name beside. -/
theorem Tidy.mayAlias_of_denotes (h : Tidy g s) (h' : Tidy g s') {isSingleton : InstId → Bool}
    (hobject : ∀ r r' o, s.env r = some (.obj o) → s'.env r' = some (.obj o) →
      r = r' ∨ (isSingleton r = false ∧ isSingleton r' = false))
    (hl : l.Denotes s.env s.mem c) (hl' : l'.Denotes s'.env s'.mem c) : l.mayAlias g isSingleton l' = true := by
  have hindex : ∀ {k k' : InstId} {v : Val}, s.env k = some v → s'.env k' = some v →
      g.distinctConstants k k' = false := by
    intro k k' v hk hk'
    rw [distinctConstants]
    split
    · rename_i n n' hn hn'
      have hnn : Val.num n = .num n' := (h.eq_of_constant? hn hk).symm.trans (h'.eq_of_constant? hn' hk')
      simpa using hnn
    · rfl
  cases hl with
  | field hr =>
    cases hl' with
    | field hr' =>
      rcases hobject _ _ _ hr hr' with rfl | ⟨hs, hs'⟩ <;> simp_all [Location.mayAlias, Location.slotsOverlap]
  | static =>
    cases hl'
    simp [Location.mayAlias]
  | element hr hk =>
    cases hl' with
    | element hr' hk' =>
      have hdistinct := hindex hk hk'
      rcases hobject _ _ _ hr hr' with rfl | ⟨hs, hs'⟩ <;> simp_all [Location.mayAlias, Location.slotsOverlap]

/-- Two locations that denote the same cell may alias, as the analysis sees it. -/
theorem Tidy.mayAlias (h : Tidy g s) {isSingleton : InstId → Bool}
    (hsingle : ∀ x, isSingleton x = true → g.Single x) (hl : l.Denotes s.env s.mem c)
    (hl' : l'.Denotes s.env s.mem c) : l.mayAlias g isSingleton l' = true := by
  refine h.mayAlias_of_denotes h (fun r r' o hr hr' => ?_) hl hl'
  -- two names for one object are the same, or neither is a singleton
  by_cases heq : r = r'
  · exact .inl heq
  · refine .inr ⟨?_, ?_⟩ <;> rw [Bool.eq_false_iff] <;> intro hs
    · exact heq (h.single_env r o r' (hsingle r hs) hr hr').symm
    · exact heq (h.single_env r' o r (hsingle r' hs) hr' hr)

/-- The part of memory a cell lies in. -/
def Cell.category (g : Graph) : Cell → Category
  | field _ f => .instanceField (g.fieldTy f)
  | static f => .staticField (g.fieldTy f)
  | element _ component _ => .arrayElement component

/-- A location has the category of the cell that it denotes. -/
theorem Location.Denotes.category {env : Env} {m : Memory} (h : l.Denotes env m c) :
    l.category g = c.category g := by
  cases h <;> rfl

/-! ## Accesses of a run -/

/-- Checks hand on what they check. -/
theorem passesChecks_memorySemantics : (memorySemantics g).PassesChecks := by
  intro inst args m v m' hkind hexec
  obtain ⟨hcomp, -⟩ := hexec.computes_inv (by rw [hkind]; rfl) (by rw [hkind]; rfl)
    (by rw [hkind]; rfl) (by rw [hkind]; rfl)
  rw [hkind] at hcomp
  cases hcomp
  rfl

/-- An access with these operand values would touch a cell now. -/
def RunState.Touches (g : Graph) (s : RunState Memory) (i : InstId) (args : List Val) (c : Cell) : Prop :=
  ∃ inst, g.inst i = .ok inst ∧ inst.inputs.mapM s.env = some args ∧ Accesses g inst args c ∧ s.mem.Has c

section Run

variable (hw : g.WellFormed) (hg : g.Consistent) (hl : g.Layout)
include hw hg hl

/-- The object an access goes through has one value, checked or not. -/
theorem Run.env_object {r : InstId} {k : Nat} (h : Run g (memorySemantics g) Memory.Initial s)
    (hnext : s.Next g i) (hinst : g.inst i = .ok inst) (hx : inst.inputs[k]? = some x)
    (hr : g.unchecked x = .ok r) : s.env x = s.env r :=
  h.env_unchecked hw hg hl passesChecks_memorySemantics hr
    (hnext.settles_operand hw hg h.reachable hinst hx)

/-- The cell an access touches is the one its location denotes. -/
theorem Run.denotes {args : List Val} (h : Run g (memorySemantics g) Memory.Initial s)
    (hnext : s.Next g i) (hloc : g.location? i = .ok (some l)) (hc : s.Touches g i args c) :
    l.Denotes s.env s.mem c := by
  obtain ⟨inst, hinst, hargs, hacc, hhas⟩ := hc
  have hobject : ∀ {o : Nat} {y r : InstId}, args[0]? = some (.obj o) → inst.inputs[0]? = some y →
      g.unchecked y = .ok r → s.env r = some (.obj o) := by
    intro o y r ho hy hr
    rw [← h.env_object hw hg hl hnext hinst hy hr]
    exact env_operand hargs ho hy
  cases location?_eq_some hinst hloc with
  | field hkind _ hx hr =>
    cases hacc with
    | instanceGet hk | instanceSet hk =>
      simp only [hk, Kind.instanceGet.injEq, Kind.instanceSet.injEq, reduceCtorEq, or_false,
        false_or] at hkind
      exact hkind ▸ .field (hobject rfl hx hr)
    | staticGet hk | staticSet hk | arrayGet hk | arraySet hk => simp [hk] at hkind
  | static hkind =>
    cases hacc with
    | staticGet hk | staticSet hk =>
      simp only [hk, Kind.staticGet.injEq, Kind.staticSet.injEq, reduceCtorEq, or_false,
        false_or] at hkind
      exact hkind ▸ .static
    | instanceGet hk | instanceSet hk | arrayGet hk | arraySet hk => simp [hk] at hkind
  | element hkind hx hr hidx =>
    cases hacc with
    | arrayGet hk | arraySet hk =>
      simp only [hk, true_and, reduceCtorEq, false_and, or_false, false_or] at hkind
      exact hkind ▸ .element (hobject rfl hx hr) (env_operand hargs rfl hidx) hhas
    | instanceGet hk | instanceSet hk | staticGet hk | staticSet hk => simp [hk] at hkind

/-- An access whose location denotes a cell would touch it, provided that the value to store exists. -/
theorem Run.touches (h : Run g (memorySemantics g) Memory.Initial s) (hnext : s.Next g i)
    (hinst : g.inst i = .ok inst) (hloc : g.location? i = .ok (some l)) (hc : l.Denotes s.env s.mem c)
    (hstored : inst.kind.isStore = true → ∀ y, inst.inputs.getLast? = some y → ∃ v, s.env y = some v) :
    ∃ args, s.Touches g i args c := by
  have hi : i ∈ g.attached := by
    obtain ⟨block, hb, hi⟩ := hnext
    exact mem_attached.2 ⟨s.block, block, hb, List.mem_append_right _ (List.mem_of_getElem? hi)⟩
  have harity := fun n => hl.arity i inst n hi hinst
  have hobject : ∀ {o : Nat} {y r : InstId}, s.env r = some (.obj o) → inst.inputs[0]? = some y →
      g.unchecked y = .ok r → s.env y = some (.obj o) := by
    intro o y r ho hy hr
    rw [h.env_object hw hg hl hnext hinst hy hr]
    exact ho
  have hhas := hc.has
  cases location?_eq_some hinst hloc with
  | field hkind hvol hx hr =>
    cases hc with
    | field ho =>
      have henv := hobject ho hx hr
      rcases hkind with hk | hk
      · obtain ⟨a, ha⟩ := List.length_eq_one_iff.1 (harity 1 (by rw [hk]; rfl))
        simp only [ha, List.getElem?_cons_zero, Option.some.injEq] at hx
        subst hx
        exact ⟨[_], inst, hinst, by simp [ha, henv], .instanceGet hk hvol, hhas⟩
      · obtain ⟨a, b, hab⟩ := List.length_eq_two.1 (harity 2 (by rw [hk]; rfl))
        simp only [hab, List.getElem?_cons_zero, Option.some.injEq] at hx
        subst hx
        obtain ⟨v, hv⟩ := hstored (by rw [hk]; rfl) b (by simp [hab])
        exact ⟨[_, v], inst, hinst, by simp [hab, henv, hv], .instanceSet hk hvol, hhas⟩
  | static hkind hvol =>
    cases hc
    rcases hkind with hk | hk
    · have hnil := List.length_eq_zero_iff.1 (harity 0 (by rw [hk]; rfl))
      exact ⟨[], inst, hinst, by simp [hnil], .staticGet hk hvol, hhas⟩
    · obtain ⟨a, ha⟩ := List.length_eq_one_iff.1 (harity 1 (by rw [hk]; rfl))
      obtain ⟨v, hv⟩ := hstored (by rw [hk]; rfl) a (by simp [ha])
      exact ⟨[v], inst, hinst, by simp [ha, hv], .staticSet hk hvol, hhas⟩
  | element hkind hx hr hidx =>
    cases hc with
    | element ho hv =>
      have henv := hobject ho hx hr
      rcases hkind with ⟨hk, rfl⟩ | ⟨hk, rfl⟩
      · obtain ⟨a, b, hab⟩ := List.length_eq_two.1 (harity 2 (by rw [hk]; rfl))
        simp only [hab, List.getElem?_cons_zero, List.getElem?_cons_succ, Option.some.injEq] at hx hidx
        subst hx hidx
        exact ⟨[_, _], inst, hinst, by simp [hab, henv, hv], .arrayGet hk, hhas⟩
      · obtain ⟨a, b, d, habd⟩ := List.length_eq_three.1 (harity 3 (by rw [hk]; rfl))
        simp only [habd, List.getElem?_cons_zero, List.getElem?_cons_succ, Option.some.injEq] at hx hidx
        subst hx hidx
        obtain ⟨w, hw'⟩ := hstored (by rw [hk]; rfl) d (by simp [habd])
        exact ⟨[_, _, w], inst, hinst, by simp [habd, henv, hv, hw'], .arraySet hk, hhas⟩

end Run

/-! ## Memory after an access -/

/-- An instruction with a location is a load or a store of one cell. -/
theorem Executes.of_locates {args : List Val} {m m' : Memory} {v : Val}
    (h : Executes g inst args m v m') (hloc : g.Locates inst l) :
    ∃ c, Accesses g inst args c ∧ m.Has c ∧
      ((inst.kind.isLoad = true ∧ v = m.cell c ∧ m' = m) ∨
        (inst.kind.isStore = true ∧ ∃ w, args.getLast? = some w ∧ m'.cell = Function.update m.cell c w)) := by
  have hkind : g.isOpen inst.kind = false ∧ inst.kind.isAllocation = false ∧
      (inst.kind.isLoad = true ∨ inst.kind.isStore = true) := by
    cases hloc with
    | field hk hvol | static hk hvol =>
      rcases hk with hk | hk <;>
        simp [hk, isOpen, Kind.isForeign, Kind.field?, hvol, Kind.isAllocation, Kind.isLoad, Kind.isStore]
    | element hk =>
      rcases hk with ⟨hk, -⟩ | ⟨hk, -⟩ <;>
        simp [hk, isOpen, Kind.isForeign, Kind.field?, Kind.isAllocation, Kind.isLoad, Kind.isStore]
  cases h with
  | computes hcomp =>
    generalize inst.kind = k at hcomp hkind
    cases hcomp <;> simp [Kind.isLoad, Kind.isStore] at hkind
  | allocates halloc => simp [hkind.2.1] at halloc
  | load hload hc hhas => exact ⟨_, hc, hhas, .inl ⟨hload, rfl, rfl⟩⟩
  | store hstore hc hhas hw => exact ⟨_, hc, hhas, .inr ⟨hstore, _, hw, rfl⟩⟩
  | disturbs hopen => simp [hkind.1] at hopen

/-- An instruction without a location changes existing cells only if it cannot be seen through. -/
theorem Executes.of_not_accesses {args : List Val} {m m' : Memory} {v : Val}
    (h : Executes g inst args m v m') (hno : ∀ args c, ¬ Accesses g inst args c) :
    (∀ c, (∀ o, c.object? = some o → m.live o) → m'.cell c = m.cell c) ∨
      (g.isOpen inst.kind = true ∧ Disturbs inst.kind args m v m') := by
  cases h with
  | computes => exact .inl fun _ _ => rfl
  | @allocates _ o _ hnew _ =>
    refine .inl fun c hc => hnew.cells c fun hco => ?_
    exact hnew.fresh (hc o hco)
  | load _ hc => exact absurd hc (hno _ _)
  | store _ hc => exact absurd hc (hno _ _)
  | disturbs hopen _ hdist => exact .inr ⟨hopen, hdist⟩

/-! ## Effects -/

namespace Effects

/-- A read is no write. -/
theorem anyWrite_read (c : Category) : (read c).anyWrite = false := by
  cases c with
  | instanceField ty | staticField ty | arrayElement ty => cases ty <;> decide
  | unknown => decide

/-- A write writes something, memory without a name included. -/
theorem anyWrite_write (c : Category) : (write c).anyWrite = true := by
  cases c with
  | instanceField ty | staticField ty | arrayElement ty => cases ty <;> decide
  | unknown => decide

end Effects

/-- An access to a volatile field may do everything. -/
theorem Graph.fieldEffects_eq_ok {f : FieldId} {access : Ty → Bool → Effects} {e : Effects}
    (h : g.fieldEffects f access = .ok e) : ∃ field, g.fields[f.index]? = some field ∧
      e = if g.isVolatile f then .all else access field.ty field.isStatic := by
  rw [fieldEffects, Checked.bind_eq_ok] at h
  obtain ⟨field, hfield, h⟩ := h
  have hget := Checked.ofOption_eq_ok.1 hfield
  refine ⟨field, hget, ?_⟩
  rw [isVolatile, hget]
  exact (Checked.pure_eq_ok.1 h).symm

/-- The effect of an access to a field that is not volatile goes by how the field was declared. -/
theorem Graph.fieldEffects_of_plain {f : FieldId} {access : Ty → Bool → Effects} {e : Effects}
    (hvol : g.isVolatile f = false) (he : g.fieldEffects f access = .ok e) :
    ∃ field, g.fields[f.index]? = some field ∧ g.fieldTy f = field.ty ∧ e = access field.ty field.isStatic := by
  obtain ⟨field, hget, rfl⟩ := fieldEffects_eq_ok he
  exact ⟨field, hget, by rw [fieldTy, hget]; rfl, if_neg (Bool.eq_false_iff.1 hvol)⟩

/-- What cannot be seen through may write everything. -/
theorem Graph.effectsOf_isOpen {e : Effects} (hinst : g.inst i = .ok inst)
    (hopen : g.isOpen inst.kind = true) (h : g.effectsOf i = .ok e) : e = .all := by
  have hfield : ∀ {f : FieldId} {access : Ty → Bool → Effects}, g.isVolatile f = true →
      g.fieldEffects f access = .ok e → e = .all := by
    intro f access hvol h
    obtain ⟨field, -, rfl⟩ := fieldEffects_eq_ok h
    exact if_pos hvol
  rw [effectsOf, kind_eq_ok.2 ⟨inst, hinst, rfl⟩] at h
  replace h := Checked.bind_eq_ok.1 h
  obtain ⟨kind, hkind, h⟩ := h
  cases hkind
  cases hk : inst.kind <;> rw [hk] at h hopen <;>
    first
    | exact hfield hopen h
    | exact (Checked.pure_eq_ok.1 h).symm
    | cases hopen

/-- The effect of an instruction has a write exactly when the instruction stores or cannot be seen through. -/
theorem Graph.anyWrite_effectsOf {e : Effects} (hinst : g.inst i = .ok inst) (h : g.effectsOf i = .ok e) :
    e.anyWrite = (inst.kind.isStore || g.isOpen inst.kind) := by
  by_cases hopen : g.isOpen inst.kind = true
  · rw [effectsOf_isOpen hinst hopen h, hopen, Bool.or_true]
    decide
  rw [Bool.not_eq_true] at hopen
  rw [hopen, Bool.or_false]
  rw [effectsOf, kind_eq_ok.2 ⟨inst, hinst, rfl⟩] at h
  replace h := Checked.bind_eq_ok.1 h
  obtain ⟨kind, hkind, h⟩ := h
  cases hkind
  cases hk : inst.kind with
  | instanceGet f | staticGet f =>
    rw [hk] at h hopen
    obtain ⟨field, -, -, rfl⟩ := fieldEffects_of_plain (f := f) hopen h
    exact Effects.anyWrite_read _
  | instanceSet f | staticSet f =>
    rw [hk] at h hopen
    obtain ⟨field, -, -, rfl⟩ := fieldEffects_of_plain (f := f) hopen h
    exact Effects.anyWrite_write _
  | arrayGet =>
    rw [hk] at h
    obtain ⟨ty, -, h⟩ := Checked.bind_eq_ok.1 h
    rw [← Checked.pure_eq_ok.1 h]
    exact Effects.anyWrite_read _
  | arraySet =>
    rw [hk] at h
    obtain ⟨x, -, h⟩ := Checked.bind_eq_ok.1 h
    obtain ⟨ty, -, h⟩ := Checked.bind_eq_ok.1 h
    rw [← Checked.pure_eq_ok.1 h]
    exact Effects.anyWrite_write _
  | invoke | monitorEnter | monitorExit | unknown =>
    rw [hk] at hopen
    cases hopen
  | _ =>
    rw [hk] at h
    rw [← Checked.pure_eq_ok.1 h]
    rfl

/-! ## Steps of a run -/

section Steps

variable (hw : g.WellFormed) (hg : g.Consistent)
include hw hg

/-- A location of settled values denotes the same cell after an instruction. -/
theorem Run.denotes_exec {args : List Val} (hl : g.Layout)
    (h : Run g (memorySemantics g) Memory.Initial s) (hstep : Step g (memorySemantics g) s (.exec i args) s')
    (hids : ∀ x ∈ l.ids, s.Settles g x) (hc : l.Denotes s.env s.mem c) : l.Denotes s'.env s'.mem c := by
  refine hc.congr (fun x hx => hstep.env_exec hw hg (hids x hx)) fun x o ho => ?_
  cases hstep with
  | exec _ _ _ _ hexec => exact (hexec.live ((h.tidy hw hl).env_live x o ho)).2

/-- A location of values settled above a block denotes the same cell after an edge to the block. -/
theorem Step.denotes_goto {p b : BlockId} (hstep : Step g (memorySemantics g) s (.goto p b) s')
    (hids : ∀ x ∈ l.ids, g.Settled b 0 x) (hc : l.Denotes s.env s.mem c) : l.Denotes s'.env s'.mem c := by
  refine hc.congr (fun x hx => hstep.env_goto hw hg (hids x hx)) fun x o _ => ?_
  cases hstep with
  | goto => rfl

end Steps

end Midend
