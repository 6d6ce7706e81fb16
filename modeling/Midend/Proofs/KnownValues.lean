import Midend.Proofs.Arena
import Midend.Proofs.CarriedFacts

/-!
# What is known is true

Whatever load/store elimination knows about memory at a point is true each time a run comes to the point:
the location denotes a cell, and the cell holds the value.  So a load that was replaced would read the
value that replaces it, and a redundant store would store what is there already.

## Shape of the argument

The entries are carried along runs (`Carried`).  An instruction spoils an entry only by writing to its
cell; a store that may do so has made the pass forget the entry, because locations of one cell alias,
and so has an operation that cannot be seen through, unless the cell lies in an object hidden from it.
Substitutions are part of the induction: a load that was replaced has the value of its replacement as
long as it is settled.
-/

namespace Midend

open Midend.Graph

/-! ## Accesses and the fields they name -/

/-- Does an access name its field without an object? -/
def Kind.isStaticAccess : Kind → Bool
  | staticGet _ | staticSet _ => true
  | _ => false

/-- Accesses through an object name instance fields, the others static ones. -/
def Graph.FieldsMatch (g : Graph) : Prop :=
  ∀ i ∈ g.attached, ∀ inst ∈ g.insts[i.index]?, ∀ f ∈ inst.kind.field?, ∀ field ∈ g.fields[f.index]?,
    field.isStatic = inst.kind.isStaticAccess

instance (g : Graph) : Decidable g.FieldsMatch :=
  inferInstanceAs (Decidable (∀ i ∈ g.attached, ∀ inst ∈ g.insts[i.index]?, ∀ f ∈ inst.kind.field?,
    ∀ field ∈ g.fields[f.index]?, field.isStatic = inst.kind.isStaticAccess))

variable {g : Graph} {s s' : RunState Memory} {i x v : InstId} {inst : Inst} {l : Location} {c : Cell}

/-- The effect of a store to an array goes by the type of the value. -/
theorem Graph.effectsOf_of_arraySet {e : Effects} (hinst : g.inst i = .ok inst) (hk : inst.kind = .arraySet)
    (he : g.effectsOf i = .ok e) : e = .arrayWrite (g.operandTy inst 2) := by
  rw [effectsOf, kind_eq_ok.2 ⟨inst, hinst, rfl⟩, hk] at he
  obtain ⟨kind, hkind, he⟩ := Checked.bind_eq_ok.1 he
  cases hkind
  obtain ⟨x, hx, he⟩ := Checked.bind_eq_ok.1 he
  obtain ⟨ty, hty, he⟩ := Checked.bind_eq_ok.1 he
  obtain rfl := Checked.pure_eq_ok.1 he
  obtain ⟨inst', hinst', hx⟩ := input_eq_ok.1 hx
  rw [hinst] at hinst'
  cases hinst'
  obtain ⟨xinst, hxinst, rfl⟩ := ty_eq_ok.1 hty
  rw [operandTy, hx, Option.bind_some, inst_eq_ok.1 hxinst]
  rfl

/-- A store counts as a write to the part of memory its cell lies in. -/
theorem Graph.FieldsMatch.mayWrite (hf : g.FieldsMatch) {args : List Val} {e : Effects}
    (hi : i ∈ g.attached) (hinst : g.inst i = .ok inst) (hstore : inst.kind.isStore = true)
    (hc : Accesses g inst args c) (he : g.effectsOf i = .ok e) : e.mayWrite (c.category g) = true := by
  cases hc with
  | instanceSet hk hvol =>
    rw [effectsOf, kind_eq_ok.2 ⟨inst, hinst, rfl⟩, hk] at he
    obtain ⟨field, hfield, hty, rfl⟩ := fieldEffects_of_plain hvol he
    have hstatic := hf i hi inst (inst_eq_ok.1 hinst) _ (by rw [hk]; rfl) field hfield
    rw [hstatic, hk, Cell.category, hty]
    exact Effects.mayWrite_write _
  | staticSet hk hvol =>
    rw [effectsOf, kind_eq_ok.2 ⟨inst, hinst, rfl⟩, hk] at he
    obtain ⟨field, hfield, hty, rfl⟩ := fieldEffects_of_plain hvol he
    have hstatic := hf i hi inst (inst_eq_ok.1 hinst) _ (by rw [hk]; rfl) field hfield
    rw [hstatic, hk, Cell.category, hty]
    exact Effects.mayWrite_write _
  | arraySet hk =>
    obtain rfl := effectsOf_of_arraySet hinst hk he
    exact Effects.mayWrite_write _
  | instanceGet hk | staticGet hk | arrayGet hk => simp [hk, Kind.isStore] at hstore

namespace LoadStore

/-! ## Private objects -/

/-- A value is noted to escape as it does, or as one that escapes. -/
theorem escapesOf_get (g : Graph) (x : InstId) :
    (escapesOf g).get x.index = g.escapeOf x ∨ (escapesOf g).get x.index = .escaped := by
  rw [escapesOf, Table.get_foldl_set InstId.index_injective g.escapeOf, Table.get_empty]
  split
  · exact .inl rfl
  · exact .inr rfl

/-- What is said to be single is. -/
theorem single_of_isSingleton (h : ((escapesOf g).get x.index).isSingleton = true) : g.Single x := by
  rcases escapesOf_get g x with heq | heq
  · rwa [heq] at h
  · simp [heq, Escape.escaped] at h

/-- What is said to be private is single. -/
theorem single_of_isPrivate (h : ((escapesOf g).get x.index).isPrivate = true) : g.Single x := by
  refine single_of_isSingleton ?_
  rcases escapesOf_get g x with heq | heq
  · rw [heq, escapeOf] at h
    rw [heq, escapeOf]
    split at h
    · next hkind =>
      rw [if_pos hkind]
      exact (Bool.and_eq_true_iff.1 h).1
    · cases h
  · simp [heq, Escape.escaped] at h

/-- The singletons of the pass are such in every run. -/
theorem On.single {t : DomTree} {summary : EffectSummary} {hasMonitors : Bool} {last st : State}
    {k : Knowledge} {b : BlockId} {n : Nat} {done : List BlockId}
    (hon : On g t summary hasMonitors last (.inside done b n st k)) (throws : Bool) (x : InstId)
    (h : (st.beforeThrow k throws).isSingleton x = true) : g.Single x := by
  have hescapes : st.escapes = escapesOf g := hon.escapes
  rw [State.isSingleton, (State.beforeThrow_frame _ _ _).2, hescapes] at h
  exact single_of_isSingleton h

/-! ## Facts about cells -/

/-- A location denotes a cell, and the cell holds the value of an instruction. -/
def Holds (s : RunState Memory) (l : Location) (v : InstId) : Prop :=
  ∃ c, l.Denotes s.env s.mem c ∧ s.env v = some (s.mem.cell c)

/-- Loads that were replaced have the values of their replacements. -/
def Forwarding (g : Graph) (t : DomTree) (summary : EffectSummary) (hasMonitors : Bool) (last : State)
    (s : RunState Memory) : Prop :=
  ∀ x v, Forwards g t summary hasMonitors last x v → s.Settles g x → s.env x = s.env v

variable {t : DomTree} {summary : EffectSummary} {hasMonitors : Bool} {last st : State} {k : Knowledge}
  {known : Known} {e : Event} {args : List Val} {done : List BlockId} {b p : BlockId} {n : Nat}
  {st' : State × Knowledge} {throws : Bool}

section WellFormed

variable (hw : g.WellFormed) (hg : g.Consistent) (hl : g.Layout)
  (ht : Trace g t summary hasMonitors last)
include hw hg hl

/-- An instruction that leaves the cell of an entry alone does not spoil the entry. -/
theorem Holds.exec (h : Run g (memorySemantics g) Memory.Initial s)
    (hstep : Step g (memorySemantics g) s (.exec i args) s') (hids : ∀ x ∈ l.ids, s.Settles g x)
    (hv : s.Settles g v) (hc : l.Denotes s.env s.mem c) (henv : s.env v = some (s.mem.cell c))
    (hcell : s'.mem.cell c = s.mem.cell c) : Holds s' l v :=
  ⟨c, h.denotes_exec hw hg hl hstep hids hc, by rw [hstep.env_exec hw hg hv, henv, hcell]⟩

include ht

/-- The entries known where a run is are about settled values. -/
theorem settles_of_on (hon : On g t summary hasMonitors last (.inside done s.block s.pos st k))
    (hreach : g.Reachable s.block) (hmem : (l, known) ∈ k) :
    (∀ x ∈ l.ids, s.Settles g x) ∧ s.Settles g known.value := by
  obtain ⟨block, hb⟩ := hw.exists_block hg hreach
  have hentry := (hon.grounded hw hg hl ht).inside _ _ _ _ _ block l known rfl hb hmem
  exact ⟨fun x hx => ⟨block, hb, hentry.1 x hx⟩, block, hb, hentry.2.1⟩

/-- What a load is replaced by is settled where the load is. -/
theorem Forwards.settled (h : Forwards g t summary hasMonitors last x v) (hx : g.At x b n) :
    g.Settled b n v := by
  obtain ⟨hon, hb, hi, -, -, hloc, hknown, rfl⟩ := h
  obtain ⟨rfl, rfl⟩ := hw.at_unique hg (at_insts hb hi) hx
  have hground := hon.grounded hw hg hl ht
  exact settled_resolve hw hg hground.substitutions
    (hground.inside _ _ _ _ _ _ _ _ rfl hb (Knowledge.mem_of_get? hknown)).2.1

/-- Following substitutions does not change the value. -/
theorem Forwarding.env_resolve {c : Stage} (h : Forwarding g t summary hasMonitors last s)
    (hc : On g t summary hasMonitors last c) (hv : s.Settles g v) (depth : Nat) :
    s.Settles g (c.state.resolveWithin depth v) ∧ s.env (c.state.resolveWithin depth v) = s.env v := by
  refine State.resolveWithin_induction (P := fun w => s.Settles g w ∧ s.env w = s.env v) ⟨hv, rfl⟩ ?_ depth
  rintro x y ⟨hx, henv⟩ hy
  have hforwards := hc.accounted.substitutions x y hy
  refine ⟨?_, (h x y hforwards hx).symm.trans henv⟩
  obtain ⟨block, hb, hx⟩ := hx
  obtain ⟨d, m, hat, -⟩ := id hx
  exact ⟨block, hb, hw.settled_trans hg hat (hforwards.settled hw hg hl ht hat) hx⟩

/-- Values that are replaced by the same one are equal. -/
theorem Forwarding.env_eq_of_resolve_eq (h : Forwarding g t summary hasMonitors last s)
    (hon : On g t summary hasMonitors last (.inside done b n st k)) (hx : s.Settles g x) (hv : s.Settles g v)
    (heq : st.resolve x = st.resolve v) : s.env x = s.env v :=
  calc s.env x
    _ = s.env (st.resolve x) := (h.env_resolve hw hg hl ht hon hx _).2.symm
    _ = s.env (st.resolve v) := by rw [heq]
    _ = s.env v := (h.env_resolve hw hg hl ht hon hv _).2

omit ht in
/-- The operands that make up the location of the next instruction are settled. -/
theorem settles_location (hrun : Run g (memorySemantics g) Memory.Initial s) (hnext : s.Next g i)
    (hinst : g.inst i = .ok inst) (hloc : g.location? i = .ok (some l)) (hx : x ∈ l.ids) :
    s.Settles g x := by
  obtain ⟨block, hb, hi⟩ := hnext
  exact ⟨block, hb, settled_of_locates hw hg hl (location?_eq_some hinst hloc) hrun.reachable hb hi hinst hx⟩

/-- A load whose location is known reads the known value. -/
theorem env_of_forwards (hrun : Run g (memorySemantics g) Memory.Initial s) (hnext : s.Next g x)
    (hQ : Forwarding g t summary hasMonitors last s)
    (hall : AllAt g t summary hasMonitors last (Holds s) s.block s.pos)
    (h : Forwards g t summary hasMonitors last x v) :
    ∃ l c, g.location? x = .ok (some l) ∧ l.Denotes s.env s.mem c ∧ s.Settles g v ∧
      s.env v = some (s.mem.cell c) := by
  obtain ⟨hon, hb, hi, -, -, hloc, hknown, rfl⟩ := h
  obtain ⟨rfl, rfl⟩ := hnext.place hw hg hb hi
  have hmem := Knowledge.mem_of_get? hknown
  obtain ⟨c, hc, henv⟩ := hall _ _ _ hon _ _ hmem
  obtain ⟨hset, hresolve⟩ := hQ.env_resolve hw hg hl ht hon
    (settles_of_on hw hg hl ht hon hrun.reachable hmem).2 _
  exact ⟨_, c, hloc, hc, hset, hresolve.trans henv⟩

omit ht in
/-- A load takes the value of the cell that its location denotes, and leaves memory alone. -/
theorem load_of_denotes (hrun : Run g (memorySemantics g) Memory.Initial s)
    (hstep : Step g (memorySemantics g) s (.exec i args) s') (hinst : g.inst i = .ok inst)
    (hload : inst.kind.isLoad = true) (hloc : g.location? i = .ok (some l)) :
    ∃ c, l.Denotes s.env s.mem c ∧ s'.env i = some (s.mem.cell c) ∧ s'.mem = s.mem := by
  obtain ⟨hnext, hargs, v, mem, hexec, rfl⟩ := hstep.exec_inv hinst
  obtain ⟨c, hacc, hhas, ⟨-, rfl, rfl⟩ | ⟨hstore, -⟩⟩ :=
    Executes.of_locates hexec (location?_eq_some hinst hloc)
  · refine ⟨c, ?_, Function.update_self .., rfl⟩
    exact hrun.denotes hw hg hl hnext hloc ⟨inst, hinst, hargs, hacc, hhas⟩
  · rw [Kind.isStore_eq_false hload] at hstore
    cases hstore

omit ht in
/-- A store puts the value of its last operand into the cell that its location denotes. -/
theorem store_of_denotes (hrun : Run g (memorySemantics g) Memory.Initial s)
    (hstep : Step g (memorySemantics g) s (.exec i args) s') (hinst : g.inst i = .ok inst)
    (hstore : inst.kind.isStore = true) (hloc : g.location? i = .ok (some l)) :
    ∃ c w, l.Denotes s.env s.mem c ∧ args.getLast? = some w ∧
      s'.mem.cell = Function.update s.mem.cell c w := by
  obtain ⟨hnext, hargs, v, mem, hexec, rfl⟩ := hstep.exec_inv hinst
  obtain ⟨c, hacc, hhas, ⟨hload, -⟩ | ⟨-, w, hw', hcell⟩⟩ :=
    Executes.of_locates hexec (location?_eq_some hinst hloc)
  · rw [Kind.isStore_eq_false hload] at hstore
    cases hstore
  · exact ⟨c, w, hrun.denotes hw hg hl hnext hloc ⟨inst, hinst, hargs, hacc, hhas⟩, hw', hcell⟩

/-- Loads that were replaced keep the values of their replacements. -/
theorem forwarding_step (hrun : Run g (memorySemantics g) Memory.Initial s)
    (hstep : Step g (memorySemantics g) s e s') (hQ : Forwarding g t summary hasMonitors last s)
    (hall : AllAt g t summary hasMonitors last (Holds s) s.block s.pos) :
    Forwarding g t summary hasMonitors last s' := by
  intro x v hforwards hx
  obtain ⟨hon, hb, hi, hinst, hload, hloc, hknown, hv⟩ := id hforwards
  refine hstep.settled_fact hw hg (fun env => env x = env v) [x, v] hrun.reachable
    (fun b block hb => hl.not_mem_phis hinst ?_ hb) ?_ ?_ ?_ (hQ x v hforwards) hx
  · intro hphi
    simp [hphi, Kind.isLoad] at hload
  · intro d m hat y hy
    rw [List.mem_cons, List.mem_singleton] at hy
    rcases hy with rfl | rfl
    · exact .inl rfl
    · exact .inr (hforwards.settled hw hg hl ht hat)
  · intro env env' henv heq
    rw [henv x (by simp), henv v (by simp), heq]
  · rintro args rfl
    obtain ⟨l', c, hloc', hc, hset, henv⟩ := env_of_forwards hw hg hl ht hrun hstep.next hQ hall hforwards
    obtain ⟨c', hc', henv', -⟩ := load_of_denotes hw hg hl hrun hstep hinst hload hloc'
    rw [henv', hc.unique hc', hstep.env_exec hw hg hset, henv]

omit hg ht in
/-- A private object that an operation is not handed is out of its reach. -/
theorem not_exposed_of_exempts (hrun : Run g (memorySemantics g) Memory.Initial s)
    (hon : On g t summary hasMonitors last (.inside done b n st k)) (hexempts : st.Exempts inst l)
    (hargs : inst.inputs.mapM s.env = some args) (hc : l.Denotes s.env s.mem c) :
    ¬ s.mem.Exposed args c := by
  obtain ⟨r, hr, hprivate, hinputs⟩ := hexempts
  have hescapes : st.escapes = escapesOf g := hon.escapes
  rw [hescapes] at hprivate
  have hsingle := single_of_isPrivate hprivate
  have htidy := hrun.tidy hw hl
  obtain ⟨o, ho, hco⟩ := hc.object hr
  intro hexposed
  obtain ⟨m, hm⟩ := List.mem_iff_getElem?.1 (hexposed o hco (htidy.single_hidden r o hsingle ho))
  obtain ⟨y, hy, henv⟩ := exists_operand hargs hm
  rw [htidy.single_env r o y hsingle ho henv] at hy
  exact hinputs (List.mem_of_getElem? hy)

/-- What is known after an instruction is true after it. -/
theorem holds_visited (hrun : Run g (memorySemantics g) Memory.Initial s)
    (hstep : Step g (memorySemantics g) s (.exec i args) s')
    (hQ : Forwarding g t summary hasMonitors last s) (hinst : g.inst i = .ok inst)
    (hon : On g t summary hasMonitors last (.inside done s.block s.pos st k))
    (hvisited : Visited g summary (st.beforeThrow k throws) k i inst throws st')
    (hk : ∀ l known, (l, known) ∈ k → Holds s l known.value) (hmem : (l, known) ∈ st'.2) :
    Holds s' l known.value := by
  have htidy := hrun.tidy hw hl
  obtain ⟨hnext, hargs, v, mem, hexec, hs'⟩ := hstep.exec_inv hinst
  -- an entry that was known before is true after if its cell has not changed
  have hkeep : ∀ {l : Location} {known : Known}, (l, known) ∈ k →
      (∀ c, l.Denotes s.env s.mem c → s'.mem.cell c = s.mem.cell c) → Holds s' l known.value := by
    intro l known hmem hcell
    obtain ⟨c, hc, henv⟩ := hk l known hmem
    obtain ⟨hids, hval⟩ := settles_of_on hw hg hl ht hon hrun.reachable hmem
    exact Holds.exec hw hg hl hrun hstep hids hval hc henv (hcell c hc)
  have hself : ∀ {l : Location}, g.location? i = .ok (some l) → ∀ x ∈ l.ids, s.Settles g x :=
    fun hloc x hx => settles_location hw hg hl hrun hnext hinst hloc hx
  cases hvisited with
  | forward hload hloc =>
    obtain ⟨-, -, -, hsame⟩ := load_of_denotes hw hg hl hrun hstep hinst hload hloc
    exact hkeep hmem fun c _ => by rw [hsame]
  | load hload hloc =>
    obtain ⟨c, hc, henv, hsame⟩ := load_of_denotes hw hg hl hrun hstep hinst hload hloc
    rcases Knowledge.mem_insert hmem with heq | ⟨hmem, -⟩
    · cases heq
      exact ⟨c, hrun.denotes_exec hw hg hl hstep (hself hloc) hc, by rw [henv, hsame]⟩
    · exact hkeep hmem fun c _ => by rw [hsame]
  | @redundant l' known' operand hstore hloc hlast hknown hvalue _ =>
    obtain ⟨c, w, hc, hw', hcell⟩ := store_of_denotes hw hg hl hrun hstep hinst hstore hloc
    -- the value stored is the one that is there
    have hsame : w = s.mem.cell c := by
      have hmem' := Knowledge.mem_of_get? hknown
      obtain ⟨c', hc', henv⟩ := hk l' known' hmem'
      rw [State.resolve_beforeThrow, State.resolve_beforeThrow] at hvalue
      have heq := hQ.env_eq_of_resolve_eq hw hg hl ht hon
        (settles_of_on hw hg hl ht hon hrun.reachable hmem').2
        (hnext.settles_last hw hg hrun.reachable hinst hlast) hvalue
      rw [getLast?_of_mapM hargs, hlast, Option.bind_some, ← heq, henv] at hw'
      rw [hc'.unique hc]
      exact (Option.some.inj hw').symm
    exact hkeep hmem fun c' _ => by rw [hcell, hsame, Function.update_eq_self]
  | @store l' operand p mustKeep hstore hloc hlast hp _ =>
    obtain ⟨c, w, hc, hw', hcell⟩ := store_of_denotes hw hg hl hrun hstep hinst hstore hloc
    rcases Knowledge.mem_insert hmem with heq | ⟨hmem, hne⟩
    · cases heq
      obtain ⟨hset, henv⟩ : s.Settles g (st.resolve operand) ∧ s.env (st.resolve operand) = s.env operand :=
        hQ.env_resolve hw hg hl ht hon (hnext.settles_last hw hg hrun.reachable hinst hlast) _
      refine ⟨c, hrun.denotes_exec hw hg hl hstep (hself hloc) hc, ?_⟩
      rw [getLast?_of_mapM hargs, hlast, Option.bind_some] at hw'
      rw [State.resolve_beforeThrow, hstep.env_exec hw hg hset, henv, hw', hcell, Function.update_self]
    · obtain ⟨hmem, hkept⟩ := Knowledge.mem_forget.1 hmem
      refine hkeep hmem fun c' hc' => ?_
      rw [hcell, Function.update_of_ne]
      rintro rfl
      have halias := htidy.mayAlias (hon.single throws) hc' hc
      rw [(hp l).2 ⟨hne, halias⟩] at hkept
      cases hkept
  | @other xs p hloc _ _ hall =>
    obtain ⟨hmem, hkept⟩ := Knowledge.mem_forget.1 hmem
    refine hkeep hmem fun c hc => ?_
    subst hs'
    rcases Executes.of_not_accesses hexec (not_accesses_of_location? hinst hloc) with hsame | ⟨hopen, hdist⟩
    · exact hsame c fun o ho => htidy.live_of_denotes hc ho
    · refine hdist.cells c ?_
      obtain ⟨block, hb, hi⟩ := hnext
      have heffects := effectsOf_isOpen hinst hopen (ht.summarizes.insts s.block block i hrun.reachable hb
        (List.mem_append_right _ (List.mem_of_getElem? hi)))
      rcases hall heffects l with hforgotten | hexempts
      · rw [hforgotten] at hkept
        cases hkept
      · rw [State.beforeThrow_eq] at hexempts
        exact not_exposed_of_exempts hw hl hrun hon hexempts hargs hc

/-- An instruction of a loop leaves alone what the header knows. -/
theorem holds_looping (hf : g.FieldsMatch) (hrun : Run g (memorySemantics g) Memory.Initial s)
    (hstep : Step g (memorySemantics g) s (.exec i args) s') (hentry : SettledEntry g s.block 0 l known)
    (hwrite : (summary.ofInst i).mayWrite (l.category g) = false) (h : Holds s l known.value) :
    Holds s' l known.value := by
  obtain ⟨c, hc, henv⟩ := h
  obtain ⟨block, hb⟩ := hw.exists_block hg hrun.reachable
  have hset : ∀ {x : InstId}, g.Settled s.block 0 x → s.Settles g x :=
    fun hx => ⟨block, hb, hx.mono (Nat.zero_le _)⟩
  refine Holds.exec hw hg hl hrun hstep (fun x hx => hset (hentry.1 x hx)) (hset hentry.2.1) hc henv ?_
  cases hstep with
  | @exec block' i inst args v mem hb' hi hinst hargs hexec =>
    have heffects := ht.summarizes.insts s.block block' i hrun.reachable hb'
      (List.mem_append_right _ (List.mem_of_getElem? hi))
    have hatt : i ∈ g.attached :=
      mem_attached.2 ⟨s.block, block', hb', List.mem_append_right _ (List.mem_of_getElem? hi)⟩
    rw [hc.category] at hwrite
    cases hexec with
    | computes | load => rfl
    | @allocates _ o _ hnew _ =>
      refine hnew.cells c fun hco => hnew.fresh ?_
      exact (hrun.tidy hw hl).live_of_denotes hc hco
    | @store c' w m hstore hacc hhas hlast =>
      refine Function.update_of_ne ?_ ..
      rintro rfl
      rw [hf.mayWrite hatt hinst hstore hacc heffects] at hwrite
      cases hwrite
    | disturbs hopen =>
      rw [effectsOf_isOpen hinst hopen heffects, Effects.mayWrite_all] at hwrite
      cases hwrite

/-- The entries are true at every state of a run. -/
theorem carried_holds (hf : g.FieldsMatch) :
    Carried g t summary hasMonitors last (Forwarding g t summary hasMonitors last) Holds where
  start m _ x v hforwards hx := by
    obtain ⟨-, -, -, hinst, hload, -⟩ := hforwards
    refine absurd hx (RunState.not_settles_start fun b block hb => hl.not_mem_phis hinst ?_ hb)
    intro hphi
    simp [hphi, Kind.isLoad] at hload
  step s e s' hrun hstep hQ hall := forwarding_step hw hg hl ht hrun hstep hQ hall
  visited s s' i args inst throws done st k st' hrun hstep hQ hinst hon hvisited hk l known hmem :=
    holds_visited hw hg hl ht hrun hstep hQ hinst hon hvisited hk hmem
  looping s s' i args l known hrun hstep hentry hwrite h :=
    holds_looping hw hg hl ht hf hrun hstep hentry hwrite h
  goto s s' p b l known hrun hstep hentry h := by
    obtain ⟨c, hc, henv⟩ := h
    refine ⟨c, hstep.denotes_goto hw hg hentry.1 hc, ?_⟩
    rw [hstep.env_goto hw hg hentry.2.1, henv]
    cases hstep
    rfl

/-- A removed load would read the value that replaces it. -/
theorem env_of_mem_removedLoads (hf : g.FieldsMatch) (hrun : Run g (memorySemantics g) Memory.Initial s)
    (hx : x ∈ last.removedLoads) (hnext : s.Next g x) :
    ∃ args c, s.Touches g x args c ∧ s.env (last.resolve x) = some (s.mem.cell c) := by
  obtain ⟨hQ, hall, -⟩ := (carried_holds hw hg hl ht hf).run hg ht hw hl hrun
  obtain ⟨v, hv⟩ : ∃ v, last.substitutions.get x.index = some v :=
    ht.on_last.accounted.removedLoads x hx
  have hforwards := ht.on_last.accounted.substitutions x v hv
  obtain ⟨l, c, hloc, hc, hset, henv⟩ := env_of_forwards hw hg hl ht hrun hnext hQ hall hforwards
  obtain ⟨-, -, -, hinst, hload, -⟩ := hforwards
  obtain ⟨args, htouches⟩ := hrun.touches hw hg hl hnext hinst hloc hc fun hstore => by
    rw [Kind.isStore_eq_false hload] at hstore
    cases hstore
  refine ⟨args, c, htouches, ?_⟩
  obtain ⟨depth, hdepth⟩ := State.resolve_eq_of_get hv
  rw [hdepth]
  exact (hQ.env_resolve hw hg hl ht ht.on_last hset depth).2.trans henv

/-- A redundant store would store what its cell holds. -/
theorem getLast?_of_mem_redundant (hf : g.FieldsMatch) (hrun : Run g (memorySemantics g) Memory.Initial s)
    (hx : x ∈ last.redundant) (hnext : s.Next g x) :
    ∃ args c, s.Touches g x args c ∧ args.getLast? = some (s.mem.cell c) := by
  obtain ⟨hQ, hall, -⟩ := (carried_holds hw hg hl ht hf).run hg ht hw hl hrun
  cases ht.on_last.accounted.redundant x hx with
  | @intro _ _ _ st _ _ _ inst operand l known hon _ hb hi hinst hstore hlast hloc hknown hvalue =>
    obtain ⟨rfl, rfl⟩ := hnext.place hw hg hb hi
    have hmem := Knowledge.mem_of_get? hknown
    obtain ⟨c, hc, henv⟩ := hall _ _ _ hon _ _ hmem
    have hoperand : s.env operand = some (s.mem.cell c) := by
      rw [← henv]
      exact hQ.env_eq_of_resolve_eq hw hg hl ht hon (hnext.settles_last hw hg hrun.reachable hinst hlast)
        (settles_of_on hw hg hl ht hon hrun.reachable hmem).2 hvalue.symm
    obtain ⟨args, htouches⟩ := hrun.touches hw hg hl hnext hinst hloc hc fun _ y hy => by
      rw [hlast] at hy
      cases hy
      exact ⟨_, hoperand⟩
    refine ⟨args, c, htouches, ?_⟩
    obtain ⟨inst', hinst', hargs, -⟩ := htouches
    rw [hinst] at hinst'
    cases hinst'
    rw [getLast?_of_mapM hargs, hlast]
    exact hoperand

end WellFormed

/-! ## Runs of the passes -/

variable {settings : Settings} {verify : Bool} {u : CompUnit}

/-- Each time a load that was removed would be executed, its cell holds the value of the instruction that
replaces it, and each time a redundant store would be executed, its cell holds the value to store. -/
theorem removed_accesses_agree_with_memory (hg : g.Consistent) (hv : g.violations = .ok []) (hl : g.Layout)
    (hf : g.FieldsMatch)
    (hrun : (Manager.runAll verify [SideEffects.pass, pass]).run (.new g settings) = (.ok (), u)) :
    ∃ last, outcome g = .ok last ∧ applyTo last g = .ok u.graph ∧
      ∀ s, Run g (memorySemantics g) Memory.Initial s →
        (∀ x ∈ last.removedLoads, s.Next g x →
          ∃ args c, s.Touches g x args c ∧ s.env (last.resolve x) = some (s.mem.cell c)) ∧
        ∀ x ∈ last.redundant, s.Next g x →
          ∃ args c, s.Touches g x args c ∧ args.getLast? = some (s.mem.cell c) := by
  have hw := hg.violations_eq_nil_iff.1 hv
  obtain ⟨last, houtcome, happly⟩ := exists_outcome hrun
  obtain ⟨t, summary, hasMonitors, ht⟩ := trace_of_outcome hg houtcome
  refine ⟨last, houtcome, happly, fun s hs => ⟨fun x hx hnext => ?_, fun x hx hnext => ?_⟩⟩
  · exact env_of_mem_removedLoads hw hg hl ht hf hs hx hnext
  · exact getLast?_of_mem_redundant hw hg hl ht hf hs hx hnext

/-- A loop that reads a field set before it and writes other memory, with the field set again after it. -/
def forwardingLoop : Graph := .ofEdits "forwardingLoop" [
  .createBlock, .createBlock,
  .internField ⟨"C", "f", .int, 8, false, false⟩, .internField ⟨"C", "s", .int, 0, true, false⟩,
  .createInst (.param 0) .ref [], .appendInst ⟨0⟩ ⟨0⟩,
  .createInst (.param 1) .int [], .appendInst ⟨0⟩ ⟨1⟩,
  .createInst (.instanceSet ⟨0⟩) .void [⟨0⟩, ⟨1⟩], .appendInst ⟨0⟩ ⟨2⟩,
  .createInst .jump .void [], .appendInst ⟨0⟩ ⟨3⟩, .addEdge ⟨0⟩ ⟨1⟩,
  .createInst (.instanceGet ⟨0⟩) .int [⟨0⟩], .appendInst ⟨1⟩ ⟨4⟩,
  .createInst (.staticSet ⟨1⟩) .void [⟨4⟩], .appendInst ⟨1⟩ ⟨5⟩,
  .createInst .branch .void [⟨1⟩], .appendInst ⟨1⟩ ⟨6⟩, .addEdge ⟨1⟩ ⟨1⟩, .addEdge ⟨1⟩ ⟨2⟩,
  .createInst (.instanceSet ⟨0⟩) .void [⟨0⟩, ⟨1⟩], .appendInst ⟨2⟩ ⟨7⟩,
  .createInst .retVoid .void [], .appendInst ⟨2⟩ ⟨8⟩]

/-- A run of `forwardingLoop` comes to the removed load. -/
theorem exists_next_forwardingLoop : ∃ s, Run forwardingLoop (memorySemantics forwardingLoop) Memory.Initial s ∧
    s.Next forwardingLoop ⟨4⟩ := by
  have hentry : forwardingLoop.block ⟨0⟩ =
      .ok ⟨[], [⟨0⟩, ⟨1⟩, ⟨2⟩, ⟨3⟩], [], [⟨1⟩]⟩ := by decide +kernel
  have hloop : forwardingLoop.block ⟨1⟩ =
      .ok ⟨[], [⟨4⟩, ⟨5⟩, ⟨6⟩], [⟨0⟩, ⟨1⟩], [⟨1⟩, ⟨2⟩]⟩ := by decide +kernel
  have hreceiver : forwardingLoop.inst ⟨0⟩ = .ok ⟨.param 0, .ref, [], some ⟨0⟩, false⟩ := by decide +kernel
  have hparam : forwardingLoop.inst ⟨1⟩ = .ok ⟨.param 1, .int, [], some ⟨0⟩, false⟩ := by decide +kernel
  have hstore : forwardingLoop.inst ⟨2⟩ =
      .ok ⟨.instanceSet ⟨0⟩, .void, [⟨0⟩, ⟨1⟩], some ⟨0⟩, false⟩ := by decide +kernel
  have hjump : forwardingLoop.inst ⟨3⟩ = .ok ⟨.jump, .void, [], some ⟨0⟩, false⟩ := by decide +kernel
  have hset : Accesses forwardingLoop ⟨.instanceSet ⟨0⟩, .void, [⟨0⟩, ⟨1⟩], some ⟨0⟩, false⟩
      [.obj 0, .num 3] (.field 0 ⟨0⟩) := .instanceSet rfl (by decide +kernel)
  have hstart : forwardingLoop.entry = ⟨0⟩ := by decide +kernel
  have h₀ : Run forwardingLoop (memorySemantics forwardingLoop) Memory.Initial ⟨⟨0⟩, 0, fun _ => none, .zero⟩ :=
    hstart ▸ .start Memory.initial_zero
  have h₁ := h₀.step (.exec hentry rfl hreceiver rfl
    (.computes (.param Memory.outside_obj_zero (fun _ _ => Val.noConfusion))))
  have h₂ := h₁.step (.exec hentry rfl hparam rfl (.computes (.param (Memory.outside_num _ 3) (by decide))))
  have h₃ := h₂.step (.exec hentry rfl hstore rfl (.store (n := 0) rfl hset trivial rfl))
  have h₄ := h₃.step (.exec hentry rfl hjump rfl (.computes (.jump (n := 0))))
  have h₅ := h₄.step (.goto (t := ⟨1⟩) (n := 0) hentry rfl (by decide) hloop rfl (by rintro _ ⟨⟩))
  exact ⟨_, h₅, _, hloop, rfl⟩

/-- In `forwardingLoop` a load and a store go, and runs agree with what was known at both. -/
theorem removed_accesses_agree_with_memory_forwardingLoop :
    forwardingLoop.Consistent ∧ forwardingLoop.violations = .ok [] ∧ forwardingLoop.Layout ∧
      forwardingLoop.FieldsMatch ∧
      (outcome forwardingLoop).toOption.map (fun last => (last.removedLoads, last.redundant)) =
        some ([⟨4⟩], [⟨7⟩]) ∧
      (∃ s, Run forwardingLoop (memorySemantics forwardingLoop) Memory.Initial s ∧
        s.Next forwardingLoop ⟨4⟩) ∧
      ∃ u, (Manager.runAll true [SideEffects.pass, pass]).run (.new forwardingLoop .default) = (.ok (), u) ∧
        ∃ last, outcome forwardingLoop = .ok last ∧ applyTo last forwardingLoop = .ok u.graph ∧
          ∀ s, Run forwardingLoop (memorySemantics forwardingLoop) Memory.Initial s →
            (∀ x ∈ last.removedLoads, s.Next forwardingLoop x → ∃ args c,
              s.Touches forwardingLoop x args c ∧ s.env (last.resolve x) = some (s.mem.cell c)) ∧
            ∀ x ∈ last.redundant, s.Next forwardingLoop x → ∃ args c,
              s.Touches forwardingLoop x args c ∧ args.getLast? = some (s.mem.cell c) := by
  have hok : ((Manager.runAll true [SideEffects.pass, pass]).run (.new forwardingLoop .default)).1 =
      .ok () := by decide +kernel
  exact ⟨by decide +kernel, by decide +kernel, by decide +kernel, by decide +kernel, by decide +kernel,
    exists_next_forwardingLoop, _, Prod.ext hok rfl, removed_accesses_agree_with_memory (by decide +kernel)
      (by decide +kernel) (by decide +kernel) (by decide +kernel) (Prod.ext hok rfl)⟩

end LoadStore

end Midend
