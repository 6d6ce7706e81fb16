import Midend.Proofs.Arena
import Midend.Proofs.KnownValues

/-!
# Dead stores are not observed

A store that load/store elimination removes as dead leaves a value that nobody sees: until something else
is stored to the cell, no load that stays reads it, no operation that cannot be seen through reaches it,
and the run does not end with the cell visible from outside.

## Shape of the argument

While the run goes on, the store stays pending at the point where the run is, because each step of the
pass that could drop it marks it as kept, and a store once kept is never removed.  Whatever observes the
cell marks the store as kept where the pass visits it.

One way is not watched.  A block's own end is not on record yet while its edges are looked at, so an edge
from a block straight back to it is taken for one that leads ahead.  What is pending at the end of such a
block because of a store in the block itself may be observed in the next round.
-/

namespace Midend

/-- What lets its operand out does not contain it. -/
theorem Kind.fate_ne_contained {k : Kind} {n : Nat} (h : k.letsOut n = true) :
    Escape.fate k n ≠ .contained := by
  cases k <;> simp_all [letsOut, Escape.fate]

namespace LoadStore

open Midend.Graph

variable {g : Graph} {t : DomTree} {summary : EffectSummary} {hasMonitors : Bool} {last st : State}
  {s s' : RunState Memory} {k : Knowledge} {l : Location} {known : Known} {c : Cell} {b p : BlockId}
  {n : Nat} {i x S : InstId} {inst : Inst} {args : List Val} {done : List BlockId} {throws : Bool}
  {e : Event}

/-! ## Known locations denote cells -/

section WellFormed

variable (hw : g.WellFormed) (hg : g.Consistent) (hl : g.Layout)
include hw hg hl

/-- The location of an access that was executed denotes a cell. -/
theorem exists_denotes (hrun : Run g (memorySemantics g) Memory.Initial s)
    (hstep : Step g (memorySemantics g) s (.exec i args) s') (hloc : g.location? i = .ok (some l)) :
    ∃ c, s.Touches g i args c ∧ l.Denotes s.env s.mem c := by
  cases hstep with
  | exec hb hi hinst hargs hexec =>
    obtain ⟨c, hacc, hhas, -⟩ := Executes.of_locates hexec (location?_eq_some hinst hloc)
    have htouches : s.Touches g i args c := ⟨_, hinst, hargs, hacc, hhas⟩
    exact ⟨c, htouches, hrun.denotes hw hg hl ⟨_, hb, hi⟩ hloc htouches⟩

variable (ht : Trace g t summary hasMonitors last)
include ht

/-- What is known at a place is known of locations that denote a cell there. -/
theorem carried_denotes : Carried g t summary hasMonitors last (fun _ => True)
    fun s l _ => ∃ c, l.Denotes s.env s.mem c where
  start _ _ := trivial
  step _ _ _ _ _ _ _ := trivial
  visited s s' i args inst throws done st k st' hrun hstep _ hinst hon hvisited hk l known hmem := by
    have hold : ∀ known, (l, known) ∈ k → ∃ c, l.Denotes s'.env s'.mem c := by
      intro known hmem
      obtain ⟨c, hc⟩ := hk l known hmem
      exact ⟨c, hrun.denotes_exec hw hg hl hstep
        (settles_of_on hw hg hl ht hon hrun.reachable hmem).1 hc⟩
    have hnew : g.location? i = .ok (some l) → ∃ c, l.Denotes s'.env s'.mem c := by
      intro hloc
      obtain ⟨c, -, hc⟩ := exists_denotes hw hg hl hrun hstep hloc
      refine ⟨c, hrun.denotes_exec hw hg hl hstep (fun x hx => ?_) hc⟩
      exact settles_location hw hg hl hrun hstep.next hinst hloc hx
    cases hvisited with
    | forward | redundant => exact hold known hmem
    | load _ hloc =>
      rcases Knowledge.mem_insert hmem with heq | ⟨hmem, -⟩
      · cases heq
        exact hnew hloc
      · exact hold known hmem
    | store _ hloc =>
      rcases Knowledge.mem_insert hmem with heq | ⟨hmem, -⟩
      · cases heq
        exact hnew hloc
      · exact hold known (Knowledge.mem_forget.1 hmem).1
    | other => exact hold known (Knowledge.mem_forget.1 hmem).1
  looping s s' i args l known hrun hstep hentry _ h := by
    obtain ⟨c, hc⟩ := h
    obtain ⟨block, hb⟩ := hw.exists_block hg hrun.reachable
    exact ⟨c, hrun.denotes_exec hw hg hl hstep
      (fun x hx => ⟨block, hb, (hentry.1 x hx).mono (Nat.zero_le _)⟩) hc⟩
  goto s s' p b l known hrun hstep hentry h := by
    obtain ⟨c, hc⟩ := h
    exact ⟨c, hstep.denotes_goto hw hg hentry.1 hc⟩

omit hg ht in
/-- A reference that is known not to be null is an object. -/
theorem ne_null_of_isKnownNonNull (hrun : Run g (memorySemantics g) Memory.Initial s)
    (hk : ∀ l known, (l, known) ∈ k → ∃ c, l.Denotes s.env s.mem c)
    (h : isKnownNonNull g k x = .ok true) : s.env x ≠ some .null := by
  rw [isKnownNonNull, Checked.bind_eq_ok] at h
  obtain ⟨kind, hkind, h⟩ := h
  obtain ⟨inst, hinst, rfl⟩ := kind_eq_ok.1 hkind
  have htidy := hrun.tidy hw hl
  have hany := Checked.pure_eq_ok.1 h
  simp only [Bool.or_eq_true, Bool.and_eq_true, decide_eq_true_eq, Bool.not_eq_true', List.any_eq_true,
    Prod.exists] at hany
  rcases hany with (halloc | ⟨hparam, hstatic⟩) | ⟨l, known, hmem, hobject⟩
  · intro hnull
    obtain ⟨o, ho⟩ := htidy.allocs x inst _ hinst halloc hnull
    cases ho
  · intro hnull
    exact htidy.receiver x inst _ hinst hparam hstatic hnull rfl
  · intro hnull
    obtain ⟨c, hc⟩ := hk l known hmem
    obtain ⟨o, ho, -⟩ := hc.object hobject
    rw [hnull] at ho
    cases ho

omit hw hg hl ht in
/-- Why the pass may take an instruction for one that does not throw. -/
theorem mayThrow_eq_false (hinst : g.inst i = .ok inst) (h : mayThrow g k i = .ok false) :
    inst.kind.canThrow = false ∨
    ((∀ m args, Throws m inst.kind args → args[0]? = some .null) ∧ ∃ y r, inst.inputs[0]? = some y ∧
      g.unchecked y = .ok r ∧ isKnownNonNull g k r = .ok true) ∨
    ((inst.kind = .arrayGet ∨ inst.kind = .arraySet) ∧
      ∃ l, g.location? i = .ok (some l) ∧ k.contains l = true) := by
  rw [mayThrow, kind_eq_ok.2 ⟨inst, hinst, rfl⟩] at h
  obtain ⟨kind, hkind, h⟩ := Checked.bind_eq_ok.1 h
  cases hkind
  have hobject : (do return !(← isKnownNonNull g k (← g.unchecked (← g.input i 0))) : Checked Bool) =
      .ok false → ∃ y r, inst.inputs[0]? = some y ∧ g.unchecked y = .ok r ∧
        isKnownNonNull g k r = .ok true := by
    intro h
    simp only [Checked.bind_eq_ok, Checked.pure_eq_ok, Bool.not_eq_false'] at h
    obtain ⟨y, hy, r, hr, nonNull, hnonNull, rfl⟩ := h
    obtain ⟨inst', hinst', hy⟩ := input_eq_ok.1 hy
    rw [hinst] at hinst'
    cases hinst'
    exact ⟨y, r, hy, hr, hnonNull⟩
  cases hthrow : inst.kind.canThrow with
  | false => exact .inl rfl
  | true =>
    rw [if_neg (by simp [hthrow])] at h
    right
    split at h
    case h_1 hkind | h_2 hkind | h_3 hkind | h_4 hkind =>
      exact .inl ⟨fun m args => by rw [hkind]; exact id, hobject h⟩
    case h_5 hkind | h_6 hkind =>
      obtain ⟨loc, hloc, h⟩ := Checked.bind_eq_ok.1 h
      cases loc with
      | none => cases h
      | some l =>
        rw [Checked.pure_eq_ok, Bool.not_eq_false'] at h
        exact .inr ⟨by simp [hkind], l, hloc, h⟩
    case h_7 => cases h

omit ht in
/-- An instruction that throws is one that may throw, as far as the pass knows. -/
theorem mayThrow_of_throws (hrun : Run g (memorySemantics g) Memory.Initial s)
    (hk : ∀ l known, (l, known) ∈ k → ∃ c, l.Denotes s.env s.mem c) (hnext : s.Next g i)
    (hinst : g.inst i = .ok inst) (hargs : inst.inputs.mapM s.env = some args)
    (hthrows : Throws s.mem inst.kind args) (h : mayThrow g k i = .ok throws) : throws = true := by
  rw [← Bool.not_eq_false]
  rintro rfl
  rcases mayThrow_eq_false hinst h with hsilent | ⟨hnull, y, r, hy, hr, hnonNull⟩ | ⟨hkind, l, hloc, hcontains⟩
  · exact absurd hthrows.canThrow (by simp [hsilent])
  · -- the null that the instruction goes through is the value known not to be null
    refine ne_null_of_isKnownNonNull hw hl hrun hk hnonNull ?_
    rw [← hrun.env_object hw hg hl hnext hinst hy hr]
    exact env_operand hargs (hnull _ _ hthrows) hy
  · -- the element that the instruction misses is one that was accessed
    obtain ⟨known, hknown⟩ := Option.isSome_iff_exists.1 hcontains
    obtain ⟨c, hc⟩ := hk l known (Knowledge.mem_of_get? hknown)
    have hfail : args[0]? = some .null ∨
        ∃ o j, args[0]? = some (.obj o) ∧ args[1]? = some j ∧ ¬ s.mem.InBounds o j := by
      rcases hkind with hkind | hkind <;> rwa [hkind] at hthrows
    cases location?_eq_some hinst hloc with
    | field hk | static hk => rcases hkind with hk' | hk' <;> simp [hk'] at hk
    | element _ hy hr hidx =>
      cases hc with
      | element ho hv hin =>
        have henv := hrun.env_object hw hg hl hnext hinst hy hr
        rcases hfail with hnull | ⟨o, j, hobj, hj, hout⟩
        · rw [env_operand hargs hnull hy, ho] at henv
          cases henv
        · rw [env_operand hargs hobj hy, ho] at henv
          cases henv
          rw [env_operand hargs hj hidx] at hv
          cases hv
          exact hout hin

omit hg hl ht in
/-- A private object is an operand of instructions that keep it contained only. -/
theorem fate_of_isPrivate {m : Nat} (h : ((escapesOf g).get x.index).isPrivate = true) (hi : i ∈ g.attached)
    (hinst : g.inst i = .ok inst) (hx : inst.inputs[m]? = some x) :
    Escape.fate inst.kind m = .contained := by
  have hmem := hw.fateOf_operand hi hinst hx
  rcases escapesOf_get g x with heq | heq
  · rw [heq, escapeOf] at h
    split at h
    · simp only [Bool.and_eq_true, Bool.not_eq_true', List.contains_eq_mem, decide_eq_false_iff_not] at h
      cases hfate : Escape.fate inst.kind m with
      | contained => rfl
      | leaves => exact absurd (hfate ▸ hmem) h.2
      | shared => exact absurd (hfate ▸ hmem) h.1
    · cases h
  · rw [heq] at h
    cases h

omit hg ht in
/-- An object that never leaves the method is not let out. -/
theorem not_letsOut_of_isPrivate {r : InstId} {o : Nat} (hrun : Run g (memorySemantics g) Memory.Initial s)
    (hprivate : ((escapesOf g).get r.index).isPrivate = true) (ho : s.env r = some (.obj o))
    (hi : i ∈ g.attached) (hinst : g.inst i = .ok inst) (hargs : inst.inputs.mapM s.env = some args) :
    s.mem.hidden o ∧ ¬ inst.kind.LetsOut args o := by
  have hsingle := single_of_isPrivate hprivate
  have htidy := hrun.tidy hw hl
  refine ⟨htidy.single_hidden r o hsingle ho, ?_⟩
  rintro ⟨m, hm, hget⟩
  obtain ⟨y, hy, henv⟩ := exists_operand hargs hget
  obtain rfl := htidy.single_env r o y hsingle ho henv
  exact Kind.fate_ne_contained hm (fate_of_isPrivate hw hprivate hi hinst hy)

end WellFormed

/-! ## Stores that stay pending -/

section Pending

variable (g t summary hasMonitors last)

/-- A store is pending at a location when the pass is at a point. -/
def PendingAt (S : InstId) (l : Location) (b : BlockId) (n : Nat) : Prop :=
  ∀ done st k, On g t summary hasMonitors last (.inside done b n st k) → ∃ v, k.get? l = some ⟨v, some S⟩

end Pending

section Dead

variable (hw : g.WellFormed) (hg : g.Consistent) (hl : g.Layout)
  (ht : Trace g t summary hasMonitors last) (hdead : ¬ last.Keeps S)
include hg ht

/-- A candidate is pending after it. -/
theorem pendingAt_of_candidate {block : Block} (hw : g.WellFormed) (hS : S ∈ last.candidates)
    (hb : g.block b = .ok block) (hi : block.insts[n]? = some S) :
    ∃ l, g.location? S = .ok (some l) ∧ PendingAt g t summary hasMonitors last S l b (n + 1) := by
  obtain ⟨hon, hb', hi', hinst, hstore, hloc, hpending⟩ := ht.on_last.accounted.candidates S hS
  obtain ⟨rfl, hplace⟩ := hw.at_unique hg (at_insts hb' hi') (at_insts hb hi)
  rw [hb] at hb'
  cases hb'
  obtain rfl := Nat.add_left_cancel hplace
  refine ⟨_, hloc, fun done st k hon' => ?_⟩
  obtain ⟨-, rfl⟩ := hon.unique hg ht.tree hon'
  exact ⟨_, hpending⟩

omit hg ht in
/-- A block that comes after another one in the order was visited after it. -/
theorem mem_left_of_not_mem {done' rest rest' : List BlockId} (h : t.preorder = done ++ p :: rest)
    (h' : t.preorder = done' ++ b :: rest') (hne : b ≠ p) (hb : b ∉ done) : p ∈ done' := by
  rcases List.append_eq_append_iff.1 (h.symm.trans h') with ⟨xs, rfl, hrest⟩ | ⟨xs, rfl, hrest⟩
  · cases xs with
    | nil => exact absurd (List.cons.inj hrest).1.symm hne
    | cons x xs => simp [(List.cons.inj hrest).1]
  · cases xs with
    | nil => exact absurd (List.cons.inj hrest).1 hne
    | cons x xs => simp [(List.cons.inj hrest).1] at hb

/-- A redundant store changes nothing that is known. -/
theorem eq_of_redundant {block : Block} {st' : State} {k' : Knowledge} (hw : g.WellFormed)
    (hi : i ∈ last.redundant) (hb : g.block b = .ok block) (hn : block.insts[n]? = some i)
    (hon : On g t summary hasMonitors last (.inside done b n st k))
    (hon' : On g t summary hasMonitors last (.inside done b (n + 1) st' k')) : k' = k := by
  obtain ⟨h, h', hb', hi', -⟩ := ht.on_last.accounted.redundant i hi
  obtain ⟨rfl, hplace⟩ := hw.at_unique hg (at_insts hb' hi') (at_insts hb hn)
  rw [hb] at hb'
  cases hb'
  obtain rfl := Nat.add_left_cancel hplace
  obtain ⟨-, rfl⟩ := h.unique hg ht.tree hon
  exact (h'.unique hg ht.tree hon').2

include hdead

omit hg ht in
/-- What is pending at the end of a block whose edge leads to a block visited before was kept. -/
theorem not_mem_of_pendingAt {block : Block} (hb : g.block p = .ok block) (hedge : b ∈ block.succs)
    (hon : On g t summary hasMonitors last (.inside done p n st k)) (hn : n = block.insts.length)
    (hpending : PendingAt g t summary hasMonitors last S l p n) : b ∉ done := by
  intro hmem
  obtain ⟨v, hv⟩ := hpending done st k hon
  obtain ⟨kb, hkb⟩ := hon.exits.1 b hmem
  refine hdead ((hon.leaves hb hn).keeps_last ?_)
  have hany : block.succs.any (fun t => (st.exit? t).isSome) = true :=
    List.any_eq_true.2 ⟨b, hedge, Option.isSome_iff_exists.2 ⟨kb, hkb⟩⟩
  simp only [Stage.state, leave, hany, if_true]
  exact State.keeps_keep.2 (.inl (Knowledge.mem_pendingWhere_of_get? hv rfl))

include hw hl

/-- A pending store stays pending over an instruction that does not store to its cell, unless that is
redundant. -/
theorem pendingAt_exec (hrun : Run g (memorySemantics g) Memory.Initial s)
    (hstep : Step g (memorySemantics g) s (.exec i args) s')
    (hpending : PendingAt g t summary hasMonitors last S l s.block s.pos) (hc : l.Denotes s.env s.mem c)
    (hother : ∀ inst, g.inst i = .ok inst → inst.kind.isStore = true → s.Touches g i args c →
      i ∈ last.redundant) : PendingAt g t summary hasMonitors last S l s.block (s.pos + 1) := by
  intro done st' k' hon'
  obtain ⟨block, hb, hi⟩ := hstep.next
  obtain ⟨st, k, inst, throws, hon, hinst, -, hvisited⟩ := hon'.visited hb hi
  obtain ⟨v, hv⟩ := hpending done st k hon
  by_cases hredundant : i ∈ last.redundant
  · exact ⟨v, eq_of_redundant hg ht hw hredundant hb hi hon hon' ▸ hv⟩
  have hself := (hrun.tidy hw hl).mayAlias (hon.single throws) hc hc
  rcases hvisited.pending hv hself with hkept | hpending' | ⟨hstore, hloc⟩
  · exact absurd (hon'.keeps_last hkept) hdead
  · exact ⟨v, hpending'⟩
  · obtain ⟨c', htouches, hc'⟩ := exists_denotes hw hg hl hrun hstep hloc
    rw [hc.unique hc'] at htouches
    exact absurd (hother inst hinst hstore htouches) hredundant

omit hw hl hdead in
/-- A store pending after an instruction other than itself was pending before. -/
theorem pendingAt_of_succ {block : Block} (hreach : g.Reachable b) (hb : g.block b = .ok block)
    (hn : n < block.insts.length) (hS : block.insts[n]? ≠ some S)
    (hpending : PendingAt g t summary hasMonitors last S l b (n + 1)) :
    PendingAt g t summary hasMonitors last S l b n := by
  intro done st k hon
  obtain ⟨done', st', k', hon'⟩ := ht.exists_on hg hreach hb hn
  obtain ⟨v, hv⟩ := hpending _ _ _ hon'
  have hi := List.getElem?_eq_getElem hn
  obtain ⟨st₁, k₁, inst, throws, hon₁, -, -, hvisited⟩ := hon'.visited hb hi
  obtain ⟨-, rfl⟩ := hon.unique hg ht.tree hon₁
  rcases hvisited.pending_inv hv with rfl | hv
  · exact absurd hi hS
  · exact ⟨v, hv⟩

omit hw hl hdead in
/-- A store pending at the end of a block it does not stand in was pending at the start. -/
theorem pendingAt_start {block : Block} (hreach : g.Reachable b) (hb : g.block b = .ok block)
    (hS : S ∉ block.insts) (hn : n ≤ block.insts.length)
    (hpending : PendingAt g t summary hasMonitors last S l b n) :
    PendingAt g t summary hasMonitors last S l b 0 := by
  induction n with
  | zero => exact hpending
  | succ n ih =>
    refine ih (by omega) (pendingAt_of_succ hg ht hreach hb (by omega) (fun hi => ?_) hpending)
    exact hS (List.mem_of_getElem? hi)

omit hw hl in
/-- A store pending at the end of a block is pending at the start of each block an edge leads to, that
block itself apart. -/
theorem pendingAt_succ {block : Block} (hreach : g.Reachable p) (hb : g.block p = .ok block)
    (hedge : b ∈ block.succs) (hne : b ≠ p)
    (hpending : PendingAt g t summary hasMonitors last S l p block.insts.length) :
    PendingAt g t summary hasMonitors last S l b 0 := by
  intro done st k hon
  obtain ⟨doneₚ, stₚ, kₚ, honₚ⟩ := ht.exists_on hg hreach hb Nat.le.refl
  obtain ⟨v, hv⟩ := hpending _ _ _ honₚ
  have hahead := not_mem_of_pendingAt hdead hb hedge honₚ rfl hpending
  obtain ⟨restₚ, horderₚ⟩ := honₚ.begun
  obtain ⟨rest, horder⟩ := hon.begun
  simp only [Stage.begun, List.append_assoc, List.singleton_append] at horderₚ horder
  have hfwd : ¬ g.Dom b p := fun hdom =>
    hahead (DomTree.mem_of_preorder_eq hg ht.tree horderₚ ⟨hdom, hne⟩)
  obtain ⟨s₀, hbetween, rfl, rfl⟩ := hon.enter_inv
  -- the predecessor was left before, with what is known at its end on record
  obtain ⟨k', hexit⟩ := hbetween.exits.1 p (mem_left_of_not_mem horderₚ horder hne hahead)
  obtain ⟨-, done', st', block', hb', hon'⟩ := hbetween.exits.2 p k' hexit
  rw [hb] at hb'
  cases hb'
  obtain ⟨-, rfl⟩ := honₚ.unique hg ht.tree hon'
  have hforward : p ∈ forwardPreds g t summary.loops b := by
    rw [ht.summarizes.loops]
    exact (mem_forwardPreds hg ht.tree).2 ⟨hreach, succs_eq hb ▸ hedge, hfwd⟩
  rcases pending_enter hforward hexit hv with hkept | hpending
  · exact absurd (hon.keeps_last hkept) hdead
  · exact ⟨v, hpending⟩

end Dead

/-! ## Until the next store to the cell -/

/-- A run has stored to a cell at an instruction, and nothing to that cell since, redundant stores apart.
The run has not gone from the block of the instruction straight back to it. -/
inductive Since (g : Graph) (redundant : List InstId) (S : InstId) (c : Cell) : RunState Memory → Prop
  | store {s s' : RunState Memory} {args : List Val} : Run g (memorySemantics g) Memory.Initial s →
    s.Touches g S args c → Step g (memorySemantics g) s (.exec S args) s' → Since g redundant S c s'
  | step {s s' : RunState Memory} {e : Event} : Since g redundant S c s →
    Step g (memorySemantics g) s e s' →
    (∀ i args inst, e = .exec i args → g.inst i = .ok inst → inst.kind.isStore = true →
      s.Touches g i args c → i ∈ redundant) →
    (∀ b block, e = .goto b b → g.block b = .ok block → S ∉ block.insts) → Since g redundant S c s'

/-- The next instruction of a run, with the values of its operands, observes a cell: it is a load of it
that stays, an operation that cannot be seen through and can reach it, or one that ends the run with the
cell visible from outside. -/
inductive Observes (g : Graph) (removed : List InstId) (s : RunState Memory) (c : Cell) (i : InstId)
    (inst : Inst) (args : List Val) : Prop
  | load : i ∉ removed → inst.kind.isLoad = true → Accesses g inst args c →
    Observes g removed s c i inst args
  | unseen : g.isOpen inst.kind = true → s.mem.Exposed args c → Observes g removed s c i inst args
  | leaves : inst.kind.isExit = true ∨ Throws s.mem inst.kind args →
    (∀ o, c.object? = some o → s.mem.hidden o → inst.kind.LetsOut args o) →
    Observes g removed s c i inst args

theorem Since.run {redundant : List InstId} (h : Since g redundant S c s) :
    Run g (memorySemantics g) Memory.Initial s := by
  induction h with
  | store hrun _ hstep => exact .step hrun hstep
  | step _ hstep _ _ ih => exact .step ih hstep

section Dead

variable (hw : g.WellFormed) (hg : g.Consistent) (hl : g.Layout)
  (ht : Trace g t summary hasMonitors last) (hdead : ¬ last.Keeps S)
include hg ht hdead hw hl

/-- A dead store is pending, at the location of its cell, until the cell is stored to. -/
theorem Since.pending (hS : S ∈ last.candidates) (h : Since g last.redundant S c s) :
    ∃ l, PendingAt g t summary hasMonitors last S l s.block s.pos ∧ l.Denotes s.env s.mem c := by
  induction h with
  | @store s s' args hrun htouches hstep =>
    have hstep' := hstep
    cases hstep with
    | exec hb hi hinst =>
      obtain ⟨l, hloc, hpending⟩ := pendingAt_of_candidate hg ht hw hS hb hi
      refine ⟨l, hpending, hrun.denotes_exec hw hg hl hstep' (fun x hx => ?_) ?_⟩
      · exact settles_location hw hg hl hrun ⟨_, hb, hi⟩ hinst hloc hx
      · exact hrun.denotes hw hg hl ⟨_, hb, hi⟩ hloc htouches
  | @step s s' e hsince hstep hother hback ih =>
    obtain ⟨l, hpending, hc⟩ := ih
    have hrun := hsince.run
    have hstep' := hstep
    cases hstep with
    | exec hb hi hinst =>
      obtain ⟨done, st, k, hon⟩ := ht.exists_on hg hrun.reachable hb
        (Nat.le_of_lt (List.getElem?_eq_some_iff.1 hi).1)
      obtain ⟨v, hv⟩ := hpending _ _ _ hon
      refine ⟨l, ?_, hrun.denotes_exec hw hg hl hstep'
        (settles_of_on hw hg hl ht hon hrun.reachable (Knowledge.mem_of_get? hv)).1 hc⟩
      exact pendingAt_exec hw hg hl ht hdead hrun hstep' hpending hc fun inst hinst =>
        hother _ _ inst rfl hinst
    | @goto block target b m hb hpos hedge htarget =>
      have hpending' : PendingAt g t summary hasMonitors last S l b 0 := by
        rw [hpos] at hpending
        by_cases hb' : b = s.block
        · subst hb'
          exact pendingAt_start hg ht hrun.reachable hb (hback _ _ rfl hb) Nat.le.refl hpending
        · exact pendingAt_succ hg ht hdead hrun.reachable hb hedge hb' hpending
      have hreach := hrun.reachable.succ (succs_eq hb ▸ hedge)
      obtain ⟨done, st, k, hon⟩ := ht.exists_on hg hreach htarget (Nat.zero_le _)
      obtain ⟨v, hv⟩ := hpending' _ _ _ hon
      refine ⟨l, hpending', hstep'.denotes_goto hw hg ?_ hc⟩
      exact ((hon.grounded hw hg hl ht).start _ _ _ _ _ _ rfl (Knowledge.mem_of_get? hv)).1

/-- Nothing that a run comes to observes the cell of a dead store. -/
theorem Since.not_observes (hS : S ∈ last.candidates) (h : Since g last.redundant S c s)
    (hnext : s.Next g i) (hinst : g.inst i = .ok inst) (hargs : inst.inputs.mapM s.env = some args) :
    ¬ Observes g last.removedLoads s c i inst args := by
  obtain ⟨l, hpending, hc⟩ := h.pending hw hg hl ht hdead hS
  have hrun := h.run
  have htidy := hrun.tidy hw hl
  obtain ⟨block, hb, hi⟩ := id hnext
  obtain ⟨done, st', k', hon'⟩ := ht.exists_on hg hrun.reachable hb (List.getElem?_eq_some_iff.1 hi).1
  obtain ⟨st, k, inst', throws, hon, hinst', hthrows, hvisited⟩ := hon'.visited hb hi
  obtain ⟨v, hv⟩ := hpending _ _ _ hon
  rw [hinst] at hinst'
  cases hinst'
  have hescapes : st.escapes = escapesOf g := hon.escapes
  have hkeeps : ¬ st'.Keeps S := fun hkept => hdead (hon'.keeps_last hkept)
  obtain ⟨loc, hloc⟩ := hvisited.location?
  -- what cannot be seen through and what ends the method is no plain access
  have hnone : g.isOpen inst.kind = true ∨ inst.kind.isExit = true → loc = none := by
    intro hkind
    cases loc with
    | none => rfl
    | some l' =>
      obtain ⟨hopen, hexit⟩ := (location?_eq_some hinst hloc).plain
      rcases hkind with hkind | hkind <;> simp_all
  intro hobserves
  cases hobserves with
  | load hstays hload hacc =>
    cases loc with
    | none => exact not_accesses_of_location? hinst hloc args c hacc
    | some l' =>
      have hc' := hrun.denotes hw hg hl hnext hloc ⟨inst, hinst, hargs, hacc, hc.has⟩
      have halias := htidy.mayAlias (hon.single throws) hc hc'
      rcases hvisited.keeps_of_load hv hload hloc halias with hremoved | hkept
      · exact hstays (hon'.removedLoads_last hremoved)
      · exact hkeeps hkept
  | unseen hopen hexposed =>
    cases hnone (.inl hopen)
    have hall := effectsOf_isOpen hinst hopen (ht.summarizes.insts s.block block i hrun.reachable hb
      (List.mem_append_right _ (List.mem_of_getElem? hi)))
    rcases hvisited.keeps_of_all hv hloc hall with hkept | hexempts
    · exact hkeeps hkept
    · rw [State.beforeThrow_eq] at hexempts
      exact not_exposed_of_exempts hw hl hrun hon hexempts hargs hc hexposed
  | leaves hends hvisible =>
    cases hprivate : st.isPrivate l with
    | true =>
      obtain ⟨r, hr, hprivate⟩ := State.isPrivate_eq_true.1 hprivate
      rw [hescapes] at hprivate
      obtain ⟨o, ho, hco⟩ := hc.object hr
      obtain ⟨hhidden, hout⟩ := not_letsOut_of_isPrivate hw hl hrun hprivate ho
        (mem_attached.2 ⟨_, _, hb, List.mem_append_right _ (List.mem_of_getElem? hi)⟩) hinst hargs
      exact hout (hvisible o hco hhidden)
    | false =>
      rcases hends with hexit | hthrow
      · cases hnone (.inr hexit)
        refine hkeeps (hvisited.keeps_of_isExit hv hloc hexit ?_)
        rwa [State.beforeThrow_eq]
      · have hk := (carried_denotes hw hg hl ht).run hg ht hw hl hrun
        cases mayThrow_of_throws hw hg hl hrun (hk.2.1 _ _ _ hon) hnext hinst hargs hthrow hthrows
        refine hkeeps (hvisited.keeps (State.keeps_keep.2 (.inl ?_)))
        exact Knowledge.mem_pendingWhere_of_get? hv (by simp [hprivate])

end Dead

/-! ## Runs of the passes -/

variable {settings : Settings} {verify : Bool} {u : CompUnit}

/-- From a store that is removed as dead until the next one to its cell, nothing observes the cell: no load
that stays, nothing that cannot be seen through, and no end of the run.  Rounds that lead from the block of
the store straight back to it are not covered. -/
theorem dead_stores_unobserved (hg : g.Consistent) (hv : g.violations = .ok []) (hl : g.Layout)
    (hrun : (Manager.runAll verify [SideEffects.pass, pass]).run (.new g settings) = (.ok (), u)) :
    ∃ last, outcome g = .ok last ∧ applyTo last g = .ok u.graph ∧
      ∀ S ∈ last.candidates, ¬ last.Keeps S → ∀ c s, Since g last.redundant S c s →
        ∀ i inst args, s.Next g i → g.inst i = .ok inst → inst.inputs.mapM s.env = some args →
          ¬ Observes g last.removedLoads s c i inst args := by
  have hw := hg.violations_eq_nil_iff.1 hv
  obtain ⟨last, houtcome, happly⟩ := exists_outcome hrun
  obtain ⟨t, summary, hasMonitors, ht⟩ := trace_of_outcome hg houtcome
  refine ⟨last, houtcome, happly, fun S hS hdead c s hsince i inst args hnext hinst hargs => ?_⟩
  exact hsince.not_observes hw hg hl ht hdead hS hnext hinst hargs

/-- A static field set before a loop that writes another one, and set again after it. -/
def overwritten : Graph := .ofEdits "overwritten" [
  .setStatic true, .createBlock, .createBlock,
  .internField ⟨"C", "f", .int, 0, true, false⟩, .internField ⟨"C", "s", .bool, 8, true, false⟩,
  .createInst (.param 0) .int [], .appendInst ⟨0⟩ ⟨0⟩,
  .createInst (.param 1) .bool [], .appendInst ⟨0⟩ ⟨1⟩,
  .createInst (.staticSet ⟨0⟩) .void [⟨0⟩], .appendInst ⟨0⟩ ⟨2⟩,
  .createInst .jump .void [], .appendInst ⟨0⟩ ⟨3⟩, .addEdge ⟨0⟩ ⟨1⟩,
  .createInst (.staticSet ⟨1⟩) .void [⟨1⟩], .appendInst ⟨1⟩ ⟨4⟩,
  .createInst .branch .void [⟨1⟩], .appendInst ⟨1⟩ ⟨5⟩, .addEdge ⟨1⟩ ⟨1⟩, .addEdge ⟨1⟩ ⟨2⟩,
  .createInst (.const 7) .int [], .appendInst ⟨2⟩ ⟨6⟩,
  .createInst (.staticSet ⟨0⟩) .void [⟨6⟩], .appendInst ⟨2⟩ ⟨7⟩,
  .createInst .retVoid .void [], .appendInst ⟨2⟩ ⟨8⟩]

/-- A run of `overwritten` comes from the dead store to the loop. -/
theorem exists_since_overwritten : ∃ s, Since overwritten [] ⟨2⟩ (.static ⟨0⟩) s ∧ s.Next overwritten ⟨4⟩ := by
  have hentry : overwritten.block ⟨0⟩ = .ok ⟨[], [⟨0⟩, ⟨1⟩, ⟨2⟩, ⟨3⟩], [], [⟨1⟩]⟩ := by
    decide +kernel
  have hloop : overwritten.block ⟨1⟩ =
      .ok ⟨[], [⟨4⟩, ⟨5⟩], [⟨0⟩, ⟨1⟩], [⟨1⟩, ⟨2⟩]⟩ := by decide +kernel
  have hvalue : overwritten.inst ⟨0⟩ = .ok ⟨.param 0, .int, [], some ⟨0⟩, false⟩ := by decide +kernel
  have hflag : overwritten.inst ⟨1⟩ = .ok ⟨.param 1, .bool, [], some ⟨0⟩, false⟩ := by decide +kernel
  have hdead : overwritten.inst ⟨2⟩ = .ok ⟨.staticSet ⟨0⟩, .void, [⟨0⟩], some ⟨0⟩, false⟩ := by
    decide +kernel
  have hend : overwritten.inst ⟨3⟩ = .ok ⟨.jump, .void, [], some ⟨0⟩, false⟩ := by decide +kernel
  have hset : Accesses overwritten ⟨.staticSet ⟨0⟩, .void, [⟨0⟩], some ⟨0⟩, false⟩ [.num 3] (.static ⟨0⟩) :=
    .staticSet rfl (by decide +kernel)
  have hstart : overwritten.entry = ⟨0⟩ := by decide +kernel
  have h₀ : Run overwritten (memorySemantics overwritten) Memory.Initial ⟨⟨0⟩, 0, fun _ => none, .zero⟩ :=
    hstart ▸ .start Memory.initial_zero
  have h₁ := h₀.step (.exec hentry rfl hvalue rfl
    (.computes (.param (Memory.outside_num _ 3) (by decide +kernel))))
  have h₂ := h₁.step (.exec hentry rfl hflag rfl (.computes (.param (Memory.outside_num _ 1) (by decide))))
  have hstore : Since overwritten [] ⟨2⟩ (.static ⟨0⟩) _ := .store h₂ ⟨_, hdead, rfl, hset, trivial⟩
    (.exec hentry rfl hdead rfl (.store (n := 0) rfl hset trivial rfl))
  have hjump := hstore.step (.exec hentry rfl hend rfl (.computes (.jump (n := 0)))) (by
    rintro i args inst ⟨⟩ hinst hkind
    obtain rfl := Except.ok.inj (hend.symm.trans hinst)
    cases hkind) (by rintro b block ⟨⟩)
  have hgoto := hjump.step (.goto (t := ⟨1⟩) (n := 0) hentry rfl (by decide) hloop rfl (by rintro _ ⟨⟩))
    (by rintro i args inst ⟨⟩) (by rintro b block ⟨⟩)
  exact ⟨_, hgoto, _, hloop, rfl⟩

/-- In `overwritten` the first store goes, and no run observes it before the second. -/
theorem dead_stores_unobserved_overwritten :
    overwritten.Consistent ∧ overwritten.violations = .ok [] ∧ overwritten.Layout ∧
      (outcome overwritten).toOption.map (fun last =>
        (last.redundant, removableStores last, last.removedLoads)) = some ([], [⟨2⟩], []) ∧
      (∃ s, Since overwritten [] ⟨2⟩ (.static ⟨0⟩) s ∧ s.Next overwritten ⟨4⟩) ∧
      ∃ u, (Manager.runAll true [SideEffects.pass, pass]).run (.new overwritten .default) = (.ok (), u) ∧
        ∃ last, outcome overwritten = .ok last ∧ applyTo last overwritten = .ok u.graph ∧
          ∀ S ∈ last.candidates, ¬ last.Keeps S → ∀ c s, Since overwritten last.redundant S c s →
            ∀ i inst args, s.Next overwritten i → overwritten.inst i = .ok inst →
              inst.inputs.mapM s.env = some args →
              ¬ Observes overwritten last.removedLoads s c i inst args := by
  have hok : ((Manager.runAll true [SideEffects.pass, pass]).run (.new overwritten .default)).1 = .ok () := by
    decide +kernel
  exact ⟨by decide +kernel, by decide +kernel, by decide +kernel, by decide +kernel, exists_since_overwritten,
    _, Prod.ext hok rfl, dead_stores_unobserved (by decide +kernel) (by decide +kernel) (by decide +kernel)
      (Prod.ext hok rfl)⟩

/-- A block that leads back to itself reads a static field and sets it; the field is set again after it. -/
def selfLoop : Graph := .ofEdits "selfLoop" [
  .setStatic true, .createBlock, .createBlock, .internField ⟨"C", "f", .int, 0, true, false⟩,
  .createInst (.param 0) .int [], .appendInst ⟨0⟩ ⟨0⟩,
  .createInst (.param 1) .bool [], .appendInst ⟨0⟩ ⟨1⟩,
  .createInst .jump .void [], .appendInst ⟨0⟩ ⟨2⟩, .addEdge ⟨0⟩ ⟨1⟩,
  .createInst (.staticGet ⟨0⟩) .int [], .appendInst ⟨1⟩ ⟨3⟩,
  .createInst (.staticSet ⟨0⟩) .void [⟨0⟩], .appendInst ⟨1⟩ ⟨4⟩,
  .createInst .branch .void [⟨1⟩], .appendInst ⟨1⟩ ⟨5⟩, .addEdge ⟨1⟩ ⟨1⟩, .addEdge ⟨1⟩ ⟨2⟩,
  .createInst (.const 7) .int [], .appendInst ⟨2⟩ ⟨6⟩,
  .createInst (.staticSet ⟨0⟩) .void [⟨6⟩], .appendInst ⟨2⟩ ⟨7⟩,
  .createInst .ret .void [⟨3⟩], .appendInst ⟨2⟩ ⟨8⟩]

/-- The set in `selfLoop` is removed as dead, but the next round reads the field before it is set again. -/
theorem selfLoop_observes_dead_store :
    selfLoop.Consistent ∧ selfLoop.violations = .ok [] ∧ selfLoop.Layout ∧
      (outcome selfLoop).toOption.map (fun last =>
        (last.redundant, removableStores last, last.removedLoads)) = some ([], [⟨4⟩], []) ∧
      ∃ s s₁ s₂ s₃, Run selfLoop (memorySemantics selfLoop) Memory.Initial s ∧
        s.Touches selfLoop ⟨4⟩ [.num 3] (.static ⟨0⟩) ∧
        Step selfLoop (memorySemantics selfLoop) s (.exec ⟨4⟩ [.num 3]) s₁ ∧
        Step selfLoop (memorySemantics selfLoop) s₁ (.exec ⟨5⟩ [.num 1]) s₂ ∧
        Step selfLoop (memorySemantics selfLoop) s₂ (.goto ⟨1⟩ ⟨1⟩) s₃ ∧ s₃.Next selfLoop ⟨3⟩ ∧
        Observes selfLoop [] s₃ (.static ⟨0⟩) ⟨3⟩ ⟨.staticGet ⟨0⟩, .int, [], some ⟨1⟩, false⟩ [] := by
  refine ⟨by decide +kernel, by decide +kernel, by decide +kernel, by decide +kernel, ?_⟩
  have hentry : selfLoop.block ⟨0⟩ = .ok ⟨[], [⟨0⟩, ⟨1⟩, ⟨2⟩], [], [⟨1⟩]⟩ := by decide +kernel
  have hloop : selfLoop.block ⟨1⟩ =
      .ok ⟨[], [⟨3⟩, ⟨4⟩, ⟨5⟩], [⟨0⟩, ⟨1⟩], [⟨1⟩, ⟨2⟩]⟩ := by decide +kernel
  have hvalue : selfLoop.inst ⟨0⟩ = .ok ⟨.param 0, .int, [], some ⟨0⟩, false⟩ := by decide +kernel
  have hflag : selfLoop.inst ⟨1⟩ = .ok ⟨.param 1, .bool, [], some ⟨0⟩, false⟩ := by decide +kernel
  have hjump : selfLoop.inst ⟨2⟩ = .ok ⟨.jump, .void, [], some ⟨0⟩, false⟩ := by decide +kernel
  have hread : selfLoop.inst ⟨3⟩ = .ok ⟨.staticGet ⟨0⟩, .int, [], some ⟨1⟩, false⟩ := by decide +kernel
  have hdead : selfLoop.inst ⟨4⟩ = .ok ⟨.staticSet ⟨0⟩, .void, [⟨0⟩], some ⟨1⟩, false⟩ := by decide +kernel
  have hbranch : selfLoop.inst ⟨5⟩ = .ok ⟨.branch, .void, [⟨1⟩], some ⟨1⟩, false⟩ := by decide +kernel
  have hget : Accesses selfLoop ⟨.staticGet ⟨0⟩, .int, [], some ⟨1⟩, false⟩ [] (.static ⟨0⟩) :=
    .staticGet rfl (by decide +kernel)
  have hset : Accesses selfLoop ⟨.staticSet ⟨0⟩, .void, [⟨0⟩], some ⟨1⟩, false⟩ [.num 3] (.static ⟨0⟩) :=
    .staticSet rfl (by decide +kernel)
  have hstart : selfLoop.entry = ⟨0⟩ := by decide +kernel
  have h₀ : Run selfLoop (memorySemantics selfLoop) Memory.Initial ⟨⟨0⟩, 0, fun _ => none, .zero⟩ :=
    hstart ▸ .start Memory.initial_zero
  have h₁ := h₀.step (.exec hentry rfl hvalue rfl
    (.computes (.param (Memory.outside_num _ 3) (by decide +kernel))))
  have h₂ := h₁.step (.exec hentry rfl hflag rfl (.computes (.param (Memory.outside_num _ 1) (by decide))))
  have h₃ := h₂.step (.exec hentry rfl hjump rfl (.computes (.jump (n := 0))))
  have h₄ := h₃.step (.goto (t := ⟨1⟩) (n := 0) hentry rfl (by decide) hloop rfl (by rintro _ ⟨⟩))
  have h₅ := h₄.step (.exec hloop rfl hread rfl (.load rfl hget trivial))
  exact ⟨_, _, _, _, h₅, ⟨_, hdead, rfl, hset, trivial⟩,
    .exec hloop rfl hdead rfl (.store (n := 0) rfl hset trivial rfl),
    .exec hloop rfl hbranch rfl (.computes (.branch (n := 0))),
    .goto (t := ⟨1⟩) (n := 1) hloop rfl (by decide) hloop rfl (by rintro _ ⟨⟩), ⟨_, hloop, rfl⟩,
    .load (by decide) rfl hget⟩

end LoadStore

end Midend
