import Midend.Proofs.Trace

/-!
# Knowledge about settled values

The instructions that an entry of the knowledge mentions, in its location, as its value and as its
pending store, are settled wherever the entry is known.  So they keep their values while the entry is
carried along, and an entry that a loop header knows is about values from before the loop.

## Shape of the argument

What an instruction teaches mentions the instruction itself and its operands.  Where paths join, an entry
is known on every forward edge into the block, and what is settled on all of these is settled above the
block's phis.
-/

namespace Midend

namespace LoadStore

open Midend.Graph

variable {g : Graph} {t : DomTree} {summary : EffectSummary} {hasMonitors : Bool} {last s s' : State}
  {k k' : Knowledge} {b p : BlockId} {block : Block} {done : List BlockId} {c c' : Stage} {n : Nat}
  {l : Location} {known : Known} {i x v : InstId} {inst : Inst}

/-- The predecessors whose knowledge flows into a block. -/
theorem mem_forwardPreds (hg : g.Consistent) (ht : DomTree.ofGraph g = .ok t) :
    p ∈ forwardPreds g t (LoopForest.ofGraph g t) b ↔
      g.Reachable p ∧ b ∈ g.succs p ∧ ¬ g.Dom b p := by
  rw [forwardPreds, List.mem_filter, hg.mem_preds_iff, Bool.and_eq_true, Bool.not_eq_true',
    Bool.eq_false_iff, ne_eq, LoopForest.isBackEdge_iff hg ht, DomTree.isReachable_iff hg ht, BackEdge]
  tauto

/-- Everything an entry mentions is settled at a point. -/
def SettledEntry (g : Graph) (b : BlockId) (n : Nat) (l : Location) (known : Known) : Prop :=
  (∀ x ∈ l.ids, g.Settled b n x) ∧ g.Settled b n known.value ∧
    ∀ S, known.pending = some S → g.Settled b n S

/-- An entry that is settled at a place is settled at later places of the block. -/
theorem SettledEntry.mono {m : Nat} (h : SettledEntry g b m l known) (hmn : m ≤ n) :
    SettledEntry g b n l known :=
  ⟨fun x hx => (h.1 x hx).mono hmn, h.2.1.mono hmn, fun S hS => (h.2.2 S hS).mono hmn⟩

/-- All that is known at a stage is about settled values. -/
structure Grounded (g : Graph) (c : Stage) : Prop where
  inside : ∀ done b n s k block l known, c = .inside done b n s k → g.block b = .ok block →
    (l, known) ∈ k → SettledEntry g b (block.phis.length + n) l known
  start : ∀ done b s k l known, c = .inside done b 0 s k → (l, known) ∈ k → SettledEntry g b 0 l known
  exits : ∀ p k block l known, c.state.exit? p = some k → g.block p = .ok block → (l, known) ∈ k →
    SettledEntry g p block.body.length l known
  substitutions : ∀ x v d m, c.state.substitutions.get x.index = some v → g.At x d m → g.Settled d m v

section WellFormed

variable (hw : g.WellFormed) (hg : g.Consistent) (hl : g.Furnished)

include hw hg

/-- What a settled value is resolved to is settled. -/
theorem settled_resolve (hsub : ∀ x v d m, s.substitutions.get x.index = some v → g.At x d m →
    g.Settled d m v) (hv : g.Settled b n v) : g.Settled b n (s.resolve v) := by
  refine State.resolveWithin_induction (P := fun v => g.Settled b n v) hv ?_ _
  intro x y hx hy
  obtain ⟨d, m, hat, -⟩ := id hx
  exact hw.settled_trans hg hat (hsub x y d m hy hat) hx

/-- What is known where a block starts is about values settled above it. -/
theorem settledEntry_enter (ht : DomTree.ofGraph g = .ok t) (hloops : summary.loops = LoopForest.ofGraph g t)
    (hreach : g.Reachable b)
    (hexits : ∀ p k block l known, s.exit? p = some k → g.block p = .ok block → (l, known) ∈ k →
      SettledEntry g p block.body.length l known)
    (hmem : (l, known) ∈ (enter g t summary s b).2) : SettledEntry g b 0 l known := by
  obtain ⟨hne, hall, -⟩ := mem_enter hmem
  have hentry : b ≠ g.entry := by
    rintro rfl
    obtain ⟨block, hblock, hpreds⟩ := hw.entry
    refine hne ?_
    rw [forwardPreds, preds_eq hblock, hpreds]
    rfl
  -- whatever the entry mentions is settled at the end of every forward predecessor
  have hpred : ∀ p block, g.Reachable p → b ∈ g.succs p → ¬ g.Dom b p → g.block p = .ok block →
      SettledEntry g p block.body.length l known := by
    intro p block hp hedge hfwd hblock
    have hmem : p ∈ forwardPreds g t summary.loops b :=
      hloops ▸ (mem_forwardPreds hg ht).2 ⟨hp, hedge, hfwd⟩
    obtain ⟨k, x, hexit, hx, hvalue, hpending⟩ := hall p hmem
    obtain ⟨hids, hval, hpend⟩ := hexits p k block l x hexit hblock hx
    exact ⟨hids, hvalue ▸ hval, fun S hS => hpend S (hpending S hS)⟩
  refine ⟨fun x hx => ?_, ?_, fun S hS => ?_⟩
  · exact hw.settled_of_forward_preds hg hreach hentry fun p block hp hedge hfwd hblock =>
      (hpred p block hp hedge hfwd hblock).1 x hx
  · exact hw.settled_of_forward_preds hg hreach hentry fun p block hp hedge hfwd hblock =>
      (hpred p block hp hedge hfwd hblock).2.1
  · exact hw.settled_of_forward_preds hg hreach hentry fun p block hp hedge hfwd hblock =>
      (hpred p block hp hedge hfwd hblock).2.2 S hS

/-- The substitutions after visiting an instruction lead to values settled where they are made. -/
theorem Visited.settled_substitution {throws : Bool} {st : State × Knowledge}
    (h : Visited g summary s k i inst throws st) (hb : g.block b = .ok block)
    (hi : block.insts[n]? = some i)
    (hk : ∀ l known, (l, known) ∈ k → SettledEntry g b (block.phis.length + n) l known)
    (hsub : ∀ x v d m, s.substitutions.get x.index = some v → g.At x d m → g.Settled d m v)
    {d : BlockId} {m : Nat} (hv : st.1.substitutions.get x.index = some v) (hx : g.At x d m) :
    g.Settled d m v := by
  cases h with
  | @forward l known _ _ hknown =>
    replace hv : (s.substitutions.set i.index (some (s.resolve known.value))).get x.index = some v := hv
    rw [Table.get_set] at hv
    by_cases hxi : x.index = i.index
    · rw [if_pos hxi] at hv
      cases hv
      obtain rfl := InstId.index_inj.1 hxi
      obtain ⟨rfl, rfl⟩ := hw.at_unique hg (at_insts hb hi) hx
      exact settled_resolve hw hg hsub (hk l known (Knowledge.mem_of_get? hknown)).2.1
    · rw [if_neg hxi] at hv
      exact hsub x v d m hv hx
  | load | redundant | store | other => exact hsub x v d m hv hx

include hl

/-- The location of an instruction mentions settled values only. -/
theorem settled_of_locates (h : g.Locates inst l) (hreach : g.Reachable b) (hb : g.block b = .ok block)
    (hi : block.insts[n]? = some i) (hinst : g.inst i = .ok inst) (hx : x ∈ l.ids) :
    g.Settled b (block.phis.length + n) x := by
  have hoperand : ∀ {k : Nat} {y : InstId}, inst.inputs[k]? = some y →
      g.Settled b (block.phis.length + n) y := fun hy => hw.settled_operand hg hreach hb hi hinst hy
  cases h with
  | field _ _ hy hr =>
    simp only [Location.ids, Option.toList_some, List.append_nil, List.mem_singleton] at hx
    exact hx ▸ hw.settled_unchecked hg hl hreach (hoperand hy) hr
  | static => simp [Location.ids] at hx
  | element _ hy hr hidx =>
    simp only [Location.ids, Option.toList_some, List.cons_append, List.nil_append, List.mem_cons,
      List.not_mem_nil, or_false] at hx
    rcases hx with rfl | rfl
    · exact hw.settled_unchecked hg hl hreach (hoperand hy) hr
    · exact hoperand hidx

/-- What is known after visiting an instruction. -/
theorem Visited.settledEntry {throws : Bool} {st : State × Knowledge}
    (h : Visited g summary s k i inst throws st) (hreach : g.Reachable b) (hb : g.block b = .ok block)
    (hi : block.insts[n]? = some i) (hinst : g.inst i = .ok inst)
    (hk : ∀ l known, (l, known) ∈ k → SettledEntry g b (block.phis.length + n) l known)
    (hsub : ∀ x v d m, s.substitutions.get x.index = some v → g.At x d m → g.Settled d m v)
    (hmem : (l, known) ∈ st.2) : SettledEntry g b (block.phis.length + (n + 1)) l known := by
  have hle : block.phis.length + n ≤ block.phis.length + (n + 1) := by omega
  have hself : g.Settled b (block.phis.length + (n + 1)) i :=
    ⟨b, _, at_insts hb hi, .inl ⟨rfl, by omega⟩⟩
  have hids : ∀ {l : Location}, g.location? i = .ok (some l) → ∀ x ∈ l.ids,
      g.Settled b (block.phis.length + n) x := fun hloc x hx =>
    settled_of_locates hw hg hl (location?_eq_some hinst hloc) hreach hb hi hinst hx
  cases h with
  | forward => exact (hk l known hmem).mono hle
  | load _ hloc =>
    rcases Knowledge.mem_insert hmem with heq | ⟨hmem, -⟩
    · cases heq
      exact ⟨fun x hx => (hids hloc x hx).mono hle, hself, by simp⟩
    · exact (hk l known hmem).mono hle
  | redundant => exact (hk l known hmem).mono hle
  | store _ hloc hoperand =>
    rcases Knowledge.mem_insert hmem with heq | ⟨hmem, -⟩
    · cases heq
      refine ⟨fun x hx => (hids hloc x hx).mono hle, (settled_resolve hw hg hsub ?_).mono hle, ?_⟩
      · obtain ⟨m, hm⟩ := List.mem_iff_getElem?.1 (List.mem_of_getLast? hoperand)
        exact hw.settled_operand hg hreach hb hi hinst hm
      · rintro S hS
        cases hS
        exact hself
    · exact (hk l known (Knowledge.mem_forget.1 hmem).1).mono hle
  | other => exact (hk l known (Knowledge.mem_forget.1 hmem).1).mono hle

omit hw hg hl in
/-- At first nothing is known. -/
theorem Grounded.first : Grounded g (.between [] (first g hasMonitors)) where
  inside := by
    rintro _ _ _ _ _ _ _ _ ⟨⟩
  start := by
    rintro _ _ _ _ _ _ ⟨⟩
  exits p k block l known hexit := by
    simp [Stage.state, LoadStore.first, State.empty, State.exit?] at hexit
  substitutions x v d m hv := by
    simp [Stage.state, LoadStore.first, State.empty] at hv

omit hl in
/-- What is known where a block is entered is grounded. -/
theorem Grounded.enter (ht : DomTree.ofGraph g = .ok t) (hloops : summary.loops = LoopForest.ofGraph g t)
    (h : Grounded g (.between done s)) (hreach : g.Reachable b) :
    Grounded g (.inside done b 0 (enter g t summary s b).1 (enter g t summary s b).2) := by
  obtain ⟨xs, hxs⟩ := enter_state g t summary s b
  have hentry : ∀ l known, (l, known) ∈ (LoadStore.enter g t summary s b).2 → SettledEntry g b 0 l known :=
    fun l known => settledEntry_enter hw hg ht hloops hreach h.exits
  refine { inside := ?inside, start := ?start, exits := ?exits, substitutions := ?substitutions }
  case inside =>
    rintro _ _ _ _ _ block l known ⟨⟩ - hmem
    exact (hentry l known hmem).mono (Nat.zero_le _)
  case start =>
    rintro _ _ _ _ l known ⟨⟩ hmem
    exact hentry l known hmem
  case exits =>
    simp only [Stage.state] at h ⊢
    rw [hxs]
    exact h.exits
  case substitutions =>
    simp only [Stage.state] at h ⊢
    rw [hxs]
    exact h.substitutions

omit hl in
/-- What memory is known to hold is there, and so is what it resolves to. -/
theorem Grounded.exists_resolved (h : Grounded g (.inside done b n s k)) (hreach : g.Reachable b)
    (hb : g.block b = .ok block) (hmem : (l, known) ∈ k) :
    ∃ inst, g.inst (s.resolve known.value) = .ok inst := by
  have hset := settled_resolve hw hg h.substitutions (h.inside done b n s k block l known rfl hb hmem).2.1
  obtain ⟨d, m, hat, -⟩ := hset.exists_at hreach
  exact hw.exists_inst hat.mem_attached

/-- Visiting an instruction leaves what is known grounded. -/
theorem Grounded.visit {throws : Bool} (h : Grounded g (.inside done b n s k)) (hreach : g.Reachable b)
    (hb : g.block b = .ok block) (hi : block.insts[n]? = some i) (hinst : g.inst i = .ok inst)
    (hvisited : Visited g summary (s.beforeThrow k throws) k i inst throws (s', k')) :
    Grounded g (.inside done b (n + 1) s' k') := by
  have hk := fun l known => h.inside done b n s k block l known rfl hb
  have hsub : ∀ x v d m, (s.beforeThrow k throws).substitutions.get x.index = some v →
      g.At x d m → g.Settled d m v := by
    rw [State.beforeThrow_eq]
    exact h.substitutions
  refine { inside := ?inside, start := ?start, exits := ?exits, substitutions := ?substitutions }
  case inside =>
    rintro _ _ _ _ _ block' l known ⟨⟩ hb' hmem
    rw [hb] at hb'
    cases hb'
    exact hvisited.settledEntry hw hg hl hreach hb hi hinst hk hsub hmem
  case start =>
    rintro _ _ _ _ _ _ ⟨⟩
  case exits =>
    have hexits : s'.exits = s.exits := hvisited.frame.1.trans (State.beforeThrow_frame _ _ _).1
    simp only [Stage.state, State.exit?] at h ⊢
    rw [hexits]
    exact h.exits
  case substitutions =>
    intro x v d m hv hx
    exact hvisited.settled_substitution hw hg hb hi hk hsub hv hx

omit hw hg hl in
/-- Leaving a block keeps what is known there grounded. -/
theorem Grounded.leave (h : Grounded g (.inside done b block.insts.length s k))
    (hb : g.block b = .ok block) : Grounded g (.between (done ++ [b]) (leave block b s k)) := by
  refine { inside := ?inside, start := ?start, exits := ?exits, substitutions := ?substitutions }
  case inside =>
    rintro _ _ _ _ _ _ _ _ ⟨⟩
  case start =>
    rintro _ _ _ _ _ _ ⟨⟩
  case exits =>
    intro p k' block' l known hexit hb' hmem
    simp only [Stage.state, leave_exit?] at hexit
    split at hexit
    · next hpb =>
      subst hpb
      cases hexit
      rw [hb] at hb'
      cases hb'
      rw [Block.body, List.length_append]
      exact h.inside done p _ s k block l known rfl hb hmem
    · exact h.exits p k' block' l known hexit hb' hmem
  case substitutions =>
    have hsub : (LoadStore.leave block b s k).substitutions = s.substitutions := by
      rw [LoadStore.leave]
      split <;> rfl
    simp only [Stage.state] at h ⊢
    rw [hsub]
    exact h.substitutions

/-- What is known is grounded throughout. -/
theorem On.grounded (ht : Trace g t summary hasMonitors last) (hc : On g t summary hasMonitors last c) :
    Grounded g c := by
  refine hc.induction (I := Grounded g) .first ?_
  rintro c c' hc hc' hadv ih
  cases hadv with
  | enter => exact ih.enter hw hg ht.tree ht.summarizes.loops (hc'.reachable hg ht.tree)
  | visit hb hi hvisit =>
    obtain ⟨inst, throws, hinst, -, hvisited⟩ := visit_eq_ok hvisit
    exact ih.visit hw hg hl (hc.reachable hg ht.tree) hb hi hinst hvisited
  | leave hb => exact ih.leave hb

end WellFormed

end LoadStore

end Midend
