import Midend.Proofs.FaultFree
import Midend.Proofs.NaturalLoops

/-!
# Effect summaries are exact

The side-effects pass gives every instruction of a reachable block its own effect, every reachable block the
union over its instructions, and every loop header the union over the instructions of all blocks of its loop,
those of inner loops included.  What is not reachable, and what heads no loop, has no effect.

## Shape of the argument

A summary is a table of bits, and a bit of a union is set when it is set in one of the parts.  So a bit at a
header is set when it is set at some block whose way outward meets the loop of the header, and these are the
blocks of the loop (`LoopForest.enclosing_spec`).  Order and repetition do not matter to bits: the summary adds
up the blocks in the order they are laid out, the loop lists them in reverse post-order.
-/

namespace Midend

namespace Effects

variable {e e' : Effects} {es : List Effects} {written : Bool} {n : Nat}

/-- A bit of an effect, in the half of what is written or in the half of what is read. -/
def bit (e : Effects) (written : Bool) (n : Nat) : Bool :=
  (if written then e.writes else e.reads).getLsbD n

theorem getLsbD_halfMask (n : Nat) : halfMask.getLsbD n = decide (n < 28) := by
  by_cases hn : n < 64
  · have hall : ∀ n < 64, halfMask.getLsbD n = decide (n < 28) := by decide
    exact hall n hn
  · rw [BitVec.getLsbD_of_ge _ _ (by omega), eq_comm, decide_eq_false_iff_not]
    omega

/-- Where the bits of an effect stand in its word. -/
theorem bit_eq : e.bit written n =
    (decide (n < 28) && e.word.getLsbD (if written then n else readShift + n)) := by
  cases written <;>
    simp [bit, writes, reads, getLsbD_halfMask, BitVec.getLsbD_setWidth, Bool.and_comm]

/-- A bit of the word stands for a category, in one of the halves. -/
theorem exists_of_getLsbD_word (h : e.word.getLsbD n = true) :
    n < 28 ∨ ∃ k < 28, n = readShift + k := by
  rw [← e.masked, mask, BitVec.getLsbD_and, BitVec.getLsbD_or, BitVec.getLsbD_shiftLeft, getLsbD_halfMask,
    getLsbD_halfMask] at h
  simp only [Bool.and_eq_true, Bool.or_eq_true, decide_eq_true_eq, Bool.not_eq_true',
    decide_eq_false_iff_not] at h
  rcases h.2 with hlow | ⟨⟨-, hge⟩, hlt⟩
  · exact .inl hlow
  · exact .inr ⟨n - readShift, hlt, by omega⟩

/-- What is in the word of an effect is in the word of another when this holds of its bits. -/
theorem getLsbD_word_imp (h : ∀ written n, e.bit written n = true → e'.bit written n = true)
    (hn : e.word.getLsbD n = true) : e'.word.getLsbD n = true := by
  simp only [bit_eq, Bool.and_eq_true, decide_eq_true_eq] at h
  rcases exists_of_getLsbD_word hn with hlt | ⟨k, hlt, rfl⟩
  · exact (h true n ⟨hlt, hn⟩).2
  · exact (h false k ⟨hlt, hn⟩).2

/-- Effects are the same if they have the same accesses. -/
theorem ext_bit (h : ∀ written n, e.bit written n = e'.bit written n) : e = e' := by
  have hword : e.word = e'.word := BitVec.eq_of_getLsbD_eq fun n _ => Bool.eq_iff_iff.2
    ⟨getLsbD_word_imp fun written n hn => h written n ▸ hn,
      getLsbD_word_imp fun written n hn => (h written n).symm ▸ hn⟩
  cases e
  cases e'
  cases hword
  rfl

@[simp] theorem bit_none : none.bit written n = false := by
  rw [bit_eq, none, BitVec.getLsbD_zero, Bool.and_false]

@[simp] theorem bit_union : (e.union e').bit written n = (e.bit written n || e'.bit written n) := by
  rw [bit_eq, bit_eq, bit_eq, union, BitVec.getLsbD_or, Bool.and_or_distrib_left]

/-- The effect of an access to one part of memory: it writes it, or it reads it. -/
def ofAccess (written : Bool) (c : Category) : Effects := if written then write c else read c

/-- The union of effects. -/
def unionAll (es : List Effects) : Effects := es.foldl union none

/-- An access of one of several effects is an access of their union. -/
theorem bit_foldl_union : (es.foldl union e).bit written n = (e.bit written n || es.any (·.bit written n)) := by
  induction es generalizing e with
  | nil => simp
  | cons x es ih => rw [List.foldl_cons, ih, bit_union, List.any_cons, Bool.or_assoc]

theorem bit_unionAll : (unionAll es).bit written n = es.any (·.bit written n) := by
  rw [unionAll, bit_foldl_union, bit_none, Bool.false_or]

end Effects

namespace Graph

variable {g : Graph} {is : List InstId}

/-- The union of the effects of instructions. -/
def effectsIn (g : Graph) (is : List InstId) : Checked Effects := do
  return .unionAll (← is.mapM g.effectsOf)

/-- The effects of some instructions are the union of the effects of each. -/
theorem effectsIn_eq_ok {f : InstId → Effects} (h : ∀ i ∈ is, g.effectsOf i = .ok (f i)) :
    g.effectsIn is = .ok (.unionAll (is.map f)) := by
  rw [effectsIn, Checked.mapM_eq_ok_map h]
  rfl

end Graph

namespace EffectSummary

open Midend.Graph

variable {g : Graph} {t : DomTree} {s s' : EffectSummary} {b h : BlockId} {i : InstId} {written : Bool}
  {n : Nat}

/-! ## Blocks -/

/-- What is added up for a block is the union of the effects of its instructions. -/
theorem sum_addInst_fold {body : List InstId} {e e' : Effects}
    (hfold : body.foldlM (addInst g) (s, e) = .ok (s', e')) :
    (∃ es, body.mapM g.effectsOf = .ok es ∧ e' = es.foldl Effects.union e) ∧ s'.headers = s.headers := by
  induction body generalizing s e with
  | nil =>
    cases hfold
    exact ⟨⟨[], rfl, rfl⟩, rfl⟩
  | cons x body ih =>
    rw [List.foldlM_cons, Checked.bind_eq_ok] at hfold
    obtain ⟨st, hstep, hfold⟩ := hfold
    simp only [addInst, Checked.bind_eq_ok, Checked.pure_eq_ok] at hstep
    obtain ⟨ex, hex, rfl⟩ := hstep
    obtain ⟨⟨es, hes, rfl⟩, hheaders⟩ := ih hfold
    refine ⟨⟨ex :: es, ?_, rfl⟩, hheaders⟩
    rw [Checked.mapM_eq_ok] at hes ⊢
    exact .cons hex hes

/-- A summary that has taken exactly some blocks into account, and no loops. -/
structure Tallies (g : Graph) (done : List BlockId) (s : EffectSummary) : Prop where
  insts : ∀ b ∈ done, ∀ i ∈ g.bodyOf b, g.effectsOf i = .ok (s.ofInst i)
  otherInsts : ∀ i, (∀ b ∈ done, i ∉ g.bodyOf b) → s.ofInst i = .none
  blocks : ∀ b ∈ done, g.effectsIn (g.bodyOf b) = .ok (s.ofBlock b)
  otherBlocks : ∀ b, b ∉ done → s.ofBlock b = .none
  headers : ∀ h, s.ofHeader h = .none

/-- Before any block nothing is tallied. -/
theorem tallies_start (loops : LoopForest) : Tallies g [] (start loops) where
  insts := by simp
  otherInsts i _ := Table.get_empty _
  blocks := by simp
  otherBlocks b _ := Table.get_empty _
  headers h := Table.get_empty _

/-- One more block is tallied, with its instructions. -/
theorem Tallies.addBlock {done : List BlockId} (hs : Tallies g done s) (hadd : addBlock g s b = .ok s') :
    Tallies g (done ++ [b]) s' := by
  simp only [EffectSummary.addBlock, Checked.bind_eq_ok, Checked.pure_eq_ok] at hadd
  obtain ⟨block, hblock, ⟨s₁, e⟩, hfold, rfl⟩ := hadd
  obtain ⟨hbody, hothers, hblocks, -⟩ := addInst_fold hfold
  obtain ⟨⟨es, hes, rfl⟩, hheaders⟩ := sum_addInst_fold hfold
  rw [← bodyOf_eq hblock] at hbody hothers hes
  have hofBlock : ∀ b',
      ({ s₁ with blocks := s₁.blocks.set b.index (es.foldl Effects.union .none) }).ofBlock b' =
        if b' = b then .unionAll es else s.ofBlock b' := by
    intro b'
    simp only [ofBlock, Table.get_set, BlockId.index_inj, hblocks]
    rfl
  constructor
  case insts =>
    intro b' hb' i hi
    show g.effectsOf i = .ok (s₁.ofInst i)
    by_cases hmem : i ∈ g.bodyOf b
    · exact (hbody i hmem).1
    · rw [hothers i hmem]
      rcases List.mem_append.1 hb' with hb' | hb'
      · exact hs.insts b' hb' i hi
      · exact absurd (List.mem_singleton.1 hb' ▸ hi) hmem
  case otherInsts =>
    intro i hi
    show s₁.ofInst i = .none
    rw [hothers i (hi b (by simp))]
    exact hs.otherInsts i fun b' hb' => hi b' (List.mem_append_left _ hb')
  case blocks =>
    intro b' hb'
    rw [hofBlock]
    split
    · next heq => rw [heq, effectsIn, hes]; rfl
    · next hne => exact hs.blocks b' (by simpa [hne] using hb')
  case otherBlocks =>
    intro b' hb'
    rw [hofBlock, if_neg (fun heq => hb' (by simp [heq]))]
    exact hs.otherBlocks b' fun hmem => hb' (List.mem_append_left _ hmem)
  case headers =>
    intro h
    show s₁.headers.get h.index = .none
    rw [hheaders]
    exact hs.headers h

/-- All blocks are tallied, and the loops are left as they were. -/
theorem tallies_addBlocks {bs : List BlockId} {loops : LoopForest}
    (hfold : bs.foldlM (EffectSummary.addBlock g) (start loops) = .ok s) :
    Tallies g bs s ∧ s.loops = loops := by
  refine Checked.foldlM_prefix (P := fun done s => Tallies g done s ∧ s.loops = loops) hfold
    ⟨tallies_start loops, rfl⟩ ?_
  rintro done b rest s₁ s₂ - ⟨hs, hloops⟩ hstep
  refine ⟨hs.addBlock hstep, Eq.trans ?_ hloops⟩
  simp only [EffectSummary.addBlock, Checked.bind_eq_ok, Checked.pure_eq_ok] at hstep
  obtain ⟨block, -, ⟨s₃, e⟩, hfold, rfl⟩ := hstep
  exact (addInst_fold hfold).2.2.2

/-! ## Loops -/

/-- Does a loop have this header? -/
def isHeadedBy (f : LoopForest) (h : BlockId) (l : LoopId) : Bool := f.loops[l.index]?.any (·.header = h)

/-- Effects of a block are added to the loops with a header that encloses it. -/
theorem bit_addToLoop {e : Effects} {l : LoopId} : ((addToLoop e s l).ofHeader h).bit written n =
    ((s.ofHeader h).bit written n || (isHeadedBy s.loops h l && e.bit written n)) := by
  rw [addToLoop, isHeadedBy]
  cases hl : s.loops.loops[l.index]? with
  | none => simp
  | some loop =>
    by_cases hh : h = loop.header
    · simp [ofHeader_modify, hh]
    · simp [ofHeader_modify, hh, Ne.symm hh]

/-- The loops that are met going outward from a block get the effect of the block. -/
theorem bit_addToLoops {e : Effects} {ls : List LoopId} :
    ((ls.foldl (addToLoop e) s).ofHeader h).bit written n =
    ((s.ofHeader h).bit written n || (ls.any (isHeadedBy s.loops h) && e.bit written n)) := by
  induction ls generalizing s with
  | nil => simp
  | cons l ls ih =>
    rw [List.foldl_cons, ih, bit_addToLoop, (grown_addToLoop e s l).loops, List.any_cons,
      Bool.and_or_distrib_right, Bool.or_assoc]

/-- A header gets the effects of all blocks from where the way outward meets its loop. -/
theorem bit_finish : ((finish g s).ofHeader h).bit written n = ((s.ofHeader h).bit written n ||
    g.blockIds.any fun b => (s.loops.enclosing b).any (isHeadedBy s.loops h) &&
      (s.ofBlock b).bit written n) := by
  have key : ∀ (bs : List BlockId) (s : EffectSummary),
      ((bs.foldl (fun s b => (s.loops.enclosing b).foldl (addToLoop (s.ofBlock b)) s) s).ofHeader h).bit
          written n =
        ((s.ofHeader h).bit written n || bs.any fun b =>
          (s.loops.enclosing b).any (isHeadedBy s.loops h) && (s.ofBlock b).bit written n) := by
    intro bs
    induction bs with
    | nil => simp
    | cons b bs ih =>
      intro s
      have hgrown := grown_addToEnclosing s b
      have hofBlock : ∀ b', ((s.loops.enclosing b).foldl (addToLoop (s.ofBlock b)) s).ofBlock b' =
          s.ofBlock b' :=
        fun b' => congrArg (·.get b'.index) hgrown.blocks
      rw [List.foldl_cons, ih, bit_addToLoops, List.any_cons, Bool.or_assoc, hgrown.loops]
      simp only [hofBlock]
  exact key g.blockIds s

/-- The way outward from a block meets the loop of a header exactly when the block is in the loop. -/
theorem any_isHeadedBy_iff (hg : g.Consistent) (ht : DomTree.ofGraph g = .ok t) :
    ((LoopForest.ofGraph g t).enclosing b).any (isHeadedBy (LoopForest.ofGraph g t) h) = true ↔
      g.InLoop h b := by
  simp only [List.any_eq_true, isHeadedBy, Option.any_eq_true, decide_eq_true_eq,
    (LoopForest.enclosing_spec hg ht b).1]
  constructor
  · rintro ⟨l, ⟨loop, hl, hb⟩, loop', hl', rfl⟩
    obtain rfl : loop = loop' := Option.some.inj (hl.symm.trans hl')
    exact (LoopForest.mem_blocks hg ht hl).1 hb
  · intro hb
    obtain ⟨-, latch, hback, -⟩ := id hb
    obtain ⟨l, loop, -, hl, rfl⟩ := LoopForest.isHeader_of_backEdge hg ht hback
    exact ⟨l, ⟨loop, hl, (LoopForest.mem_blocks hg ht hl).2 hb⟩, loop, hl, rfl⟩

/-- A summary says of instructions, blocks and loops what they do, no less and no more. -/
structure Exact (g : Graph) (t : DomTree) (s : EffectSummary) : Prop where
  loops : s.loops = LoopForest.ofGraph g t
  insts : ∀ b, g.Reachable b → ∀ i ∈ g.bodyOf b, g.effectsOf i = .ok (s.ofInst i)
  otherInsts : ∀ i, (∀ b, g.Reachable b → i ∉ g.bodyOf b) → s.ofInst i = .none
  blocks : ∀ b, g.Reachable b → g.effectsIn (g.bodyOf b) = .ok (s.ofBlock b)
  otherBlocks : ∀ b, ¬ g.Reachable b → s.ofBlock b = .none
  headers : ∀ loop ∈ s.loops.loops, (∀ b, b ∈ loop.blocks ↔ g.InLoop loop.header b) ∧
    g.effectsIn (loop.blocks.flatMap g.bodyOf) = .ok (s.ofHeader loop.header)
  otherHeaders : ∀ h, (∀ loop ∈ s.loops.loops, loop.header ≠ h) → s.ofHeader h = .none

section Exactness

variable (hg : g.Consistent) (ht : DomTree.ofGraph g = .ok t) (hs : Tallies g t.rpo s)
  (hloops : s.loops = LoopForest.ofGraph g t)
include hg ht hs hloops

/-- In the end a header has an access when an instruction of its loop has. -/
theorem Tallies.bit_ofHeader : ((finish g s).ofHeader h).bit written n = true ↔
    ∃ b, g.InLoop h b ∧ ∃ i ∈ g.bodyOf b, (s.ofInst i).bit written n = true := by
  have hbit : ∀ b, g.Reachable b → ((s.ofBlock b).bit written n = true ↔
      ∃ i ∈ g.bodyOf b, (s.ofInst i).bit written n = true) := by
    intro b hb
    have hmem := (DomTree.mem_rpo hg ht).2 hb
    have hsum := effectsIn_eq_ok (hs.insts b hmem)
    rw [Except.ok.inj ((hs.blocks b hmem).symm.trans hsum), Effects.bit_unionAll, List.any_map,
      List.any_eq_true]
    rfl
  rw [bit_finish, hs.headers, Effects.bit_none, Bool.false_or, List.any_eq_true, hloops]
  simp only [Bool.and_eq_true, any_isHeadedBy_iff hg ht]
  constructor
  · rintro ⟨b, -, hb, hset⟩
    exact ⟨b, hb, (hbit b hb.1).1 hset⟩
  · rintro ⟨b, hb, i, hi, hset⟩
    obtain ⟨block, hblock, -⟩ := mem_bodyOf.1 hi
    exact ⟨b, mem_blockIds_iff.2 ⟨block, hblock⟩, hb, (hbit b hb.1).2 ⟨i, hi, hset⟩⟩

/-- When all blocks are tallied the summary is exact. -/
theorem Tallies.exact_finish : Exact g t (finish g s) := by
  have hgrown := grown_finish (g := g) s
  have hinst : ∀ i, (finish g s).ofInst i = s.ofInst i := fun i => congrArg (·.get i.index) hgrown.insts
  have hblock : ∀ b, (finish g s).ofBlock b = s.ofBlock b := fun b => congrArg (·.get b.index) hgrown.blocks
  have hreach : ∀ {b}, g.Reachable b → b ∈ t.rpo := (DomTree.mem_rpo hg ht).2
  have hsame : (finish g s).loops = LoopForest.ofGraph g t := hgrown.loops.trans hloops
  constructor
  case loops => exact hsame
  case insts =>
    intro b hb i hi
    rw [hinst]
    exact hs.insts b (hreach hb) i hi
  case otherInsts =>
    intro i hi
    rw [hinst]
    exact hs.otherInsts i fun b hb => hi b ((DomTree.mem_rpo hg ht).1 hb)
  case blocks =>
    intro b hb
    rw [hblock]
    exact hs.blocks b (hreach hb)
  case otherBlocks =>
    intro b hb
    rw [hblock]
    exact hs.otherBlocks b fun hmem => hb ((DomTree.mem_rpo hg ht).1 hmem)
  case headers =>
    intro loop hloop
    rw [hsame, Array.mem_iff_getElem?] at hloop
    obtain ⟨m, hm⟩ := hloop
    have hmem : ∀ b, b ∈ loop.blocks ↔ g.InLoop loop.header b := fun b => LoopForest.mem_blocks hg ht hm
    have hbody : ∀ i ∈ loop.blocks.flatMap g.bodyOf, g.effectsOf i = .ok (s.ofInst i) := by
      intro i hi
      obtain ⟨b, hb, hi⟩ := List.mem_flatMap.1 hi
      exact hs.insts b (hreach ((hmem b).1 hb).1) i hi
    refine ⟨hmem, (effectsIn_eq_ok hbody).trans (congrArg Except.ok (Effects.ext_bit fun written n => ?_))⟩
    rw [Bool.eq_iff_iff, hs.bit_ofHeader hg ht hloops, Effects.bit_unionAll, List.any_map, List.any_eq_true]
    simp only [List.mem_flatMap, hmem, Function.comp_apply]
    constructor
    · rintro ⟨i, ⟨b, hb, hi⟩, hset⟩
      exact ⟨b, hb, i, hi, hset⟩
    · rintro ⟨b, hb, i, hi, hset⟩
      exact ⟨i, ⟨b, hb, hi⟩, hset⟩
  case otherHeaders =>
    intro h hno
    refine Effects.ext_bit fun written n => ?_
    rw [Effects.bit_none, Bool.eq_false_iff, ne_eq, hs.bit_ofHeader hg ht hloops]
    rintro ⟨b, ⟨-, latch, hback, -⟩, -⟩
    obtain ⟨l, loop, -, hl, hheader⟩ := LoopForest.isHeader_of_backEdge hg ht hback
    exact hno loop (hsame ▸ Array.mem_of_getElem? hl) hheader

end Exactness

end EffectSummary

/-! ## The pass -/

namespace SideEffects

open Midend.Graph Work Manager CompUnit

variable {u u' : CompUnit} {place : Nat}

/-- The tree and the loops that a unit has cached are those of its graph. -/
structure Current (u : CompUnit) : Prop where
  dominators : ∀ t, u.analyses.dominators = some t → DomTree.ofGraph u.graph = .ok t
  loops : ∀ f, u.analyses.loops = some f → ∃ t, DomTree.ofGraph u.graph = .ok t ∧
    LoopForest.ofGraph u.graph t = f

theorem current_new (g : Graph) (settings : Settings) : Current (.new g settings) where
  dominators t ht := by cases ht
  loops f hf := by cases hf

/-- The loops that are asked for are those of the graph. -/
theorem Current.loops_eq {f : LoopForest} (h : Current u) (hy : Work.loops.Yields u f u') :
    ∃ t, DomTree.ofGraph u.graph = .ok t ∧ LoopForest.ofGraph u.graph t = f := by
  simp only [Work.loops, yields_bind, yields_get] at hy
  obtain ⟨_, _, ⟨rfl, rfl⟩, hy⟩ := hy
  split at hy
  · next f' hcached =>
    obtain ⟨rfl, rfl⟩ := yields_pure.1 hy
    exact h.loops f hcached
  · simp only [yields_bind, yields_get, yields_modifyAnalyses, yields_pure] at hy
    obtain ⟨t, u₁, hdoms, _, _, ⟨rfl, rfl⟩, _, _, rfl, rfl, rfl⟩ := hy
    have hread := unchanged_dominators hdoms
    have ht := (hread.dominators t (by rw [analyses_dominators hdoms])).elim (h.dominators t) id
    exact ⟨t, ht, by rw [hread.graph]⟩

/-- The pass publishes the summary of the graph, which it leaves as it is. -/
theorem Current.yields_runPass {changed : Bool} (h : Current u)
    (hy : (runPass place pass).Yields u changed u') :
    u'.graph = u.graph ∧ ∃ t s, DomTree.ofGraph u.graph = .ok t ∧
      t.rpo.foldlM (EffectSummary.addBlock u.graph) (.start (LoopForest.ofGraph u.graph t)) = .ok s ∧
      u'.analyses.sideEffects = some (s.finish u.graph) := by
  obtain ⟨s₀, u₁, t, u₂, st, u₃, r, hstart, hdoms, hfold, hfinish, rfl⟩ := Manager.yields_runPass hy
  simp only [start, yields_bind, yields_pure] at hstart
  obtain ⟨f, _, hloops, rfl, rfl⟩ := hstart
  have hnoted : Current { u with journal := ⟨place, .start⟩ :: u.journal } := ⟨h.dominators, h.loops⟩
  obtain ⟨t₀, ht₀, rfl⟩ := hnoted.loops_eq hloops
  have hread : Unchanged u u₂ := (unchanged_loops hloops).of_noted.trans (unchanged_dominators hdoms)
  have ht := (hread.dominators t (by rw [analyses_dominators hdoms])).elim (h.dominators t) id
  obtain rfl : t₀ = t := Except.ok.inj (ht₀.symm.trans ht)
  obtain ⟨hsummary, -, journal, rfl⟩ := foldlM_runWorker (I := fun v => v.graph = u.graph) (fun _ _ hv => hv)
    (fun s b v r v' hv hw => hv ▸ yields_worker hw) hfold hread.graph
  simp only [finish, yields_bind, yields_get, yields_modifyAnalyses, yields_pure] at hfinish
  obtain ⟨_, _, ⟨rfl, rfl⟩, _, _, rfl, rfl, rfl⟩ := hfinish
  exact ⟨hread.graph, t₀, st.1, ht, hsummary, by rw [hread.graph]⟩

section Publishes

variable (hi : u.graph.Intact) (hentry : u.graph.entry ∈ u.graph.blockIds) (hl : u.graph.Layout)
  (hfields : u.graph.FieldsDeclared) (hoperands : ∀ v, u.graph.IsRead v → ∃ inst, u.graph.inst v = .ok inst)
  (hcached : Current u)
include hi hentry hl hfields hoperands hcached

/-- The pass comes to an end and publishes a summary of all reachable blocks. -/
theorem exists_published (verify : Bool) (place : Nat) :
    ∃ u' t s, (runGated verify place pass).Yields u () u' ∧ u'.graph = u.graph ∧
      DomTree.ofGraph u.graph = .ok t ∧
      t.rpo.foldlM (EffectSummary.addBlock u.graph) (.start (LoopForest.ofGraph u.graph t)) = .ok s ∧
      u'.analyses.sideEffects = some (s.finish u.graph) := by
  have hnoted : ∀ journal, Current { u with journal := journal } := fun _ => ⟨hcached.dominators, hcached.loops⟩
  have hends : (runPass place pass).Ensures (fun _ => False)
      { u with journal := ⟨place, .gate true u.analyses.available⟩ :: u.journal } fun changed _ =>
        changed = false :=
    ensures_runPass_of_tree hi hcached.dominators (DomTree.ofGraph_eq_ok hentry) fun b hb s =>
      hi.exists_addBlock hentry hfields hoperands hl.furnished.arraysSupplied s hb
  obtain ⟨changed, u₁, hpass, rfl⟩ := hends.exists_yields
  obtain ⟨hgraph, t, s, ht, hfold, hsummary⟩ := (hnoted _).yields_runPass hpass
  refine ⟨u₁, t, s, yields_runGated_iff.2 (.inr ⟨rfl, false, u₁, hpass, rfl, ?_⟩), hgraph, ht, hfold, hsummary⟩
  exact fun hchanged => nomatch hchanged

/-- On a graph whose instructions have the operands that their kinds ask for, the side-effects pass comes to an
end, leaves the graph as it is and publishes an exact summary. -/
theorem publishes_exact_summary (verify : Bool) (place : Nat) :
    ∃ u' t s, (runGated verify place pass).run u = (.ok (), u') ∧ u'.graph = u.graph ∧
      DomTree.ofGraph u.graph = .ok t ∧ u'.analyses.sideEffects = some s ∧ s.Exact u.graph t := by
  obtain ⟨u', t, s, hrun, hgraph, ht, hfold, hsummary⟩ :=
    exists_published hi hentry hl hfields hoperands hcached verify place
  obtain ⟨htallies, hloops⟩ := EffectSummary.tallies_addBlocks hfold
  exact ⟨u', t, s.finish u.graph, hrun, hgraph, ht, hsummary, htallies.exact_finish hi.consistent ht hloops⟩

end Publishes

/-- A loop with a loop of one block in it, which stores to an array; the outer loop reads a static field.  A
call stands in a block that nothing leads to. -/
def storesInLoops : Graph := .ofEdits "storesInLoops" [
  .createBlock, .createBlock, .createBlock, .createBlock, .createBlock,
  .internField ⟨"Tank", "level", .int, 0, true, false⟩,
  .createInst (.param 0) .ref [], .appendInst ⟨0⟩ ⟨0⟩,
  .createInst (.param 1) .int [], .appendInst ⟨0⟩ ⟨1⟩,
  .createInst .jump .void [], .appendInst ⟨0⟩ ⟨2⟩, .addEdge ⟨0⟩ ⟨1⟩,
  .createInst (.staticGet ⟨0⟩) .int [], .appendInst ⟨1⟩ ⟨3⟩,
  .createInst .jump .void [], .appendInst ⟨1⟩ ⟨4⟩, .addEdge ⟨1⟩ ⟨2⟩,
  .createInst .arraySet .void [⟨0⟩, ⟨1⟩, ⟨3⟩], .appendInst ⟨2⟩ ⟨5⟩,
  .createInst .branch .void [⟨1⟩], .appendInst ⟨2⟩ ⟨6⟩, .addEdge ⟨2⟩ ⟨2⟩, .addEdge ⟨2⟩ ⟨3⟩,
  .createInst .branch .void [⟨1⟩], .appendInst ⟨3⟩ ⟨7⟩, .addEdge ⟨3⟩ ⟨1⟩, .addEdge ⟨3⟩ ⟨4⟩,
  .createInst .retVoid .void [], .appendInst ⟨4⟩ ⟨8⟩,
  .createInst (.invoke .static "Tank.drain") .void [], .appendInst ⟨5⟩ ⟨9⟩,
  .createInst .jump .void [], .appendInst ⟨5⟩ ⟨10⟩, .addEdge ⟨5⟩ ⟨2⟩]

/-- In `storesInLoops` the outer loop has its own read and the array store of the inner loop, and the call
that nothing leads to is in neither. -/
theorem publishes_exact_summary_storesInLoops :
    storesInLoops.Intact ∧ storesInLoops.entry ∈ storesInLoops.blockIds ∧ storesInLoops.Layout ∧
      storesInLoops.FieldsDeclared ∧ (∀ v, storesInLoops.IsRead v → ∃ inst, storesInLoops.inst v = .ok inst) ∧
      Current (.new storesInLoops .default) ∧
      ∃ u' t s, (runGated false 0 pass).run (.new storesInLoops .default) = (.ok (), u') ∧
        u'.graph = storesInLoops ∧ DomTree.ofGraph storesInLoops = .ok t ∧ u'.analyses.sideEffects = some s ∧
        s.Exact storesInLoops t ∧
        s.ofHeader ⟨1⟩ = (Effects.arrayWrite .int).union (Effects.fieldRead .int true) ∧
        s.ofHeader ⟨2⟩ = Effects.arrayWrite .int := by
  have hi : storesInLoops.Intact := (built_ofEdits _ _).intact
  have hl : storesInLoops.Layout := by decide +kernel
  have hfields : storesInLoops.FieldsDeclared := by decide +kernel
  have hoperands : ∀ v, storesInLoops.IsRead v → ∃ inst, storesInLoops.inst v = .ok inst := by
    have hslots : ∀ i ∈ storesInLoops.attached, ∀ v ∈ storesInLoops.operandsOf i,
        v.index < storesInLoops.insts.size := by decide +kernel
    rintro v ⟨i, hi, hv⟩
    exact ⟨_, inst_eq_ok.2 (Array.getElem?_eq_getElem (hslots i hi v hv))⟩
  have hcached := current_new storesInLoops .default
  obtain ⟨u', t, s, hrun, hgraph, ht, hs, hexact⟩ :=
    publishes_exact_summary (u := .new storesInLoops .default) hi (by decide +kernel) hl hfields
      hoperands hcached
      false 0
  have hloops : (do
      let t ← DomTree.ofGraph storesInLoops
      pure ((LoopForest.ofGraph storesInLoops t).loops.toList.map fun l => (l.header, l.blocks)) :
        Checked (List (BlockId × List BlockId))) = .ok [(⟨1⟩, [⟨1⟩, ⟨2⟩, ⟨3⟩]), (⟨2⟩, [⟨2⟩])] := by
    decide +kernel
  have hheader : ∀ (h : BlockId) (bs : List BlockId), (h, bs) ∈ [(⟨1⟩, [⟨1⟩, ⟨2⟩, ⟨3⟩]), (⟨2⟩, [⟨2⟩])] →
      storesInLoops.effectsIn (bs.flatMap storesInLoops.bodyOf) = .ok (s.ofHeader h) := by
    intro h bs hmem
    change DomTree.ofGraph storesInLoops = .ok t at ht
    simp only [ht, Checked.bind_eq_ok, Except.ok.injEq, exists_eq_left', Checked.pure_eq_ok] at hloops
    rw [← hloops, List.mem_map] at hmem
    obtain ⟨loop, hloop, heq⟩ := hmem
    cases heq
    exact (hexact.headers loop (hexact.loops ▸ Array.mem_toList_iff.1 hloop)).2
  have houter := hheader ⟨1⟩ [⟨1⟩, ⟨2⟩, ⟨3⟩] (by simp)
  have hinner := hheader ⟨2⟩ [⟨2⟩] (by simp)
  refine ⟨hi, by decide +kernel, hl, hfields, hoperands, hcached, u', t, s, hrun, hgraph, ht, hs, hexact,
    Except.ok.inj (houter.symm.trans ?_), Except.ok.inj (hinner.symm.trans ?_)⟩
  · decide +kernel
  · decide +kernel

end SideEffects

end Midend
