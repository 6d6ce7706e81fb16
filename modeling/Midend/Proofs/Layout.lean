import Midend.Proofs.Legibility

/-!
# The order of printing

The order in which a method's instructions are printed: parameters first, then block by block, the phis of
a block before its other instructions.  For a graph that was read the order has each instruction once, and
no instruction before one that it reads, phis apart.

## Shape of the argument

`Writable` is what printing needs, and `Readable` what reading back needs besides; a graph keeps both when
instructions are taken out of it.  The lists of a block are found again in the order of printing
(`Readable.filter_printed_phis`, `Readable.filter_printed_insts`).  A graph that was read has both, and it is
`Ordered` because its arena is in the order of the text: `Before` collects what is known of two instructions
of which one is printed before the other (`Legible.pairwise_printed`).
-/

namespace Midend

open Source

namespace Graph

/-! ## Views of a graph for any name -/

/-- The instruction in a slot. -/
def slot (g : Graph) (i : InstId) : Inst := g.insts[i.index]?.getD default

/-- The block an instruction is in. -/
def home (g : Graph) (i : InstId) : BlockId := (g.slot i).block.getD default

/-- The instructions of a block other than phis. -/
def instsOf (g : Graph) (b : BlockId) : List InstId := (g.blocks[b.index]?.map (·.insts)).getD []

/-- The parameters, in the order of the entry block. -/
def paramIds (g : Graph) : List InstId := (g.instsOf g.entry).filter fun i => (g.slot i).kind.isParam

/-- The instructions printed in a block. -/
def shown (g : Graph) (b : BlockId) : List InstId := (g.bodyOf b).filter (· ∉ g.paramIds)

/-- All instructions in the order they are printed. -/
def printed (g : Graph) : List InstId := g.paramIds ++ g.blockIds.flatMap g.shown

/-- The place of an instruction in the order of printing. -/
def rank (g : Graph) (i : InstId) : InstId := ⟨g.printed.idxOf i⟩

/-- An instruction is printed after what it reads, unless it is a phi. -/
def ReadsEarlier (g : Graph) (i : InstId) : Prop :=
  (g.slot i).kind.isPhi = false → ∀ v ∈ (g.slot i).inputs, (g.rank v).index < (g.rank i).index

instance (g : Graph) (i : InstId) : Decidable (g.ReadsEarlier i) :=
  inferInstanceAs (Decidable (_ → ∀ v ∈ (g.slot i).inputs, (g.rank v).index < (g.rank i).index))

/-- Instructions other than phis are printed after what they read. -/
def Ordered (g : Graph) : Prop := ∀ i ∈ g.printed, g.ReadsEarlier i

instance (g : Graph) : Decidable g.Ordered := inferInstanceAs (Decidable (∀ i ∈ g.printed, g.ReadsEarlier i))

/-- The values that have a name, in the order of their names. -/
def named (g : Graph) : List InstId := g.printed.filter fun i => i ∈ g.paramIds ∨ (g.slot i).ty ≠ .void

variable {g : Graph} {b : BlockId} {i j : InstId} {inst : Inst}

/-- A slot holds the instruction that is there. -/
theorem slot_eq (h : g.inst i = .ok inst) : g.slot i = inst := by
  rw [slot, inst_eq_ok.1 h]
  rfl

/-- A block lists its phis and then its other instructions. -/
theorem bodyOf_eq_append : g.bodyOf b = g.phisOf b ++ g.instsOf b := by
  unfold bodyOf phisOf instsOf
  cases g.blocks[b.index]? <;> rfl

/-- Names in ascending order are known from the set of them. -/
theorem eq_of_ascending {xs ys : List InstId} (hxs : xs.Pairwise (·.index < ·.index))
    (hys : ys.Pairwise (·.index < ·.index)) (hmem : ∀ i, i ∈ xs ↔ i ∈ ys) : xs = ys := by
  have hne : ∀ {i j : InstId}, i.index < j.index → i ≠ j := by
    rintro i _ hij rfl
    exact Nat.lt_irrefl _ hij
  have hperm : xs.Perm ys := (List.perm_ext_iff_of_nodup (hxs.imp hne) (hys.imp hne)).2 hmem
  exact hperm.eq_of_pairwise (fun i j _ _ hij hji => absurd hij (Nat.lt_asymm hji)) hxs hys

/-- What is in a block is printed, and nothing else. -/
theorem mem_printed : i ∈ g.printed ↔ ∃ b, i ∈ g.bodyOf b := by
  unfold printed shown
  rw [List.mem_append, List.mem_flatMap]
  constructor
  · rintro (hi | ⟨b, -, hi⟩)
    · refine ⟨g.entry, ?_⟩
      rw [bodyOf_eq_append]
      exact List.mem_append_right _ (List.mem_filter.1 hi).1
    · exact ⟨b, (List.mem_filter.1 hi).1⟩
  · rintro ⟨b, hi⟩
    by_cases hparam : i ∈ g.paramIds
    · exact .inl hparam
    · obtain ⟨block, hblock, -⟩ := Graph.mem_bodyOf.1 hi
      exact .inr ⟨b, mem_blockIds_iff.2 ⟨block, hblock⟩, List.mem_filter.2 ⟨hi, decide_eq_true hparam⟩⟩

/-- What is printed is what is listed in a block. -/
theorem mem_printed_iff_attached : i ∈ g.printed ↔ i ∈ g.attached := by
  simp only [mem_printed, mem_attached, Graph.mem_bodyOf]

/-- What is printed in a block is printed. -/
theorem mem_printed_of_shown (hi : i ∈ g.shown b) : i ∈ g.printed :=
  mem_printed.2 ⟨b, (List.mem_filter.1 hi).1⟩

/-- An instruction other than a phi is printed, as a parameter or in its block. -/
theorem mem_printed_of_instsOf (hi : i ∈ g.instsOf b) : i ∈ g.printed := by
  refine mem_printed.2 ⟨b, ?_⟩
  rw [bodyOf_eq_append]
  exact List.mem_append_right _ hi

/-- All that printing relies on: what is in a block is there and says so, phis stand apart, parameters stand
in the entry block in the order of their numbers, a line of text can say what the others are, and what is
read is printed. -/
structure Writable (g : Graph) : Prop where
  entry : g.entry ∈ g.blockIds
  inst : ∀ b, ∀ i ∈ g.bodyOf b, g.inst i = .ok (g.slot i) ∧ (g.slot i).block = some b
  phis : ∀ b, ∀ i ∈ g.phisOf b, (g.slot i).kind = .phi
  insts : ∀ b, ∀ i ∈ g.instsOf b, (g.slot i).kind.isParam = true ∧ b = g.entry ∨
    (g.slot i).kind.Expressible g.fields ((g.slot i).inputs ≠ [])
  params : ∀ k i, g.paramIds[k]? = some i → (g.slot i).kind = .param k
  nodup : g.printed.Nodup
  closed : ∀ i ∈ g.printed, ∀ v ∈ (g.slot i).inputs, v ∈ g.printed

namespace Writable

variable (hg : g.Writable)
include hg

/-- What is printed is there. -/
theorem inst_slot (hi : i ∈ g.printed) : g.inst i = .ok (g.slot i) := by
  obtain ⟨b, hi⟩ := mem_printed.1 hi
  exact (hg.inst b i hi).1

/-- An instruction is in the block that lists it. -/
theorem home_eq (hi : i ∈ g.bodyOf b) : g.home i = b := by
  rw [home, (hg.inst b i hi).2]
  rfl

/-- What stands among the phis is a phi. -/
theorem isPhi_of_mem_phisOf (hi : i ∈ g.phisOf b) : (g.slot i).kind.isPhi = true := by
  rw [hg.phis b i hi]
  rfl

/-- What stands among the other instructions is no phi. -/
theorem isPhi_of_mem_instsOf (hi : i ∈ g.instsOf b) : (g.slot i).kind.isPhi = false := by
  rcases hg.insts b i hi with ⟨hparam, -⟩ | hexpr
  · cases hk : (g.slot i).kind <;> simp_all [Kind.isPhi, Kind.isParam]
  · exact hexpr.isPhi_eq_false

/-- A parameter is no phi. -/
theorem isPhi_of_mem_paramIds (hi : i ∈ g.paramIds) : (g.slot i).kind.isPhi = false :=
  hg.isPhi_of_mem_instsOf (List.mem_filter.1 hi).1

/-- An instruction of a block is a phi of it, or one of its other instructions. -/
theorem mem_phisOf (hi : i ∈ g.bodyOf b) (hphi : (g.slot i).kind.isPhi = true) : i ∈ g.phisOf b := by
  rw [bodyOf_eq_append, List.mem_append] at hi
  refine hi.resolve_right fun hi => ?_
  rw [hg.isPhi_of_mem_instsOf hi] at hphi
  cases hphi

/-- What a block lists and is no phi stands among its other instructions. -/
theorem mem_instsOf (hi : i ∈ g.bodyOf b) (hphi : (g.slot i).kind.isPhi = false) : i ∈ g.instsOf b := by
  rw [bodyOf_eq_append, List.mem_append] at hi
  refine hi.resolve_left fun hi => ?_
  rw [hg.isPhi_of_mem_phisOf hi] at hphi
  cases hphi

/-- What is printed in a line is a phi, or a line can say what it is. -/
theorem expressible (hi : i ∈ g.shown b) : (g.slot i).kind = .phi ∨
    (g.slot i).kind.Expressible g.fields ((g.slot i).inputs ≠ []) := by
  obtain ⟨hbody, hparam⟩ := List.mem_filter.1 hi
  rw [bodyOf_eq_append, List.mem_append] at hbody
  rcases hbody with hphi | hinst
  · exact .inl (hg.phis b i hphi)
  · refine .inr ((hg.insts b i hinst).resolve_left fun ⟨hkind, hb⟩ => ?_)
    subst hb
    exact of_decide_eq_true hparam (List.mem_filter.2 ⟨hinst, hkind⟩)

/-- What is printed in a block is in that block. -/
theorem home_of_mem_shown (hi : i ∈ g.shown b) : g.home i = b := hg.home_eq (List.mem_filter.1 hi).1

/-- Parameters are in the entry block. -/
theorem home_of_mem_paramIds (hi : i ∈ g.paramIds) : g.home i = g.entry := by
  refine hg.home_eq ?_
  rw [bodyOf_eq_append]
  exact List.mem_append_right _ (List.mem_filter.1 hi).1

/-- What is printed is listed by the block that it is in. -/
theorem mem_bodyOf_home (hi : i ∈ g.printed) : i ∈ g.bodyOf (g.home i) := by
  obtain ⟨b, hi⟩ := mem_printed.1 hi
  rwa [hg.home_eq hi]

/-- What is printed is in a block of the graph. -/
theorem mem_blockIds_home (hi : i ∈ g.printed) : g.home i ∈ g.blockIds := by
  obtain ⟨block, hblock, -⟩ := Graph.mem_bodyOf.1 (hg.mem_bodyOf_home hi)
  exact mem_blockIds_iff.2 ⟨block, hblock⟩

end Writable

/-- Only one element of the list contributes. -/
theorem flatMap_eq_of_single {α β : Type} {xs : List α} {x : α} {f : α → List β} (hxs : xs.Nodup) (hx : x ∈ xs)
    (hnone : ∀ y ∈ xs, y ≠ x → f y = []) : xs.flatMap f = f x := by
  obtain ⟨l, r, rfl⟩ := List.append_of_mem hx
  have hnodup := List.nodup_append.1 hxs
  have hleft : l.flatMap f = [] := List.flatMap_eq_nil_iff.2 fun y hy =>
    hnone y (List.mem_append_left _ hy) (hnodup.2.2 y hy x List.mem_cons_self)
  have hright : r.flatMap f = [] := List.flatMap_eq_nil_iff.2 fun y hy => by
    refine hnone y (List.mem_append_right _ (List.mem_cons_of_mem _ hy)) ?_
    rintro rfl
    exact (List.nodup_cons.1 hnodup.2.1).1 hy
  rw [List.flatMap_append, List.flatMap_cons, hleft, hright, List.nil_append, List.append_nil]

/-- No block is there twice. -/
theorem nodup_blockIds : g.blockIds.Nodup := by
  unfold blockIds
  exact List.nodup_range.map fun m n hmn => congrArg BlockId.index hmn

/-- All that reading back relies on, besides: the first block is the entry and has the parameters in front, what
is in a block has not been removed, an edge is known at both ends, and names and fields can be written. -/
structure Readable (g : Graph) : Prop extends g.Writable where
  first : g.entry = ⟨0⟩
  front : g.paramIds <+: g.instsOf g.entry
  bare : ∀ i ∈ g.paramIds, (g.slot i).inputs = []
  present : ∀ i ∈ g.printed, (g.slot i).removed = false
  succs_lt : ∀ b, ∀ t ∈ g.succs b, t.index < g.blocks.size
  preds_eq : ∀ b ∈ g.blockIds,
    g.preds b = g.blockIds.flatMap fun c => ((g.succs c).filter (· = b)).map fun _ => c
  name : IsSymbol g.name
  declarable : ∀ f ∈ g.fields, f.Declarable
  distinct : g.fields.toList.Pairwise fun f f' => f.sameSlot f' = false ∧ f.qualified ≠ f'.qualified

namespace Readable

variable (hg : g.Readable)
include hg

/-- Edges come from blocks of the graph. -/
theorem preds_lt {a : BlockId} (ha : a ∈ g.preds b) : a.index < g.blocks.size := by
  rw [hg.preds_eq b (mem_blockIds_of_mem_preds ha)] at ha
  obtain ⟨c, hc, ha⟩ := List.mem_flatMap.1 ha
  obtain ⟨_, -, rfl⟩ := List.mem_map.1 ha
  exact mem_blockIds.1 hc

/-- Blocks are printed in their order. -/
theorem pairwise_home : g.printed.Pairwise fun i j => (g.home i).index ≤ (g.home j).index := by
  have hzero : ∀ i ∈ g.paramIds, (g.home i).index = 0 := by
    intro i hi
    rw [hg.home_of_mem_paramIds hi, hg.first]
  have hblocks : g.blockIds.Pairwise fun b c => ∀ i ∈ g.shown b, ∀ j ∈ g.shown c,
      (g.home i).index ≤ (g.home j).index := by
    unfold blockIds
    rw [List.pairwise_map]
    refine List.pairwise_lt_range.imp fun {m n} hmn i hi j hj => ?_
    rw [hg.home_of_mem_shown hi, hg.home_of_mem_shown hj]
    exact Nat.le_of_lt hmn
  unfold printed
  rw [List.pairwise_append, List.pairwise_flatMap]
  refine ⟨List.pairwise_of_forall_mem_list fun i hi j _ => ?_,
    ⟨fun b _ => List.pairwise_of_forall_mem_list fun i hi j hj => ?_, hblocks⟩, fun i hi j _ => ?_⟩
  · rw [hzero i hi]
    exact Nat.zero_le _
  · rw [hg.home_of_mem_shown hi, hg.home_of_mem_shown hj]
  · rw [hzero i hi]
    exact Nat.zero_le _

/-- What is printed of one block stands together, parameters apart. -/
theorem filter_flatMap_shown (hb : b ∈ g.blockIds) (p : InstId → Bool) :
    (g.blockIds.flatMap g.shown).filter (fun i => g.home i = b && p i) = (g.shown b).filter p := by
  have hsame : (g.shown b).filter (fun i => g.home i = b && p i) = (g.shown b).filter p :=
    List.filter_congr fun i hi => by simp [hg.home_of_mem_shown hi]
  rw [List.filter_flatMap, ← hsame]
  refine flatMap_eq_of_single nodup_blockIds hb fun c _ hne => List.filter_eq_nil_iff.2 fun i hi => ?_
  simp [hg.home_of_mem_shown hi, hne]

/-- The phis of a block are found in the order of printing. -/
theorem filter_printed_phis (hb : b ∈ g.blockIds) :
    g.printed.filter (fun i => g.home i = b && (g.slot i).kind.isPhi) = g.phisOf b := by
  have hparams : g.paramIds.filter (fun i => g.home i = b && (g.slot i).kind.isPhi) = [] :=
    List.filter_eq_nil_iff.2 fun i hi => by simp [hg.isPhi_of_mem_paramIds hi]
  have hphis : (g.phisOf b).filter (fun i => (g.slot i).kind.isPhi && decide (i ∉ g.paramIds)) =
      g.phisOf b := by
    refine List.filter_eq_self.2 fun i hi => ?_
    have hphi := hg.isPhi_of_mem_phisOf hi
    have hfree : i ∉ g.paramIds := fun hparam => by
      rw [hg.isPhi_of_mem_paramIds hparam] at hphi
      cases hphi
    simp [hphi, hfree]
  have hinsts : (g.instsOf b).filter (fun i => (g.slot i).kind.isPhi && decide (i ∉ g.paramIds)) = [] :=
    List.filter_eq_nil_iff.2 fun i hi => by simp [hg.isPhi_of_mem_instsOf hi]
  rw [printed, List.filter_append, hparams, List.nil_append, hg.filter_flatMap_shown hb, shown,
    List.filter_filter, bodyOf_eq_append, List.filter_append, hphis, hinsts, List.append_nil]

/-- The other instructions of a block are found in the order of printing: parameters are printed first, but they
also stand in front in their block. -/
theorem filter_printed_insts (hb : b ∈ g.blockIds) :
    g.printed.filter (fun i => g.home i = b && !(g.slot i).kind.isPhi) = g.instsOf b := by
  have hphis : (g.phisOf b).filter (fun i => !(g.slot i).kind.isPhi && decide (i ∉ g.paramIds)) = [] :=
    List.filter_eq_nil_iff.2 fun i hi => by simp [hg.isPhi_of_mem_phisOf hi]
  have hinsts : (g.instsOf b).filter (fun i => !(g.slot i).kind.isPhi && decide (i ∉ g.paramIds)) =
      (g.instsOf b).filter fun i => i ∉ g.paramIds :=
    List.filter_congr fun i hi => by simp [hg.isPhi_of_mem_instsOf hi]
  rw [printed, List.filter_append, hg.filter_flatMap_shown hb, shown, List.filter_filter, bodyOf_eq_append,
    List.filter_append, hphis, hinsts, List.nil_append]
  by_cases hentry : b = g.entry
  · subst hentry
    obtain ⟨rest, hrest⟩ := hg.front
    have hparams : g.paramIds.filter (fun i => g.home i = g.entry && !(g.slot i).kind.isPhi) = g.paramIds :=
      List.filter_eq_self.2 fun i hi => by simp [hg.home_of_mem_paramIds hi, hg.isPhi_of_mem_paramIds hi]
    have hnil : g.paramIds.filter (fun i => i ∉ g.paramIds) = [] :=
      List.filter_eq_nil_iff.2 fun i hi => by simp [hi]
    have hlater : rest.filter (fun i => i ∉ g.paramIds) = rest := by
      have hall : (g.paramIds ++ rest).filter (fun i => (g.slot i).kind.isParam) = g.paramIds := by
        rw [hrest]
        rfl
      have hself : g.paramIds.filter (fun i => (g.slot i).kind.isParam) = g.paramIds :=
        List.filter_eq_self.2 fun i hi => (List.mem_filter.1 hi).2
      rw [List.filter_append, hself, List.append_right_eq_self] at hall
      refine List.filter_eq_self.2 fun i hi => decide_eq_true fun hparam => ?_
      exact List.filter_eq_nil_iff.1 hall i hi (List.mem_filter.1 hparam).2
    rw [hparams, ← hrest, List.filter_append, hnil, hlater, List.nil_append]
  · have hparams : g.paramIds.filter (fun i => g.home i = b && !(g.slot i).kind.isPhi) = [] :=
      List.filter_eq_nil_iff.2 fun i hi => by simp [hg.home_of_mem_paramIds hi, Ne.symm hentry]
    have hfree : (g.instsOf b).filter (fun i => i ∉ g.paramIds) = g.instsOf b := by
      refine List.filter_eq_self.2 fun i hi => decide_eq_true fun hparam => hentry ?_
      rw [← hg.home_of_mem_paramIds hparam, hg.home_eq (b := b)]
      rw [bodyOf_eq_append]
      exact List.mem_append_right _ hi
    rw [hparams, hfree, List.nil_append]

end Readable

/-! ## Graphs that were read -/

/-- What is known of an instruction and one that is printed after it: they differ, and a phi alone can have
come after it in the text. -/
structure Before (g : Graph) (i j : InstId) : Prop where
  ne : i ≠ j
  inst_lt : (g.slot i).kind.isPhi = false → i.index < j.index

section Read

variable {h : Header} {params : Nat} {items : List Item} (hg : g.Legible h params items)
include hg

/-- The instruction of a place is the one that the place was assembled from. -/
theorem Legible.inst_eq {it : Item} (hi : items[i.index]? = some it) : g.inst i = .ok it.inst := by
  rw [inst_eq_ok, ← Array.getElem?_toList, hg.assembled.insts, List.getElem?_map, hi]
  rfl

/-- An instruction is in the block that it was assembled into. -/
theorem Legible.home_eq {it : Item} (hi : items[i.index]? = some it) : g.home i = it.block := by
  rw [home, slot_eq (hg.inst_eq hi)]
  rfl

/-- Every instruction was assembled from something that fits its place. -/
theorem Legible.exists_item (hi : i.index < g.insts.size) : ∃ it, items[i.index]? = some it ∧
    g.slot i = it.inst ∧ g.home i = it.block ∧ it.Fits h params i.index items.length := by
  rw [hg.assembled.size_insts] at hi
  have hget := List.getElem?_eq_getElem hi
  exact ⟨_, hget, slot_eq (hg.inst_eq hget), hg.home_eq hget, hg.fits _ _ hget⟩

/-- Every instruction is in a block of the graph. -/
theorem Legible.home_lt (hi : i.index < g.insts.size) : (g.home i).index < g.blocks.size := by
  obtain ⟨it, -, -, hhome, hfits⟩ := hg.exists_item hi
  rw [hhome, hg.assembled.size_blocks]
  exact hfits.block

/-- An earlier instruction is in an earlier block or in the same one. -/
theorem Legible.home_le (hij : i.index < j.index) (hj : j.index < g.insts.size) :
    (g.home i).index ≤ (g.home j).index := by
  obtain ⟨it, hit, -, hhome, -⟩ := hg.exists_item (Nat.lt_trans hij hj)
  obtain ⟨it', hit', -, hhome', -⟩ := hg.exists_item hj
  obtain ⟨hlt, rfl⟩ := List.getElem?_eq_some_iff.1 hit
  obtain ⟨hlt', rfl⟩ := List.getElem?_eq_some_iff.1 hit'
  rw [hhome, hhome']
  exact List.pairwise_iff_getElem.1 (List.pairwise_map.1 hg.sorted) _ _ hlt hlt' hij

/-- No instruction is in a block that is not there. -/
theorem Legible.idsWhere_eq_nil (hb : ¬ b.index < h.size) (p : Item → Bool) :
    idsWhere (fun it => it.block = b && p it) items = [] := by
  rw [List.eq_nil_iff_forall_not_mem]
  intro i hi
  obtain ⟨it, hit, hp⟩ := mem_idsWhere.1 hi
  rw [Bool.and_eq_true, decide_eq_true_eq] at hp
  exact hb (hp.1 ▸ (hg.fits _ _ hit).block)

/-- The phis of a block are found by going through what the graph was assembled from. -/
theorem Legible.phisOf_eq : g.phisOf b = idsWhere (fun it => it.block = b && it.kind.isPhi) items := by
  unfold phisOf
  rw [hg.assembled.blocks]
  by_cases hb : b.index < h.size
  · rw [if_pos hb]
    rfl
  · rw [if_neg hb, hg.idsWhere_eq_nil hb]
    rfl

/-- So are its other instructions. -/
theorem Legible.instsOf_eq : g.instsOf b = idsWhere (fun it => it.block = b && !it.kind.isPhi) items := by
  unfold instsOf
  rw [hg.assembled.blocks]
  by_cases hb : b.index < h.size
  · rw [if_pos hb]
    rfl
  · rw [if_neg hb, hg.idsWhere_eq_nil hb]
    rfl

/-- What is found by going through the assembly, in terms of the graph. -/
theorem Legible.mem_ids {p : Kind → Bool} : i ∈ idsWhere (fun it => it.block = b && p it.kind) items ↔
    i.index < g.insts.size ∧ g.home i = b ∧ p (g.slot i).kind = true := by
  rw [mem_idsWhere]
  constructor
  · rintro ⟨it, hit, hp⟩
    rw [Bool.and_eq_true, decide_eq_true_eq] at hp
    rw [hg.assembled.size_insts, hg.home_eq hit, slot_eq (hg.inst_eq hit)]
    exact ⟨(List.getElem?_eq_some_iff.1 hit).1, hp⟩
  · rintro ⟨hi, hhome, hp⟩
    obtain ⟨it, hit, hslot, hhome', -⟩ := hg.exists_item hi
    rw [hslot] at hp
    refine ⟨it, hit, ?_⟩
    rw [Bool.and_eq_true, decide_eq_true_eq, ← hhome']
    exact ⟨hhome, hp⟩

/-- The phis of a block are the phis that are in it. -/
theorem Legible.mem_phisOf : i ∈ g.phisOf b ↔
    i.index < g.insts.size ∧ g.home i = b ∧ (g.slot i).kind.isPhi = true := by
  rw [hg.phisOf_eq, hg.mem_ids]

/-- Its other instructions are the other instructions that are in it. -/
theorem Legible.mem_instsOf : i ∈ g.instsOf b ↔
    i.index < g.insts.size ∧ g.home i = b ∧ (g.slot i).kind.isPhi = false := by
  rw [hg.instsOf_eq, hg.mem_ids (p := fun k => !k.isPhi), Bool.not_eq_true']

/-- The phis of a block stand in the order of the arena. -/
theorem Legible.pairwise_phisOf : (g.phisOf b).Pairwise (·.index < ·.index) := by
  rw [hg.phisOf_eq]
  exact pairwise_idsWhere

/-- Its other instructions do, too. -/
theorem Legible.pairwise_instsOf : (g.instsOf b).Pairwise (·.index < ·.index) := by
  rw [hg.instsOf_eq]
  exact pairwise_idsWhere

/-- A block lists the instructions that are in it. -/
theorem Legible.mem_bodyOf : i ∈ g.bodyOf b ↔ i.index < g.insts.size ∧ g.home i = b := by
  rw [bodyOf_eq_append, List.mem_append, hg.mem_phisOf, hg.mem_instsOf]
  cases (g.slot i).kind.isPhi <;> simp

/-- Parameters come first in the arena, and are in the entry block. -/
theorem Legible.param_spec (hi : i.index < g.insts.size) :
    (i.index < params → (g.slot i).kind = .param i.index ∧ g.home i = g.entry ∧ (g.slot i).inputs = []) ∧
      (params ≤ i.index → (g.slot i).kind = .phi ∨
        (g.slot i).kind.Expressible h.fields ((g.slot i).inputs ≠ [])) := by
  obtain ⟨it, -, hslot, hhome, hfits⟩ := hg.exists_item hi
  rw [hslot, hhome, hg.assembled.entry]
  exact ⟨hfits.param, hfits.body⟩

/-- Parameters are what comes first in the arena. -/
theorem Legible.isParam_iff (hi : i.index < g.insts.size) :
    (g.slot i).kind.isParam = true ↔ i.index < params := by
  obtain ⟨hparam, hbody⟩ := hg.param_spec hi
  constructor
  · intro hkind
    by_contra hle
    rcases hbody (Nat.le_of_not_lt hle) with hphi | hexpr
    · rw [hphi] at hkind
      cases hkind
    · rw [hexpr.isParam_eq_false] at hkind
      cases hkind
  · intro hlt
    rw [(hparam hlt).1]
    rfl

/-- The parameters of the entry block are the instructions that come first in the arena. -/
theorem Legible.mem_paramIds : i ∈ g.paramIds ↔ i.index < g.insts.size ∧ i.index < params := by
  unfold paramIds
  rw [List.mem_filter, hg.mem_instsOf]
  constructor
  · rintro ⟨⟨hi, -, -⟩, hparam⟩
    exact ⟨hi, (hg.isParam_iff hi).1 hparam⟩
  · rintro ⟨hi, hlt⟩
    obtain ⟨hkind, hhome, -⟩ := (hg.param_spec hi).1 hlt
    rw [hkind]
    exact ⟨⟨hi, hhome, rfl⟩, rfl⟩

/-- What is printed in a block is in it and is no parameter. -/
theorem Legible.mem_shown : i ∈ g.shown b ↔ i.index < g.insts.size ∧ g.home i = b ∧ params ≤ i.index := by
  unfold shown
  rw [List.mem_filter, hg.mem_bodyOf, decide_eq_true_eq, hg.mem_paramIds, not_and, Nat.not_lt]
  constructor
  · rintro ⟨⟨hi, hhome⟩, hle⟩
    exact ⟨hi, hhome, hle hi⟩
  · rintro ⟨hi, hhome, hle⟩
    exact ⟨⟨hi, hhome⟩, fun _ => hle⟩

/-- Every instruction of the arena is printed. -/
theorem Legible.mem_printed : i ∈ g.printed ↔ i.index < g.insts.size := by
  unfold printed
  rw [List.mem_append, List.mem_flatMap, hg.mem_paramIds]
  constructor
  · rintro (⟨hi, -⟩ | ⟨b, -, hshown⟩)
    · exact hi
    · exact (hg.mem_shown.1 hshown).1
  · intro hi
    by_cases hlt : i.index < params
    · exact .inl ⟨hi, hlt⟩
    · refine .inr ⟨g.home i, ?_, hg.mem_shown.2 ⟨hi, rfl, Nat.le_of_not_lt hlt⟩⟩
      exact mem_blockIds.2 (hg.home_lt hi)

omit hg in
/-- An instruction that comes first in the arena is known to come first. -/
theorem before_of_lt (hij : i.index < j.index) : g.Before i j where
  ne := by
    rintro rfl
    exact Nat.lt_irrefl _ hij
  inst_lt := fun _ => hij

/-- A block is printed in an order that keeps to the arena, phis apart. -/
theorem Legible.pairwise_shown : (g.shown b).Pairwise g.Before := by
  unfold shown
  apply List.Pairwise.filter
  rw [bodyOf_eq_append, List.pairwise_append]
  refine ⟨hg.pairwise_phisOf.imp before_of_lt, hg.pairwise_instsOf.imp before_of_lt, fun i hi j hj => ?_⟩
  obtain ⟨-, -, hphi⟩ := hg.mem_phisOf.1 hi
  obtain ⟨-, -, hinst⟩ := hg.mem_instsOf.1 hj
  refine ⟨?_, ?_⟩
  · rintro rfl
    rw [hphi] at hinst
    cases hinst
  · simp [hphi]

/-- So is the whole graph. -/
theorem Legible.pairwise_printed : g.printed.Pairwise g.Before := by
  have hparams : g.paramIds.Pairwise g.Before := by
    unfold paramIds
    exact (hg.pairwise_instsOf.filter _).imp before_of_lt
  have hblocks : g.blockIds.Pairwise fun b c => ∀ i ∈ g.shown b, ∀ j ∈ g.shown c, g.Before i j := by
    unfold blockIds
    rw [List.pairwise_map]
    refine List.pairwise_lt_range.imp fun {m n} hmn i hi j hj => ?_
    obtain ⟨hi, hhome, -⟩ := hg.mem_shown.1 hi
    obtain ⟨hj, hhome', -⟩ := hg.mem_shown.1 hj
    have hij : i.index < j.index := by
      by_contra hle
      rcases Nat.lt_or_eq_of_le (Nat.le_of_not_lt hle) with hji | heq
      · have := hg.home_le hji hi
        rw [hhome, hhome'] at this
        exact absurd hmn (Nat.not_lt_of_le this)
      · rw [InstId.index_inj.1 heq, hhome] at hhome'
        cases hhome'
        exact Nat.lt_irrefl _ hmn
    exact before_of_lt hij
  unfold printed
  rw [List.pairwise_append]
  refine ⟨hparams, List.pairwise_flatMap.2 ⟨fun b _ => hg.pairwise_shown, hblocks⟩, fun i hi j hj => ?_⟩
  obtain ⟨b, -, hj⟩ := List.mem_flatMap.1 hj
  obtain ⟨-, -, hle⟩ := hg.mem_shown.1 hj
  obtain ⟨-, hlt⟩ := hg.mem_paramIds.1 hi
  exact before_of_lt (Nat.lt_of_lt_of_le hlt hle)

/-- No instruction is printed twice. -/
theorem Legible.nodup_printed : g.printed.Nodup := hg.pairwise_printed.imp Before.ne

/-- The predecessors of a block follow from the successors of all blocks. -/
theorem Legible.preds_eq (hb : b.index < g.blocks.size) :
    g.preds b = g.blockIds.flatMap fun c => ((g.succs c).filter (· = b)).map fun _ => c := by
  have hlt : ∀ it ∈ items, it.block.index < h.size := by
    intro it hit
    obtain ⟨n, hn⟩ := List.mem_iff_getElem?.1 hit
    exact (hg.fits n it hn).block
  rw [blockIds, List.flatMap_map, hg.assembled.size_blocks]
  rw [hg.assembled.size_blocks] at hb
  rw [hg.assembled.preds_eq hb, preds_blockIn hg.sorted hlt]
  refine List.flatMap_congr fun k hk => ?_
  rw [hg.assembled.succs_eq (List.mem_range.1 hk)]

/-- Edges lead to blocks of the graph. -/
theorem Legible.succs_lt {t : BlockId} (ht : t ∈ g.succs b) : t.index < g.blocks.size := by
  have hb := mem_blockIds.1 (mem_blockIds_of_mem_succs ht)
  rw [hg.assembled.size_blocks] at hb ⊢
  rw [hg.assembled.succs_eq hb] at ht
  obtain ⟨it, hit, ht⟩ := List.mem_flatMap.1 ht
  obtain ⟨n, hn⟩ := List.mem_iff_getElem?.1 (List.mem_filter.1 hit).1
  exact (hg.fits n it hn).succs t ht

/-- What an instruction reads is there, and comes before it unless the instruction is a phi. -/
theorem Legible.input_lt {v : InstId} (hi : i.index < g.insts.size) (hv : v ∈ (g.slot i).inputs) :
    v.index < g.insts.size ∧ ((g.slot i).kind.isPhi = false → v.index < i.index) := by
  obtain ⟨it, -, hslot, -, hfits⟩ := hg.exists_item hi
  rw [hslot] at hv ⊢
  have hlt := hfits.inputs v hv
  rw [hg.assembled.size_insts] at hi ⊢
  constructor
  · split at hlt
    · exact hlt
    · exact Nat.lt_trans hlt hi
  · intro hphi
    rwa [if_neg (by rw [← Bool.not_eq_true] at hphi; exact hphi)] at hlt

/-- A number below the size of the arena has an instruction in its slot. -/
theorem Legible.inst_slot (hi : i.index < g.insts.size) : g.inst i = .ok (g.slot i) := by
  obtain ⟨it, hit, hslot, -⟩ := hg.exists_item hi
  rw [hg.inst_eq hit, hslot]

/-- An instruction says which block it is in. -/
theorem Legible.block_slot (hi : i.index < g.insts.size) : (g.slot i).block = some (g.home i) := by
  obtain ⟨it, -, hslot, hhome, -⟩ := hg.exists_item hi
  rw [hslot, hhome]
  rfl

/-- The parameters are numbered by their order. -/
theorem Legible.index_of_paramIds {k : Nat} (hk : g.paramIds[k]? = some i) : i.index = k := by
  have hids : g.paramIds = (List.range (min params g.insts.size)).map InstId.mk := by
    refine eq_of_ascending (hg.pairwise_instsOf.filter _) ?_ fun j => ?_
    · rw [List.pairwise_map]
      exact List.pairwise_lt_range
    · rw [hg.mem_paramIds, List.mem_map]
      constructor
      · rintro ⟨hsize, hparam⟩
        exact ⟨j.index, List.mem_range.2 (Nat.lt_min.2 ⟨hparam, hsize⟩), rfl⟩
      · rintro ⟨n, hn, rfl⟩
        obtain ⟨hparam, hsize⟩ := Nat.lt_min.1 (List.mem_range.1 hn)
        exact ⟨hsize, hparam⟩
  rw [hids, List.getElem?_map, Option.map_eq_some_iff] at hk
  obtain ⟨n, hn, rfl⟩ := hk
  obtain ⟨hlt, rfl⟩ := List.getElem?_eq_some_iff.1 hn
  rw [List.getElem_range]

/-- A graph that was read can be printed. -/
theorem Legible.writable : g.Writable where
  entry := by
    rw [mem_blockIds, hg.assembled.entry, hg.assembled.size_blocks]
    exact hg.size
  inst b i hi := by
    obtain ⟨hlt, rfl⟩ := hg.mem_bodyOf.1 hi
    exact ⟨hg.inst_slot hlt, hg.block_slot hlt⟩
  phis b i hi := Kind.isPhi_eq_true.1 (hg.mem_phisOf.1 hi).2.2
  insts b i hi := by
    obtain ⟨hlt, hhome, hphi⟩ := hg.mem_instsOf.1 hi
    obtain ⟨hparam, hbody⟩ := hg.param_spec hlt
    by_cases hi : i.index < params
    · obtain ⟨hkind, hentry, -⟩ := hparam hi
      exact .inl ⟨by rw [hkind]; rfl, hhome.symm.trans hentry⟩
    · rw [hg.assembled.fields]
      refine .inr ((hbody (Nat.le_of_not_lt hi)).resolve_left fun hkind => ?_)
      rw [hkind] at hphi
      cases hphi
  params k i hk := by
    obtain ⟨hlt, hparam⟩ := hg.mem_paramIds.1 (List.mem_of_getElem? hk)
    rw [((hg.param_spec hlt).1 hparam).1, hg.index_of_paramIds hk]
  nodup := hg.nodup_printed
  closed i hi v hv := hg.mem_printed.2 (hg.input_lt (hg.mem_printed.1 hi) hv).1

/-- A graph that was read can be read back, as far as its shape goes. -/
theorem Legible.readable : g.Readable where
  toWritable := hg.writable
  first := hg.assembled.entry
  front := by
    -- a block's instructions stand in the order of the arena, and the arena starts with the parameters
    have hsorted : ((g.instsOf g.entry).map fun i => if (g.slot i).kind.isParam then 0 else 1).Pairwise
        (· ≤ ·) := by
      rw [List.pairwise_map]
      refine hg.pairwise_instsOf.imp_of_mem fun {i j} hi hj hij => ?_
      by_cases hparam : (g.slot j).kind.isParam = true
      · have hlt := (hg.isParam_iff (hg.mem_instsOf.1 hj).1).1 hparam
        rw [if_pos ((hg.isParam_iff (hg.mem_instsOf.1 hi).1).2 (Nat.lt_trans hij hlt))]
        exact Nat.zero_le _
      · rw [if_neg hparam]
        split
        · exact Nat.zero_le _
        · exact Nat.le_refl _
    have hsplit := eq_filter_append_filter (n := 1) hsorted fun i _ => by split <;> omega
    have hfront : (g.instsOf g.entry).filter (fun i => (if (g.slot i).kind.isParam then 0 else 1) < 1) =
        g.paramIds :=
      List.filter_congr fun i _ => by cases (g.slot i).kind.isParam <;> rfl
    rw [hfront] at hsplit
    exact ⟨_, hsplit.symm⟩
  bare i hi := by
    obtain ⟨hlt, hparam⟩ := hg.mem_paramIds.1 hi
    exact ((hg.param_spec hlt).1 hparam).2.2
  present i hi := by
    obtain ⟨it, -, hslot, -⟩ := hg.exists_item (hg.mem_printed.1 hi)
    rw [hslot]
    rfl
  succs_lt b t := hg.succs_lt
  preds_eq b hb := hg.preds_eq (mem_blockIds.1 hb)
  name := hg.assembled.name ▸ hg.name
  declarable := hg.assembled.fields ▸ hg.declarable
  distinct := hg.assembled.fields ▸ hg.distinct

/-- A graph that was read is printed in the order of its text, phis apart. -/
theorem Legible.ordered : g.Ordered := by
  intro i hi hphi v hv
  obtain ⟨hlt, hbefore⟩ := hg.input_lt (hg.mem_printed.1 hi) hv
  have hv : v ∈ g.printed := hg.mem_printed.2 hlt
  have hvi := hbefore hphi
  by_contra hle
  have hplace : g.printed.idxOf i ≠ g.printed.idxOf v := fun heq => by
    rw [(List.idxOf_inj hi).1 heq] at hvi
    exact Nat.lt_irrefl _ hvi
  have hlater : g.printed.idxOf i < g.printed.idxOf v := Nat.lt_of_le_of_ne (Nat.le_of_not_lt hle) hplace
  have hiv := List.pairwise_iff_getElem.1 hg.pairwise_printed _ _ (List.idxOf_lt_length_of_mem hi)
    (List.idxOf_lt_length_of_mem hv) hlater
  rw [List.getElem_idxOf, List.getElem_idxOf] at hiv
  exact Nat.lt_asymm hvi (hiv.inst_lt hphi)

end Read

end Graph

end Midend
