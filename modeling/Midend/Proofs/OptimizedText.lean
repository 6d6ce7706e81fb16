import Midend.Proofs.Frame
import Midend.Proofs.RoundTrip

/-!
# The text of optimized methods

What comes out of a checked pipeline can be printed.  The text can be read exactly when every instruction other
than a phi is printed after what it reads, and then it gives the same graph with its instructions numbered anew.

## Shape of the argument

Taking instructions out of a graph leaves the rest of it in the order of printing, with the parameters in front
(`Reduced.readable`); what is left reads nothing that is gone because the result was checked.  The order is the
only thing that may be lost, since a value can come to be read in a block that is laid out before the one it is
defined in.  Where blocks stand after the blocks that dominate them this does not happen (`WellFormed.ordered`).
-/

namespace Midend

open Source

namespace Graph

variable {g g' : Graph} {gone : List InstId} {i v : InstId} {b : BlockId}

theorem inputs_slot : (g.slot i).inputs = g.operandsOf i := by
  unfold slot operandsOf
  cases g.insts[i.index]? <;> rfl

/-! ## What is left can be written -/

section Reduced

variable (h : Reduced g gone g')
include h

theorem Reduced.phisOf : g'.phisOf b = (g.phisOf b).filter (· ∉ gone) := by
  rw [Graph.phisOf, Graph.phisOf, h.blocks]
  cases g.blocks[b.index]? <;> rfl

theorem Reduced.instsOf : g'.instsOf b = (g.instsOf b).filter (· ∉ gone) := by
  rw [Graph.instsOf, Graph.instsOf, h.blocks]
  cases g.blocks[b.index]? <;> rfl

theorem Reduced.blockIds : g'.blockIds = g.blockIds := by rw [Graph.blockIds, Graph.blockIds, h.size]

variable (hg : g.Readable)
include hg

/-- What is printed and left is the same but for its operands. -/
theorem Reduced.inst_slot (hi : i ∈ g.printed) (hgone : i ∉ gone) : g'.inst i = .ok (g'.slot i) ∧
    g'.slot i = { g.slot i with inputs := (g'.slot i).inputs } ∧
    (g'.slot i).inputs.length = (g.slot i).inputs.length := by
  obtain ⟨xs, hxs, hlength⟩ := h.kept i _ hgone (hg.inst_slot hi)
  rw [slot_eq hxs]
  exact ⟨hxs, rfl, hlength⟩

/-- Parameters are left. -/
theorem Reduced.notMem_of_paramIds (hi : i ∈ g.paramIds) : i ∉ gone := by
  intro hgone
  obtain ⟨hinst, hparam⟩ := List.mem_filter.1 hi
  have hlasting := (h.removable i hgone).not_lasting
  rw [isLasting, kind?_eq (hg.inst_slot (mem_printed_of_instsOf hinst)), Option.any_some, hparam] at hlasting
  simp at hlasting

/-- Parameters stay. -/
theorem Reduced.paramIds : g'.paramIds = g.paramIds := by
  rw [Graph.paramIds, h.entry, h.instsOf, List.filter_filter]
  refine List.filter_congr fun i hi => ?_
  by_cases hgone : i ∈ gone
  · have hparam : (g.slot i).kind.isParam = false := by
      rw [Bool.eq_false_iff]
      exact fun hparam => h.notMem_of_paramIds hg (List.mem_filter.2 ⟨hi, hparam⟩) hgone
    simp [hgone, hparam]
  · rw [(h.inst_slot hg (mem_printed_of_instsOf hi) hgone).2.1]
    simp [hgone]

/-- The lines of a block are those that are left. -/
theorem Reduced.shown : g'.shown b = (g.shown b).filter (· ∉ gone) := by
  rw [Graph.shown, Graph.shown, h.bodyOf, h.paramIds hg, List.filter_filter, List.filter_filter]
  exact List.filter_congr fun i _ => Bool.and_comm _ _

/-- What is left is printed in its order. -/
theorem Reduced.printed : g'.printed = g.printed.filter (· ∉ gone) := by
  have hparams : g.paramIds.filter (· ∉ gone) = g.paramIds :=
    List.filter_eq_self.2 fun i hi => decide_eq_true (h.notMem_of_paramIds hg hi)
  rw [Graph.printed, Graph.printed, h.paramIds hg, h.blockIds, List.filter_append, hparams, List.filter_flatMap]
  exact congrArg _ (List.flatMap_congr fun b _ => h.shown hg)

/-- What is printed afterwards was printed before and is left. -/
theorem Reduced.mem_printed : i ∈ g'.printed ↔ i ∈ g.printed ∧ i ∉ gone := by
  rw [h.printed hg, List.mem_filter, decide_eq_true_eq]

/-- What is left can be printed if it reads nothing that is gone. -/
theorem Reduced.writable (hclosed : ∀ v, g'.IsRead v → v ∈ g'.attached) : g'.Writable where
  entry := by
    rw [h.blockIds, h.entry]
    exact hg.entry
  inst b i hi := by
    rw [h.bodyOf, List.mem_filter, decide_eq_true_eq] at hi
    obtain ⟨hinst, hslot, -⟩ := h.inst_slot hg (Graph.mem_printed.2 ⟨b, hi.1⟩) hi.2
    refine ⟨hinst, ?_⟩
    rw [hslot]
    exact (hg.inst b i hi.1).2
  phis b i hi := by
    rw [h.phisOf, List.mem_filter, decide_eq_true_eq] at hi
    have hbody : i ∈ g.bodyOf b := by
      rw [bodyOf_eq_append]
      exact List.mem_append_left _ hi.1
    rw [(h.inst_slot hg (Graph.mem_printed.2 ⟨b, hbody⟩) hi.2).2.1]
    exact hg.phis b i hi.1
  insts b i hi := by
    rw [h.instsOf, List.mem_filter, decide_eq_true_eq] at hi
    obtain ⟨-, hslot, hlength⟩ := h.inst_slot hg (mem_printed_of_instsOf hi.1) hi.2
    have hsome : ((g'.slot i).inputs ≠ []) = ((g.slot i).inputs ≠ []) := by
      rw [ne_eq, ne_eq, ← List.length_eq_zero_iff, hlength, List.length_eq_zero_iff]
    rw [hsome, hslot, h.fields, h.entry]
    exact hg.insts b i hi.1
  params k i hk := by
    rw [h.paramIds hg] at hk
    have hi := List.mem_of_getElem? hk
    rw [(h.inst_slot hg (List.mem_append_left _ hi) (h.notMem_of_paramIds hg hi)).2.1]
    exact hg.params k i hk
  nodup := by
    rw [h.printed hg]
    exact hg.nodup.filter _
  closed i hi v hv := by
    rw [inputs_slot] at hv
    exact mem_printed_iff_attached.2 (hclosed v ⟨i, mem_printed_iff_attached.1 hi, hv⟩)

/-- What is left can be read back, as far as its shape goes. -/
theorem Reduced.readable (hclosed : ∀ v, g'.IsRead v → v ∈ g'.attached) : g'.Readable where
  toWritable := h.writable hg hclosed
  first := h.entry.trans hg.first
  front := by
    rw [h.paramIds hg, h.entry, h.instsOf]
    obtain ⟨rest, hrest⟩ := hg.front
    have hparams : g.paramIds.filter (· ∉ gone) = g.paramIds :=
      List.filter_eq_self.2 fun i hi => decide_eq_true (h.notMem_of_paramIds hg hi)
    rw [← hrest, List.filter_append, hparams]
    exact List.prefix_append _ _
  bare i hi := by
    rw [h.paramIds hg] at hi
    obtain ⟨-, -, hlength⟩ := h.inst_slot hg (List.mem_append_left _ hi) (h.notMem_of_paramIds hg hi)
    rwa [hg.bare i hi, List.length_nil, List.length_eq_zero_iff] at hlength
  present i hi := by
    obtain ⟨hi, hgone⟩ := (h.mem_printed hg).1 hi
    rw [(h.inst_slot hg hi hgone).2.1]
    exact hg.present i hi
  succs_lt := by
    rw [h.succs, h.size]
    exact hg.succs_lt
  preds_eq := by
    rw [h.succs, h.preds, h.blockIds]
    exact hg.preds_eq
  name := by
    rw [show g'.name = g.name from congrArg (·.1) h.declared]
    exact hg.name
  declarable := h.fields ▸ hg.declarable
  distinct := h.fields ▸ hg.distinct

/-- What is left and well formed reads nothing that is gone. -/
theorem Reduced.mem_attached_of_isRead (hw : g'.WellFormed) (hv : g'.IsRead v) : v ∈ g'.attached := by
  have hold : v ∈ g.attached := by
    rcases h.sourced v hv with ⟨i, hi, hv⟩ | ⟨⟨hatt, -⟩, -⟩
    · rw [← inputs_slot] at hv
      exact mem_printed_iff_attached.1 (hg.closed i (mem_printed_iff_attached.2 hi) v hv)
    · exact hatt
  refine h.mem_attached.2 ⟨hold, fun hgone => ?_⟩
  obtain ⟨i, hi, hv⟩ := hv
  obtain ⟨inst, hinst⟩ := h.intact.exists_inst hi
  rw [operandsOf_eq hinst] at hv
  obtain ⟨k, hk⟩ := List.mem_iff_getElem?.1 hv
  have hpresent := (hw.operand i inst k v hi hinst hk).1
  rw [h.removed v hgone] at hpresent
  cases hpresent

end Reduced

/-! ## The order of printing -/

/-- Every block can be reached, and stands after the blocks that dominate it. -/
def DominatorsFirst (g : Graph) : Prop := ∀ b ∈ g.blockIds, g.Reachable b ∧ ∀ a, g.Dom a b → a.index ≤ b.index

/-- In a well-formed graph an instruction is dominated by what it reads.  So it is printed after that if blocks
are printed after the blocks that dominate them. -/
theorem WellFormed.ordered (hw : g.WellFormed) (hc : g.Consistent) (hg : g.Readable) (hd : g.DominatorsFirst) :
    g.Ordered := by
  intro i hi hphi v hv
  obtain ⟨k, hk⟩ := List.mem_iff_getElem?.1 hv
  have hshown : ∀ {x c}, x ∈ g.bodyOf c → x ∉ g.paramIds → x ∈ g.shown c := fun hx hfree =>
    List.mem_filter.2 ⟨hx, decide_eq_true hfree⟩
  have hfree : i ∉ g.paramIds := fun hparam => by
    rw [hg.bare i hparam] at hv
    cases hv
  -- what the order says of two instructions, by where they stand
  have hpairs : g.printed.Pairwise fun x y => (g.rank x).index < (g.rank y).index := by
    rw [List.pairwise_iff_getElem]
    intro m n hm hn hmn
    simpa [rank, hg.nodup.idxOf_getElem] using hmn
  unfold printed at hpairs
  rw [List.pairwise_append, List.pairwise_flatMap] at hpairs
  obtain ⟨-, ⟨hwithin, hacross⟩, hparams⟩ := hpairs
  have hbody := hg.mem_bodyOf_home hi
  generalize g.home i = b at hbody
  obtain ⟨block, hblock, -⟩ := Graph.mem_bodyOf.1 hbody
  have hb : b ∈ g.blockIds := mem_blockIds_iff.2 ⟨block, hblock⟩
  obtain ⟨hreach, hdoms⟩ := hd b hb
  have hinst := hg.mem_instsOf hbody hphi
  rw [Graph.instsOf, block_eq_ok.1 hblock] at hinst
  obtain ⟨n, hn⟩ := List.mem_iff_getElem?.1 hinst
  obtain ⟨d, m, ⟨dblock, hdblock, hget⟩, hpos⟩ := hw.settled_operand hc hreach hblock hn (hg.inst_slot hi) hk
  have hvbody : v ∈ g.bodyOf d := Graph.mem_bodyOf.2 ⟨dblock, hdblock, List.mem_of_getElem? hget⟩
  by_cases hparam : v ∈ g.paramIds
  · exact hparams v hparam i (List.mem_flatMap.2 ⟨b, hb, hshown hbody hfree⟩)
  rcases hpos with ⟨rfl, hm⟩ | hdom
  · obtain rfl : block = dblock := Except.ok.inj (hblock.symm.trans hdblock)
    have hordered := hwithin d hb
    unfold shown at hordered
    rw [bodyOf_eq hblock, List.pairwise_filter] at hordered
    obtain ⟨hilt, higet⟩ := List.getElem?_eq_some_iff.1 ((at_iff_of_block hblock).1 (at_insts hblock hn))
    obtain ⟨hvlt, hvget⟩ := List.getElem?_eq_some_iff.1 hget
    have hvi := List.pairwise_iff_getElem.1 hordered m _ hvlt hilt hm
    rw [hvget, higet] at hvi
    exact hvi (decide_eq_true hparam) (decide_eq_true hfree)
  · have hlt : d.index < b.index :=
      Nat.lt_of_le_of_ne (hdoms d hdom.1) fun heq => hdom.2 (BlockId.index_inj.1 heq)
    unfold Graph.blockIds at hacross
    rw [List.pairwise_map] at hacross
    have hdlt := mem_blockIds.1 (mem_blockIds_iff.2 ⟨dblock, hdblock⟩)
    have hvi := List.pairwise_iff_getElem.1 hacross d.index b.index (by simpa using hdlt)
      (by simpa using mem_blockIds.1 hb) hlt
    rw [List.getElem_range, List.getElem_range] at hvi
    exact hvi v (hshown hvbody hparam) i (hshown hbody hfree)

/-- Layout and dominance, as the tree answers it. -/
theorem dominatorsFirst_of_tree {t : DomTree} (hc : g.Consistent) (ht : DomTree.ofGraph g = .ok t)
    (h : ∀ b ∈ g.blockIds, t.isReachable b = true ∧ ∀ a ∈ t.rpo, t.dominates a b = true → a.index ≤ b.index) :
    g.DominatorsFirst := by
  simp only [DomTree.isReachable_iff hc ht, DomTree.dominates_iff hc ht, DomTree.mem_rpo hc ht] at h
  exact fun b hb => ⟨(h b hb).1, fun a ha => (h b hb).2 a ha.left ha⟩

/-- The text of a graph can be read exactly when the graph is ordered, and gives the graph with new numbers. -/
theorem Readable.readMethod_iff (hg : g.Readable) (hp : g.Presentable) :
    ((∃ g', readMethod (textOf (g, fun _ => none)) = .ok g') ↔ g.Ordered) ∧
      ∀ g', readMethod (textOf (g, fun _ => none)) = .ok g' → ∃ r, g.Renumbered g' r := by
  have hsource : ∀ g', readMethod (textOf (g, fun _ => none)) = .ok g' ↔ ofSource g.sourceOf = .ok g' :=
    fun g' => hg.readMethod_textOf fun _ _ hnote => nomatch hnote
  simp only [hsource]
  refine ⟨⟨fun ⟨g', hread⟩ => ordered_of_ofSource hg hp hread, fun ho => ?_⟩, fun g' hread => ?_⟩
  · obtain ⟨g', hread, -⟩ := exists_renumbered hg ho hp
    exact ⟨g', hread⟩
  · obtain ⟨g'', hread', hr⟩ := exists_renumbered hg (ordered_of_ofSource hg hp hread) hp
    obtain rfl : g' = g'' := Except.ok.inj (hread.symm.trans hread')
    exact ⟨g.rank, hr⟩

/-- What comes out of a checked pipeline can be printed, and read back as far as its shape goes. -/
theorem Printable.of_optimize {settings : Settings} {r : Optimized} (hg : g.Printable)
    (hverify : settings.verify = true) (h : optimize g settings = .ok r) :
    r.graph.Readable ∧ r.graph.Presentable ∧ (g.DominatorsFirst → r.graph.Ordered) := by
  obtain ⟨text, gs, hread, hmem⟩ := hg.read
  obtain ⟨header, params, items, hlegible⟩ := exists_legible_of_readMethods hread hmem
  obtain ⟨gone, u, hu, hgraph, -, haccepted⟩ := exists_accounts hlegible.assembled.intact h
  have haccepted := haccepted hverify
  have hreduced := hu.reduced
  rw [hgraph] at hreduced
  have hw : r.graph.WellFormed := hreduced.intact.consistent.violations_eq_nil_iff.1 haccepted
  have hreadable := hreduced.readable hlegible.readable fun v =>
    hreduced.mem_attached_of_isRead hlegible.readable hw
  refine ⟨hreadable, hreadable.presentable haccepted (hreduced.readsValues hg.values), fun hfirst => ?_⟩
  refine hw.ordered hreduced.intact.consistent hreadable fun b hb => ?_
  rw [hreduced.blockIds] at hb
  simp only [Reachable, Dom, hreduced.succs, hreduced.entry]
  exact hfirst b hb

end Graph

/-- The text of a method that comes out of a checked pipeline can be read exactly when every instruction other
than a phi is printed after what it reads.  What is read is the method with its instructions numbered in the
order of printing.  The text can always be read if blocks can be reached and stand after those that dominate
them. -/
theorem optimized_text_read_iff_ordered {g : Graph} {settings : Settings} {r : Optimized} (hg : g.Printable)
    (hverify : settings.verify = true) (h : optimize g settings = .ok r) :
    ∃ text, r.graph.print = .ok text ∧ ((∃ g', readMethod text = .ok g') ↔ r.graph.Ordered) ∧
      (∀ g', readMethod text = .ok g' → ∃ number, r.graph.Renumbered g' number) ∧
      (g.DominatorsFirst → r.graph.Ordered) := by
  obtain ⟨hreadable, hp, hfirst⟩ := hg.of_optimize hverify h
  obtain ⟨hiff, hrenumbered⟩ := hreadable.readMethod_iff hp
  exact ⟨_, Graph.printAnnotated_eq hreadable.toWritable hp _, hiff, hrenumbered, hfirst⟩

/-- The lines of a method laid out in the order it runs in, with loads and checks made twice. -/
def readTwiceLines : List String :=
  ["method @twice(%p: ref, %c: bool) static \x7b",
   "  field @A.x : int \x7boffset = 8\x7d",
   "^in:",
   "  %n = null_check %p : ref",
   "  %a = instance_get %n \x7bfield = @A.x\x7d : int",
   "  if %c [^left, ^out]",
   "^left:",
   "  %b = instance_get %n \x7bfield = @A.x\x7d : int",
   "  %d = const \x7bvalue = 1\x7d : int",
   "  goto [^out]",
   "^out:",
   "  %v = phi [^in: %a, ^left: %b] : int",
   "  %m = null_check %p : ref",
   "  %w = instance_get %m \x7bfield = @A.x\x7d : int",
   "  %s = add %v, %w : int",
   "  return %s",
   "\x7d"]

/-- The optimized text of `readTwiceLines` is read back, with four instructions fewer. -/
theorem optimized_text_read_iff_ordered_readTwice : ∃ g r text g' number,
    readMethods (String.ofList (charsOf readTwiceLines)) = .ok [g] ∧ g.Printable ∧ g.DominatorsFirst ∧
    optimize g .default = .ok r ∧ r.stats.removals = 4 ∧
    r.graph.print = .ok text ∧ readMethod text = .ok g' ∧ r.graph.Renumbered g' number := by
  obtain ⟨g, hread, haccepted, hvalues, hfirst, hremovals⟩ := Graph.exists_of_onlyOf? (charsOf readTwiceLines)
    (fun g => g.violations = .ok [] ∧ g.ReadsValues ∧
      (DomTree.ofGraph g).toOption.any (fun t => ∀ b ∈ g.blockIds, t.isReachable b = true ∧
        ∀ a ∈ t.rpo, t.dominates a b = true → a.index ≤ b.index) = true ∧
      (optimize g .default).toOption.any (fun r => r.stats.removals = 4) = true) (by decide +kernel)
  have hg : g.Printable := ⟨⟨_, _, hread, List.mem_singleton.2 rfl⟩, haccepted, hvalues⟩
  obtain ⟨t, ht, hfirst⟩ := Checked.any_toOption.1 hfirst
  obtain ⟨r, h, hremovals⟩ := Checked.any_toOption.1 hremovals
  obtain ⟨header, params, items, hlegible⟩ :=
    Graph.exists_legible_of_readMethods hread (List.mem_singleton.2 rfl)
  have hfirst := Graph.dominatorsFirst_of_tree hlegible.assembled.intact.consistent ht
    (of_decide_eq_true hfirst)
  obtain ⟨text, hprint, hiff, hrenumbered, hordered⟩ := optimized_text_read_iff_ordered hg rfl h
  obtain ⟨g', hback⟩ := hiff.2 (hordered hfirst)
  obtain ⟨number, hr⟩ := hrenumbered g' hback
  exact ⟨g, r, text, g', number, hread, hg, hfirst, h, of_decide_eq_true hremovals, hprint, hback, hr⟩

/-- The lines of a method whose blocks run in another order than they are laid out: what is loaded in the block
laid out last is loaded again in the block laid out before it. -/
def laterLoadLines : List String :=
  ["method @later() static \x7b",
   "  field @G.x : int \x7boffset = 0, static = true\x7d",
   "^in:",
   "  goto [^first]",
   "^second:",
   "  %b = static_get \x7bfield = @G.x\x7d : int",
   "  return %b",
   "^first:",
   "  %a = static_get \x7bfield = @G.x\x7d : int",
   "  goto [^second]",
   "\x7d"]

/-- The second load gives way to the first, which is printed after the instruction that then reads it. -/
theorem laterLoad_unreadable :
    ∃ g r text, readMethods (String.ofList (charsOf laterLoadLines)) = .ok [g] ∧ g.Printable ∧
    optimize g .default = .ok r ∧ r.graph.print = .ok text ∧ ∀ g', readMethod text ≠ .ok g' := by
  obtain ⟨g, hread, haccepted, hvalues, horder⟩ := Graph.exists_of_onlyOf? (charsOf laterLoadLines)
    (fun g => g.violations = .ok [] ∧ g.ReadsValues ∧
      (optimize g .default).toOption.any (fun r => ¬ r.graph.Ordered) = true) (by decide +kernel)
  have hg : g.Printable := ⟨⟨_, _, hread, List.mem_singleton.2 rfl⟩, haccepted, hvalues⟩
  obtain ⟨r, h, horder⟩ := Checked.any_toOption.1 horder
  obtain ⟨hreadable, hp, -⟩ := hg.of_optimize rfl h
  refine ⟨g, r, _, hread, hg, h, Graph.printAnnotated_eq hreadable.toWritable hp _, fun g' hback => ?_⟩
  exact of_decide_eq_true horder ((hreadable.readMethod_iff hp).1.1 ⟨g', hback⟩)

end Midend
