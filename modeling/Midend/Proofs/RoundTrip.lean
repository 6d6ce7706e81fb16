import Midend.Proofs.Rereading
import Midend.Proofs.Transcription
import Midend.Proofs.WrittenMethods

/-!
# Printing and reading back

A graph that was read from a text, and with which the checker finds nothing wrong, is printed as a text that
can be read.  What is read is the same graph, with its instructions numbered in the order of printing, and it
is printed as the same text.

## Shape of the argument

`Renumbered` says what two graphs have in common of which one is the other read back.  The written form of a
graph does not depend on how its instructions are numbered (`Renumbered.sourceOf_eq`), so printing again gives
the text again.
-/

namespace Midend

open Source

namespace Graph

/-- A graph and the same graph with its instructions numbered anew: parameters first and then block by block,
from zero and without gaps. -/
structure Renumbered (g g' : Graph) (r : InstId → InstId) : Prop where
  name : g'.name = g.name
  isStatic : g'.isStatic = g.isStatic
  isSynchronized : g'.isSynchronized = g.isSynchronized
  fields : g'.fields = g.fields
  entry : g'.entry = g.entry
  size : g'.blocks.size = g.blocks.size
  block : ∀ b ∈ g.blockIds, ∃ block, g.block b = .ok block ∧
    g'.block b = .ok { block with phis := block.phis.map r, insts := block.insts.map r }
  inst : ∀ i ∈ g.attached, ∃ inst, g.inst i = .ok inst ∧
    g'.inst (r i) = .ok { inst with inputs := inst.inputs.map r }
  /-- What is in a block is printed, and nothing else. -/
  live : ∀ i, i ∈ g.printed ↔ i ∈ g.attached
  /-- The first instruction that is printed has the number zero, the next one the number one, and so on. -/
  order : g.printed.map r = g'.instIds

/-- A graph that was read from a text, with which the checker finds nothing wrong, and in which only values
are read. -/
structure Printable (g : Graph) : Prop where
  read : ∃ text gs, readMethods text = .ok gs ∧ g ∈ gs
  accepted : g.violations = .ok []
  values : g.ReadsValues

/-! ## What does not depend on the numbers -/

section Renumbering

variable {g g' : Graph} {r : InstId → InstId} {b : BlockId} {i j : InstId} (hr : g.Renumbered g' r)
include hr

/-- Renumbering keeps the blocks. -/
theorem Renumbered.blockIds_eq : g'.blockIds = g.blockIds := by rw [blockIds, blockIds, hr.size]

/-- Renumbering a block is renumbering what it lists. -/
theorem Renumbered.blocks_eq : g'.blocks[b.index]? =
    g.blocks[b.index]?.map fun block =>
      { block with phis := block.phis.map r, insts := block.insts.map r } := by
  by_cases hb : b ∈ g.blockIds
  · obtain ⟨block, hblock, hblock'⟩ := hr.block b hb
    rw [block_eq_ok.1 hblock, block_eq_ok.1 hblock']
    rfl
  · have hle : g.blocks.size ≤ b.index := by rwa [mem_blockIds, Nat.not_lt] at hb
    rw [Array.getElem?_eq_none hle, Array.getElem?_eq_none (hr.size ▸ hle)]
    rfl

/-- The phis of a block are renumbered. -/
theorem Renumbered.phisOf_eq : g'.phisOf b = (g.phisOf b).map r := by
  rw [phisOf, phisOf, hr.blocks_eq]
  cases g.blocks[b.index]? <;> rfl

/-- The other instructions of a block are renumbered. -/
theorem Renumbered.instsOf_eq : g'.instsOf b = (g.instsOf b).map r := by
  rw [instsOf, instsOf, hr.blocks_eq]
  cases g.blocks[b.index]? <;> rfl

/-- What a block lists is renumbered. -/
theorem Renumbered.bodyOf_eq : g'.bodyOf b = (g.bodyOf b).map r := by
  rw [bodyOf_eq_append, bodyOf_eq_append, hr.phisOf_eq, hr.instsOf_eq, List.map_append]

/-- Edges stay. -/
theorem Renumbered.succs_eq : g'.succs b = g.succs b := by
  rw [succs, succs, hr.blocks_eq]
  cases g.blocks[b.index]? <;> rfl

/-- Ways into a block stay. -/
theorem Renumbered.preds_eq : g'.preds b = g.preds b := by
  rw [preds, preds, hr.blocks_eq]
  cases g.blocks[b.index]? <;> rfl

/-- An instruction keeps all but the numbers of its operands. -/
theorem Renumbered.slot_eq (hi : i ∈ g.printed) :
    g'.slot (r i) = { g.slot i with inputs := (g.slot i).inputs.map r } := by
  obtain ⟨inst, hinst, hinst'⟩ := hr.inst i ((hr.live i).1 hi)
  rw [Graph.slot_eq hinst, Graph.slot_eq hinst']

/-- An instruction stays in its block. -/
theorem Renumbered.home_eq (hi : i ∈ g.printed) : g'.home (r i) = g.home i := by
  rw [home, hr.slot_eq hi]
  rfl

/-- An instruction leads where it led. -/
theorem Renumbered.targetsOf_eq (hi : i ∈ g.printed) : g'.targetsOf (r i) = g.targetsOf i := by
  rw [targetsOf, targetsOf, hr.slot_eq hi, hr.home_eq hi, hr.succs_eq]

/-- Different instructions get different numbers. -/
theorem Renumbered.inj (hi : i ∈ g.printed) (hj : j ∈ g.printed) (hij : r i = r j) : i = j := by
  have hnodup : (g.printed.map r).Nodup := by
    rw [hr.order, instIds]
    exact List.nodup_range.map fun m n hmn => congrArg InstId.index hmn
  exact List.inj_on_of_nodup_map hnodup hi hj hij

/-- Membership is kept. -/
theorem Renumbered.mem_map {xs : List InstId} (hxs : ∀ j ∈ xs, j ∈ g.printed) (hi : i ∈ g.printed) :
    r i ∈ xs.map r ↔ i ∈ xs := by
  refine ⟨fun h => ?_, fun h => List.mem_map_of_mem h⟩
  obtain ⟨j, hj, hji⟩ := List.mem_map.1 h
  exact hr.inj (hxs j hj) hi hji ▸ hj

/-- The place in a list is kept. -/
theorem Renumbered.idxOf_map {xs : List InstId} (hxs : ∀ j ∈ xs, j ∈ g.printed) (hi : i ∈ g.printed) :
    (xs.map r).idxOf (r i) = xs.idxOf i := by
  induction xs with
  | nil => rfl
  | cons x xs ih =>
    have ih := ih fun j hj => hxs j (List.mem_cons_of_mem _ hj)
    rw [List.map_cons]
    by_cases hx : x = i
    · rw [hx, List.idxOf_cons_self, List.idxOf_cons_self]
    · have hrx : r x ≠ r i := fun heq => hx (hr.inj (hxs x List.mem_cons_self) hi heq)
      rw [List.idxOf_cons_ne _ hx, List.idxOf_cons_ne _ hrx, ih]

/-- The parameters are renumbered. -/
theorem Renumbered.paramIds_eq : g'.paramIds = g.paramIds.map r := by
  rw [paramIds, paramIds, hr.entry, hr.instsOf_eq, List.filter_map]
  congr 1
  refine List.filter_congr fun i hi => ?_
  rw [Function.comp_apply, hr.slot_eq (mem_printed_of_instsOf hi)]

/-- A parameter stays one. -/
theorem Renumbered.mem_paramIds (hi : i ∈ g.printed) : r i ∈ g'.paramIds ↔ i ∈ g.paramIds := by
  rw [hr.paramIds_eq, hr.mem_map (fun j hj => List.mem_append_left _ hj) hi]

/-- What is printed in a block is renumbered. -/
theorem Renumbered.shown_eq : g'.shown b = (g.shown b).map r := by
  rw [shown, shown, hr.bodyOf_eq, List.filter_map]
  congr 1
  refine List.filter_congr fun i hi => ?_
  simp only [Function.comp_apply, hr.mem_paramIds (mem_printed.2 ⟨b, hi⟩)]

/-- The order of printing is renumbered. -/
theorem Renumbered.printed_eq : g'.printed = g.printed.map r := by
  have hshown : g'.shown = fun b => (g.shown b).map r := funext fun b => hr.shown_eq
  rw [printed, printed, hr.paramIds_eq, hr.blockIds_eq, hshown, List.map_append, List.map_flatMap]

/-- The values with a name are renumbered. -/
theorem Renumbered.named_eq : g'.named = g.named.map r := by
  rw [named, named, hr.printed_eq, List.filter_map]
  congr 1
  refine List.filter_congr fun i hi => ?_
  simp only [Function.comp_apply, hr.mem_paramIds hi, hr.slot_eq hi]

/-- A value keeps its name. -/
theorem Renumbered.nameOf_eq (hi : i ∈ g.printed) : g'.nameOf (r i) = g.nameOf i := by
  have hnamed : ∀ j ∈ g.named, j ∈ g.printed := fun j hj => (List.mem_filter.1 hj).1
  rw [nameOf, nameOf, hr.named_eq, hr.idxOf_map hnamed hi]

variable (hclosed : ∀ i ∈ g.printed, ∀ v ∈ (g.slot i).inputs, v ∈ g.printed)
include hclosed

/-- A line of text does not depend on the numbers. -/
theorem Renumbered.lineOf_eq (hi : i ∈ g.printed) : g'.lineOf (r i) = g.lineOf i := by
  have hinputs : ((g.slot i).inputs.map r).map g'.nameOf = (g.slot i).inputs.map g.nameOf := by
    rw [List.map_map]
    exact List.map_congr_left fun v hv => hr.nameOf_eq (hclosed i hi v hv)
  have hentries : ((g.preds (g.home i)).zip ((g.slot i).inputs.map r)).map
      (fun e => (labelOf e.1, g'.nameOf e.2)) =
      ((g.preds (g.home i)).zip (g.slot i).inputs).map fun e => (labelOf e.1, g.nameOf e.2) := by
    rw [List.zip_map_right, List.map_map]
    refine List.map_congr_left fun e he => ?_
    rw [Function.comp_apply]
    exact congrArg (Prod.mk _) (hr.nameOf_eq (hclosed i hi _ (List.of_mem_zip he).2))
  unfold lineOf
  rw [hr.slot_eq hi, hr.home_eq hi, hr.targetsOf_eq hi, hr.nameOf_eq hi, hr.preds_eq, hr.fields, hentries,
    hinputs]

/-- Both graphs have the same written form. -/
theorem Renumbered.sourceOf_eq : g'.sourceOf = g.sourceOf := by
  have hparams : (g.paramIds.map r).map (fun i => (g'.nameOf i, (g'.slot i).ty.text)) =
      g.paramIds.map fun i => (g.nameOf i, (g.slot i).ty.text) := by
    rw [List.map_map]
    refine List.map_congr_left fun i hi => ?_
    have hi : i ∈ g.printed := List.mem_append_left _ hi
    rw [Function.comp_apply, hr.nameOf_eq hi, hr.slot_eq hi]
  have hlines : ∀ b, ((g.shown b).map r).map g'.lineOf = (g.shown b).map g.lineOf := by
    intro b
    rw [List.map_map]
    exact List.map_congr_left fun i hi => hr.lineOf_eq hclosed (mem_printed_of_shown hi)
  unfold sourceOf
  simp only [hr.name, hr.isStatic, hr.isSynchronized, hr.fields, hr.blockIds_eq, hr.paramIds_eq, hparams,
    hr.shown_eq, hlines]

/-- Both graphs have the same written form with notes, if the notes go along. -/
theorem Renumbered.notedOf_eq {annotate annotate' : InstId → Option String}
    (hsame : ∀ i ∈ g.attached, annotate' (r i) = annotate i) : g'.notedOf annotate' = g.notedOf annotate := by
  unfold notedOf
  rw [hr.blockIds_eq]
  refine List.map_congr_left fun b _ => ?_
  rw [hr.shown_eq, List.map_map]
  congr 1
  refine List.map_congr_left fun i hi => ?_
  have hi := mem_printed_of_shown hi
  rw [Function.comp_apply, hr.lineOf_eq hclosed hi, hsame i ((hr.live i).1 hi)]

/-- What can be presented can be after renumbering. -/
theorem Renumbered.presentable (hp : g.Presentable) : g'.Presentable := by
  refine ⟨fun b hb => ?_, fun b => ?_, ?_⟩
  · obtain ⟨last, hlast, hcount, hothers⟩ := hp.ends b (hr.blockIds_eq ▸ hb)
    rw [hr.instsOf_eq, hr.succs_eq]
    refine ⟨r last, List.mem_map_of_mem hlast, ?_, ?_⟩
    · rw [hr.slot_eq (mem_printed_of_instsOf hlast)]
      exact hcount
    · rw [List.forall_mem_map]
      intro i hi hne
      rw [hr.slot_eq (mem_printed_of_instsOf hi)]
      exact hothers i hi fun heq => hne (congrArg r heq)
  · rw [hr.phisOf_eq, List.forall_mem_map]
    intro i hi
    have hprinted : i ∈ g.printed := mem_printed.2 ⟨b, by
      rw [bodyOf_eq_append]
      exact List.mem_append_left _ hi⟩
    rw [hr.slot_eq hprinted, hr.preds_eq]
    simpa using hp.counts b i hi
  · rw [hr.printed_eq, List.forall_mem_map]
    intro i hi
    rw [hr.slot_eq hi, List.forall_mem_map]
    intro v hv
    rw [hr.slot_eq (hclosed i hi v hv)]
    exact hp.values i hi v hv

end Renumbering

/-! ## Graphs read back -/

section Read

variable {g g' : Graph} (hg : g.Readable)
include hg

/-- The graph that is read back has the instructions in the order of printing. -/
theorem renumbered_of_assembled (hp : g.Presentable) (hg' : g'.Assembled g.header (g.printed.map g.restated)) :
    g.Renumbered g' g.rank where
  name := hg'.name
  isStatic := hg'.isStatic
  isSynchronized := hg'.isSynchronized
  fields := hg'.fields
  entry := by rw [hg'.entry, hg.first]
  size := hg'.size_blocks
  block := by
    intro b hb
    obtain ⟨block, hblock⟩ := mem_blockIds_iff.1 hb
    refine ⟨block, hblock, ?_⟩
    have hlt : b.index < g.header.size := mem_blockIds.1 hb
    rw [block_eq_ok, hg'.blocks, if_pos hlt, blockIn_restated hg hp hb, phisOf, instsOf, preds, succs,
      block_eq_ok.1 hblock]
    rfl
  inst := by
    intro i hi
    have hi := mem_printed_iff_attached.2 hi
    have hget : g.printed[(g.rank i).index]? = some i := List.getElem?_idxOf hi
    have hblock := (hg.inst _ i (hg.mem_bodyOf_home hi)).2
    have hpresent := hg.present i hi
    refine ⟨_, hg.inst_slot hi, ?_⟩
    rw [inst_eq_ok, ← Array.getElem?_toList, hg'.insts, List.map_map, List.getElem?_map, hget]
    simp only [Option.map_some, Function.comp_apply, restated, Item.inst, ← hblock, ← hpresent]
  live := fun i => mem_printed_iff_attached
  order := by
    rw [instIds, hg'.size_insts, List.length_map]
    refine List.ext_getElem (by simp) fun n hn _ => ?_
    simp [rank, hg.nodup.idxOf_getElem]

/-- The written form of a graph is read as the graph with new numbers. -/
theorem exists_renumbered (ho : g.Ordered) (hp : g.Presentable) :
    ∃ g', ofSource g.sourceOf = .ok g' ∧ g.Renumbered g' g.rank := by
  obtain ⟨g', hread, hg'⟩ := ofSource_sourceOf hg ho hp
  exact ⟨g', hread, renumbered_of_assembled hg hp hg'⟩

/-- Printing what was read back gives the text again. -/
theorem Renumbered.printAnnotated_eq {r : InstId → InstId} {annotate annotate' : InstId → Option String}
    (hr : g.Renumbered g' r) (hp : g.Presentable) (hread : ofSource g.sourceOf = .ok g')
    (hsame : ∀ i ∈ g.attached, annotate' (r i) = annotate i) :
    g'.printAnnotated annotate' = g.printAnnotated annotate := by
  obtain ⟨h', params', items', hg'⟩ := legible_of_ofSource hg.lexical_sourceOf hread
  rw [Graph.printAnnotated_eq hg'.writable (hr.presentable hg.closed hp),
    Graph.printAnnotated_eq hg.toWritable hp, hr.sourceOf_eq hg.closed, hr.notedOf_eq hg.closed hsame]

omit hg in
/-- A graph that the checker accepts and that reads values only can be presented. -/
theorem Writable.presentable (hg : g.Writable) (haccepted : g.violations = .ok []) (hvalues : g.ReadsValues) :
    g.Presentable := by
  have hblocks : ∀ b block, g.block b = .ok block →
      (∀ i ∈ block.phis, ∃ inst, g.inst i = .ok inst ∧ inst.inputs.length = block.preds.length) ∧
        g.EndsWell block := by
    intro b block hb
    obtain ⟨block', hb', -, hphis, hends⟩ := Checker.blockViolations_eq_nil.1
      ((violations_eq_nil.1 haccepted).2.1 b (mem_blockIds_iff.2 ⟨block, hb⟩))
    obtain rfl : block = block' := Except.ok.inj (hb.symm.trans hb')
    exact ⟨hphis, hends⟩
  refine ⟨fun b hb => ?_, fun b i hi => ?_, fun i hi v hv => ?_⟩
  · obtain ⟨block, hblock⟩ := mem_blockIds_iff.1 hb
    obtain ⟨-, init, last, hinsts, hinit, inst, hlast, hcount⟩ := hblocks b block hblock
    have hinstsOf : g.instsOf b = init ++ [last] := by
      rw [instsOf, block_eq_ok.1 hblock]
      exact hinsts
    have hsuccs : g.succs b = block.succs := by
      rw [succs, block_eq_ok.1 hblock]
      rfl
    rw [hinstsOf, hsuccs]
    refine ⟨last, by simp, ?_, ?_⟩
    · rw [slot_eq hlast, hcount]
    · intro i hi hne
      rcases List.mem_append.1 hi with hi | hi
      · obtain ⟨inst, hinst, hkind⟩ := hinit i hi
        rw [slot_eq hinst, hkind]
      · exact absurd (List.mem_singleton.1 hi) hne
  · obtain ⟨block, hblock, hi⟩ := Graph.mem_phisOf.1 hi
    obtain ⟨inst, hinst, hlength⟩ := (hblocks b block hblock).1 i hi
    rw [slot_eq hinst, hlength, preds, block_eq_ok.1 hblock]
    rfl
  · have hty := hvalues i (mem_printed_iff_attached.1 hi) _ (inst_eq_ok.1 (hg.inst_slot hi)) v hv
    rw [hg.ty_eq (hg.closed i hi v hv)] at hty
    exact fun hvoid => hty (congrArg _ hvoid)

end Read

/-! ## Texts -/

/-- A text that is scanned gives methods that can be written. -/
theorem lexical_of_scanMethods {text : String} {ms : List Method} (h : scanMethods text = .ok ms) :
    ∀ m ∈ ms, m.Lexical := by
  unfold scanMethods at h
  split at h
  · next hrun =>
    cases h
    exact gives_methods hrun
  · cases h

/-- A graph that was read is legible. -/
theorem exists_legible_of_readMethods {text : String} {gs : List Graph} {g : Graph}
    (hread : readMethods text = .ok gs) (hg : g ∈ gs) : ∃ h params items, g.Legible h params items := by
  obtain ⟨ms, hscan, hresolve⟩ := Checked.bind_eq_ok.1 hread
  obtain ⟨m, hm, hok⟩ := Checked.exists_of_mem_mapM hresolve hg
  exact legible_of_ofSource (lexical_of_scanMethods hscan m hm) hok

/-- What can be printed can be read back and presented, and is printed in order. -/
theorem Printable.readable {g : Graph} (hg : g.Printable) : g.Readable ∧ g.Ordered ∧ g.Presentable := by
  obtain ⟨text, gs, hread, hmem⟩ := hg.read
  obtain ⟨h, params, items, hlegible⟩ := exists_legible_of_readMethods hread hmem
  exact ⟨hlegible.readable, hlegible.ordered, hlegible.writable.presentable hg.accepted hg.values⟩

/-- The text of a graph with notes. -/
def textOf (x : Graph × (InstId → Option String)) : String :=
  String.ofList (methodChars x.1.sourceOf (x.1.notedOf x.2))

/-- A graph that can be printed is printed as its text. -/
theorem Printable.printAnnotated_eq {g : Graph} (hg : g.Printable) (annotate : InstId → Option String) :
    g.printAnnotated annotate = .ok (textOf (g, annotate)) :=
  Graph.printAnnotated_eq hg.readable.1.toWritable hg.readable.2.2 annotate

/-- The texts of graphs are scanned as their written forms, whatever the notes say. -/
theorem scanMethods_textOf {xs : List (Graph × (InstId → Option String))}
    (hlex : ∀ x ∈ xs, x.1.sourceOf.Lexical)
    (hnotes : ∀ x ∈ xs, ∀ i note, x.2 i = some note → '\n' ∉ note.toList) :
    scanMethods (String.intercalate "\n" (xs.map textOf)) = .ok (xs.map fun x => x.1.sourceOf) := by
  obtain ⟨ms, hms⟩ : ∃ ms, ms = xs.map fun x => (x.1.sourceOf, x.1.notedOf x.2) := ⟨_, rfl⟩
  have hchars : (String.intercalate "\n" (xs.map textOf)).toList =
      ['\n'].intercalate (ms.map fun m => methodChars m.1 m.2) := by
    have hsep : "\n".toList = ['\n'] := by decide
    rw [String.toList_intercalate, hsep, hms, List.map_map, List.map_map]
    exact congrArg _ (List.map_congr_left fun x _ => String.toList_ofList)
  have hrun : Scan.run methods (['\n'].intercalate (ms.map fun m => methodChars m.1 m.2)) =
      .ok (ms.map Prod.fst) [] := by
    rw [hms]
    refine run_methods ?_ ?_ ?_
    · rw [List.forall_mem_map]
      exact hlex
    · rw [List.forall_mem_map]
      exact fun x _ => sourceOf_blocks x.1 x.2
    · rw [List.forall_mem_map]
      intro x hx b hb l hl note hnote
      obtain ⟨c, -, rfl⟩ := List.mem_map.1 hb
      obtain ⟨i, -, rfl⟩ := List.mem_map.1 hl
      exact hnotes x hx i note hnote
  unfold scanMethods
  rw [hchars, hrun, hms, List.map_map]
  rfl

/-- The graph of a text that has one method. -/
def onlyOf? (chars : List Char) : Option Graph :=
  match Scan.run methods chars with
  | .ok [m] _ => (ofSource m).toOption
  | _ => none

/-- A text with one method is read as one graph. -/
theorem readMethods_of_onlyOf? {chars : List Char} {g : Graph} (h : onlyOf? chars = some g) :
    readMethods (String.ofList chars) = .ok [g] := by
  unfold onlyOf? at h
  split at h
  · next m rest hrun =>
    have hscan : scanMethods (String.ofList chars) = .ok [m] := by
      rw [scanMethods, String.toList_ofList, hrun]
    have hread : ofSource m = .ok g := by
      cases hm : ofSource m with
      | error e =>
        rw [hm] at h
        cases h
      | ok g' =>
        rw [hm] at h
        cases h
        rfl
    exact Checked.bind_eq_ok.2 ⟨[m], hscan, Checked.mapM_eq_ok.2 (.cons hread .nil)⟩
  · cases h

/-- A text is read and its graph looked at in one evaluation. -/
theorem exists_of_onlyOf? (chars : List Char) (P : Graph → Prop) [DecidablePred P]
    (h : (onlyOf? chars).any (fun g => decide (P g)) = true) :
    ∃ g, readMethods (String.ofList chars) = .ok [g] ∧ P g := by
  obtain ⟨hsome, hg⟩ := (Option.any_eq_true_iff_get _ _).1 h
  exact ⟨_, readMethods_of_onlyOf? (Option.some_get hsome).symm, of_decide_eq_true hg⟩

/-- The graphs of a text. -/
def allOf? (chars : List Char) : Option (List Graph) :=
  match Scan.run methods chars with
  | .ok ms _ => (ms.mapM ofSource).toOption
  | _ => none

/-- A text is read and its graphs looked at in one evaluation. -/
theorem exists_of_allOf? (chars : List Char) (P : List Graph → Prop) [DecidablePred P]
    (h : (allOf? chars).any (fun gs => decide (P gs)) = true) :
    ∃ gs, readMethods (String.ofList chars) = .ok gs ∧ P gs := by
  unfold allOf? at h
  split at h
  · next ms rest hrun =>
    obtain ⟨gs, hgs, hP⟩ := Checked.any_toOption.1 h
    refine ⟨gs, Checked.bind_eq_ok.2 ⟨ms, ?_, hgs⟩, of_decide_eq_true hP⟩
    rw [scanMethods, String.toList_ofList, hrun]
  · cases h

/-- What printing and reading back gives. -/
theorem Printable.readBack {g : Graph} (hg : g.Printable) : ∃ g', ofSource g.sourceOf = .ok g' ∧
    ∃ r, g.Renumbered g' r ∧ ∀ annotate annotate', (∀ i ∈ g.attached, annotate' (r i) = annotate i) →
      g'.printAnnotated annotate' = .ok (textOf (g, annotate)) := by
  obtain ⟨hreadable, hordered, hp⟩ := hg.readable
  obtain ⟨g', hread, hr⟩ := exists_renumbered hreadable hordered hp
  refine ⟨g', hread, g.rank, hr, fun annotate annotate' hsame => ?_⟩
  rw [hr.printAnnotated_eq hreadable hp hread hsame, hg.printAnnotated_eq]

/-- Reading the text of a graph is reading its written form, whatever the notes are. -/
theorem Readable.readMethod_textOf {g g' : Graph} {annotate : InstId → Option String} (hg : g.Readable)
    (hnotes : ∀ i note, annotate i = some note → '\n' ∉ note.toList) :
    readMethod (textOf (g, annotate)) = .ok g' ↔ ofSource g.sourceOf = .ok g' := by
  have hscan : scanMethods (textOf (g, annotate)) = .ok [g.sourceOf] := by
    have hone : scanMethods (String.intercalate "\n" ([(g, annotate)].map textOf)) = .ok [g.sourceOf] :=
      scanMethods_textOf (List.forall_mem_singleton.2 hg.lexical_sourceOf) (List.forall_mem_singleton.2 hnotes)
    simpa using hone
  have hmethods : ∀ gs, readMethods (textOf (g, annotate)) = .ok gs ↔
      ∃ g', ofSource g.sourceOf = .ok g' ∧ gs = [g'] := by
    intro gs
    simp only [readMethods, Checked.bind_eq_ok, hscan, Except.ok.injEq, exists_eq_left', Checked.mapM_eq_ok,
      List.forall₂_cons_left_iff, List.forall₂_nil_left_iff, existsAndEq, true_and]
  simp only [readMethod, Checked.bind_eq_ok, hmethods]
  constructor
  · rintro ⟨_, ⟨g'', hread, rfl⟩, h⟩
    rwa [Except.ok.inj h] at hread
  · exact fun hread => ⟨_, ⟨g', hread, rfl⟩, rfl⟩

/-- The texts of graphs, one after the other, are scanned as their written forms. -/
theorem scanMethods_print {gs : List Graph} (hgs : ∀ g ∈ gs, g.Printable) :
    scanMethods (String.intercalate "\n" (gs.map fun g => textOf (g, fun _ => none))) =
      .ok (gs.map sourceOf) := by
  have hall : scanMethods (String.intercalate "\n" ((gs.map fun g => (g, fun _ => none)).map textOf)) =
      .ok ((gs.map fun g => (g, fun _ => none)).map fun x : Graph × (InstId → Option String) =>
        x.1.sourceOf) := by
    refine scanMethods_textOf (List.forall_mem_map.2 fun g hg => (hgs g hg).readable.1.lexical_sourceOf) ?_
    rw [List.forall_mem_map]
    intro g _ i note hnote
    cases hnote
  rwa [List.map_map, List.map_map] at hall

/-- Graphs are printed one after the other. -/
theorem printMethods_eq {gs : List Graph} {texts : List String}
    (h : List.Forall₂ (fun g text => g.print = .ok text) gs texts) :
    printMethods gs = .ok (String.intercalate "\n" texts) :=
  Checked.bind_eq_ok.2 ⟨texts, Checked.mapM_eq_ok.2 h, rfl⟩

end Graph

/-- Graphs are read back from their texts, with their instructions numbered in the order of printing, whatever
notes stand in the text.  What is read back is printed as the same text. -/
theorem printed_methods_read_back :
    (∀ (g : Graph) (annotate : InstId → Option String), g.Printable →
      (∀ i note, annotate i = some note → '\n' ∉ note.toList) →
      ∃ text g' r, g.printAnnotated annotate = .ok text ∧ readMethod text = .ok g' ∧ g.Renumbered g' r ∧
        ∀ annotate', (∀ i ∈ g.attached, annotate' (r i) = annotate i) →
          g'.printAnnotated annotate' = .ok text) ∧
    ∀ gs : List Graph, (∀ g ∈ gs, g.Printable) →
      ∃ text gs', printMethods gs = .ok text ∧ readMethods text = .ok gs' ∧
        List.Forall₂ (fun g g' => ∃ r, g.Renumbered g' r) gs gs' ∧ printMethods gs' = .ok text := by
  refine ⟨fun g annotate hg hnotes => ?_, fun gs hgs => ?_⟩
  · obtain ⟨g', hread, r, hr, hagain⟩ := hg.readBack
    exact ⟨_, g', r, hg.printAnnotated_eq annotate, (hg.readable.1.readMethod_textOf hnotes).2 hread,
      hr, hagain annotate⟩
  · -- each graph has a graph that is read back for it, so the lists go along in step
    have hprint : ∀ g ∈ gs, g.print = .ok (Graph.textOf (g, fun _ => none)) := fun g hg =>
      (hgs g hg).printAnnotated_eq _
    choose! f hread r hr hagain using fun g hg => (hgs g hg).readBack
    refine ⟨_, gs.map f, Graph.printMethods_eq ?_,
      Checked.bind_eq_ok.2 ⟨_, Graph.scanMethods_print hgs, ?_⟩, ?_, Graph.printMethods_eq ?_⟩
    · exact List.forall₂_map_right_iff.2 (List.forall₂_same.2 hprint)
    · rw [Checked.mapM_eq_ok, List.forall₂_map_left_iff, List.forall₂_map_right_iff, List.forall₂_same]
      exact hread
    · rw [List.forall₂_map_right_iff, List.forall₂_same]
      exact fun g hg => ⟨r g, hr g hg⟩
    · rw [List.forall₂_map_left_iff, List.forall₂_map_right_iff, List.forall₂_same]
      exact fun g hg => hagain g hg _ _ fun _ _ => rfl

/-- The text that some lines make up. -/
def charsOf (lines : List String) : List Char := lines.flatMap fun line => line.toList ++ ['\n']

/-- The lines of a method in which a branch goes to one block twice, and a phi stands after another
instruction. -/
def joinTwiceLines : List String :=
  ["method @join(%c: bool, %n: ref) static \x7b",
   "  field @G.x : long \x7boffset = 8, static = true\x7d",
   "  field @N.y : ref \x7boffset = 16, volatile = true\x7d",
   "^in:",
   "  %lo = const \x7bvalue = -9223372036854775808\x7d : long",
   "  %hi = const \x7bvalue = 9223372036854775807\x7d : long",
   "  if %c [^out, ^out]",
   "^out:",
   "  fence %lo, %hi",
   "  %v = phi [^in: %hi, ^in: %lo] : long",
   "  %m = instance_get %n \x7bfield = @N.y\x7d : ref",
   "  static_set %v \x7bfield = @G.x\x7d",
   "  %r = invoke_virtual %m, %v \x7bmethod = @N.f\x7d : int",
   "  return %r",
   "\x7d"]

def joinTwice : Graph := (Graph.onlyOf? (charsOf joinTwiceLines)).getD (Graph.new "")

/-- A note on the phi, with signs that the text of a method is made of. -/
def joinTwiceNote (i : InstId) : Option String := if i = ⟨6⟩ then some "%v = phi [^in: %lo] \x7d" else none

/-- The method is read, accepted and reads values only, and the phi is printed before the instruction it
stands after. -/
theorem joinTwice_spec : Graph.onlyOf? (charsOf joinTwiceLines) = some joinTwice ∧
    joinTwice.violations = .ok [] ∧
    joinTwice.ReadsValues ∧ joinTwice.printed = [0, 1, 2, 3, 4, 6, 5, 7, 8, 9, 10].map InstId.mk := by
  -- one evaluation for all of it, since the text is read each time
  have hcheck : (Graph.onlyOf? (charsOf joinTwiceLines)).any
      (fun g => decide (g.violations = .ok [] ∧ g.ReadsValues ∧
      g.printed = [0, 1, 2, 3, 4, 6, 5, 7, 8, 9, 10].map InstId.mk)) = true := by decide +kernel
  unfold joinTwice
  generalize Graph.onlyOf? (charsOf joinTwiceLines) = read at hcheck
  cases read with
  | none => cases hcheck
  | some g => exact ⟨rfl, of_decide_eq_true hcheck⟩

/-- The note stays on its line. -/
theorem notMem_joinTwiceNote : ∀ i note, joinTwiceNote i = some note → '\n' ∉ note.toList := by
  intro i note hnote
  unfold joinTwiceNote at hnote
  split at hnote
  · cases hnote
    decide +kernel
  · cases hnote

/-- The method with its note is printed and read back, alone and next to itself. -/
theorem printed_methods_read_back_joinTwice :
    joinTwice.Printable ∧
    (∀ i note, joinTwiceNote i = some note → '\n' ∉ note.toList) ∧
    joinTwice.printed = [0, 1, 2, 3, 4, 6, 5, 7, 8, 9, 10].map InstId.mk ∧
    (∃ text g' r, joinTwice.printAnnotated joinTwiceNote = .ok text ∧ readMethod text = .ok g' ∧
      joinTwice.Renumbered g' r ∧
      ∀ annotate', (∀ i ∈ joinTwice.attached, annotate' (r i) = joinTwiceNote i) →
        g'.printAnnotated annotate' = .ok text) ∧
    ∃ text gs', printMethods [joinTwice, joinTwice] = .ok text ∧ readMethods text = .ok gs' ∧
      List.Forall₂ (fun g g' => ∃ r, g.Renumbered g' r) [joinTwice, joinTwice] gs' ∧
      printMethods gs' = .ok text := by
  obtain ⟨hread, haccepted, hvalues, horder⟩ := joinTwice_spec
  have hprintable : joinTwice.Printable :=
    ⟨⟨_, _, Graph.readMethods_of_onlyOf? hread, List.mem_singleton.2 rfl⟩, haccepted, hvalues⟩
  have hboth : ∀ g ∈ [joinTwice, joinTwice], g.Printable :=
    List.forall_mem_cons.2 ⟨hprintable, List.forall_mem_singleton.2 hprintable⟩
  refine ⟨hprintable, notMem_joinTwiceNote, horder, ?_, ?_⟩
  · exact printed_methods_read_back.1 joinTwice joinTwiceNote hprintable notMem_joinTwiceNote
  · exact printed_methods_read_back.2 [joinTwice, joinTwice] hboth

end Midend
