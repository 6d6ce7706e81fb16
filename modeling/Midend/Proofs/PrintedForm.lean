import Midend.Proofs.Layout
import Midend.Proofs.WellFormed
import Midend.Text.Print

/-!
# What is printed

The text of a graph is the text of a written form: the names of values are numbers in the order of printing,
and the names of blocks are their numbers.

## Shape of the argument

`sourceOf` is the written form.  Each part of the text is compared with the text of the same part of the
written form, from names to lines to the whole method (`printAnnotated_eq`).  What the written form needs to
be scanned, `Readable.lexical_sourceOf`, follows from the graph being `Readable`.
-/

namespace Midend

open Source

namespace Graph

/-! ## The written form of a graph -/

/-- A block's label. -/
def labelOf (b : BlockId) : String := "bb" ++ toString b.index

/-- A value's name. -/
def nameOf (g : Graph) (i : InstId) : String := toString (g.named.idxOf i)

/-- The blocks that an instruction is printed with. -/
def targetsOf (g : Graph) (i : InstId) : List BlockId :=
  match (g.slot i).kind with
  | .jump | .branch => g.succs (g.home i)
  | _ => []

def lineOf (g : Graph) (i : InstId) : Line where
  result := if (g.slot i).ty = .void then none else some (g.nameOf i)
  op := (g.slot i).kind.mnemonic
  operands := if (g.slot i).kind.isPhi then [] else (g.slot i).inputs.map g.nameOf
  phiEntries :=
    if (g.slot i).kind.isPhi then
      ((g.preds (g.home i)).zip (g.slot i).inputs).map fun e => (labelOf e.1, g.nameOf e.2)
    else []
  succs := (g.targetsOf i).map labelOf
  attrs := (g.slot i).kind.attrs g.fields
  ty := if (g.slot i).ty = .void then none else some (g.slot i).ty.text

/-- The written form of a graph. -/
def sourceOf (g : Graph) : Method where
  name := g.name
  params := g.paramIds.map fun i => (g.nameOf i, (g.slot i).ty.text)
  isStatic := g.isStatic
  isSynchronized := g.isSynchronized
  fields := g.fields.toList.map Field.decl
  blocks := g.blockIds.map fun b => ⟨labelOf b, (g.shown b).map g.lineOf⟩

/-- The blocks of the written form, with a note for each instruction. -/
def notedOf (g : Graph) (annotate : InstId → Option String) : List NotedBlock :=
  g.blockIds.map fun b => (labelOf b, (g.shown b).map fun i => (g.lineOf i, annotate i))

/-- Notes aside, the blocks with notes are those of the written form. -/
theorem sourceOf_blocks (g : Graph) (annotate : InstId → Option String) :
    g.sourceOf.blocks = (g.notedOf annotate).map NotedBlock.block := by
  simp [sourceOf, notedOf, NotedBlock.block]

/-- Blocks end well, phis have an operand for each predecessor, and only values are read. -/
structure Presentable (g : Graph) : Prop where
  ends : ∀ b ∈ g.blockIds, ∃ last ∈ g.instsOf b, (g.slot last).kind.successorCount? = some (g.succs b).length ∧
    ∀ i ∈ g.instsOf b, i ≠ last → (g.slot i).kind.isTerminator = false
  counts : ∀ b, ∀ i ∈ g.phisOf b, (g.slot i).inputs.length = (g.preds b).length
  values : ∀ i ∈ g.printed, ∀ v ∈ (g.slot i).inputs, (g.slot v).ty ≠ .void

/-! ## Names and lists -/

/-- Names are numbers in the order given. -/
theorem value_ofOrder {order : List InstId} {i : InstId} (horder : order.Nodup) (hi : i ∈ order) :
    (Names.ofOrder order).value i = "%" ++ toString (order.idxOf i) := by
  have hget : (Names.ofOrder order).numbers.get i.index = some (order.idxOf i) := by
    have hmem : (i, order.idxOf i) ∈ order.zipIdx := by
      rw [List.mk_mem_zipIdx_iff_getElem?]
      exact List.getElem?_idxOf hi
    refine Table.get_foldl_set_of_mem (k := fun p : InstId × Nat => p.1.index) (v := fun p => some p.2) hmem ?_
    rintro ⟨j, n⟩ hj hij
    have hget := List.mk_mem_zipIdx_iff_getElem?.1 hj
    obtain ⟨hlt, heq⟩ := List.getElem?_eq_some_iff.1 hget
    obtain rfl : j = i := InstId.index_inj.1 hij
    simp only [Option.some.injEq]
    rw [← heq, horder.idxOf_getElem]
  rw [Names.value, hget]

/-- Parts with commas between them, character by character. -/
theorem toList_commaSeparated (parts : List String) :
    (commaSeparated parts).toList = commas (parts.map String.toList) := by
  rw [commaSeparated, String.toList_intercalate]
  rfl

/-- The label of a block, character by character. -/
theorem toList_text (b : BlockId) : b.text.toList = labelChars (labelOf b) := by
  simp [BlockId.text, labelChars, labelOf]

/-! ## Lines -/

section Parts

variable {g : Graph} {i : InstId}

/-- A text is known by its characters. -/
theorem ok_eq_ofList {t : String} {cs : List Char} (h : t.toList = cs) :
    (.ok t : Checked String) = .ok (String.ofList cs) := by
  rw [← h, String.ofList_toList]

/-- The attributes of a kind are printed if the field that it names is there. -/
theorem attrText_eq {k : Kind} (hk : ∀ f, k.field? = some f → f.index < g.fields.size) :
    g.attrText k =
      .ok (String.ofList (if k.attrs g.fields = [] then [] else ' ' :: dictChars (k.attrs g.fields))) := by
  have hfield : ∀ f : FieldId, f.index < g.fields.size →
      (do return " \x7bfield = @" ++ (← g.field f).qualified ++ "\x7d" : Checked String) =
        .ok (String.ofList (' ' :: dictChars
          [("field", .symbol ((g.fields[f.index]?.map Field.qualified).getD ""))])) := by
    intro f hf
    have hget : g.field f = .ok g.fields[f.index] := by
      rw [Graph.field, Array.getElem?_eq_getElem hf]
      rfl
    rw [hget, Array.getElem?_eq_getElem hf]
    apply ok_eq_ofList
    simp [dictChars, commas, entryChars, Attr.chars]
  cases k with
  | const v =>
    apply ok_eq_ofList
    simp [Kind.attrs, dictChars, commas, entryChars, Attr.chars]
  | newInstance c =>
    apply ok_eq_ofList
    simp [Kind.attrs, dictChars, commas, entryChars, Attr.chars]
  | newArray t =>
    apply ok_eq_ofList
    simp [Kind.attrs, dictChars, commas, entryChars, Attr.chars]
  | invoke mode m =>
    apply ok_eq_ofList
    simp [Kind.attrs, dictChars, commas, entryChars, Attr.chars]
  | instanceGet f => exact hfield f (hk f rfl)
  | instanceSet f => exact hfield f (hk f rfl)
  | staticGet f => exact hfield f (hk f rfl)
  | staticSet f => exact hfield f (hk f rfl)
  | _ => rfl

/-- A phi's operands are paired with the predecessors. -/
theorem toList_phiText {names : Names} {name : InstId → String} {inputs : List InstId} {preds : List BlockId}
    (hnames : ∀ v ∈ inputs, (names.value v).toList = valueChars (name v))
    (hlength : inputs.length = preds.length) :
    (phiText names inputs preds).toList = " [".toList ++
      commas ((preds.zip inputs).map fun e => phiEntryChars (labelOf e.1, name e.2)) ++ [']'] := by
  unfold phiText
  rw [String.toList_append, String.toList_append, toList_commaSeparated]
  refine congrArg (fun parts => " [".toList ++ commas parts ++ [']']) (List.ext_getElem ?_ fun n hn hn' => ?_)
  · simp [hlength]
  · have hinput : n < inputs.length := by simpa using hn
    have hpred : n < preds.length := hlength ▸ hinput
    simp [List.getElem?_eq_getElem hpred, hnames _ (List.getElem_mem hinput), phiEntryChars, toList_text]

/-- Operands, character by character. -/
theorem toList_operandText {names : Names} {name : InstId → String} {inputs : List InstId}
    (hnames : ∀ v ∈ inputs, (names.value v).toList = valueChars (name v)) :
    (operandText names inputs).toList =
      if inputs = [] then [] else ' ' :: commas ((inputs.map name).map valueChars) := by
  cases inputs with
  | nil => rfl
  | cons v vs =>
    have hparts : ((v :: vs).map names.value).map String.toList = ((v :: vs).map name).map valueChars := by
      rw [List.map_map, List.map_map]
      exact List.map_congr_left hnames
    rw [if_neg (List.cons_ne_nil _ _), operandText, String.toList_append, toList_commaSeparated, hparts]
    · rfl
    · exact List.cons_ne_nil _ _

/-- Successors, character by character; an instruction that leads nowhere has none. -/
theorem toList_succText (hblock : (g.slot i).block = some (g.home i))
    (hne : (g.slot i).kind = .jump ∨ (g.slot i).kind = .branch → g.succs (g.home i) ≠ []) :
    (g.succText (g.slot i)).toList = if g.targetsOf i = [] then [] else
      " [".toList ++ commas (((g.targetsOf i).map labelOf).map labelChars) ++ [']'] := by
  have hlist : ∀ ts : List BlockId, (" [" ++ commaSeparated (ts.map BlockId.text) ++ "]").toList =
      " [".toList ++ commas ((ts.map labelOf).map labelChars) ++ [']'] := by
    intro ts
    rw [String.toList_append, String.toList_append, toList_commaSeparated, List.map_map, List.map_map]
    refine congrArg (fun parts => " [".toList ++ commas parts ++ [']']) ?_
    exact List.map_congr_left fun t _ => toList_text t
  cases hk : (g.slot i).kind with
  | jump =>
    simp only [succText, targetsOf, hk, hblock, Option.map_some, Option.getD_some]
    rw [if_neg (hne (.inl hk)), hlist]
  | branch =>
    simp only [succText, targetsOf, hk, hblock, Option.map_some, Option.getD_some]
    rw [if_neg (hne (.inr hk)), hlist]
  | _ =>
    simp only [succText, targetsOf, hk]
    rfl

end Parts

/-! ## Methods -/

section Write

variable {g : Graph} {i v : InstId} {b : BlockId} (hg : g.Writable)
include hg

/-- An instruction that is printed names a field that is there. -/
theorem Writable.field_lt (hi : i ∈ g.shown b) {f : FieldId} (hf : (g.slot i).kind.field? = some f) :
    f.index < g.fields.size := by
  rcases hg.expressible hi with hphi | hexpr
  · rw [hphi] at hf
    cases hf
  · exact hexpr.field_lt hf

/-- No value has two names. -/
theorem Writable.nodup_named : g.named.Nodup := hg.nodup.filter _

variable (hp : g.Presentable)
include hp

/-- What is read has a name. -/
theorem Presentable.input_named (hi : i ∈ g.printed) (hv : v ∈ (g.slot i).inputs) : v ∈ g.named := by
  unfold named
  rw [List.mem_filter, decide_eq_true_eq]
  exact ⟨hg.closed i hi v hv, .inr (hp.values i hi v hv)⟩

/-- Only the last instruction of a block has successors. -/
theorem Presentable.length_succs (hi : i ∈ g.printed) {n : Nat}
    (hn : (g.slot i).kind.successorCount? = some n) : (g.succs (g.home i)).length = n := by
  have hphi : (g.slot i).kind.isPhi = false := by
    cases hk : (g.slot i).kind with
    | phi => rw [hk] at hn; cases hn
    | _ => rfl
  obtain ⟨b, hi⟩ := mem_printed.1 hi
  obtain ⟨block, hblock, -⟩ := Graph.mem_bodyOf.1 hi
  obtain ⟨last, -, hcount, hothers⟩ := hp.ends b (mem_blockIds_iff.2 ⟨block, hblock⟩)
  rw [hg.home_eq hi]
  by_cases hlast : i = last
  · subst hlast
    rw [hn] at hcount
    exact (Option.some.inj hcount).symm
  · have := hothers i (hg.mem_instsOf hi hphi) hlast
    rw [Kind.isTerminator, hn] at this
    cases this

/-- A terminator is printed with as many blocks as it asks for. -/
theorem Presentable.length_targetsOf (hi : i ∈ g.printed) {n : Nat}
    (hn : (g.slot i).kind.successorCount? = some n) : (g.targetsOf i).length = n := by
  have hlength := hp.length_succs hg hi hn
  unfold targetsOf
  cases hk : (g.slot i).kind with
  | jump => exact hlength
  | branch => exact hlength
  | ret => rw [hk] at hn; exact Option.some.inj hn
  | retVoid => rw [hk] at hn; exact Option.some.inj hn
  | raise => rw [hk] at hn; exact Option.some.inj hn
  | _ => rw [hk] at hn; cases hn

/-- The successors that are printed are those of the line. -/
theorem toList_succText_eq (hi : i ∈ g.shown b) :
    (g.succText (g.slot i)).toList = (g.lineOf i).succChars := by
  obtain ⟨hbody, -⟩ := List.mem_filter.1 hi
  have hne : (g.slot i).kind = .jump ∨ (g.slot i).kind = .branch → g.succs (g.home i) ≠ [] := by
    intro hkind hnil
    have hcount : ∃ n, (g.slot i).kind.successorCount? = some (n + 1) := by
      rcases hkind with hkind | hkind <;> rw [hkind] <;> exact ⟨_, rfl⟩
    obtain ⟨n, hn⟩ := hcount
    have hlength := hp.length_succs hg (mem_printed_of_shown hi) hn
    rw [hnil] at hlength
    cases hlength
  have hblock : (g.slot i).block = some (g.home i) := by rw [hg.home_eq hbody, (hg.inst b i hbody).2]
  rw [toList_succText hblock hne]
  simp only [Line.succChars, lineOf, List.map_eq_nil_iff]

variable {names : Names} (hnames : ∀ v ∈ g.named, (names.value v).toList = valueChars (g.nameOf v))
include hnames

/-- The arguments that are printed are those of the line, entries of a phi or operands. -/
theorem toList_arguments (hi : i ∈ g.shown b) :
    (if (g.slot i).kind.isPhi then phiText names (g.slot i).inputs (((g.slot i).block.map g.preds).getD [])
      else operandText names (g.slot i).inputs).toList = (g.lineOf i).argumentChars := by
  obtain ⟨hbody, -⟩ := List.mem_filter.1 hi
  have hinputs : ∀ v ∈ (g.slot i).inputs, (names.value v).toList = valueChars (g.nameOf v) := fun v hv =>
    hnames v (hp.input_named hg (mem_printed_of_shown hi) hv)
  unfold Line.argumentChars lineOf
  rcases hg.expressible hi with hphi | hexpr
  · rw [hg.home_eq hbody]
    have hlength : (g.slot i).inputs.length = (g.preds b).length :=
      hp.counts b i (hg.mem_phisOf hbody (by rw [hphi]; rfl))
    simp only [hphi, Kind.isPhi, if_true, Kind.mnemonic, (hg.inst b i hbody).2, Option.map_some,
      Option.getD_some]
    rw [toList_phiText hinputs hlength, List.map_map]
    rfl
  · simp only [hexpr.isPhi_eq_false, Bool.false_eq_true, if_false, hexpr.mnemonic_ne, List.map_eq_nil_iff]
    exact toList_operandText hinputs

/-- An instruction is printed as its line. -/
theorem instText_eq (hi : i ∈ g.shown b) : g.instText names i = .ok (String.ofList (g.lineOf i).chars) := by
  have hprinted := mem_printed_of_shown hi
  have hresult : (if (g.slot i).ty = .void then "" else names.value i ++ " = ").toList =
      (g.lineOf i).resultChars := by
    unfold lineOf Line.resultChars
    by_cases hty : (g.slot i).ty = .void
    · simp [hty]
    · have hnamed : i ∈ g.named := List.mem_filter.2 ⟨hprinted, by simp [hty]⟩
      simp [hty, hnames i hnamed]
  have hty : (if (g.slot i).ty = .void then "" else " : " ++ (g.slot i).ty.text).toList =
      (g.lineOf i).tyChars := by
    unfold lineOf Line.tyChars
    by_cases hty : (g.slot i).ty = .void
    · simp [hty]
    · simp [hty]
  simp only [instText, Checked.bind_eq_ok, Checked.pure_eq_ok]
  refine ⟨g.slot i, hg.inst_slot hprinted, _, attrText_eq fun f => hg.field_lt hi, ?_⟩
  rw [← String.toList_inj]
  simp only [String.toList_append, String.toList_ofList, hresult, hty, toList_arguments hg hp hnames hi,
    toList_succText_eq hg hp hi, List.append_assoc]
  rfl

/-- An instruction with its note is printed as its line with the note. -/
theorem lineText_eq (annotate : InstId → Option String) (hi : i ∈ g.shown b) :
    g.lineText names annotate i = .ok (String.ofList (lineChars (g.lineOf i, annotate i))) := by
  simp only [lineText, Checked.bind_eq_ok, Checked.pure_eq_ok]
  refine ⟨_, instText_eq hg hp hnames hi, ?_⟩
  rw [← String.toList_inj]
  unfold lineChars noteChars
  cases annotate i with
  | none => simp
  | some note => simp

/-- A block is printed as its label and its lines. -/
theorem blockText_eq (annotate : InstId → Option String) (b : BlockId) :
    (do
      let lines ← (g.shown b).mapM (g.lineText names annotate)
      return b.text ++ ":\n" ++ String.join lines) =
      (.ok (String.ofList (blockChars (labelOf b, (g.shown b).map fun i => (g.lineOf i, annotate i)))) :
        Checked String) := by
  have hlines := Checked.mapM_eq_ok_map fun i (hi : i ∈ g.shown b) => lineText_eq hg hp hnames annotate hi
  rw [hlines]
  apply ok_eq_ofList
  rw [String.toList_append, String.toList_append, toList_text, String.toList_join, blockChars,
    List.append_assoc]
  congr 2
  rw [List.flatMap_map, List.flatMap_map]
  exact List.flatMap_congr fun i _ => String.toList_ofList

end Write

section Whole

/-- Parameters have names, and other values if they are not void. -/
theorem named_eq (g : Graph) : g.named =
    g.paramIds ++ g.attached.filter fun i => !g.paramIds.contains i && decide ((g.slot i).ty ≠ .void) := by
  have hshown : ∀ b, (g.shown b).filter (fun i => i ∈ g.paramIds ∨ (g.slot i).ty ≠ .void) =
      (g.bodyOf b).filter fun i => !g.paramIds.contains i && decide ((g.slot i).ty ≠ .void) := by
    intro b
    rw [shown, List.filter_filter]
    refine List.filter_congr fun i _ => ?_
    by_cases hparam : i ∈ g.paramIds <;> simp [hparam]
  rw [named, printed, List.filter_append, attached_eq_flatMap, List.filter_flatMap, List.filter_flatMap]
  congr 1
  · exact List.filter_eq_self.2 fun i hi => by simp [hi]
  · exact List.flatMap_congr fun b _ => hshown b

/-- A field is printed as its declaration. -/
theorem toList_fieldText (f : Field) : (fieldText f).toList = fieldChars f.decl := by
  have hoffset : toString (f.offset : Int) = toString f.offset := rfl
  unfold fieldText fieldChars fieldBody Field.decl dictChars
  cases f.isStatic <;> cases f.isVolatile <;>
    simp [commas, entryChars, Attr.chars, hoffset, List.intercalate_cons_cons]

variable {g : Graph} (hg : g.Writable)
include hg

/-- The parameters are listed by their numbers. -/
theorem Writable.parameters_eq : g.parameters = .ok g.paramIds := by
  obtain ⟨block, hblock⟩ := mem_blockIds_iff.1 hg.entry
  have hinsts : g.instsOf g.entry = block.insts := by
    rw [instsOf, block_eq_ok.1 hblock]
    rfl
  have hindexed : ∀ number : InstId → Nat,
      block.insts.filterMap (fun i => if (g.slot i).kind.isParam then some (number i, i) else none) =
        g.paramIds.map fun i => (number i, i) := by
    intro number
    rw [paramIds, hinsts]
    induction block.insts with
    | nil => rfl
    | cons i is ih => by_cases hparam : (g.slot i).kind.isParam = true <;> simp [hparam, ih]
  have hnodup : g.paramIds.Nodup := hg.nodup.sublist (List.sublist_append_left _ _)
  have hsorted : (g.paramIds.map fun i => (g.paramIds.idxOf i, i)).Pairwise
      fun a b => decide (a.1 ≤ b.1) = true := by
    rw [List.pairwise_map, List.pairwise_iff_getElem]
    intro m n hm hn hmn
    rw [hnodup.idxOf_getElem, hnodup.idxOf_getElem]
    exact decide_eq_true (Nat.le_of_lt hmn)
  simp only [parameters, Checked.bind_eq_ok, Checked.pure_eq_ok]
  refine ⟨block, hblock, _, Checked.filterMapM_eq_ok.2 ⟨_, fun i hi => ?step, hindexed g.paramIds.idxOf⟩, ?_⟩
  case step =>
    have hinst : i ∈ g.instsOf g.entry := hinsts ▸ hi
    have hkind : g.kind i = .ok (g.slot i).kind := by
      rw [Graph.kind, hg.inst_slot (mem_printed_of_instsOf hinst)]
      rfl
    rw [hkind]
    by_cases hparam : (g.slot i).kind.isParam = true
    · have hmem : i ∈ g.paramIds := List.mem_filter.2 ⟨hinst, hparam⟩
      rw [if_pos hparam, hg.params _ i (List.getElem?_idxOf hmem)]
      rfl
    · rw [if_neg hparam]
      cases hk : (g.slot i).kind with
      | param n => rw [hk] at hparam; exact absurd rfl hparam
      | _ => rfl
  rw [List.mergeSort_of_pairwise hsorted, List.map_map]
  exact List.map_id _

/-- What is printed has a type. -/
theorem Writable.ty_eq {i : InstId} (hi : i ∈ g.printed) : g.ty i = .ok (g.slot i).ty := by
  rw [Graph.ty, hg.inst_slot hi]
  rfl

/-- The values with a name are found without a fault. -/
theorem defined_eq : g.attached.filterM (fun i => return !g.paramIds.contains i && (← g.ty i) ≠ Ty.void) =
    .ok (g.attached.filter fun i => !g.paramIds.contains i && decide ((g.slot i).ty ≠ .void)) := by
  refine Checked.filterM_eq_ok_filter fun i hi => ?_
  rw [hg.ty_eq (mem_printed_iff_attached.2 hi)]
  rfl

variable {names : Names} (hnames : ∀ v ∈ g.named, (names.value v).toList = valueChars (g.nameOf v))
include hnames

/-- The parameters are printed with their types. -/
theorem paramTexts_eq : g.paramIds.mapM (fun p => return names.value p ++ ": " ++ (← g.ty p).text) =
    .ok (g.paramIds.map fun p => String.ofList (paramChars (g.nameOf p, (g.slot p).ty.text))) := by
  refine Checked.mapM_eq_ok_map fun p hparam => ?_
  have hnamed : p ∈ g.named := by
    rw [named_eq]
    exact List.mem_append_left _ hparam
  rw [hg.ty_eq (List.mem_append_left _ hparam)]
  apply ok_eq_ofList
  simp [paramChars, hnames p hnamed]

/-- The blocks are printed one after the other. -/
theorem blockTexts_eq (hp : g.Presentable) (annotate : InstId → Option String) :
    g.blocks.toList.zipIdx.mapM (fun (block, k) => do
      let lines ← (block.body.filter (!g.paramIds.contains ·)).mapM (g.lineText names annotate)
      return BlockId.text ⟨k⟩ ++ ":\n" ++ String.join lines) =
      .ok ((g.notedOf annotate).map fun b => String.ofList (blockChars b)) := by
  have hbody : ∀ x ∈ g.blocks.toList.zipIdx, x.1.body.filter (!g.paramIds.contains ·) = g.shown ⟨x.2⟩ := by
    rintro ⟨block, k⟩ hx
    have hget := List.mk_mem_zipIdx_iff_getElem?.1 hx
    rw [Array.getElem?_toList] at hget
    rw [shown, bodyOf_eq (block_eq_ok.2 (show g.blocks[(BlockId.mk k).index]? = some block from hget))]
    refine List.filter_congr fun i _ => ?_
    simp
  have hstep : ∀ x ∈ g.blocks.toList.zipIdx, (do
      let lines ← (x.1.body.filter (!g.paramIds.contains ·)).mapM (g.lineText names annotate)
      return BlockId.text ⟨x.2⟩ ++ ":\n" ++ String.join lines : Checked String) =
      .ok (String.ofList (blockChars
        (labelOf ⟨x.2⟩, (g.shown ⟨x.2⟩).map fun i => (g.lineOf i, annotate i)))) := by
    intro x hx
    rw [hbody x hx]
    exact blockText_eq hg hp hnames annotate ⟨x.2⟩
  rw [Checked.mapM_eq_ok_map hstep, notedOf, List.map_map, blockIds, List.map_map]
  have hnumbers : g.blocks.toList.zipIdx.map Prod.snd = List.range g.blocks.size := by
    rw [List.zipIdx_map_snd, List.range_eq_range', Array.length_toList]
  rw [← hnumbers, List.map_map]
  rfl

omit hnames in
/-- The text of a graph is the text of its written form. -/
theorem printAnnotated_eq (hp : g.Presentable) (annotate : InstId → Option String) :
    g.printAnnotated annotate = .ok (String.ofList (methodChars g.sourceOf (g.notedOf annotate))) := by
  have hnames : ∀ v ∈ g.named, ((Names.ofOrder g.named).value v).toList = valueChars (g.nameOf v) := by
    intro v hv
    rw [value_ofOrder hg.nodup_named hv]
    simp [valueChars, nameOf]
  simp only [printAnnotated, Checked.bind_eq_ok, Checked.pure_eq_ok]
  refine ⟨g.paramIds, hg.parameters_eq, _, defined_eq hg, ?_⟩
  rw [← named_eq]
  refine ⟨_, paramTexts_eq hg hnames, _, blockTexts_eq hg hnames hp annotate, ?_⟩
  have hparams : (g.paramIds.map fun p => String.ofList (paramChars (g.nameOf p, (g.slot p).ty.text))).map
      String.toList = g.sourceOf.params.map paramChars := by
    rw [sourceOf, List.map_map, List.map_map]
    exact List.map_congr_left fun p _ => String.toList_ofList
  have hfields : (g.fields.toList.map fieldText).flatMap String.toList =
      g.sourceOf.fields.flatMap fieldChars := by
    rw [sourceOf, List.flatMap_map, List.flatMap_map]
    exact List.flatMap_congr fun f _ => toList_fieldText f
  have hblocks : ((g.notedOf annotate).map fun b => String.ofList (blockChars b)).flatMap String.toList =
      (g.notedOf annotate).flatMap blockChars := by
    rw [List.flatMap_map]
    exact List.flatMap_congr fun b _ => String.toList_ofList
  have hflags : (if g.isStatic then " static" else "").toList ++
      (if g.isSynchronized then " synchronized" else "").toList = flagChars g.sourceOf := by
    show _ = (if g.isStatic then _ else _) ++ if g.isSynchronized then _ else _
    cases g.isStatic <;> cases g.isSynchronized <;> rfl
  rw [← String.toList_inj]
  unfold methodChars
  simp only [String.toList_append, String.toList_ofList, toList_commaSeparated, String.toList_join, hparams,
    hfields, hblocks, ← hflags, List.append_assoc]
  rfl

end Whole

/-! ## The written form is readable -/

section Lexical

variable {g : Graph} {i : InstId} {b : BlockId}

/-- Labels can be written. -/
theorem isName_labelOf (b : BlockId) : IsName (labelOf b) := by
  obtain ⟨-, hchars⟩ := isName_toString b.index
  unfold IsName labelOf
  rw [String.toList_append]
  refine ⟨by simp, fun c hc => ?_⟩
  rcases List.mem_append.1 hc with hc | hc
  · have hb : "bb".toList.all isNameChar = true := by decide +kernel
    exact List.all_eq_true.1 hb c hc
  · exact hchars c hc

/-- The declaration of a field can be written. -/
theorem lexical_decl {f : Field} (hf : f.Declarable) : f.decl.Lexical := by
  refine ⟨hf.symbol, isIdent_text f.ty, fun e he => ?_⟩
  unfold Field.decl at he
  simp only [List.mem_cons, List.mem_append] at he
  rcases he with rfl | he | he
  · have hlt : f.offset < 4294967296 := hf.offset
    have hmin : Int64.minValue.toInt ≤ 0 := by decide
    have hmax : 4294967296 ≤ Int64.maxValue.toInt := by decide
    exact ⟨show IsIdent "offset" by decide +kernel, show _ ≤ (f.offset : Int) by omega,
      show (f.offset : Int) ≤ _ by omega⟩
  · split at he
    · rw [List.mem_singleton] at he
      subst he
      exact ⟨by decide +kernel, trivial⟩
    · cases he
  · split at he
    · rw [List.mem_singleton] at he
      subst he
      exact ⟨by decide +kernel, trivial⟩
    · cases he

variable (hg : g.Readable)
include hg

/-- The line of an instruction can be written. -/
theorem Readable.lexical_lineOf (hi : i ∈ g.shown b) : (g.lineOf i).Lexical := by
  have hkind := hg.expressible hi
  have hfields : ∀ f ∈ g.fields, IsSymbol f.qualified := fun f hf => (hg.declarable f hf).symbol
  constructor
  case result =>
    intro v hv
    simp only [lineOf] at hv
    split at hv
    · cases hv
    · cases hv
      exact isName_toString _
  case op =>
    show IsIdent (g.slot i).kind.mnemonic
    rcases hkind with hphi | hexpr
    · rw [hphi]
      decide +kernel
    · exact hexpr.isIdent
  case operands =>
    intro v hv
    simp only [lineOf] at hv
    split at hv
    · cases hv
    · obtain ⟨j, -, rfl⟩ := List.mem_map.1 hv
      exact isName_toString _
  case phiEntries =>
    intro e he
    simp only [lineOf] at he
    split at he
    · obtain ⟨e', -, rfl⟩ := List.mem_map.1 he
      exact ⟨isName_labelOf _, isName_toString _⟩
    · cases he
  case phi =>
    intro hop
    rcases hkind with hphi | hexpr
    · simp [lineOf, hphi, Kind.isPhi]
    · exact absurd hop hexpr.mnemonic_ne
  case ordinary =>
    intro hop
    rcases hkind with hphi | hexpr
    · exact absurd (by rw [lineOf, hphi]; rfl) hop
    · simp [lineOf, hexpr.isPhi_eq_false]
  case succs =>
    intro l hl
    obtain ⟨t, -, rfl⟩ := List.mem_map.1 hl
    exact isName_labelOf t
  case attrs =>
    show ∀ e ∈ (g.slot i).kind.attrs g.fields, _
    rcases hkind with hphi | hexpr
    · rw [hphi]
      exact fun e he => absurd he List.not_mem_nil
    · exact hexpr.attrs_lexical hfields
  case ty =>
    intro t ht
    simp only [lineOf] at ht
    split at ht
    · cases ht
    · cases ht
      exact isIdent_text _

/-- The written form of a graph can be written. -/
theorem Readable.lexical_sourceOf : g.sourceOf.Lexical := by
  refine ⟨hg.name, ?_, ?_, ?_⟩
  · intro e he
    obtain ⟨i, -, rfl⟩ := List.mem_map.1 he
    exact ⟨isName_toString _, isIdent_text _⟩
  · intro f hf
    obtain ⟨field, hfield, rfl⟩ := List.mem_map.1 hf
    exact lexical_decl (hg.declarable field (Array.mem_toList_iff.1 hfield))
  · intro block hblock
    obtain ⟨b, -, rfl⟩ := List.mem_map.1 hblock
    refine ⟨isName_labelOf b, fun line hline => ?_⟩
    obtain ⟨i, hi, rfl⟩ := List.mem_map.1 hline
    exact hg.lexical_lineOf hi

end Lexical

end Graph

end Midend
