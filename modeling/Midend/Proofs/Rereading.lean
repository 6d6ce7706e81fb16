import Midend.Proofs.PrintedForm

/-!
# Reading what was printed

The written form of a graph can be read, and gives the graph with its instructions in the order of printing.

## Shape of the argument

`Progress` says what the scope is like when some first instructions of the order of printing have been read.
An instruction finds its operands in scope because they are printed before it, the graph being `Ordered`; phis
are added without operands and get them at the end, entry by entry in the order of the predecessors.  The
predecessors are those of the graph because they follow from the successors (`Readable.preds_eq`).
-/

namespace Midend

open Source

namespace Graph

/-- What is known of a graph besides its instructions. -/
def header (g : Graph) : Header := ⟨g.name, g.isStatic, g.isSynchronized, g.fields, g.blocks.size⟩

/-- An instruction as it is read again. -/
def restated (g : Graph) (i : InstId) : Item where
  kind := (g.slot i).kind
  ty := (g.slot i).ty
  inputs := (g.slot i).inputs.map g.rank
  block := g.home i
  succs := g.targetsOf i

/-- An instruction as it is read again, before phis get their operands. -/
def unfilled (g : Graph) (i : InstId) : Item :=
  if (g.slot i).kind.isPhi then (g.restated i).bare else g.restated i

section Unfilled

variable {g : Graph} {i : InstId}

@[simp] theorem unfilled_kind : (g.unfilled i).kind = (g.slot i).kind := by
  unfold unfilled
  split <;> rfl

@[simp] theorem unfilled_ty : (g.unfilled i).ty = (g.slot i).ty := by
  unfold unfilled
  split <;> rfl

@[simp] theorem unfilled_block : (g.unfilled i).block = g.home i := by
  unfold unfilled
  split <;> rfl

@[simp] theorem unfilled_succs : (g.unfilled i).succs = g.targetsOf i := by
  unfold unfilled
  split <;> rfl

/-- Before the phis are filled in they have no operands, and the other lines have theirs. -/
theorem unfilled_inputs :
    (g.unfilled i).inputs = if (g.slot i).kind.isPhi then [] else (g.slot i).inputs.map g.rank := by
  unfold unfilled
  split <;> rfl

/-- Only the end of a block leads somewhere, and it leads to all successors. -/
theorem targetsOf_cases : g.targetsOf i = g.succs (g.home i) ∨ g.targetsOf i = [] := by
  unfold targetsOf
  split
  · exact .inl rfl
  · exact .inl rfl
  · exact .inr rfl

theorem mem_succs_of_mem_targetsOf {t : BlockId} (ht : t ∈ g.targetsOf i) : t ∈ g.succs (g.home i) := by
  rcases targetsOf_cases (g := g) (i := i) with heq | heq
  · exact heq ▸ ht
  · rw [heq] at ht
    cases ht

end Unfilled

/-- An instruction as it is read again, when some phis have their operands. -/
def partlyFilled (g : Graph) (filled : List InstId) (i : InstId) : Item :=
  if i ∈ filled then g.restated i else g.unfilled i

theorem bare_partlyFilled {g : Graph} {filled : List InstId} {i : InstId} :
    (g.partlyFilled filled i).bare = (g.restated i).bare := by
  unfold partlyFilled unfilled
  split
  · rfl
  · split <;> rfl

/-- The first instructions of the order of printing have been read. -/
structure Progress (g : Graph) (done : List InstId) (s : Scope) : Prop where
  assembled : s.graph.Assembled g.header (done.map g.unfilled)
  values : ∀ i ∈ g.named, s.values.lookup (g.nameOf i) = if i ∈ done then some (g.rank i) else none
  labels : ∀ b : BlockId, b ∈ g.blockIds → s.labels.lookup (labelOf b) = some b
  fields : s.Knows g.fields
  pending : s.pendingPhis =
    (done.filter fun i => (g.slot i).kind.isPhi).map fun i => (g.rank i, g.home i, g.lineOf i)

/-- Names tell values apart. -/
theorem nameOf_inj {g : Graph} {i j : InstId} (hi : i ∈ g.named) (h : g.nameOf i = g.nameOf j) : i = j := by
  have hidx : g.named.idxOf i = g.named.idxOf j := toString_inj h
  exact (List.idxOf_inj hi).1 hidx

section Read

variable {g : Graph} {i : InstId} {b : BlockId} {done rest : List InstId} {s : Scope}

section Steps

variable (hg : g.Readable) (hsplit : g.printed = done ++ i :: rest)
include hg hsplit

theorem notMem_of_split : i ∉ done := by
  intro hi
  have hnodup := hg.nodup
  rw [hsplit] at hnodup
  exact List.disjoint_of_nodup_append hnodup hi List.mem_cons_self

/-- A value is numbered by how many were printed before it. -/
theorem rank_of_split : g.rank i = ⟨done.length⟩ := by
  rw [rank, hsplit, List.idxOf_append_of_notMem (notMem_of_split hg hsplit), List.idxOf_cons_self, Nat.add_zero]

/-- One more instruction has been read. -/
theorem Progress.add {name? : Option String} {pending : List (InstId × BlockId × Line)}
    (hs : Progress g done s) (hname : name? = if i ∈ g.named then some (g.nameOf i) else none)
    (hpending : pending = s.pendingPhis ++
      if (g.slot i).kind.isPhi then [(g.rank i, g.home i, g.lineOf i)] else []) :
    Progress g (done ++ [i]) { s.grown name? (g.unfilled i) with pendingPhis := pending } := by
  have hrank : (⟨s.graph.insts.size⟩ : InstId) = g.rank i := by
    rw [rank_of_split hg hsplit, hs.assembled.size_insts, List.length_map]
  refine ⟨?_, ?_, hs.labels, hs.fields, ?_⟩
  · rw [List.map_append]
    have hi : i ∈ g.printed := by simp [hsplit]
    refine hs.assembled.push ?_ fun t ht => ?_
    · rw [unfilled_block]
      exact mem_blockIds.1 (hg.mem_blockIds_home hi)
    · rw [unfilled_succs] at ht
      exact hg.succs_lt _ t (mem_succs_of_mem_targetsOf ht)
  · intro j hj
    show (name?.toList.map (fun name => (name, (⟨s.graph.insts.size⟩ : InstId))) ++ s.values).lookup _ = _
    rw [hrank, hname]
    by_cases hij : j = i
    · subst hij
      simp [hj]
    · have hmem : j ∈ done ++ [i] ↔ j ∈ done := by simp [hij]
      simp only [hmem, ← hs.values j hj]
      split
      · have hne : (g.nameOf j == g.nameOf i) = false := beq_eq_false_iff_ne.2 fun h => hij (nameOf_inj hj h)
        simp [List.lookup_cons, hne]
      · rfl
  · rw [hpending, hs.pending, List.filter_append, List.map_append]
    cases hphi : (g.slot i).kind.isPhi with
    | true => simp [hphi]
    | false => simp [hphi]

/-- What is printed before an instruction has been read before it. -/
theorem readsEarlier_iff : g.ReadsEarlier i ↔
    ((g.slot i).kind.isPhi = false → ∀ v ∈ (g.slot i).inputs, v ∈ done) := by
  refine forall_congr' fun _ => forall₂_congr fun v _ => ?_
  rw [rank_of_split hg hsplit, rank, hsplit]
  by_cases hdone : v ∈ done
  · simp only [hdone, iff_true]
    rw [List.idxOf_append_of_mem hdone]
    exact List.idxOf_lt_length_of_mem hdone
  · simp only [hdone, iff_false]
    rw [List.idxOf_append_of_notMem hdone]
    exact Nat.not_lt_of_le (Nat.le_add_right _ _)

/-- The line of an instruction stands for the instruction. -/
theorem Progress.resolves (ho : g.ReadsEarlier i) (hp : g.Presentable) (hs : Progress g done s)
    (hi : i ∈ g.shown b) : s.Resolves b (g.lineOf i) (g.unfilled i) := by
  have hprinted := mem_printed_of_shown hi
  have hphi : (g.lineOf i).op = "phi" → (g.slot i).kind = .phi := by
    intro hop
    rcases hg.expressible hi with hphi | hexpr
    · exact hphi
    · exact absurd hop hexpr.mnemonic_ne
  have hplain : (g.lineOf i).op ≠ "phi" →
      (g.slot i).kind.Expressible g.fields ((g.slot i).inputs ≠ []) ∧ (g.slot i).kind.isPhi = false := by
    intro hop
    rcases hg.expressible hi with hphi | hexpr
    · exact absurd (by rw [lineOf, hphi]; rfl) hop
    · exact ⟨hexpr, hexpr.isPhi_eq_false⟩
  constructor
  case block =>
    rw [unfilled_block, hg.home_of_mem_shown hi]
  case ty =>
    rw [unfilled_ty]
    by_cases hty : (g.slot i).ty = .void
    · simp [Scope.typeOf, lineOf, hty]
    · simp [Scope.typeOf, lineOf, hty, Scope.readType_eq_ok]
  case phi =>
    intro hop
    have hkind := hphi hop
    simp [unfilled_inputs, hkind, Kind.isPhi, targetsOf]
  case kind =>
    intro hop
    obtain ⟨hexpr, hphi⟩ := hplain hop
    have hoperands : (g.lineOf i).operands = (g.slot i).inputs.map g.nameOf := by simp [lineOf, hphi]
    rw [unfilled_kind]
    apply Scope.kindOf_eq _ rfl _ hs.fields
    · rw [hoperands, ne_eq, List.map_eq_nil_iff]
      exact hexpr
    · rw [lineOf]
  case inputs =>
    intro hop
    obtain ⟨hexpr, hphi⟩ := hplain hop
    have hoperands : (g.lineOf i).operands = (g.slot i).inputs.map g.nameOf := by simp [lineOf, hphi]
    rw [hoperands, unfilled_inputs, hphi, Checked.mapM_eq_ok]
    simp only [Bool.false_eq_true, if_false]
    rw [List.forall₂_map_left_iff, List.forall₂_map_right_iff, List.forall₂_same]
    intro v hv
    rw [Scope.value_eq_ok, hs.values v (hp.input_named hg.toWritable hprinted hv),
      if_pos ((readsEarlier_iff hg hsplit).1 ho hphi v hv)]
  case succs =>
    intro hop
    show ((g.targetsOf i).map labelOf).mapM s.target = _
    rw [unfilled_succs, Checked.mapM_eq_ok, List.forall₂_map_left_iff, List.forall₂_same]
    intro t ht
    rw [Scope.target_eq_ok]
    exact hs.labels t (mem_blockIds.2 (hg.succs_lt _ t (mem_succs_of_mem_targetsOf ht)))
  case count =>
    intro hop n hn
    rw [unfilled_kind] at hn
    show n = ((g.targetsOf i).map labelOf).length
    rw [List.length_map, hp.length_targetsOf hg.toWritable hprinted hn]
  case fresh =>
    intro name hname
    have hty : (g.slot i).ty ≠ .void := by
      intro hty
      simp [lineOf, hty] at hname
    have hresult : (g.lineOf i).result = some (g.nameOf i) := by simp [lineOf, hty]
    rw [hresult] at hname
    cases hname
    have hnamed : i ∈ g.named := List.mem_filter.2 ⟨hprinted, by simp [hty]⟩
    rw [hs.values i hnamed, if_neg (notMem_of_split hg hsplit)]

/-- A line that has been read is the line of an instruction that reads what was read before. -/
theorem Progress.readsEarlier {s' : Scope} (hp : g.Presentable) (hs : Progress g done s) (hi : i ∈ g.shown b)
    (hstep : s.addLine b (g.lineOf i) = .ok s') : g.ReadsEarlier i := by
  refine (readsEarlier_iff hg hsplit).2 fun hphi v hv => ?_
  obtain ⟨it, hit, -⟩ := Scope.addLine_eq_ok.1 hstep
  have hop : (g.lineOf i).op ≠ "phi" := by
    rcases hg.expressible hi with hkind | hexpr
    · rw [hkind] at hphi
      cases hphi
    · exact hexpr.mnemonic_ne
  have hoperands : (g.lineOf i).operands = (g.slot i).inputs.map g.nameOf := by simp [lineOf, hphi]
  have hvalues := hit.inputs hop
  rw [hoperands] at hvalues
  obtain ⟨x, -, hx⟩ := Checked.exists_of_mapM hvalues (List.mem_map_of_mem hv)
  rw [Scope.value_eq_ok, hs.values v (hp.input_named hg.toWritable (mem_printed_of_shown hi) hv)] at hx
  by_contra hdone
  rw [if_neg hdone] at hx
  cases hx

end Steps

variable (hg : g.Readable)
include hg

/-- The line of an instruction has been read. -/
theorem Progress.line (ho : g.ReadsEarlier i) (hp : g.Presentable) (hs : Progress g done s)
    (hsplit : g.printed = done ++ i :: rest)
    (hi : i ∈ g.shown b) : ∃ s', s.addLine b (g.lineOf i) = .ok s' ∧ Progress g (done ++ [i]) s' := by
  have hnamed : i ∈ g.named ↔ (g.slot i).ty ≠ .void := by
    have hparam : i ∉ g.paramIds := of_decide_eq_true (List.mem_filter.1 hi).2
    simp [named, mem_printed_of_shown hi, hparam]
  refine ⟨_, Scope.addLine_eq_ok.2 ⟨g.unfilled i, hs.resolves hg hsplit ho hp hi, rfl⟩, ?_⟩
  apply hs.add hg hsplit
  · by_cases hty : (g.slot i).ty = .void
    · simp [lineOf, hnamed, hty]
    · simp [lineOf, hnamed, hty]
  · rw [unfilled_kind, unfilled_block, rank_of_split hg hsplit, hs.assembled.size_insts, List.length_map]

/-! ## Blocks and parameters -/

/-- A parameter has been declared. -/
theorem Progress.param {k : Nat} (hs : Progress g (g.paramIds.take k) s) (hi : g.paramIds[k]? = some i) :
    ∃ s', s.declareParam ((g.nameOf i, (g.slot i).ty.text), k) = .ok s' ∧
      Progress g (g.paramIds.take (k + 1)) s' := by
  have hmem := List.mem_of_getElem? hi
  have hkind := hg.params k i hi
  have htake : g.paramIds.take (k + 1) = g.paramIds.take k ++ [i] := by
    rw [List.take_add_one, hi]
    rfl
  have hsplit : g.printed = g.paramIds.take k ++ i ::
      (g.paramIds.drop (k + 1) ++ g.blockIds.flatMap g.shown) := by
    have hwhole := List.take_append_drop (k + 1) g.paramIds
    rw [htake, List.append_assoc] at hwhole
    rw [printed, ← List.cons_append, ← List.append_assoc]
    exact congrArg (· ++ g.blockIds.flatMap g.shown) hwhole.symm
  have hnamed : i ∈ g.named := by
    rw [named_eq]
    exact List.mem_append_left _ hmem
  have hitem : g.unfilled i = ⟨.param k, (g.slot i).ty, [], s.graph.entry, []⟩ := by
    rw [unfilled, restated, targetsOf, hkind, hg.bare i hmem, hg.home_of_mem_paramIds hmem, hg.first,
      hs.assembled.entry]
    rfl
  have hfresh : s.values.lookup (g.nameOf i) = none := by
    rw [hs.values i hnamed, if_neg (notMem_of_split hg hsplit)]
  refine ⟨_, Scope.declareParam_eq_ok.2 ⟨(g.slot i).ty, Ty.ofText?_text _, hfresh, rfl⟩, ?_⟩
  rw [htake, ← hitem]
  apply hs.add hg hsplit
  · rw [if_pos hnamed]
  · rw [hkind]
    exact (List.append_nil _).symm

/-- The parameters have been declared. -/
theorem Progress.readParams (hs : Progress g [] s) :
    ∃ s', g.sourceOf.params.zipIdx.foldlM Scope.declareParam s = .ok s' ∧ Progress g g.paramIds s' := by
  have hstep : ∀ (read : List ((String × String) × Nat)) x left s,
      g.sourceOf.params.zipIdx = read ++ x :: left → Progress g (g.paramIds.take read.length) s →
      ∃ s', s.declareParam x = .ok s' ∧ Progress g (g.paramIds.take (read ++ [x]).length) s' := by
    intro read x left s hleft hs
    have hget : g.sourceOf.params.zipIdx[read.length]? = some x := by simp [hleft]
    simp only [sourceOf, List.getElem?_zipIdx, List.getElem?_map, Option.map_map,
      Option.map_eq_some_iff] at hget
    obtain ⟨i, hi, rfl⟩ := hget
    rw [List.length_append]
    simpa using hs.param hg hi
  obtain ⟨s', hs', hprogress⟩ := Checked.foldlM_total_prefix
    (P := fun (read : List ((String × String) × Nat)) s => Progress g (g.paramIds.take read.length) s) hs hstep
  refine ⟨s', hs', ?_⟩
  have hlength : g.sourceOf.params.zipIdx.length = g.paramIds.length := by simp [sourceOf]
  rwa [hlength, List.take_length] at hprogress

/-- The lines of a block have been read. -/
theorem Progress.readLines (ho : g.Ordered) (hp : g.Presentable) (hs : Progress g done s)
    (hsplit : g.printed = done ++ (g.shown b ++ rest)) :
    ∃ s', ((g.shown b).map g.lineOf).foldlM (Scope.addLine b) s = .ok s' ∧
      Progress g (done ++ g.shown b) s' := by
  rw [List.foldlM_map]
  refine Checked.foldlM_total_prefix (P := fun read s => Progress g (done ++ read) s) (by simpa using hs) ?_
  intro read i left s hleft hs
  have hi : i ∈ g.shown b := by simp [hleft]
  have hnext : g.printed = done ++ read ++ i :: (left ++ rest) := by
    rw [hsplit, hleft]
    simp
  rw [← List.append_assoc]
  exact hs.line hg (ho i (mem_printed_of_shown hi)) hp hnext hi

/-- All lines have been read. -/
theorem Progress.readBlocks (ho : g.Ordered) (hp : g.Presentable) (hs : Progress g g.paramIds s) :
    ∃ s', g.sourceOf.blocks.foldlM Scope.addBlock s = .ok s' ∧ Progress g g.printed s' := by
  have hblocks : g.sourceOf.blocks = g.blockIds.map fun b => ⟨labelOf b, (g.shown b).map g.lineOf⟩ := rfl
  rw [hblocks, List.foldlM_map]
  refine Checked.foldlM_total_prefix (P := fun (read : List BlockId) s =>
    Progress g (g.paramIds ++ read.flatMap g.shown) s) (by simpa using hs) ?_
  intro read b left s hleft hs
  have hb : b ∈ g.blockIds := by simp [hleft]
  have hsplit : g.printed = g.paramIds ++ read.flatMap g.shown ++ (g.shown b ++ left.flatMap g.shown) := by
    rw [printed, hleft]
    simp
  obtain ⟨s', hs', hprogress⟩ := hs.readLines hg ho hp hsplit
  refine ⟨s', Checked.bind_eq_ok.2 ⟨b, Scope.target_eq_ok.2 (hs.labels b hb), hs'⟩, ?_⟩
  rw [List.flatMap_append, List.flatMap_singleton, ← List.append_assoc]
  exact hprogress

/-! ## Edges -/

/-- Only the last instruction of a block is printed with the blocks that follow. -/
theorem flatMap_targetsOf (hp : g.Presentable) (hb : b ∈ g.blockIds) :
    (g.printed.filter fun i => g.home i = b).flatMap g.targetsOf = g.succs b := by
  obtain ⟨last, hlast, hcount, hothers⟩ := hp.ends b hb
  have hprinted := mem_printed_of_instsOf hlast
  have hhome : g.home last = b := hg.home_eq (by
    rw [bodyOf_eq_append]
    exact List.mem_append_right _ hlast)
  have hnone : ∀ i ∈ g.printed.filter (fun i => g.home i = b), i ≠ last → g.targetsOf i = [] := by
    intro i hi hne
    rw [List.mem_filter, decide_eq_true_eq] at hi
    have hplain : (g.slot i).kind.isTerminator = false := by
      cases hphi : (g.slot i).kind.isPhi with
      | true => rw [Kind.isPhi_eq_true.1 hphi]; rfl
      | false => exact hothers i (hg.mem_instsOf (hi.2 ▸ hg.mem_bodyOf_home hi.1) hphi) hne
    unfold targetsOf
    cases hk : (g.slot i).kind with
    | jump => rw [hk] at hplain; cases hplain
    | branch => rw [hk] at hplain; cases hplain
    | _ => rfl
  have hmem : last ∈ g.printed.filter fun i => g.home i = b := by
    rw [List.mem_filter]
    exact ⟨hprinted, by simpa using hhome⟩
  rw [flatMap_eq_of_single (hg.nodup.filter _) hmem hnone]
  have hlength := hp.length_targetsOf hg.toWritable hprinted hcount
  rcases targetsOf_cases (g := g) (i := last) with heq | heq
  · rw [heq, hhome]
  · rw [heq] at hlength ⊢
    exact (List.length_eq_zero_iff.1 hlength.symm).symm

/-- The blocks of the graph that is read again. -/
theorem blockIn_restated (hp : g.Presentable) (hb : b ∈ g.blockIds) :
    blockIn (g.printed.map g.restated) b =
      ⟨(g.phisOf b).map g.rank, (g.instsOf b).map g.rank, g.preds b, g.succs b⟩ := by
  have hsuccs : ∀ c ∈ g.blockIds, (blockIn (g.printed.map g.restated) c).succs = g.succs c := by
    intro c hc
    rw [← flatMap_targetsOf hg hp hc]
    show ((g.printed.map g.restated).filter (·.block = c)).flatMap (·.succs) = _
    rw [List.filter_map, List.flatMap_map]
    rfl
  have hsorted : ((g.printed.map g.restated).map (·.block.index)).Pairwise (· ≤ ·) := by
    rw [List.map_map, List.pairwise_map]
    exact hg.pairwise_home
  have hlt : ∀ it ∈ g.printed.map g.restated, it.block.index < g.blocks.size := by
    intro it hit
    obtain ⟨i, hi, rfl⟩ := List.mem_map.1 hit
    exact mem_blockIds.1 (hg.mem_blockIds_home hi)
  have hpreds : (blockIn (g.printed.map g.restated) b).preds = g.preds b := by
    rw [preds_blockIn hsorted hlt, hg.preds_eq b hb, blockIds, List.flatMap_map]
    refine List.flatMap_congr fun k hk => ?_
    rw [hsuccs ⟨k⟩ (mem_blockIds.2 (List.mem_range.1 hk))]
  have hphis : (blockIn (g.printed.map g.restated) b).phis = (g.phisOf b).map g.rank := by
    rw [← hg.filter_printed_phis hb]
    show idsWhere (fun it => it.block = b && it.kind.isPhi) (g.printed.map g.restated) = _
    rw [idsWhere_map, idsWhere_eq_map_idxOf hg.nodup]
    rfl
  have hinsts : (blockIn (g.printed.map g.restated) b).insts = (g.instsOf b).map g.rank := by
    rw [← hg.filter_printed_insts hb]
    show idsWhere (fun it => it.block = b && !it.kind.isPhi) (g.printed.map g.restated) = _
    rw [idsWhere_map, idsWhere_eq_map_idxOf hg.nodup]
    rfl
  rw [← hphis, ← hinsts, ← hpreds, ← hsuccs b hb]

/-! ## Operands of phis -/

/-- All instructions have been read, and these phis have their operands. -/
structure Filling (g : Graph) (filled : List InstId) (s : Scope) : Prop where
  assembled : s.graph.Assembled g.header (g.printed.map (g.partlyFilled filled))
  values : ∀ i ∈ g.named, s.values.lookup (g.nameOf i) = some (g.rank i)
  labels : ∀ b : BlockId, b ∈ g.blockIds → s.labels.lookup (labelOf b) = some b

omit hg in
/-- When all lines are read the phis are to be filled in. -/
theorem Progress.filling (hs : Progress g g.printed s) : Filling g [] s := by
  refine ⟨?_, fun i hi => ?_, hs.labels⟩
  · have heq : g.printed.map (g.partlyFilled []) = g.printed.map g.unfilled :=
      List.map_congr_left fun i _ => if_neg List.not_mem_nil
    rw [heq]
    exact hs.assembled
  · rw [hs.values i hi, if_pos (List.mem_filter.1 hi).1]

/-- Giving a phi its operands changes its entry. -/
theorem modify_partlyFilled {filled : List InstId} (hi : i ∈ g.printed) (hphi : (g.slot i).kind.isPhi = true)
    (hnew : i ∉ filled) :
    (g.printed.map (g.partlyFilled filled)).modify (g.rank i).index (·.fed ((g.slot i).inputs.map g.rank)) =
      g.printed.map (g.partlyFilled (filled ++ [i])) := by
  apply List.ext_getElem?
  intro n
  rw [List.getElem?_modify, List.getElem?_map, List.getElem?_map]
  cases hj : g.printed[n]? with
  | none => rfl
  | some j =>
    obtain ⟨hn, hj⟩ := List.getElem?_eq_some_iff.1 hj
    have hplace : (g.rank i).index = n ↔ j = i := by
      constructor
      · intro heq
        obtain rfl : g.printed.idxOf i = n := heq
        rw [← hj, List.getElem_idxOf]
      · rintro rfl
        rw [← hj]
        exact hg.nodup.idxOf_getElem n hn
    simp only [hplace, Option.map_eq_map, Option.map_some, Option.some.injEq]
    by_cases hji : j = i
    · subst hji
      rw [if_pos rfl, partlyFilled, if_neg hnew, partlyFilled, if_pos (by simp), unfilled, if_pos hphi]
      rfl
    · rw [if_neg hji]
      simp [partlyFilled, hji]

/-- A phi finds its operands. -/
theorem Filling.fill (hp : g.Presentable) {filled : List InstId} (hs : Filling g filled s) (hi : i ∈ g.printed)
    (hphi : (g.slot i).kind.isPhi = true) (hnew : i ∉ filled) :
    ∃ s', s.fillPhis (g.rank i, g.home i, g.lineOf i) = .ok s' ∧ Filling g (filled ++ [i]) s' := by
  have hblock := hg.mem_blockIds_home hi
  have hlength : (g.slot i).inputs.length = (g.preds (g.home i)).length :=
    hp.counts _ i (hg.mem_phisOf (hg.mem_bodyOf_home hi) hphi)
  have hpreds : s.graph.preds (g.home i) = ((g.preds (g.home i)).zip (g.slot i).inputs).map Prod.fst := by
    have hbare : (g.printed.map (g.partlyFilled filled)).map Item.bare =
        (g.printed.map g.restated).map Item.bare := by
      rw [List.map_map, List.map_map]
      exact List.map_congr_left fun j _ => bare_partlyFilled
    rw [hs.assembled.preds_eq (mem_blockIds.1 hblock), ← blockIn_bare, hbare, blockIn_bare,
      blockIn_restated hg hp hblock, List.map_fst_zip (Nat.le_of_eq hlength.symm)]
  have hentries : (g.lineOf i).phiEntries =
      ((g.preds (g.home i)).zip (g.slot i).inputs).map fun e => (labelOf e.1, g.nameOf e.2) := by
    simp [lineOf, hphi]
  have hlabels : ∀ e ∈ (g.preds (g.home i)).zip (g.slot i).inputs,
      s.labels.lookup (labelOf e.1) = some e.1 := by
    intro e he
    exact hs.labels e.1 (mem_blockIds.2 (hg.preds_lt (List.of_mem_zip he).1))
  have hvalues : ∀ e ∈ (g.preds (g.home i)).zip (g.slot i).inputs,
      s.values.lookup (g.nameOf e.2) = some (g.rank e.2) := fun e he =>
    hs.values e.2 (hp.input_named hg.toWritable hi (List.of_mem_zip he).2)
  have hinputs : (((g.preds (g.home i)).zip (g.slot i).inputs).map fun e => g.rank e.2) =
      (g.slot i).inputs.map g.rank := by
    calc _ = (((g.preds (g.home i)).zip (g.slot i).inputs).map Prod.snd).map g.rank := by
          rw [List.map_map]
          rfl
      _ = (g.slot i).inputs.map g.rank := by rw [List.map_snd_zip (Nat.le_of_eq hlength)]
  refine ⟨_, Scope.fillPhis_eq hpreds hentries hlabels hvalues, ?_, hs.values, hs.labels⟩
  rw [hinputs, ← modify_partlyFilled hg hi hphi hnew]
  refine hs.assembled.feeds ?_ _
  rw [List.length_map]
  exact List.idxOf_lt_length_of_mem hi

/-- All phis have their operands. -/
theorem Filling.readPhis (hp : g.Presentable) (hs : Filling g [] s) :
    ∃ s', ((g.printed.filter fun i => (g.slot i).kind.isPhi).map fun i =>
        (g.rank i, g.home i, g.lineOf i)).foldlM Scope.fillPhis s = .ok s' ∧
      s'.graph.Assembled g.header (g.printed.map g.restated) := by
  have hstep : ∀ (filled : List InstId) i left s,
      (g.printed.filter fun i => (g.slot i).kind.isPhi) = filled ++ i :: left → Filling g filled s →
      ∃ s', s.fillPhis (g.rank i, g.home i, g.lineOf i) = .ok s' ∧ Filling g (filled ++ [i]) s' := by
    intro filled i left s hleft hs
    have hi : i ∈ g.printed.filter fun i => (g.slot i).kind.isPhi := by
      rw [hleft]
      simp
    have hnodup : (filled ++ i :: left).Nodup := hleft ▸ hg.nodup.filter _
    obtain ⟨hprinted, hphi⟩ := List.mem_filter.1 hi
    exact hs.fill hg hp hprinted hphi fun hmem => List.disjoint_of_nodup_append hnodup hmem List.mem_cons_self
  rw [List.foldlM_map]
  obtain ⟨s', hs', hfilled⟩ := Checked.foldlM_total_prefix hs hstep
  refine ⟨s', hs', ?_⟩
  have heq : g.printed.map (g.partlyFilled (g.printed.filter fun i => (g.slot i).kind.isPhi)) =
      g.printed.map g.restated := by
    refine List.map_congr_left fun i hi => ?_
    unfold partlyFilled unfilled
    cases hphi : (g.slot i).kind.isPhi with
    | true => rw [if_pos (List.mem_filter.2 ⟨hi, hphi⟩)]
    | false => simp
  rw [← heq]
  exact hfilled.assembled

/-! ## The whole method -/

omit hg in
/-- Labels tell blocks apart. -/
theorem labelOf_inj {a b : BlockId} (h : labelOf a = labelOf b) : a = b := by
  have hdigits : toString a.index = toString b.index := by
    simpa [labelOf] using h
  exact BlockId.index_inj.1 (toString_inj hdigits)

/-- Everything is declared, and no instruction has been read. -/
theorem progress_nil :
    ∃ s₁ s₂, g.sourceOf.fields.foldlM Scope.declareField (Scope.initial g.sourceOf) = .ok s₁ ∧
      s₁.declareBlocks g.sourceOf.blocks = .ok s₂ ∧ Progress g [] s₂ := by
  have hfields : g.sourceOf.fields = g.fields.toList.map Field.decl := rfl
  have hlabels : g.sourceOf.blocks.map (·.label) = g.blockIds.map labelOf := by simp [sourceOf]
  have hnodup : (g.sourceOf.blocks.map (·.label)).Nodup := by
    rw [hlabels, blockIds, List.map_map]
    exact List.nodup_range.map fun m n hmn => congrArg BlockId.index (labelOf_inj hmn)
  have hcount : (g.sourceOf.blocks.map (·.label)).length = g.blocks.size := by simp [hlabels, blockIds]
  have hne : g.sourceOf.blocks ≠ [] := by
    intro hnil
    have hpos := mem_blockIds.1 hg.entry
    rw [← hcount, hnil] at hpos
    exact Nat.not_lt_zero _ hpos
  obtain ⟨s₁, hs₁, hopened, htable⟩ := Scope.declareFields_total hfields
    (fun f hf => hg.declarable f (Array.mem_toList_iff.1 hf)) hg.distinct
  have htable : s₁.graph.fields = g.fields := Array.toList_inj.1 htable
  obtain ⟨s₂, hs₂⟩ := Scope.declareBlocks_total hopened.assembled rfl hopened.labels hne hnodup
  obtain ⟨-, hlaid⟩ := Scope.declareBlocks_spec hopened.assembled rfl hopened.labels hs₂
  refine ⟨s₁, s₂, hs₁, hs₂, ?_, ?_, ?_, ?_, ?_⟩
  · have hassembled := hlaid.assembled
    rw [hcount, htable] at hassembled
    exact hassembled
  · intro i _
    rw [hlaid.frame, if_neg List.not_mem_nil]
    simp [hopened.values]
  · intro b hb
    have hlt := mem_blockIds.1 hb
    rw [hlaid.labels, hlabels]
    simp [blockIds, hlt]
  · rw [hlaid.frame]
    intro f field hf
    exact hopened.tabled.knows f field (htable ▸ hf)
  · rw [hlaid.frame]
    exact hopened.pending

/-- The written form of a graph can be read. -/
theorem ofSource_sourceOf (ho : g.Ordered) (hp : g.Presentable) :
    ∃ g', ofSource g.sourceOf = .ok g' ∧ g'.Assembled g.header (g.printed.map g.restated) := by
  obtain ⟨s₁, s₂, hfields, hblocks, hs₂⟩ := progress_nil hg
  obtain ⟨s₃, hparams, hs₃⟩ := hs₂.readParams hg
  obtain ⟨s₄, hlines, hs₄⟩ := hs₃.readBlocks hg ho hp
  obtain ⟨s₅, hphis, hs₅⟩ := hs₄.filling.readPhis hg hp
  refine ⟨s₅.graph, ?_, hs₅⟩
  rw [← hs₄.pending] at hphis
  simp only [ofSource, Checked.bind_eq_ok, Checked.pure_eq_ok]
  exact ⟨s₁, hfields, s₂, hblocks, s₃, hparams, s₄, hlines, s₅, hphis, rfl⟩

/-- A graph whose written form can be read is printed in order. -/
theorem ordered_of_ofSource {g' : Graph} (hp : g.Presentable) (h : ofSource g.sourceOf = .ok g') :
    g.Ordered := by
  simp only [ofSource, Checked.bind_eq_ok] at h
  obtain ⟨s₁, hfields, s₂, hblocks, s₃, hparams, s₄, hlines, -⟩ := h
  obtain ⟨t₁, t₂, hfields', hblocks', hs₂⟩ := progress_nil hg
  obtain rfl : s₁ = t₁ := Except.ok.inj (hfields.symm.trans hfields')
  obtain rfl : s₂ = t₂ := Except.ok.inj (hblocks.symm.trans hblocks')
  obtain ⟨t₃, hparams', hs₃⟩ := hs₂.readParams hg
  obtain rfl : s₃ = t₃ := Except.ok.inj (hparams.symm.trans hparams')
  have hbare : ∀ i ∈ g.paramIds, g.ReadsEarlier i := by
    intro i hi _ v hv
    rw [hg.bare i hi] at hv
    cases hv
  have hnamed : g.sourceOf.blocks = g.blockIds.map fun b => ⟨labelOf b, (g.shown b).map g.lineOf⟩ := rfl
  rw [hnamed, List.foldlM_map] at hlines
  -- as far as the text has been read, instructions read what is printed before them
  refine (Checked.foldlM_prefix (P := fun (read : List BlockId) s =>
    Progress g (g.paramIds ++ read.flatMap g.shown) s ∧
      ∀ i ∈ g.paramIds ++ read.flatMap g.shown, g.ReadsEarlier i) hlines (by simpa using ⟨hs₃, hbare⟩) ?_).2
  intro read b left s s' hleft hs hstep
  obtain ⟨c, hc, hstep⟩ := Checked.bind_eq_ok.1 hstep
  have hb : b ∈ g.blockIds := by simp [hleft]
  obtain rfl : b = c := by
    rw [Scope.target_eq_ok, hs.1.labels b hb] at hc
    exact Option.some.inj hc
  rw [List.flatMap_append, List.flatMap_singleton, ← List.append_assoc]
  rw [List.foldlM_map] at hstep
  refine Checked.foldlM_prefix (P := fun lines s =>
    Progress g (g.paramIds ++ read.flatMap g.shown ++ lines) s ∧
      ∀ i ∈ g.paramIds ++ read.flatMap g.shown ++ lines, g.ReadsEarlier i) hstep (by simpa using hs) ?_
  intro lines i after s s' hlines hs hline
  have hi : i ∈ g.shown b := by simp [hlines]
  have hsplit : g.printed = g.paramIds ++ read.flatMap g.shown ++ lines ++ i ::
      (after ++ left.flatMap g.shown) := by
    rw [printed, hleft]
    simp [hlines]
  have hearlier := hs.1.readsEarlier hg hsplit hp hi hline
  obtain ⟨t, ht, hprogress⟩ := hs.1.line hg hearlier hp hsplit hi
  obtain rfl : s' = t := Except.ok.inj (hline.symm.trans ht)
  rw [← List.append_assoc, List.forall_mem_append, List.forall_mem_singleton]
  exact ⟨hprogress, hs.2, hearlier⟩

end Read

end Graph

end Midend
