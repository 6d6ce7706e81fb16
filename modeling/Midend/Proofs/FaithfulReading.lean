import Midend.Proofs.Completion

/-!
# What a text guarantees

A text that can be read gives, for each of its methods, a graph that says what the method says: one block for
each label, one instruction for each parameter and line, and operands and edges as named.  The books of such a
graph are in order, so whatever the checker still finds is about the flow of control: how blocks end, and what
is defined before what.

## Shape of the argument

`Transcript` ties the instructions to the lines, and `Legible` the graph to the instructions.  What the
checker says about listing, removed operands, use chains and the number of operands of a phi is silenced by
`Intact` and by handing out one entry of a phi to each predecessor.
-/

namespace Midend

open Source

/-! ## The verdict -/

/-- Is a violation about the flow of control, and not about the books of the graph? -/
def Violation.isOfFlow : Violation → Bool
  | missingTerminator _ | misplacedTerminator _ _ | successorCount _ _ _ | notDominated _ _ _ |
    entryHasPredecessors _ => true
  | phiInputCount _ _ _ _ | blockMismatch _ _ _ | removedInput _ _ _ | useChain _ => false

namespace Checker

variable {g : Graph} {b : BlockId} {block : Block} {vs : List Violation}

theorem isOfFlow_of_entryViolations (h : entryViolations g = .ok vs) : ∀ v ∈ vs, v.isOfFlow = true := by
  obtain ⟨entry, -, h⟩ := Checked.bind_eq_ok.1 h
  rw [Checked.pure_eq_ok] at h
  subst h
  split
  · nofun
  · simp [Violation.isOfFlow]

theorem isOfFlow_of_endViolations (h : endViolations g b block = .ok vs) : ∀ v ∈ vs, v.isOfFlow = true := by
  unfold endViolations at h
  split at h
  · rw [Checked.pure_eq_ok] at h
    subst h
    simp [Violation.isOfFlow]
  · obtain ⟨misplaced, hmisplaced, h⟩ := Checked.bind_eq_ok.1 h
    have hfirst : ∀ v ∈ misplaced, v.isOfFlow = true := by
      intro v hv
      obtain ⟨i, -, hi⟩ := Checked.exists_of_mem_filterMapM hmisplaced hv
      obtain ⟨kind, -, hi⟩ := Checked.bind_eq_ok.1 hi
      rw [Checked.pure_eq_ok] at hi
      split at hi
      · cases hi
        rfl
      · cases hi
    obtain ⟨kind, -, h⟩ := Checked.bind_eq_ok.1 h
    split at h
    all_goals
      rw [Checked.pure_eq_ok] at h
      subst h
      intro v hv
      rcases List.mem_append.1 hv with hv | hv
      · exact hfirst v hv
    · rw [List.mem_singleton] at hv
      rw [hv]
      rfl
    · split at hv
      · cases hv
      · rw [List.mem_singleton] at hv
        rw [hv]
        rfl

theorem isOfFlow_of_phiInputViolation? {doms : DomTree} {phi : InstId} {x : (InstId × BlockId) × Nat}
    {v : Violation} (h : phiInputViolation? g doms phi x = .ok (some v)) : v.isOfFlow = true := by
  obtain ⟨⟨definition, pred⟩, k⟩ := x
  rw [phiInputViolation?] at h
  split at h
  · cases h
  · obtain ⟨place, -, h⟩ := Checked.bind_eq_ok.1 h
    cases place with
    | none =>
      cases h
      rfl
    | some db =>
      rw [Checked.pure_eq_ok] at h
      split at h
      · cases h
      · cases h
        rfl

theorem isOfFlow_of_operandViolation? {doms : DomTree} {places : Table Nat} {user : InstId} {x : InstId × Nat}
    {v : Violation} (h : operandViolation? g doms places user x = .ok (some v)) : v.isOfFlow = true := by
  obtain ⟨definition, k⟩ := x
  rw [operandViolation?] at h
  split at h
  · cases h
  · obtain ⟨before, -, h⟩ := Checked.bind_eq_ok.1 h
    rw [Checked.pure_eq_ok] at h
    split at h
    · cases h
    · cases h
      rfl

theorem isOfFlow_of_definitionViolations {doms : DomTree} {places : Table Nat}
    (h : definitionViolations g doms places b = .ok vs) : ∀ v ∈ vs, v.isOfFlow = true := by
  simp only [definitionViolations, Checked.bind_eq_ok, Checked.pure_eq_ok] at h
  obtain ⟨block, -, phis, hphis, insts, hinsts, rfl⟩ := h
  intro v hv
  rcases List.mem_append.1 hv with hv | hv
  · obtain ⟨found, hfound, hv⟩ := List.mem_flatten.1 hv
    obtain ⟨phi, -, hphi⟩ := Checked.exists_of_mem_mapM hphis hfound
    obtain ⟨inputs, -, hphi⟩ := Checked.bind_eq_ok.1 hphi
    obtain ⟨x, -, hx⟩ := Checked.exists_of_mem_filterMapM hphi hv
    exact isOfFlow_of_phiInputViolation? hx
  · obtain ⟨found, hfound, hv⟩ := List.mem_flatten.1 hv
    obtain ⟨user, -, huser⟩ := Checked.exists_of_mem_mapM hinsts hfound
    obtain ⟨inputs, -, huser⟩ := Checked.bind_eq_ok.1 huser
    obtain ⟨x, -, hx⟩ := Checked.exists_of_mem_filterMapM huser hv
    exact isOfFlow_of_operandViolation? hx

end Checker

namespace Graph

variable {g : Graph}

/-- Where the books are in order and every phi has an operand per predecessor, only the flow of control can be
wrong. -/
theorem Intact.isOfFlow_of_violations {vs : List Violation} (hi : g.Intact) (hlive : ∀ i, g.isRemoved i = false)
    (hphis : ∀ b block i, g.block b = .ok block → i ∈ block.phis →
      ∃ inst, g.inst i = .ok inst ∧ inst.inputs.length = block.preds.length)
    (h : g.violations = .ok vs) : ∀ v ∈ vs, v.isOfFlow = true := by
  simp only [violations, Checked.bind_eq_ok, Checked.pure_eq_ok] at h
  obtain ⟨entry, hentry, blocks, hblocks, uses, huses, doms, -, definitions, hdefinitions, rfl⟩ := h
  have hnouse : uses.flatten = [] := by
    rw [List.flatten_eq_nil_iff]
    intro found hfound
    obtain ⟨i, hmem, hi'⟩ := Checked.exists_of_mem_mapM huses hfound
    obtain ⟨inst, hinst⟩ := hi.exists_inst hmem
    have hnone : Checker.useViolations g i = .ok [] := by
      refine Checker.useViolations_eq_nil.2
        ⟨inst, hinst, fun k x hx => ⟨hlive x, ?_⟩, fun u hu => ⟨hlive u.user, ?_⟩⟩
      · exact (hi.used x ⟨i, k⟩).2 (getElem?_operandsOf.2 ⟨inst, hinst, hx⟩)
      · exact getElem?_operandsOf.1 ((hi.used i u).1 hu)
    exact Except.ok.inj (hi'.symm.trans hnone)
  intro v hv
  rw [hnouse, List.append_nil, List.mem_append, List.mem_append] at hv
  rcases hv with (hv | hv) | hv
  · exact Checker.isOfFlow_of_entryViolations hentry v hv
  · obtain ⟨found, hfound, hv⟩ := List.mem_flatten.1 hv
    obtain ⟨b, -, hb⟩ := Checked.exists_of_mem_mapM hblocks hfound
    simp only [Checker.blockViolations, Checked.bind_eq_ok, Checked.pure_eq_ok] at hb
    obtain ⟨block, hblock, members, hmembers, phis, hphis', ends, hends, rfl⟩ := hb
    have hmembers' : Checker.membershipViolations g b block = .ok [] :=
      Checker.membershipViolations_eq_nil.2 fun i hmem => hi.inst_of_mem_body hblock hmem
    have hphis'' : Checker.phiViolations g b block = .ok [] :=
      Checker.phiViolations_eq_nil.2 fun i hmem => hphis b block i hblock hmem
    cases hmembers'.symm.trans hmembers
    cases hphis''.symm.trans hphis'
    exact Checker.isOfFlow_of_endViolations hends v hv
  · obtain ⟨found, hfound, hv⟩ := List.mem_flatten.1 hv
    obtain ⟨b, -, hb⟩ := Checked.exists_of_mem_mapM hdefinitions hfound
    exact Checker.isOfFlow_of_definitionViolations hb v hv

/-! ## Following null checks -/

section NullChecks

variable {i : InstId} {depth depth' : Nat}
  (hearlier : ∀ i inst, g.inst i = .ok inst → inst.kind ≠ .phi → ∀ v ∈ inst.inputs, v.index < i.index)
include hearlier

/-- A check stands after what it checks. -/
theorem input_lt_of_isNullCheck {k : Kind} {x : InstId} {n : Nat} (hkind : g.kind i = .ok k)
    (hcheck : k.isNullCheck = true) (hx : g.input i n = .ok x) : x.index < i.index := by
  obtain ⟨inst, hinst, rfl⟩ := kind_eq_ok.1 hkind
  obtain ⟨inst', hinst', hx⟩ := input_eq_ok.1 hx
  cases hinst.symm.trans hinst'
  refine hearlier i inst hinst (fun hphi => ?_) x (List.mem_of_getElem? hx)
  rw [hphi] at hcheck
  cases hcheck

/-- The end of a chain of checks is reached in as many steps as its start has instructions before it. -/
theorem uncheckedWithin_eq (hi : i.index < depth) (hi' : i.index < depth') :
    g.uncheckedWithin depth i = g.uncheckedWithin depth' i := by
  induction depth generalizing depth' i with
  | zero => exact absurd hi (Nat.not_lt_zero _)
  | succ depth ih =>
    obtain ⟨depth', rfl⟩ := Nat.exists_eq_succ_of_ne_zero (Nat.ne_of_gt (Nat.zero_lt_of_lt hi'))
    rw [uncheckedWithin, uncheckedWithin]
    cases hkind : g.kind i with
    | error e => rfl
    | ok k =>
      show (if k.isNullCheck then _ else _) = if k.isNullCheck then _ else _
      split
      · next hcheck =>
        cases hx : g.input i 0 with
        | error e => rfl
        | ok x =>
          have hlt := input_lt_of_isNullCheck hearlier hkind hcheck hx
          exact ih (by omega) (by omega)
      · rfl

/-- What is behind the checks is not a check. -/
theorem isNullCheck_of_uncheckedWithin {r : InstId} {k : Kind} (hi : i.index < depth)
    (h : g.uncheckedWithin depth i = .ok r) (hr : g.kind r = .ok k) : k.isNullCheck = false := by
  induction depth generalizing i with
  | zero => exact absurd hi (Nat.not_lt_zero _)
  | succ depth ih =>
    obtain ⟨kind, hkind, h⟩ := Checked.bind_eq_ok.1 h
    split at h
    · next hcheck =>
      obtain ⟨x, hx, h⟩ := Checked.bind_eq_ok.1 h
      have hlt := input_lt_of_isNullCheck hearlier hkind hcheck hx
      exact ih (by omega) h
    · next hcheck =>
      rw [Checked.pure_eq_ok] at h
      subst h
      cases hkind.symm.trans hr
      exact Bool.eq_false_iff.2 hcheck

end NullChecks

end Graph

/-! ## Graphs and texts -/

/-- A graph says what a method says. -/
structure Graph.Transcribes (m : Method) (g : Graph) : Prop where
  /-- There is a block for each label, in order, and the first is the entry. -/
  blocks : g.blocks.size = m.labels.length
  labels : m.labels.Nodup
  entry : g.entry.index = 0 ∧ m.labels ≠ []
  /-- There is an instruction for each parameter and each line, in order, and a name stands for one of them. -/
  insts : g.insts.size = m.names.length
  names : ∀ name v w, NameOf m.names name v → NameOf m.names name w → v = w
  order : ∀ b, (g.phisOf b).Pairwise (·.index < ·.index) ∧ (g.instsOf b).Pairwise (·.index < ·.index)
  params : (List.range m.params.length).map InstId.mk <+: g.instsOf g.entry
  param_iff : ∀ i k, g.kind i = .ok (.param k) ↔ i.index = k ∧ k < m.params.length
  /-- The instruction of a line is in the block that the line stands in, and reads what the line names.  The
  operands of a phi are its entries, handed out to the predecessors by label. -/
  lines : ∀ (j : Nat) (b : BlockId) (line : Line), m.placed[j]? = some (b, line) →
    ∃ inst, g.inst ⟨m.params.length + j⟩ = .ok inst ∧ (inst.kind = .phi ↔ line.op = "phi") ∧
      if line.op = "phi" then
        ⟨m.params.length + j⟩ ∈ g.phisOf b ∧ HandedOut m.labels m.names (g.preds b) line.phiEntries inst.inputs
      else
        ⟨m.params.length + j⟩ ∈ g.instsOf b ∧ List.Forall₂ (NameOf m.names) line.operands inst.inputs
  /-- A block leads where its lines lead. -/
  edges : ∀ b, List.Forall₂ (LabelOf m.labels) ((m.placed.filter (·.1 = b)).flatMap (·.2.targets)) (g.succs b)
  earlier : ∀ i inst, g.inst i = .ok inst → inst.kind ≠ .phi → ∀ v ∈ inst.inputs, v.index < i.index
  /-- Following null checks comes to an end, and ends behind them. -/
  unchecked : ∀ i depth, i.index < g.insts.size → i.index < depth → g.uncheckedWithin depth i = g.unchecked i ∧
    ∀ r k, g.unchecked i = .ok r → g.kind r = .ok k → k.isNullCheck = false
  uses : ∀ x, (g.uses x).Nodup ∧ ∀ u, u ∈ g.uses x ↔ g.input u.user u.index = .ok x
  verdict : ∃ vs, g.violations = .ok vs ∧ ∀ v ∈ vs, v.isOfFlow = true

namespace Graph

variable {g : Graph} {m : Method} {h : Header} {items : List Item}

section Transcript

variable (hg : g.Legible h m.params.length items) (ht : g.Transcript m h items)
include hg

/-- The entry starts with the parameters. -/
theorem Legible.params_prefix (hsize : m.params.length ≤ g.insts.size) :
    (List.range m.params.length).map InstId.mk <+: g.instsOf g.entry := by
  refine ⟨(g.instsOf g.entry).filter (m.params.length ≤ ·.index), ?_⟩
  refine eq_of_ascending (List.pairwise_append.2 ⟨?_, hg.pairwise_instsOf.filter _, ?_⟩) hg.pairwise_instsOf ?_
  · rw [List.pairwise_map]
    exact List.pairwise_lt_range
  · intro i hi j hj
    obtain ⟨k, hk, rfl⟩ := List.mem_map.1 hi
    exact Nat.lt_of_lt_of_le (List.mem_range.1 hk) (of_decide_eq_true (List.mem_filter.1 hj).2)
  · intro i
    rw [List.mem_append, List.mem_map, List.mem_filter, decide_eq_true_eq]
    constructor
    · rintro (⟨k, hk, rfl⟩ | ⟨hi, -⟩)
      · have hk := List.mem_range.1 hk
        have hlt : k < g.insts.size := Nat.lt_of_lt_of_le hk hsize
        obtain ⟨hkind, hhome, -⟩ := (hg.param_spec (i := ⟨k⟩) hlt).1 hk
        exact hg.mem_instsOf.2 ⟨hlt, hhome, by rw [hkind]; rfl⟩
      · exact hi
    · intro hi
      by_cases hlt : i.index < m.params.length
      · exact .inl ⟨i.index, List.mem_range.2 hlt, rfl⟩
      · exact .inr ⟨hi, Nat.le_of_not_lt hlt⟩

/-- The parameters are the first instructions. -/
theorem Legible.param_iff (hsize : m.params.length ≤ g.insts.size) {i : InstId} {k : Nat} :
    g.kind i = .ok (.param k) ↔ i.index = k ∧ k < m.params.length := by
  constructor
  · intro hkind
    obtain ⟨inst, hinst, hk⟩ := kind_eq_ok.1 hkind
    have hlt := (Array.getElem?_eq_some_iff.1 (inst_eq_ok.1 hinst)).1
    have hparam : i.index < m.params.length := by
      rw [← hg.isParam_iff hlt, slot_eq hinst, hk]
      rfl
    have hspec := ((hg.param_spec hlt).1 hparam).1
    rw [slot_eq hinst, hk] at hspec
    cases hspec
    exact ⟨rfl, hparam⟩
  · rintro ⟨rfl, hlt⟩
    have hlt' := Nat.lt_of_lt_of_le hlt hsize
    exact kind_eq_ok.2 ⟨_, hg.inst_slot hlt', ((hg.param_spec hlt').1 hlt).1⟩

/-- What is no phi reads values that were defined before. -/
theorem Legible.input_index_lt (i : InstId) (inst : Inst) (hinst : g.inst i = .ok inst)
    (hkind : inst.kind ≠ .phi) (v : InstId) (hv : v ∈ inst.inputs) : v.index < i.index := by
  have hlt := (Array.getElem?_eq_some_iff.1 (inst_eq_ok.1 hinst)).1
  rw [← slot_eq hinst] at hv hkind
  refine (hg.input_lt hlt hv).2 ?_
  rw [Bool.eq_false_iff]
  exact fun hphi => hkind (Kind.isPhi_eq_true.1 hphi)

/-- The targets of a block are those of its instructions. -/
theorem Legible.succs_eq (b : BlockId) : g.succs b = (items.filter (·.block = b)).flatMap (·.succs) := by
  by_cases hb : b.index < h.size
  · exact hg.assembled.succs_eq hb
  · have hnone : items.filter (·.block = b) = [] := by
      refine List.filter_eq_nil_iff.2 fun it hit => ?_
      obtain ⟨n, hn⟩ := List.mem_iff_getElem?.1 hit
      have hlt := (hg.fits n it hn).block
      simp only [decide_eq_true_eq]
      rintro rfl
      exact hb hlt
    rw [hnone, succs, hg.assembled.blocks, if_neg hb]
    rfl

omit hg
include ht

/-- There is an item for each parameter and each line. -/
theorem Transcript.length_items : items.length = m.params.length + m.placed.length := by
  rw [ht.length, Method.names, List.length_append, List.length_map, List.length_map]

/-- The instructions after the parameters are those of the lines. -/
theorem Transcript.forall₂_gives :
    List.Forall₂ (fun (x : BlockId × Line) it => x.2.Gives m.labels m.names x.1 it)
    m.placed (items.drop m.params.length) := by
  have hlength := ht.length_items
  refine List.forall₂_iff_get.2 ⟨by rw [List.length_drop]; omega, fun j hj hj' => ?_⟩
  obtain ⟨it, hit, hgives, -⟩ := ht.lines j _ _ (List.getElem?_eq_getElem hj)
  rw [List.get_eq_getElem, List.get_eq_getElem, List.getElem_drop]
  obtain ⟨hlt, rfl⟩ := List.getElem?_eq_some_iff.1 hit
  exact hgives

include hg

/-- The successors of a block are those that its lines name. -/
theorem Transcript.edges (b : BlockId) :
    List.Forall₂ (LabelOf m.labels) ((m.placed.filter (·.1 = b)).flatMap (·.2.targets)) (g.succs b) := by
  have hparams : ((items.take m.params.length).filter (·.block = b)).flatMap (·.succs) = [] := by
    refine List.flatMap_eq_nil_iff.2 fun it hit => ?_
    obtain ⟨k, hk, rfl⟩ := List.mem_take_iff_getElem.1 (List.mem_filter.1 hit).1
    exact ht.params k _ (by omega) (List.getElem?_eq_getElem (by omega))
  have hsplit : g.succs b = ((items.drop m.params.length).filter (·.block = b)).flatMap (·.succs) :=
    calc g.succs b = (items.filter (·.block = b)).flatMap (·.succs) := hg.succs_eq b
      _ = ((items.take m.params.length).filter (·.block = b)).flatMap (·.succs) ++
          ((items.drop m.params.length).filter (·.block = b)).flatMap (·.succs) := by
        rw [← List.flatMap_append, ← List.filter_append, List.take_append_drop]
      _ = ((items.drop m.params.length).filter (·.block = b)).flatMap (·.succs) := by
        rw [hparams, List.nil_append]
  rw [hsplit]
  refine List.rel_flatMap (List.rel_filter ?_ ht.forall₂_gives) ?_
  · intro x it hgives
    simp [hgives.block]
  · exact fun x it hgives => hgives.targets

/-- The instruction of a line. -/
theorem Transcript.line {j : Nat} {b : BlockId} {line : Line} (hget : m.placed[j]? = some (b, line)) :
    ∃ inst, g.inst ⟨m.params.length + j⟩ = .ok inst ∧ (inst.kind = .phi ↔ line.op = "phi") ∧
      if line.op = "phi" then
        ⟨m.params.length + j⟩ ∈ g.phisOf b ∧ HandedOut m.labels m.names (g.preds b) line.phiEntries inst.inputs
      else
        ⟨m.params.length + j⟩ ∈ g.instsOf b ∧ List.Forall₂ (NameOf m.names) line.operands inst.inputs := by
  obtain ⟨it, hit, hgives, hphi⟩ := ht.lines j b line hget
  have hinst := hg.inst_eq (i := ⟨m.params.length + j⟩) hit
  have hhome := hg.home_eq (i := ⟨m.params.length + j⟩) hit
  have hlt := (Array.getElem?_eq_some_iff.1 (inst_eq_ok.1 hinst)).1
  refine ⟨it.inst, hinst, hgives.isPhi, ?_⟩
  split
  · next hop =>
    refine ⟨hg.mem_phisOf.2 ⟨hlt, hhome.trans hgives.block, ?_⟩, hphi hop⟩
    rw [slot_eq hinst]
    exact Kind.isPhi_eq_true.2 (hgives.isPhi.2 hop)
  · next hop =>
    refine ⟨hg.mem_instsOf.2 ⟨hlt, hhome.trans hgives.block, ?_⟩, hgives.inputs hop⟩
    rw [slot_eq hinst, Bool.eq_false_iff]
    exact fun hphi => hop (hgives.isPhi.1 (Kind.isPhi_eq_true.1 hphi))

/-- A phi has one operand per predecessor. -/
theorem Transcript.phi_arity {b : BlockId} {block : Block} {i : InstId} (hblock : g.block b = .ok block)
    (hi : i ∈ block.phis) : ∃ inst, g.inst i = .ok inst ∧ inst.inputs.length = block.preds.length := by
  have hmem : i ∈ g.phisOf b := mem_phisOf.2 ⟨block, hblock, hi⟩
  obtain ⟨hlt, hhome, hphi⟩ := hg.mem_phisOf.1 hmem
  have hparams : m.params.length ≤ i.index := by
    by_contra hparam
    rw [((hg.param_spec hlt).1 (Nat.lt_of_not_le hparam)).1] at hphi
    cases hphi
  obtain ⟨j, hj⟩ := Nat.exists_eq_add_of_le hparams
  obtain ⟨⟨b', line⟩, hget⟩ : ∃ x, m.placed[j]? = some x := by
    have hlength := ht.length_items
    rw [hg.assembled.size_insts] at hlt
    exact ⟨_, List.getElem?_eq_getElem (by omega)⟩
  obtain ⟨inst, hinst, hkind, hline⟩ := ht.line hg hget
  rw [← hj] at hinst hline
  rw [slot_eq hinst] at hphi
  rw [if_pos (hkind.1 (Kind.isPhi_eq_true.1 hphi))] at hline
  obtain rfl : b' = b := (hg.mem_phisOf.1 hline.1).2.1.symm.trans hhome
  exact ⟨inst, hinst, by rw [hline.2.length, preds_eq hblock]⟩

/-- A graph that was read says what the method says. -/
theorem Transcript.transcribes : g.Transcribes m := by
  have hsound := hg.sound
  have hsize : g.insts.size = m.names.length := hg.assembled.size_insts.trans ht.length
  have hparams : m.params.length ≤ g.insts.size := by
    have := ht.length_items
    rw [hg.assembled.size_insts]
    omega
  have hearlier := hg.input_index_lt
  have hlive : ∀ i, g.isRemoved i = false := by
    intro i
    cases hslot : g.insts[i.index]? with
    | none => simp [isRemoved, hslot]
    | some inst => exact hsound.intact.isRemoved_eq_false (hg.mem_attached (inst_eq_ok.2 hslot))
  obtain ⟨vs, hvs⟩ := exists_violations hsound.intact hsound.inRange
  exact {
    blocks := by rw [hg.assembled.size_blocks, ht.blocks, Method.labels, List.length_map]
    labels := ht.labels
    entry := ⟨by rw [hg.assembled.entry], fun hnil => by
      have hpos := hg.size
      rw [ht.blocks, ← List.length_map (f := fun b : Source.Block => b.label)] at hpos
      exact List.ne_nil_of_length_pos hpos hnil⟩
    insts := hsize
    names := ht.names
    order := fun b => ⟨hg.pairwise_phisOf, hg.pairwise_instsOf⟩
    params := hg.params_prefix hparams
    param_iff := fun i k => hg.param_iff hparams
    lines := fun j b line hget => ht.line hg hget
    edges := ht.edges hg
    earlier := hearlier
    unchecked := fun i depth hi hdepth => ⟨uncheckedWithin_eq hearlier hdepth (by omega), fun r k hr hk =>
      isNullCheck_of_uncheckedWithin hearlier (by omega) hr hk⟩
    uses := fun x => ⟨ht.once x, fun u => by rw [hsound.intact.used, getElem?_operandsOf, input_eq_ok]⟩
    verdict := ⟨vs, hvs, hsound.intact.isOfFlow_of_violations hlive
      (fun b block i hblock hi => ht.phi_arity hg hblock hi) hvs⟩ }

end Transcript

end Graph

/-- A text that can be read is read as it says: every method gives a graph that says what the method says. -/
theorem readMethods_transcribes {text : String} {gs : List Graph} (hread : readMethods text = .ok gs) :
    ∃ ms, scanMethods text = .ok ms ∧ List.Forall₂ Graph.Transcribes ms gs := by
  obtain ⟨ms, hscan, hresolve⟩ := Checked.bind_eq_ok.1 hread
  refine ⟨ms, hscan, ?_⟩
  have hall := (List.forall₂_and_left _ _).2 ⟨Graph.lexical_of_scanMethods hscan, Checked.mapM_eq_ok.1 hresolve⟩
  refine hall.imp fun m g hm => ?_
  obtain ⟨h, items, hg, ht⟩ := transcript_of_ofSource hm.1 hm.2
  exact ht.transcribes hg

/-- The lines of a method with two edges from one block to another, whose entries of a phi are not in the
order of the predecessors and name what comes later, and with a line after the end of a block. -/
def crossedLines : List String :=
  ["method @crossed(%p: int, %n: int) static \x7b",
   "^in:",
   "  if %n [^join, ^join]",
   "^join:",
   "  %v = phi [^loop: %w, ^in: %n, ^in: %p] : int",
   "  %w = add %v, %n : int",
   "  goto [^loop]",
   "^loop:",
   "  goto [^join]",
   "  return %w",
   "\x7d"]

/-- In the text of `crossedLines` a phi names its predecessors in another order than the edges, and the
graph has two violations. -/
theorem readMethods_transcribes_crossed :
    ∃ m g, scanMethods (String.ofList (charsOf crossedLines)) = .ok [m] ∧
      readMethods (String.ofList (charsOf crossedLines)) = .ok [g] ∧ g.Transcribes m ∧
      g.preds ⟨1⟩ = [⟨0⟩, ⟨0⟩, ⟨2⟩] ∧ g.inputs ⟨3⟩ = .ok [⟨1⟩, ⟨0⟩, ⟨4⟩] ∧
      g.violations = .ok [.misplacedTerminator ⟨6⟩ ⟨2⟩, .successorCount ⟨2⟩ 0 1] := by
  obtain ⟨g, hread, hpreds, hinputs, hviolations⟩ := Graph.exists_of_onlyOf? (charsOf crossedLines)
    (fun g => g.preds ⟨1⟩ = [⟨0⟩, ⟨0⟩, ⟨2⟩] ∧ g.inputs ⟨3⟩ = .ok [⟨1⟩, ⟨0⟩, ⟨4⟩] ∧
      g.violations = .ok [.misplacedTerminator ⟨6⟩ ⟨2⟩, .successorCount ⟨2⟩ 0 1]) (by decide +kernel)
  obtain ⟨ms, hscan, hall⟩ := readMethods_transcribes hread
  obtain ⟨m, rest, hm, hrest, rfl⟩ := List.forall₂_cons_right_iff.1 hall
  obtain rfl := List.forall₂_nil_right_iff.1 hrest
  exact ⟨m, g, hscan, hread, hm, hpreds, hinputs, hviolations⟩

end Midend
