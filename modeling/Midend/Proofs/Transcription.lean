import Midend.Proofs.Legibility

/-!
# Methods line by line

A graph that was read has one instruction for each parameter and one for each line, in the order of the text,
and each has the operands and leads to the blocks that its line names.

## Shape of the argument

Names are not given twice, so the names in scope are known from the text read so far: a name stands for the
value whose place it has in the list of names.  The invariant `Transcribed` of the scope says this, and that
each line gave the instruction it should.  Phis come last: filling one hands its entries out to the
predecessors of the block, and as there are as many of both, no entry is left over.
-/

namespace Midend

open Source

/-! ## What a text says -/

/-- The label stands for the block. -/
def LabelOf (labels : List String) (label : String) (b : BlockId) : Prop := labels[b.index]? = some label

instance (labels : List String) (label : String) (b : BlockId) : Decidable (LabelOf labels label b) :=
  inferInstanceAs (Decidable (_ = _))

/-- The name stands for the value.  A value without a name has a place in the list, too. -/
def NameOf (names : List (Option String)) (name : String) (v : InstId) : Prop :=
  names[v.index]? = some (some name)

/-- The values that go to one predecessor. -/
def operandsFrom (p : BlockId) (preds : List BlockId) (vs : List InstId) : List InstId :=
  ((preds.zip vs).filter (·.1 = p)).map (·.2)

/-- The entries of a phi are handed out to the predecessors of its block: each gets one, and where one label
stands at several entries they go in order. -/
structure HandedOut (labels : List String) (names : List (Option String)) (preds : List BlockId)
    (entries : List (String × String)) (vs : List InstId) : Prop where
  length : vs.length = preds.length
  operands : ∀ p, List.Forall₂ (fun e v => NameOf names e.2 v) (entries.filter fun e => LabelOf labels e.1 p)
    (operandsFrom p preds vs)

/-- What is handed out has a name. -/
theorem HandedOut.exists_nameOf {labels : List String} {names : List (Option String)} {preds : List BlockId}
    {entries : List (String × String)} {vs : List InstId} {v : InstId}
    (h : HandedOut labels names preds entries vs) (hv : v ∈ vs) : ∃ name, NameOf names name v := by
  obtain ⟨k, hk, rfl⟩ := List.mem_iff_getElem.1 hv
  have hk' : k < preds.length := h.length ▸ hk
  have hmem : vs[k] ∈ operandsFrom preds[k] preds vs := by
    refine List.mem_map.2 ⟨(preds[k], vs[k]), List.mem_filter.2 ⟨?_, by simp⟩, rfl⟩
    exact List.mem_iff_getElem.2 ⟨k, by rw [List.length_zip]; omega, List.getElem_zip⟩
  obtain ⟨e, -, he⟩ := Checked.exists_of_forall₂ (h.operands preds[k]) hmem
  exact ⟨e.2, he⟩

namespace Source

/-- The labels that a line leads to.  A phi leads nowhere, whatever is written there. -/
def Line.targets (line : Line) : List String := if line.op = "phi" then [] else line.succs

/-- An instruction is the one that a line of a block gives.  The operands of a phi are another matter. -/
structure Line.Gives (labels : List String) (names : List (Option String)) (b : BlockId)
    (line : Line) (it : Item) : Prop where
  block : it.block = b
  isPhi : it.kind = .phi ↔ line.op = "phi"
  inputs : line.op ≠ "phi" → List.Forall₂ (NameOf names) line.operands it.inputs
  targets : List.Forall₂ (LabelOf labels) line.targets it.succs

/-- The lines of blocks in the order of the text, each with the block it stands in. -/
def placedIn (blocks : List Block) : List (BlockId × Line) :=
  blocks.zipIdx.flatMap fun x => x.1.lines.map fun line => (⟨x.2⟩, line)

/-- The phis among lines whose instructions come after so many others, to be filled in this order. -/
def phisIn (first : Nat) (lines : List (BlockId × Line)) : List (InstId × BlockId × Line) :=
  ((lines.zipIdx first).filter (·.1.2.op = "phi")).map fun x => (⟨x.2⟩, x.1)

namespace Method

variable (m : Method)

def labels : List String := m.blocks.map (·.label)

/-- The lines of a method, each with the block it stands in. -/
def placed : List (BlockId × Line) := placedIn m.blocks

/-- What values are called: first the parameters, then line by line what has a name. -/
def names : List (Option String) := m.params.map (fun p => some p.1) ++ m.placed.map (·.2.result)

end Method

variable {labels : List String} {names : List (Option String)} {blocks : List Block}
  {block : Block} {first : Nat}
  {lines : List (BlockId × Line)} {line : Line} {b : BlockId} {it : Item} {i : InstId}

/-- One more block places its lines after those of the blocks before. -/
theorem placedIn_append :
    placedIn (blocks ++ [block]) = placedIn blocks ++ block.lines.map fun line => (⟨blocks.length⟩, line) := by
  simp [placedIn, List.zipIdx_append]

theorem phisIn_append : phisIn first (lines ++ [(b, line)]) = phisIn first lines ++
    if line.op = "phi" then [(⟨first + lines.length⟩, b, line)] else [] := by
  unfold phisIn
  rw [List.zipIdx_append, List.filter_append, List.map_append]
  split
  · next hphi => simp [hphi]
  · next hphi => simp [hphi]

/-- The phis among some lines, with the values that they define. -/
theorem mem_phisIn : (i, b, line) ∈ phisIn first lines ↔
    line.op = "phi" ∧ ∃ j, i.index = first + j ∧ lines[j]? = some (b, line) := by
  simp only [phisIn, List.mem_map, List.mem_filter, Prod.exists, List.mk_mem_zipIdx_iff_le_and_getElem?_sub,
    Prod.mk.injEq, decide_eq_true_eq]
  constructor
  · rintro ⟨c, line', n, ⟨⟨hle, hget⟩, hphi⟩, rfl, rfl, rfl⟩
    exact ⟨hphi, n - first, by simp; omega, hget⟩
  · rintro ⟨hphi, j, hi, hget⟩
    refine ⟨b, line, i.index, ⟨⟨by omega, ?_⟩, hphi⟩, rfl, rfl, rfl⟩
    rwa [hi, Nat.add_sub_cancel_left]

/-- No two phis define the same value. -/
theorem nodup_phisIn : ((phisIn first lines).map (·.1.index)).Nodup := by
  have hlt : ((lines.zipIdx first).map Prod.snd).Nodup := by
    rw [List.zipIdx_map_snd]
    exact List.nodup_range'
  unfold phisIn
  rw [List.map_map]
  exact List.pairwise_map.2 ((List.pairwise_map.1 hlt).filter _)

/-- Names that come later do not matter. -/
theorem Line.Gives.mono (h : line.Gives labels names b it) (more : List (Option String)) :
    line.Gives labels (names ++ more) b it where
  block := h.block
  isPhi := h.isPhi
  inputs hop := (h.inputs hop).imp fun name v hv => by
    rw [NameOf, List.getElem?_append_left (List.getElem?_eq_some_iff.1 hv).1]
    exact hv
  targets := h.targets

/-- Operands that a phi is fed later do not matter to its line. -/
theorem Line.Gives.fed (h : line.Gives labels names b it) (hop : line.op = "phi") (vs : List InstId) :
    line.Gives labels names b (it.fed vs) :=
  { h with inputs := fun hne => absurd hop hne }

end Source

namespace Scope

variable {labels : List String} {names : List (Option String)} {s s' : Scope} {line : Line}
  {b : BlockId} {it : Item} {i : InstId}

/-! ## Names in scope -/

/-- The names in scope are these, in the order of the values. -/
def Named (values : List (String × InstId)) (names : List (Option String)) : Prop :=
  ∀ name v, values.lookup name = some v ↔ NameOf names name v

theorem nameOf_append {name : String} {name? : Option String} {v : InstId} :
    NameOf (names ++ [name?]) name v ↔ NameOf names name v ∨ v.index = names.length ∧ name? = some name := by
  unfold NameOf
  rw [List.getElem?_append]
  split
  · next hlt =>
    refine (or_iff_left ?_).symm
    rintro ⟨heq, -⟩
    exact Nat.ne_of_lt hlt heq
  · next hge =>
    rw [List.getElem?_eq_none (Nat.le_of_not_lt hge), List.getElem?_singleton]
    by_cases heq : v.index = names.length
    · simp [heq]
    · rw [if_neg (by omega)]
      simp [heq]

/-- A new name names the next value. -/
theorem Named.add {values : List (String × InstId)} {name? : Option String} (hs : Named values names)
    (hfresh : ∀ name ∈ name?, values.lookup name = none) :
    Named (name?.toList.map (fun name => (name, ⟨names.length⟩)) ++ values) (names ++ [name?]) := by
  intro name v
  rw [nameOf_append]
  cases name? with
  | none => simpa using hs name v
  | some new =>
    rw [Option.toList_some, List.map_singleton, List.singleton_append, List.lookup_cons]
    by_cases hnew : name = new
    · subst hnew
      have hno : ¬ NameOf names name v := fun hv => by
        rw [← hs name v, hfresh name rfl] at hv
        cases hv
      rw [beq_self_eq_true, or_iff_right hno]
      simp [← InstId.index_inj, eq_comm]
    · rw [beq_eq_false_iff_ne.2 hnew, or_iff_left fun h => hnew (Option.some.inj h.2).symm]
      exact hs name v

/-- A name in scope stands for one value. -/
theorem Named.eq_of_nameOf {values : List (String × InstId)} {name : String} {v w : InstId}
    (hs : Named values names) (hv : NameOf names name v) (hw : NameOf names name w) : v = w :=
  Option.some.inj (((hs name v).2 hv).symm.trans ((hs name w).2 hw))

/-- A label in scope stands for one block, so no label is there twice. -/
theorem Labels.nodup {table : List (String × BlockId)} (h : Labels table labels) : labels.Nodup := by
  rw [List.nodup_iff_getElem?_ne_getElem?]
  intro j k hjk hk heq
  have hlast : labels[k]? = some labels[k] := List.getElem?_eq_getElem hk
  have hsame := ((h _ ⟨j⟩).2 (heq.trans hlast)).symm.trans ((h _ ⟨k⟩).2 hlast)
  cases hsame
  exact Nat.lt_irrefl _ hjk

/-- The instruction that a line is resolved to is the one it gives. -/
theorem Resolves.gives (hres : s.Resolves b line it) (hnamed : Named s.values names)
    (hlabelled : Labels s.labels labels) : line.Gives labels names b it where
  block := hres.block
  isPhi := by
    by_cases hop : line.op = "phi"
    · exact iff_of_true (hres.phi hop).1 hop
    · refine iff_of_false (fun hkind => ?_) hop
      have hphi := isPhi_of_kindOf (hres.kind hop)
      rw [hkind] at hphi
      cases hphi
  inputs hop := (Checked.mapM_eq_ok.1 (hres.inputs hop)).imp fun name v hv =>
    (hnamed name v).1 (value_eq_ok.1 hv)
  targets := by
    unfold Line.targets
    split
    · next hop =>
      rw [(hres.phi hop).2.2]
      exact .nil
    · next hop =>
      exact (Checked.mapM_eq_ok.1 (hres.succs hop)).imp fun label t ht =>
        (hlabelled label t).1 (target_eq_ok.1 ht)

/-! ## Operands of phis -/

/-- What is taken from a list is its first member that passes, and the rest keeps its order. -/
theorem takeFirst_eq_some {α : Type} {p : α → Bool} {as rest : List α} {x : α}
    (h : takeFirst p as = some (x, rest)) :
    ∃ l r, as = l ++ x :: r ∧ rest = l ++ r ∧ p x = true ∧ ∀ y ∈ l, p y = false := by
  induction as generalizing x rest with
  | nil => cases h
  | cons a as ih =>
    rw [takeFirst] at h
    split at h
    · next ha =>
      cases h
      exact ⟨[], as, rfl, rfl, ha, List.forall_mem_nil _⟩
    · next ha =>
      obtain ⟨⟨y, left⟩, htake, heq⟩ := Option.map_eq_some_iff.1 h
      cases heq
      obtain ⟨l, r, rfl, rfl, hx, hl⟩ := ih htake
      refine ⟨a :: l, r, rfl, rfl, hx, ?_⟩
      rw [List.forall_mem_cons]
      exact ⟨by simpa using ha, hl⟩

/-- One more predecessor that hands a value over. -/
theorem operandsFrom_append {p q : BlockId} {preds : List BlockId} {vs : List InstId} {v : InstId}
    (hlength : vs.length = preds.length) :
    operandsFrom p (preds ++ [q]) (vs ++ [v]) = operandsFrom p preds vs ++ if q = p then [v] else [] := by
  unfold operandsFrom
  rw [List.zip_append hlength.symm, List.filter_append, List.map_append]
  split
  · next hq => simp [hq]
  · next hq => simp [hq]

/-- What has been handed out to the first predecessors, and what is left. -/
structure Handing (labels : List String) (names : List (Option String)) (entries : List (String × String))
    (preds : List BlockId) (vs : List InstId) (left : List (String × String)) : Prop where
  length : vs.length = preds.length
  count : left.length + preds.length = entries.length
  operands : ∀ p, ∃ taken, (entries.filter fun e => LabelOf labels e.1 p) =
      taken ++ left.filter (fun e => LabelOf labels e.1 p) ∧
    List.Forall₂ (fun e v => NameOf names e.2 v) taken (operandsFrom p preds vs)

theorem handing_nil (entries : List (String × String)) : Handing labels names entries [] [] entries :=
  ⟨rfl, rfl, fun _ => ⟨[], rfl, .nil⟩⟩

/-- One more predecessor gets the first of the entries left that has its label. -/
theorem Handing.next {entries left rest : List (String × String)} {preds : List BlockId} {vs : List InstId}
    {p : BlockId} {e : String × String} {v : InstId} (h : Handing labels names entries preds vs left)
    (hlabels : labels.Nodup) (htake : takeFirst (fun e => LabelOf labels e.1 p) left = some (e, rest))
    (hv : NameOf names e.2 v) :
    Handing labels names entries (preds ++ [p]) (vs ++ [v]) rest := by
  obtain ⟨l, r, rfl, rfl, he, hl⟩ := takeFirst_eq_some htake
  rw [decide_eq_true_eq] at he
  refine ⟨by simp [h.length], by have := h.count; simp at this ⊢; omega, fun q => ?_⟩
  obtain ⟨taken, hsplit, htaken⟩ := h.operands q
  rw [operandsFrom_append h.length]
  by_cases hq : p = q
  · -- nothing before the entry has its label, so it is the next one
    subst hq
    have hnone : l.filter (fun e => LabelOf labels e.1 p) = [] :=
      List.filter_eq_nil_iff.2 fun y hy => by simp [hl y hy]
    refine ⟨taken ++ [e], ?_, ?_⟩
    · rw [hsplit, List.filter_append, List.filter_append, hnone, List.filter_cons_of_pos (by simpa using he)]
      simp
    · rw [if_pos rfl]
      exact List.rel_append htaken (.cons hv .nil)
  · have hother : ¬ LabelOf labels e.1 q := fun hq' =>
      hq (BlockId.index_inj.1 ((List.getElem?_inj (List.getElem?_eq_some_iff.1 he).1 hlabels).1
        (he.trans hq'.symm)))
    refine ⟨taken, ?_, ?_⟩
    · rw [hsplit, List.filter_append, List.filter_append, List.filter_cons_of_neg (by simpa using hother)]
    · rwa [if_neg hq, List.append_nil]

/-- When there are as many predecessors as entries, nothing is left. -/
theorem Handing.handedOut {entries left : List (String × String)} {preds : List BlockId} {vs : List InstId}
    (h : Handing labels names entries preds vs left) (hcount : preds.length = entries.length) :
    HandedOut labels names preds entries vs := by
  have hleft : left = [] := by
    have := h.count
    exact List.length_eq_zero_iff.1 (by omega)
  refine ⟨h.length, fun p => ?_⟩
  obtain ⟨taken, hsplit, htaken⟩ := h.operands p
  rw [hleft, List.filter_nil, List.append_nil] at hsplit
  rwa [hsplit]

/-- Filling a phi hands its entries out. -/
theorem handedOut_of_fillPhis (hnamed : Named s.values names) (hlabelled : Labels s.labels labels)
    (h : s.fillPhis (i, b, line) = .ok s') :
    ∃ vs, HandedOut labels names (s.graph.preds b) line.phiEntries vs ∧
      s' = { s with graph := vs.foldl (fun g v => g.feed i v) s.graph } := by
  unfold fillPhis at h
  simp only at h
  split at h
  · obtain ⟨_, h, -⟩ := Checked.bind_eq_ok.1 h
    cases h
  · next hcount =>
    obtain ⟨st, hfold, hst⟩ := Checked.bind_eq_ok.1 h
    rw [Checked.pure_eq_ok] at hst
    subst hst
    have hhanding := Checked.foldlM_prefix (P := fun done st => ∃ vs : List InstId,
      Handing labels names line.phiEntries done vs st.2 ∧
        st.1 = { s with graph := vs.foldl (fun g v => g.feed i v) s.graph }) hfold ⟨[], handing_nil _, rfl⟩ ?_
    · obtain ⟨vs, hvs, hst⟩ := hhanding
      exact ⟨vs, hvs.handedOut (not_not.1 hcount), hst⟩
    · rintro done pred rest ⟨c, left⟩ st' - ⟨vs, hvs, rfl⟩ hstep
      obtain ⟨e, v, left', htake, hv, rfl⟩ := fillPhi_eq_ok.1 hstep
      have hlabel : (fun e : String × String => decide (s.labels.lookup e.1 = some pred)) =
          fun e => decide (LabelOf labels e.1 pred) := funext fun e => decide_eq_decide.2 (hlabelled e.1 pred)
      refine ⟨vs ++ [v], hvs.next hlabelled.nodup (hlabel ▸ htake) ((hnamed _ _).1 hv), ?_⟩
      simp only [List.foldl_append, List.foldl_cons, List.foldl_nil]

/-! ## One more instruction -/

/-- The scope after these lines: names stand for the values of the parameters and of the lines, each line has
given its instruction, and the phis among them wait for their operands. -/
structure Transcribed (labels : List String) (first : Nat) (names : List (Option String))
    (done : List (BlockId × Line)) (items : List Item) (s : Scope) : Prop where
  length : items.length = names.length
  named : Named s.values names
  labelled : Labels s.labels labels
  params : ∀ (k : Nat) (it : Item), k < first → items[k]? = some it → it.succs = []
  lines : ∀ (j : Nat) (b : BlockId) (line : Line), done[j]? = some (b, line) →
    ∃ it, items[first + j]? = some it ∧ line.Gives labels names b it ∧ (line.op = "phi" → it.inputs = [])
  waiting : s.pendingPhis = phisIn first done
  once : ∀ x, (s.graph.uses x).Nodup

section Steps

variable {h : Header} {first : Nat} {done : List (BlockId × Line)} {items : List Item}
  (hs : s.Transcribed labels first names done items) (hg : s.graph.Assembled h items)
include hs hg

/-- The names are known after one more line. -/
theorem Transcribed.named_grown (it : Item) {name? : Option String}
    (hfresh : ∀ name ∈ name?, s.values.lookup name = none) :
    Named (s.grown name? it).values (names ++ [name?]) := by
  have hsize : s.graph.insts.size = names.length := hg.size_insts.trans hs.length
  rw [grown, hsize]
  exact hs.named.add hfresh

/-- One more parameter. -/
theorem Transcribed.declareParam {name : String} (hdone : done = []) (hfresh : s.values.lookup name = none)
    (hsuccs : it.succs = []) :
    (s.grown (some name) it).Transcribed labels first (names ++ [some name]) done (items ++ [it]) where
  length := by simp [hs.length]
  named := hs.named_grown hg it (by rintro _ ⟨⟩; exact hfresh)
  labelled := hs.labelled
  params k it' hk hget := by
    rw [List.getElem?_append] at hget
    split at hget
    · exact hs.params k it' hk hget
    · rw [List.getElem?_singleton] at hget
      split at hget
      · cases hget
        exact hsuccs
      · cases hget
  lines j b line hget := by simp [hdone] at hget
  waiting := hs.waiting
  once := hg.intact.nodup_uses_push hs.once it

/-- One more line. -/
theorem Transcribed.addLine (hlength : names.length = first + done.length) (hres : s.Resolves b line it) :
    (s.after line it).Transcribed labels first (names ++ [line.result]) (done ++ [(b, line)])
      (items ++ [it]) where
  length := by simp [hs.length]
  named := hs.named_grown hg it hres.fresh
  labelled := hs.labelled
  params k it' hk hget := by
    rw [List.getElem?_append_left (by rw [hs.length]; omega)] at hget
    exact hs.params k it' hk hget
  lines j b' line' hget := by
    rw [List.getElem?_append] at hget
    split at hget
    · next hlt =>
      obtain ⟨it', hit', hgives, hinputs⟩ := hs.lines j b' line' hget
      exact ⟨it', by rw [List.getElem?_append_left (List.getElem?_eq_some_iff.1 hit').1, hit'], hgives.mono _,
        hinputs⟩
    · rw [List.getElem?_singleton] at hget
      split at hget
      · cases hget
        refine ⟨it, ?_, (hres.gives hs.named hs.labelled).mono _, fun hop => (hres.phi hop).2.1⟩
        rw [show first + j = items.length by rw [hs.length]; omega]
        exact List.getElem?_concat_length
      · cases hget
  waiting := by
    have hphi : it.kind.isPhi = true ↔ line.op = "phi" :=
      Kind.isPhi_eq_true.trans (hres.gives hs.named hs.labelled).isPhi
    rw [phisIn_append, after]
    simp only [hs.waiting, hphi, hg.size_insts, hs.length, hlength, hres.block]
  once := hg.intact.nodup_uses_push hs.once it

end Steps

/-! ## The stages of reading -/

section Stages

variable {h : Header} {m : Method} {first last : Nat} {done : List (BlockId × Line)} {items : List Item}

/-- Parameters are transcribed. -/
theorem transcribed_of_declareParams (hg : s.Grounded h m.params.length [] 0)
    (hs : s.Transcribed labels m.params.length [] [] []) (hsize : 0 < h.size)
    (hok : m.params.zipIdx.foldlM declareParam s = .ok s') :
    ∃ items, s'.Grounded h m.params.length items 0 ∧
      s'.Transcribed labels m.params.length (m.params.map fun p => some p.1) [] items := by
  have hfold := Checked.foldlM_prefix (P := fun done s' => ∃ items, s'.Grounded h m.params.length items 0 ∧
    s'.Transcribed labels m.params.length (done.map fun x => some x.1.1) [] items) hok ⟨[], hg, hs⟩ ?_
  · have hnames : m.params.zipIdx.map (fun x => some x.1.1) = m.params.map fun p => some p.1 := by
      conv_rhs => rw [← List.zipIdx_map_fst 0 m.params, List.map_map]
      rfl
    rwa [hnames] at hfold
  · rintro done ⟨⟨name, ty⟩, index⟩ rest c c' hrest ⟨items, hg, hc⟩ hstep
    obtain ⟨t, -, hfresh, rfl⟩ := declareParam_eq_ok.1 hstep
    have hlength : items.length = done.length := by simpa using hc.length
    obtain ⟨rfl, hlt⟩ : index = items.length ∧ items.length < m.params.length := by
      have hget : m.params.zipIdx[done.length]? = some ((name, ty), index) := by simp [hrest]
      rw [List.getElem?_zipIdx, Option.map_eq_some_iff] at hget
      obtain ⟨param, hparam, heq⟩ := hget
      rw [hlength]
      exact ⟨by simpa using (congrArg Prod.snd heq).symm, (List.getElem?_eq_some_iff.1 hparam).1⟩
    refine ⟨_, hg.declareParam hsize hlt name t, ?_⟩
    rw [List.map_append]
    exact hc.declareParam hg.assembled rfl hfresh rfl

/-- The lines of a block are transcribed after what came before. -/
theorem transcribed_of_addLines {lines : List Line} (hlines : ∀ line ∈ lines, line.Lexical)
    (hg : s.Grounded h first items b.index) (hs : s.Transcribed labels first names done items)
    (hlength : names.length = first + done.length) (hb : b.index < h.size)
    (hok : lines.foldlM (addLine b) s = .ok s') : ∃ items', s'.Grounded h first items' b.index ∧
      s'.Transcribed labels first (names ++ lines.map (·.result))
        (done ++ lines.map fun line => (b, line)) items' := by
  apply Checked.foldlM_prefix (P := fun read s' => ∃ items', s'.Grounded h first items' b.index ∧
    s'.Transcribed labels first (names ++ read.map (·.result))
      (done ++ read.map fun line => (b, line)) items') hok
  · exact ⟨items, hg, by simpa using hs⟩
  · rintro read line rest c c' hrest ⟨items, hg, hc⟩ hstep
    obtain ⟨it, hres, rfl⟩ := addLine_eq_ok.1 hstep
    have hline := hlines line (by simp [hrest])
    have hparams : first ≤ items.length := by
      rw [hc.length, List.length_append, hlength]
      omega
    refine ⟨_, hg.addLine hres hline hb hparams, ?_⟩
    rw [List.map_append, List.map_append, ← List.append_assoc, ← List.append_assoc]
    exact hc.addLine hg.assembled (by simp [hlength]; omega) hres

/-- The blocks of a method are transcribed after its parameters. -/
theorem transcribed_of_addBlocks (hm : ∀ block ∈ m.blocks, block.Lexical) (hsize : h.size = m.blocks.length)
    (hg : s.Grounded h m.params.length items 0)
    (hs : s.Transcribed m.labels m.params.length (m.params.map fun p => some p.1) [] items)
    (hok : m.blocks.foldlM addBlock s = .ok s') :
    ∃ items', s'.Grounded h m.params.length items' m.blocks.length ∧
      s'.Transcribed m.labels m.params.length m.names m.placed items' := by
  apply Checked.foldlM_prefix (P := fun (done : List Source.Block) s' => ∃ items',
    s'.Grounded h m.params.length items' done.length ∧ s'.Transcribed m.labels m.params.length
      (m.params.map (fun p => some p.1) ++ (placedIn done).map (·.2.result)) (placedIn done) items') hok
  · exact ⟨items, hg, by simpa [placedIn] using hs⟩
  · rintro done block rest c c' hrest ⟨items, hg, hc⟩ hstep
    obtain ⟨b, htarget, hlines⟩ := Checked.bind_eq_ok.1 hstep
    -- labels are distinct, so a label stands for the block it is written at
    obtain rfl : b = ⟨done.length⟩ := by
      have hown : c.labels.lookup block.label = some ⟨done.length⟩ := by
        rw [hc.labelled, Method.labels]
        simp [hrest]
      rw [target_eq_ok, hown] at htarget
      exact (Option.some.inj htarget).symm
    have hb : done.length < h.size := by simp [hsize, hrest]
    have hlexical := hm block (by simp [hrest])
    obtain ⟨items', hg', hc'⟩ := transcribed_of_addLines hlexical.lines hg hc (by simp) hb hlines
    refine ⟨items', hg'.mono (by simp), ?_⟩
    rw [placedIn_append, List.map_append, ← List.append_assoc, List.map_map]
    exact hc'

/-- What phis have been filled with. -/
structure Filled (s : Scope) (labels : List String) (names : List (Option String)) (items : List Item)
    (filled : List (InstId × BlockId × Line)) (items' : List Item) (s' : Scope) : Prop where
  frame : s' = { s with graph := s'.graph }
  preds : ∀ b, s'.graph.preds b = s.graph.preds b
  once : ∀ x, (s'.graph.uses x).Nodup
  length : items'.length = items.length
  items : ∀ (k : Nat) (it : Item), items[k]? = some it → ∃ vs, items'[k]? = some (it.fed vs) ∧
    ((∀ e ∈ filled, e.1.index ≠ k) → vs = []) ∧
    ∀ e ∈ filled, e.1.index = k → HandedOut labels names (s.graph.preds e.2.1) e.2.2.phiEntries vs

theorem filled_nil (hs : s.Transcribed labels first names done items) :
    Filled s labels names items [] items s where
  frame := rfl
  preds _ := rfl
  once := hs.once
  length := rfl
  items k it hit := ⟨[], by rw [hit, Item.fed, List.append_nil], fun _ => rfl, nofun⟩

/-- One more phi. -/
theorem Filled.next {filled : List (InstId × BlockId × Line)} {items' : List Item} {s'' : Scope}
    {e : InstId × BlockId × Line} (hf : Filled s labels names items filled items' s')
    (hs : s.Transcribed labels first names done items) (hg : s'.Grounded h first items' last)
    (he : e ∈ s.pendingPhis) (hnew : ∀ e' ∈ filled, e'.1.index ≠ e.1.index) (hok : s'.fillPhis e = .ok s'') :
    ∃ items'', s''.Grounded h first items'' last ∧ Filled s labels names items (filled ++ [e]) items'' s'' := by
  obtain ⟨i, b, line⟩ := e
  have hnamed : Named s'.values names := by
    rw [hf.frame]
    exact hs.named
  have hlabelled : Labels s'.labels labels := by
    rw [hf.frame]
    exact hs.labelled
  obtain ⟨vs, hvs, rfl⟩ := handedOut_of_fillPhis hnamed hlabelled hok
  rw [hf.preds] at hvs
  obtain ⟨phi, hphi, hkind⟩ := hg.pending (i, b, line) (by rw [hf.frame]; exact he)
  have hlt : ∀ v ∈ vs, v.index < items'.length := by
    intro v hv
    obtain ⟨name, hname⟩ := hvs.exists_nameOf hv
    rw [hf.length, hs.length]
    exact (List.getElem?_eq_some_iff.1 hname).1
  obtain ⟨chains, hfeed⟩ := Graph.foldl_feed_eq i vs s'.graph
  have hinst : s'.graph.inst i = .ok phi.inst := by
    rw [Graph.inst_eq_ok, ← Array.getElem?_toList, hg.assembled.insts, List.getElem?_map, hphi]
    rfl
  refine ⟨_, hg.feeds hphi hkind hlt, ?_, ?_, hg.assembled.intact.nodup_uses_feeds hf.once hinst vs, ?_, ?_⟩
  · show ({ s' with graph := _ } : Scope) = { s with graph := _ }
    rw [hf.frame]
  · intro c
    rw [← hf.preds c, hfeed]
    rfl
  · rw [List.length_modify, hf.length]
  · intro k it hit
    obtain ⟨old, hold, hnone, hsome⟩ := hf.items k it hit
    rw [List.getElem?_modify, hold]
    by_cases hk : i.index = k
    · -- the phi has not been filled before
      obtain rfl := hnone fun e' he' => hk ▸ hnew e' he'
      refine ⟨vs, by simp [hk, Item.fed], fun hno => absurd hk (hno (i, b, line) (by simp)),
        fun e' he' hk' => ?_⟩
      rcases List.mem_append.1 he' with he' | he'
      · exact absurd (hk'.trans hk.symm) (hnew e' he')
      · rw [List.mem_singleton] at he'
        rw [he']
        exact hvs
    · refine ⟨old, by simp [hk], fun hno => hnone fun e' he' => hno e' (by simp [he']), fun e' he' hk' => ?_⟩
      rcases List.mem_append.1 he' with he' | he'
      · exact hsome e' he' hk'
      · rw [List.mem_singleton] at he'
        rw [he'] at hk'
        exact absurd hk' hk

/-- Filling in the phis gives each of them the operands that its line names. -/
theorem filled_of_fillPhis (hg : s.Grounded h first items last)
    (hs : s.Transcribed labels first names done items)
    (hok : s.pendingPhis.foldlM fillPhis s = .ok s') : ∃ items', s'.Grounded h first items' last ∧
      Filled s labels names items s.pendingPhis items' s' := by
  apply Checked.foldlM_prefix (P := fun filled s' => ∃ items', s'.Grounded h first items' last ∧
    Filled s labels names items filled items' s') hok ⟨items, hg, filled_nil hs⟩
  rintro filled e rest c c' hrest ⟨items', hg', hf⟩ hstep
  refine hf.next hs hg' (by simp [hrest]) (fun e' he' => ?_) hstep
  have hnodup : (s.pendingPhis.map (·.1.index)).Nodup := by
    rw [hs.waiting]
    exact nodup_phisIn
  rw [hrest, List.map_append, List.nodup_append] at hnodup
  exact hnodup.2.2 _ (List.mem_map_of_mem he') _ (by simp)

end Stages

end Scope

/-! ## Graphs that were read -/

/-- The instructions of a graph are those of the parameters and the lines of a method, and the phis among them
have the operands that the text hands out to the predecessors. -/
structure Graph.Transcript (m : Method) (h : Header) (items : List Item) (g : Graph) : Prop where
  blocks : h.size = m.blocks.length
  labels : m.labels.Nodup
  names : ∀ name v w, NameOf m.names name v → NameOf m.names name w → v = w
  length : items.length = m.names.length
  params : ∀ (k : Nat) (it : Item), k < m.params.length → items[k]? = some it → it.succs = []
  lines : ∀ (j : Nat) (b : BlockId) (line : Line), m.placed[j]? = some (b, line) →
    ∃ it, items[m.params.length + j]? = some it ∧ line.Gives m.labels m.names b it ∧
      (line.op = "phi" → HandedOut m.labels m.names (g.preds b) line.phiEntries it.inputs)
  once : ∀ x, (g.uses x).Nodup

/-- When the phis are filled, the method has been written down. -/
theorem Scope.Filled.transcript {m : Method} {h : Header} {items items' : List Item} {s s' : Scope}
    (hf : Filled s m.labels m.names items s.pendingPhis items' s')
    (hs : s.Transcribed m.labels m.params.length m.names m.placed items) (hsize : h.size = m.blocks.length) :
    s'.graph.Transcript m h items' where
  blocks := hsize
  labels := hs.labelled.nodup
  names _ _ _ := hs.named.eq_of_nameOf
  length := hf.length.trans hs.length
  params k it' hk hit' := by
    have hlt : k < items.length := hf.length ▸ (List.getElem?_eq_some_iff.1 hit').1
    obtain ⟨vs, hvs, -⟩ := hf.items k _ (List.getElem?_eq_getElem hlt)
    cases hit'.symm.trans hvs
    exact hs.params k items[k] hk (List.getElem?_eq_getElem hlt)
  lines j b line hget := by
    obtain ⟨it, hit, hgives, hnil⟩ := hs.lines j b line hget
    obtain ⟨vs, hvs, hnone, hsome⟩ := hf.items _ it hit
    rw [hs.waiting] at hnone hsome
    by_cases hop : line.op = "phi"
    · refine ⟨it.fed vs, hvs, hgives.fed hop vs, fun _ => ?_⟩
      have hmem : (⟨m.params.length + j⟩, b, line) ∈ phisIn m.params.length m.placed :=
        mem_phisIn.2 ⟨hop, j, rfl, hget⟩
      rw [Item.fed, hnil hop, List.nil_append, hf.preds]
      exact hsome _ hmem rfl
    · -- no phi is at this place, so the instruction is as it was
      obtain rfl : vs = [] := by
        refine hnone ?_
        rintro ⟨i, b', line'⟩ he heq
        obtain ⟨hop', j', hj', hget'⟩ := mem_phisIn.1 he
        obtain rfl : j' = j := by
          simp only at heq
          omega
        rw [hget] at hget'
        cases hget'
        exact hop hop'
      rw [Item.fed, List.append_nil] at hvs
      exact ⟨it, hvs, hgives, fun h => absurd h hop⟩
  once := hf.once

/-- What is known of a graph that was read: it is legible, and written line by line as the text says. -/
theorem transcript_of_ofSource {m : Method} {g : Graph} (hm : m.Lexical) (hok : Graph.ofSource m = .ok g) :
    ∃ h items, g.Legible h m.params.length items ∧ g.Transcript m h items := by
  simp only [Graph.ofSource, Checked.bind_eq_ok, Checked.pure_eq_ok] at hok
  obtain ⟨s₁, hfields, s₂, hblocks, s₃, hparams, s₄, hlines, s₅, hphis, rfl⟩ := hok
  have hopened := Scope.opened_of_declareFields hm hfields
  obtain ⟨hne, hlaid⟩ := Scope.declareBlocks_spec hopened.assembled rfl hopened.labels hblocks
  have hlength : (m.blocks.map (·.label)).length = m.blocks.length := List.length_map _
  have hsize : 0 < m.blocks.length := List.length_pos_iff.2 hne
  have hground : s₂.Grounded ⟨m.name, m.isStatic, m.isSynchronized, s₁.graph.fields, m.blocks.length⟩
      m.params.length [] 0 := by
    refine ⟨hlength ▸ hlaid.assembled, ?_, ?_, ?_, ?_, ?_, List.Pairwise.nil, ?_⟩
    · intro name v hv
      rw [hlaid.frame] at hv
      simp [hopened.values] at hv
    · intro label b hb
      have := (List.getElem?_eq_some_iff.1 ((hlaid.labels label b).1 hb)).1
      rwa [hlength] at this
    · intro q f hq
      rw [hlaid.frame] at hq
      exact hopened.tabled.bounded q f hq
    · rw [hlaid.frame]
      simp [hopened.pending]
    · simp
    · simp
  have hstart : s₂.Transcribed m.labels m.params.length [] [] [] := by
    refine ⟨rfl, ?_, hlaid.labels, by simp, by simp, ?_, fun x => ?_⟩
    · rw [hlaid.frame, hopened.values]
      intro name v
      simp [NameOf]
    · rw [hlaid.frame]
      exact hopened.pending
    · -- there is no instruction that could use anything
      have huses : s₂.graph.uses x = [] := by
        refine List.eq_nil_iff_forall_not_mem.2 fun u hu => ?_
        rw [hground.assembled.intact.used, Graph.getElem?_operandsOf] at hu
        obtain ⟨inst, hinst, -⟩ := hu
        have hlt := (Array.getElem?_eq_some_iff.1 (Graph.inst_eq_ok.1 hinst)).1
        rw [hground.assembled.size_insts] at hlt
        exact absurd hlt (Nat.not_lt_zero _)
      rw [huses]
      exact List.nodup_nil
  obtain ⟨items₃, hground₃, hs₃⟩ := Scope.transcribed_of_declareParams hground hstart hsize hparams
  obtain ⟨items₄, hground₄, hs₄⟩ := Scope.transcribed_of_addBlocks hm.blocks rfl hground₃ hs₃ hlines
  obtain ⟨items, hground₅, hfilled⟩ := Scope.filled_of_fillPhis hground₄ hs₄ hphis
  exact ⟨_, items, ⟨hground₅.assembled, hground₅.fits, hground₅.sorted, hm.name, hsize,
    hopened.tabled.declarable, hopened.tabled.distinct⟩, hfilled.transcript hs₄ rfl⟩

/-- A method that was read assembles from items that can be printed. -/
theorem legible_of_ofSource {m : Method} {g : Graph} (hm : m.Lexical) (hok : Graph.ofSource m = .ok g) :
    ∃ h params items, g.Legible h params items := by
  obtain ⟨h, items, hg, -⟩ := transcript_of_ofSource hm hok
  exact ⟨h, _, items, hg⟩

end Midend
