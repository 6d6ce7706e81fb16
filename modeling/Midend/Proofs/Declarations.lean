import Midend.Proofs.Resolution

/-!
# Declarations of a method

What is declared before the first instruction of a method: its fields, which go into the field table, and
its blocks, which are named by their labels.

## Shape of the argument

Declaring a field keeps the table `Tabled`: every entry can be declared again, and no two share a slot or
a name.  Creating a block keeps the scope `Laid`: its labels are those of the blocks created so far, in
order.  Each invariant has one lemma for the step, and the lemmas on whole lists follow by induction.
-/

namespace Midend

open Source

namespace Scope

variable {s s' : Scope}

/-! ## Fields -/

/-- Where dropping stops. -/
theorem eq_of_dropWhile {α : Type} {p : α → Bool} {xs rest : List α} {x : α} (h : xs.dropWhile p = x :: rest) :
    p x = false ∧ xs = xs.takeWhile p ++ x :: rest := by
  have hne : xs.dropWhile p ≠ [] := by rw [h]; exact List.cons_ne_nil _ _
  have hhead := List.head_dropWhile_not p hne
  simp only [h, List.head_cons] at hhead
  refine ⟨hhead, ?_⟩
  rw [← h, List.takeWhile_append_dropWhile]

/-- Qualified names are split at the last dot. -/
theorem splitQualified_eq_some {q owner name : String} : splitQualified q = some (owner, name) ↔
    q = owner ++ "." ++ name ∧ '.' ∉ name.toList := by
  constructor
  · intro h
    unfold splitQualified at h
    simp only at h
    split at h
    · cases h
    · next c before hdrop =>
      obtain ⟨hc, hq⟩ := eq_of_dropWhile hdrop
      have hafter : ∀ d ∈ q.toList.reverse.takeWhile (· ≠ '.'), d ≠ '.' := fun d hd => by
        simpa using List.mem_takeWhile_imp hd
      generalize q.toList.reverse.takeWhile (· ≠ '.') = after at h hq hafter
      obtain rfl : c = '.' := by simpa using hc
      cases h
      refine ⟨?_, ?_⟩
      · rw [← String.toList_inj, ← List.reverse_inj, hq]
        simp
      · rw [String.toList_ofList, List.mem_reverse]
        exact fun hmem => hafter _ hmem rfl
  · rintro ⟨rfl, hname⟩
    have hrev : (owner ++ "." ++ name).toList.reverse = name.toList.reverse ++ '.' :: owner.toList.reverse := by
      simp
    have hafter : ∀ c ∈ name.toList.reverse, decide (c ≠ '.') = true := by
      intro c hc
      rw [decide_eq_true_eq]
      rintro rfl
      exact hname (List.mem_reverse.1 hc)
    have hstop : Scan.Stops (fun c => decide (c ≠ '.')) ('.' :: owner.toList.reverse) :=
      Scan.stops_cons.2 (by decide)
    obtain ⟨htake, hdrop⟩ := Scan.takeWhile_eq hafter hstop
    unfold splitQualified
    simp only [hrev, hdrop, htake, List.reverse_reverse, String.ofList_toList]

/-- The field that a declaration is about. -/
def declared (decl : FieldDecl) : Reading Field := do
  let (owner, name) ← orError (splitQualified decl.qualified) (.unqualifiedField decl.qualified)
  let ty ← readType decl.ty
  let attrs ← decl.attrs.foldlM (fieldAttr decl.qualified) ⟨none, false, false⟩
  let offset ← orError attrs.offset (.missingOffset decl.qualified)
  return ⟨owner, name, ty, offset, attrs.isStatic, attrs.isVolatile⟩

/-- The scope after a field was declared. -/
def withField (s : Scope) (qualified : String) (f : Field) : Scope :=
  { s with
    graph := (s.graph.internField f).1
    fields := (qualified, (s.graph.internField f).2) :: s.fields }

/-- A field is declared if its type is known and its name is new. -/
theorem declareField_eq_ok {decl : FieldDecl} : s.declareField decl = .ok s' ↔
    ∃ f, declared decl = .ok f ∧ s.fields.lookup decl.qualified = none ∧ s' = s.withField decl.qualified f := by
  simp only [declareField, declared, Checked.bind_eq_ok, Checked.pure_eq_ok]
  constructor
  · rintro ⟨split, hsplit, ty, hty, attrs, hattrs, offset, hoffset, hok⟩
    split at hok
    · cases hok
    · next hnone =>
      cases hok
      exact ⟨_, ⟨split, hsplit, ty, hty, attrs, hattrs, offset, hoffset, rfl⟩, hnone, rfl⟩
  · rintro ⟨f, ⟨split, hsplit, ty, hty, attrs, hattrs, offset, hoffset, rfl⟩, hnone, rfl⟩
    refine ⟨split, hsplit, ty, hty, attrs, hattrs, offset, hoffset, ?_⟩
    rw [hnone]
    rfl

end Scope

/-! ## Declared fields -/

/-- A field can be declared. -/
structure Field.Declarable (f : Field) : Prop where
  symbol : IsSymbol f.qualified
  name : '.' ∉ f.name.toList
  offset : f.offset < UInt32.size

/-- The declaration of a field. -/
def Field.decl (f : Field) : FieldDecl where
  qualified := f.qualified
  ty := f.ty.text
  attrs := ("offset", .int f.offset) :: ((if f.isStatic then [("static", .bool true)] else [])
    ++ if f.isVolatile then [("volatile", .bool true)] else [])

namespace Scope

variable {s : Scope}

/-- A field that was declared can be declared again under its own name. -/
theorem declarable_of_declared {decl : FieldDecl} {f : Field} (hdecl : IsSymbol decl.qualified)
    (h : declared decl = .ok f) : f.Declarable ∧ f.qualified = decl.qualified := by
  simp only [declared, Checked.bind_eq_ok, orError_eq_ok, Checked.pure_eq_ok] at h
  obtain ⟨⟨owner, name⟩, hsplit, ty, -, attrs, hattrs, offset, hoffset, rfl⟩ := h
  obtain ⟨hq, hname⟩ := splitQualified_eq_some.1 hsplit
  have hbound : ∀ n, attrs.offset = some n → n < UInt32.size := by
    apply Checked.foldlM_prefix (P := fun _ (attrs : FieldAttrs) => ∀ n, attrs.offset = some n →
      n < UInt32.size) hattrs
    · simp
    · intro done e rest c c' _ hc hstep
      unfold fieldAttr at hstep
      split at hstep
      · split at hstep
        · next n hn =>
          cases hstep
          simp only [Bool.and_eq_true, decide_eq_true_eq] at hn
          simpa using hn.2
        · cases hstep
      · cases hstep
        exact hc
      · cases hstep
        exact hc
      · cases hstep
  have hqualified : (⟨owner, name, ty, offset, attrs.isStatic, attrs.isVolatile⟩ : Field).qualified =
      decl.qualified := hq.symm
  exact ⟨⟨hqualified ▸ hdecl, hname, hbound _ hoffset⟩, hqualified⟩

/-- Declaring what a field prints as gives the field back. -/
theorem declared_decl {f : Field} (hf : f.Declarable) : declared f.decl = .ok f := by
  have hsplit : splitQualified f.qualified = some (f.owner, f.name) := splitQualified_eq_some.2 ⟨rfl, hf.name⟩
  have hattrs : f.decl.attrs.foldlM (fieldAttr f.qualified) ⟨none, false, false⟩ =
      .ok ⟨some f.offset, f.isStatic, f.isVolatile⟩ := by
    have hoffset : fieldAttr f.qualified ⟨none, false, false⟩ ("offset", .int f.offset) =
        .ok ⟨some f.offset, false, false⟩ := by
      simp [fieldAttr, hf.offset]
    rw [Field.decl, List.foldlM_cons, hoffset]
    cases f.isStatic <;> cases f.isVolatile <;> rfl
  simp only [declared, Checked.bind_eq_ok, orError_eq_ok, readType_eq_ok, Checked.pure_eq_ok]
  exact ⟨(f.owner, f.name), hsplit, f.ty, Ty.ofText?_text f.ty, _, hattrs, f.offset, rfl, rfl⟩

/-! ## The field table -/

/-- Interning finds the slot of a field or adds a new one. -/
theorem internField_cases (g : Graph) (f : Field) :
    (∃ k f', g.fields[k]? = some f' ∧ f'.sameSlot f = true ∧ g.internField f = (g, ⟨k⟩)) ∨
      (∀ f' ∈ g.fields, f'.sameSlot f = false) ∧
        g.internField f = ({ g with fields := g.fields.push f }, ⟨g.fields.size⟩) := by
  unfold Graph.internField
  cases hfind : g.fields.findIdx? (·.sameSlot f) with
  | none => exact .inr ⟨Array.findIdx?_eq_none_iff.1 hfind, rfl⟩
  | some k =>
    obtain ⟨hk, hslot, -⟩ := Array.findIdx?_eq_some_iff_getElem.1 hfind
    exact .inl ⟨k, _, Array.getElem?_eq_getElem hk, hslot, rfl⟩

/-- The fields of the graph can be declared, have slots and names of their own, and are in scope. -/
structure Tabled (s : Scope) : Prop where
  declarable : ∀ f ∈ s.graph.fields, f.Declarable
  distinct : s.graph.fields.toList.Pairwise fun f f' => f.sameSlot f' = false ∧ f.qualified ≠ f'.qualified
  knows : s.Knows s.graph.fields
  bounded : ∀ q f, s.fields.lookup q = some f → f.index < s.graph.fields.size

/-- One more field is in both tables. -/
theorem Tabled.withField {f : Field} (hs : s.Tabled) (hf : f.Declarable)
    (hnew : s.fields.lookup f.qualified = none) : (s.withField f.qualified f).Tabled := by
  have hother : ∀ (k : FieldId) f', s.graph.fields[k.index]? = some f' → f'.qualified ≠ f.qualified := by
    intro k f' hk heq
    have := hs.knows k f' hk
    rw [heq, hnew] at this
    cases this
  have hknown : ∀ v, ∀ (k : FieldId) f', s.graph.fields[k.index]? = some f' →
      ((f.qualified, v) :: s.fields).lookup f'.qualified = some k := by
    intro v k f' hk
    rw [List.lookup_cons, beq_eq_false_iff_ne.2 (hother k f' hk)]
    exact hs.knows k f' hk
  unfold Scope.withField
  rcases internField_cases s.graph f with ⟨k, f', hk, -, heq⟩ | ⟨hslot, heq⟩
  · rw [heq]
    refine ⟨hs.declarable, hs.distinct, hknown _, fun q f' hq => ?_⟩
    rw [List.lookup_cons] at hq
    split at hq
    · cases hq
      exact (Array.getElem?_eq_some_iff.1 hk).1
    · exact hs.bounded q f' hq
  · rw [heq]
    refine ⟨?_, ?_, ?_, ?_⟩
    · intro f' hf'
      rcases Array.mem_push.1 hf' with hf' | rfl
      · exact hs.declarable f' hf'
      · exact hf
    · rw [Array.toList_push, List.pairwise_append]
      refine ⟨hs.distinct, List.pairwise_singleton _ _, ?_⟩
      intro f' hf' f'' hf''
      rw [List.mem_singleton] at hf''
      subst hf''
      obtain ⟨k, hk⟩ := List.mem_iff_getElem?.1 hf'
      exact ⟨hslot f' (Array.mem_toList_iff.1 hf'), hother ⟨k⟩ f' (by simpa using hk)⟩
    · intro k f' hk
      rw [Array.getElem?_push] at hk
      split at hk
      · next hlast =>
        cases hk
        rw [List.lookup_cons, beq_self_eq_true, ← hlast]
      · exact hknown _ k f' hk
    · intro q f' hq
      rw [List.lookup_cons] at hq
      rw [Array.size_push]
      split at hq
      · cases hq
        exact Nat.lt_succ_self _
      · exact Nat.lt_succ_of_lt (hs.bounded q f' hq)

/-- Nothing but fields has been declared. -/
structure Opened (m : Method) (s : Scope) : Prop where
  tabled : s.Tabled
  assembled : s.graph.Assembled ⟨m.name, m.isStatic, m.isSynchronized, s.graph.fields, 1⟩ []
  values : s.values = []
  labels : s.labels = []
  pending : s.pendingPhis = []

theorem opened_initial (m : Method) : (initial m).Opened m where
  tabled := by
    refine ⟨?_, List.Pairwise.nil, ?_, ?_⟩
    · intro f hf
      cases hf
      contradiction
    · intro f field hf
      cases hf
    · intro q f hq
      cases hq
  assembled := Graph.assembled_initial m
  values := rfl
  labels := rfl
  pending := rfl

/-- One more field leaves the rest of the method to be read. -/
theorem Opened.withField {m : Method} {f : Field} (hs : s.Opened m) (hf : f.Declarable)
    (hnew : s.fields.lookup f.qualified = none) : (s.withField f.qualified f).Opened m where
  tabled := hs.tabled.withField hf hnew
  assembled := by
    have hgraph : (s.graph.internField f).1 = { s.graph with fields := (s.graph.internField f).1.fields } := by
      rcases internField_cases s.graph f with ⟨k, f', -, -, heq⟩ | ⟨-, heq⟩ <;> rw [heq]
    have hset := hs.assembled.setFields (s.graph.internField f).1.fields
    rw [← hgraph] at hset
    exact hset
  values := hs.values
  labels := hs.labels
  pending := hs.pending

/-- Declaring its fields opens a method. -/
theorem opened_of_declareFields {m : Method} (hm : m.Lexical)
    (hok : m.fields.foldlM declareField (initial m) = .ok s) : s.Opened m := by
  apply Checked.foldlM_prefix (P := fun _ s => s.Opened m) hok (opened_initial m)
  intro done decl rest c c' hrest hc hstep
  obtain ⟨f, hf, hnew, rfl⟩ := declareField_eq_ok.1 hstep
  have hdecl := hm.fields decl (by simp [hrest])
  obtain ⟨hdeclarable, hq⟩ := declarable_of_declared hdecl.qualified hf
  rw [← hq] at hnew ⊢
  exact hc.withField hdeclarable hnew

/-- Fields with slots and names of their own can be declared, and give the table of them. -/
theorem declareFields_total {m : Method} {fields : List Field} (hm : m.fields = fields.map Field.decl)
    (hdeclarable : ∀ f ∈ fields, f.Declarable)
    (hdistinct : fields.Pairwise fun f f' => f.sameSlot f' = false ∧ f.qualified ≠ f'.qualified) :
    ∃ s, m.fields.foldlM declareField (initial m) = .ok s ∧ s.Opened m ∧ s.graph.fields.toList = fields := by
  have hstep : ∀ (done : List Field) f rest (s : Scope), fields = done ++ f :: rest →
      (s.Opened m ∧ s.graph.fields.toList = done ∧ ∀ e ∈ s.fields, ∃ f ∈ done, e.1 = f.qualified) →
      ∃ s', s.declareField f.decl = .ok s' ∧ s'.Opened m ∧ s'.graph.fields.toList = done ++ [f] ∧
        ∀ e ∈ s'.fields, ∃ f' ∈ done ++ [f], e.1 = f'.qualified := by
    rintro done f rest s rfl ⟨hopened, hfields, hnames⟩
    have hf := hdeclarable f (by simp)
    have hothers : ∀ f' ∈ done, f'.sameSlot f = false ∧ f'.qualified ≠ f.qualified := fun f' hf' =>
      (List.pairwise_append.1 hdistinct).2.2 f' hf' f List.mem_cons_self
    have hnew : s.fields.lookup f.qualified = none := by
      rw [List.lookup_eq_none_iff]
      intro e he
      obtain ⟨f', hf', hq⟩ := hnames e he
      rw [hq, bne_iff_ne]
      exact (hothers f' hf').2.symm
    have hintern : s.graph.internField f =
        ({ s.graph with fields := s.graph.fields.push f }, ⟨s.graph.fields.size⟩) := by
      rcases internField_cases s.graph f with ⟨k, f', hk, hslot, -⟩ | ⟨-, heq⟩
      · have hf' : f' ∈ done := hfields ▸ Array.mem_toList_iff.2 (Array.mem_of_getElem? hk)
        rw [(hothers f' hf').1] at hslot
        cases hslot
      · exact heq
    refine ⟨_, declareField_eq_ok.2 ⟨f, declared_decl hf, hnew, rfl⟩, hopened.withField hf hnew, ?_, ?_⟩
    · show (s.graph.internField f).1.fields.toList = _
      rw [hintern, Array.toList_push, hfields]
    · intro e he
      rcases List.mem_cons.1 he with rfl | he
      · exact ⟨f, by simp, rfl⟩
      · obtain ⟨f', hf', hq⟩ := hnames e he
        exact ⟨f', List.mem_append_left _ hf', hq⟩
  rw [hm, List.foldlM_map]
  obtain ⟨s, hs, hopened, hfields, -⟩ := Checked.foldlM_total_prefix ⟨opened_initial m, rfl, nofun⟩ hstep
  exact ⟨s, hs, hopened, hfields⟩

section Labels

variable {s s₀ s' : Scope} {h : Header} {names : List String} {label : String}
  {labels : List (String × BlockId)} {blocks : List Source.Block}

/-! ## Labels -/

/-- These are the labels of the blocks, in order. -/
def Labels (labels : List (String × BlockId)) (names : List String) : Prop :=
  ∀ label (b : BlockId), labels.lookup label = some b ↔ names[b.index]? = some label

theorem Labels.lookup_eq_none (hs : Labels labels names) : labels.lookup label = none ↔ label ∉ names := by
  rw [List.mem_iff_getElem?, Option.eq_none_iff_forall_ne_some, not_exists]
  constructor
  · intro hnone n hn
    exact hnone ⟨n⟩ ((hs label ⟨n⟩).2 hn)
  · intro hnone b hb
    exact hnone b.index ((hs label b).1 hb)

theorem labels_nil : Labels [] [] := by
  intro label b
  simp

/-- A new label names the next block. -/
theorem Labels.add (hs : Labels labels names) (hnew : labels.lookup label = none) :
    Labels ((label, ⟨names.length⟩) :: labels) (names ++ [label]) := by
  intro l b
  have hfresh := hs.lookup_eq_none.1 hnew
  rw [List.lookup_cons]
  by_cases hl : l = label
  · subst hl
    rw [beq_self_eq_true]
    constructor
    · intro hb
      cases hb
      exact List.getElem?_concat_length
    · intro hb
      have hlast : b.index = names.length := by
        by_contra hne
        have hlt : b.index < names.length := by
          have := (List.getElem?_eq_some_iff.1 hb).1
          rw [List.length_append, List.length_singleton] at this
          omega
        rw [List.getElem?_append_left hlt] at hb
        exact hfresh (List.mem_of_getElem? hb)
      rw [← hlast]
  · rw [beq_eq_false_iff_ne.2 hl]
    show labels.lookup l = some b ↔ _
    rw [hs l b, List.getElem?_append]
    split
    · rfl
    · next hb =>
      rw [List.getElem?_eq_none (Nat.le_of_not_lt hb), List.getElem?_singleton]
      split
      · simp [Ne.symm hl]
      · simp

/-- Blocks with these labels have been added to a scope. -/
structure Laid (s₀ : Scope) (h : Header) (names : List String) (s : Scope) : Prop where
  frame : s = { s₀ with graph := s.graph, labels := s.labels }
  assembled : s.graph.Assembled { h with size := names.length } []
  labels : Labels s.labels names

/-- One more block is laid with its label. -/
theorem Laid.add (hs : Laid s₀ h names s) (hnew : s.labels.lookup label = none) :
    Laid s₀ h (names ++ [label]) { s with
      graph := s.graph.createBlock.1, labels := (label, s.graph.createBlock.2) :: s.labels } := by
  refine ⟨?_, ?_, ?_⟩
  · rw [hs.frame]
  · rw [List.length_append]
    exact hs.assembled.createBlock
  · have hsize : s.graph.createBlock.2 = ⟨names.length⟩ := by
      rw [Graph.createBlock, hs.assembled.size_blocks]
    show Labels ((label, s.graph.createBlock.2) :: s.labels) _
    rw [hsize]
    exact hs.labels.add hnew

/-- Creating a labelled block succeeds if the label is new. -/
theorem createLabelled_eq_ok {block : Source.Block} :
    (let (g, b) := s.graph.createBlock
     { s with graph := g }.declareLabel block.label b) = .ok s' ↔ s.labels.lookup block.label = none ∧
      s' = { s with graph := s.graph.createBlock.1, 
                     labels := (block.label, s.graph.createBlock.2) :: s.labels } :=
  declareLabel_eq_ok

/-- The first label names the entry, which is there already. -/
theorem laid_first (hs : s.graph.Assembled h []) (hsize : h.size = 1) (hlabels : s.labels = []) :
    Laid s h [label] { s with labels := (label, s.graph.entry) :: s.labels } := by
  refine ⟨rfl, ?_, ?_⟩
  · have hheader : { h with size := [label].length } = h := by rw [List.length_singleton, ← hsize]
    rw [hheader]
    exact hs
  · show Labels ((label, s.graph.entry) :: s.labels) _
    rw [hs.entry, hlabels]
    exact labels_nil.add rfl

/-- What a scope has when its blocks have been created. -/
theorem declareBlocks_spec (hs : s.graph.Assembled h []) (hsize : h.size = 1) (hlabels : s.labels = [])
    (hok : s.declareBlocks blocks = .ok s') : blocks ≠ [] ∧ Laid s h (blocks.map (·.label)) s' := by
  cases blocks with
  | nil => cases hok
  | cons first others =>
    obtain ⟨s₁, hfirst, hothers⟩ := Checked.bind_eq_ok.1 hok
    obtain ⟨-, rfl⟩ := declareLabel_eq_ok.1 hfirst
    refine ⟨List.cons_ne_nil _ _, ?_⟩
    apply Checked.foldlM_prefix (P := fun done s' => Laid s h (first.label :: done.map (·.label)) s') hothers
    · exact laid_first hs hsize hlabels
    · intro done block rest c c' _ hc hstep
      obtain ⟨hnew, rfl⟩ := createLabelled_eq_ok.1 hstep
      rw [List.map_append, ← List.cons_append]
      exact hc.add hnew

/-- Blocks with labels of their own can be created. -/
theorem declareBlocks_total (hs : s.graph.Assembled h []) (hsize : h.size = 1) (hlabels : s.labels = [])
    (hne : blocks ≠ []) (hnodup : (blocks.map (·.label)).Nodup) : ∃ s', s.declareBlocks blocks = .ok s' := by
  obtain ⟨first, others, rfl⟩ := List.exists_cons_of_ne_nil hne
  have hfirst : s.declareLabel first.label s.graph.entry =
      .ok { s with labels := (first.label, s.graph.entry) :: s.labels } :=
    declareLabel_eq_ok.2 ⟨by rw [hlabels]; rfl, rfl⟩
  have hfresh : ∀ (done : List Source.Block) block rest, others = done ++ block :: rest →
      block.label ∉ first.label :: done.map (·.label) := by
    intro done block rest hrest hmem
    have hsplit : ((first :: done).map (·.label) ++ block.label :: rest.map (·.label)).Nodup := by
      simpa [hrest] using hnodup
    exact List.disjoint_of_nodup_append hsplit hmem List.mem_cons_self
  obtain ⟨s', hs', -⟩ := Checked.foldlM_total_prefix
    (P := fun (done : List Source.Block) s' => Laid s h (first.label :: done.map (·.label)) s')
    (laid_first hs hsize hlabels)
    fun done block rest c hrest hc => by
      have hnew := hc.labels.lookup_eq_none.2 (hfresh done block rest hrest)
      refine ⟨_, createLabelled_eq_ok.2 ⟨hnew, rfl⟩, ?_⟩
      rw [List.map_append, ← List.cons_append]
      exact hc.add hnew
  exact ⟨s', Checked.bind_eq_ok.2 ⟨_, hfirst, hs'⟩⟩

end Labels

end Scope

end Midend
