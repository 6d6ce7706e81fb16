import Midend.Proofs.Assembly
import Midend.Proofs.WrittenForm

/-!
# Resolving names

What reading a line of a method does to the names in scope and to the graph.  A step either fails or leads
to one scope, and the lemmas here say when it succeeds and where it leads.

## Shape of the argument

One equivalence per step (`addLine_eq_ok`, `declareParam_eq_ok`, `fillPhis_eq`), so that both
directions are at hand: what is known of a graph that was read, and that a text can be read.  A line is
first resolved to the instruction it stands for (`Resolves`) and then added to the graph.  A kind is read
back from the word and the attributes it is written with exactly when it is `Expressible`.
-/

namespace Midend

open Source

/-- What is looked up is in the table. -/
theorem mem_of_lookup {α : Type} {key : String} {a : α} {es : List (String × α)} (h : es.lookup key = some a) :
    (key, a) ∈ es := by
  obtain ⟨l, r, rfl, -⟩ := List.lookup_eq_some_iff.1 h
  simp

/-- The attributes that say what an instruction of this kind is about. -/
def Kind.attrs (fields : Array Field) : Kind → List (String × Attr)
  | .const v => [("value", .int v)]
  | .newInstance c => [("class", .symbol c)]
  | .newArray t => [("component", .ident t.text)]
  | .instanceGet f | .instanceSet f | .staticGet f | .staticSet f =>
    [("field", .symbol ((fields[f.index]?.map Field.qualified).getD ""))]
  | .invoke _ m => [("method", .symbol m)]
  | _ => []

/-- A line can have this kind, given the field table and whether the line has operands. -/
def Kind.Expressible (fields : Array Field) (hasOperands : Prop) : Kind → Prop
  | .param _ | .phi => False
  | .const v => Int64.minValue.toInt ≤ v ∧ v ≤ Int64.maxValue.toInt
  | .newInstance c => IsSymbol c
  | .instanceGet f | .instanceSet f | .staticGet f | .staticSet f => f.index < fields.size
  | .invoke mode m => IsSymbol m ∧ (mode.hasReceiver = true → hasOperands)
  | .unknown name => IsIdent name ∧ name ≠ "phi" ∧
    ∀ (s : Scope) (line : Line), line.op = name → s.kindOf line = .ok (.unknown name)
  | .ret => hasOperands
  | .retVoid => ¬ hasOperands
  | _ => True

section Words

variable {k : Kind} {fields : Array Field} {P : Prop}

/-- What a line says is no phi. -/
theorem Kind.Expressible.isPhi_eq_false (hk : k.Expressible fields P) : k.isPhi = false := by
  cases k with
  | phi => exact hk.elim
  | _ => rfl

/-- What a line says is no parameter. -/
theorem Kind.Expressible.isParam_eq_false (hk : k.Expressible fields P) : k.isParam = false := by
  cases k with
  | param n => exact hk.elim
  | _ => rfl

/-- The word for it is not the word for a phi. -/
theorem Kind.Expressible.mnemonic_ne (hk : k.Expressible fields P) : k.mnemonic ≠ "phi" := by
  cases k with
  | phi => exact hk.elim
  | binary op => cases op <;> decide
  | compare op => cases op <;> decide
  | invoke mode m =>
    show mode.mnemonic ≠ "phi"
    cases mode <;> decide
  | unknown name => exact hk.2.1
  | _ => simp [Kind.mnemonic]

/-- The word for it can be written. -/
theorem Kind.Expressible.isIdent (hk : k.Expressible fields P) : IsIdent k.mnemonic := by
  cases k with
  | phi => exact hk.elim
  | binary op => cases op <;> decide +kernel
  | compare op => cases op <;> decide +kernel
  | invoke mode m =>
    show IsIdent mode.mnemonic
    cases mode <;> decide +kernel
  | unknown name => exact hk.1
  | _ =>
    dsimp only [Kind.mnemonic]
    decide +kernel

/-- The field that it names is there. -/
theorem Kind.Expressible.field_lt {f : FieldId} (hk : k.Expressible fields P) (hf : k.field? = some f) :
    f.index < fields.size := by
  cases k with
  | instanceGet f' => cases hf; exact hk
  | instanceSet f' => cases hf; exact hk
  | staticGet f' => cases hf; exact hk
  | staticSet f' => cases hf; exact hk
  | _ => cases hf

/-- The name of a type can be written. -/
theorem isIdent_text (t : Ty) : IsIdent t.text := by
  cases t <;> decide +kernel

/-- Its attributes can be written. -/
theorem Kind.Expressible.attrs_lexical (hk : k.Expressible fields P)
    (hfields : ∀ f ∈ fields, IsSymbol f.qualified) : ∀ e ∈ k.attrs fields, IsIdent e.1 ∧ e.2.Lexical := by
  have hsingle : ∀ {key : String} {a : Attr}, IsIdent key → a.Lexical →
      ∀ e ∈ [(key, a)], IsIdent e.1 ∧ e.2.Lexical := by
    intro key a hkey ha e he
    rw [List.mem_singleton] at he
    rw [he]
    exact ⟨hkey, ha⟩
  have hfield : ∀ f : FieldId, f.index < fields.size →
      Attr.Lexical (.symbol ((fields[f.index]?.map Field.qualified).getD "")) := by
    intro f hf
    rw [Array.getElem?_eq_getElem hf]
    exact hfields _ (Array.getElem_mem hf)
  cases k with
  | phi => exact hk.elim
  | param n => exact hk.elim
  | const v => exact hsingle (by decide +kernel) hk
  | newInstance c => exact hsingle (by decide +kernel) hk
  | newArray t =>
    refine hsingle (by decide +kernel) ⟨isIdent_text t, ?_⟩
    cases t <;> decide
  | instanceGet f => exact hsingle (by decide +kernel) (hfield f hk)
  | instanceSet f => exact hsingle (by decide +kernel) (hfield f hk)
  | staticGet f => exact hsingle (by decide +kernel) (hfield f hk)
  | staticSet f => exact hsingle (by decide +kernel) (hfield f hk)
  | invoke mode m => exact hsingle (by decide +kernel) hk.1
  | _ => exact fun e he => absurd he List.not_mem_nil

end Words

namespace Scope

variable {s s' : Scope} {line : Line} {k : Kind} {fields : Array Field}

/-- A missing value is an error, one that is there is none. -/
theorem orError_eq_ok {α : Type} {o : Option α} {e : ReadError} {a : α} : orError o e = .ok a ↔ o = some a := by
  cases o with
  | none => simp [orError]
  | some b => simp [orError]

/-- An attribute is read if it is there and is a symbol. -/
theorem symbolAttr_eq_ok {key name : String} :
    symbolAttr line key = .ok name ↔ line.attrs.lookup key = some (.symbol name) := by
  unfold symbolAttr attr?
  split
  · next h => simp [h]
  · next h => exact iff_of_false (by simp) (h name)

/-- A field is read if it is named and declared. -/
theorem fieldOf_eq_ok {f : FieldId} : s.fieldOf line = .ok f ↔
    ∃ q, line.attrs.lookup "field" = some (.symbol q) ∧ s.fields.lookup q = some f := by
  simp only [fieldOf, Checked.bind_eq_ok, symbolAttr_eq_ok, orError_eq_ok]

/-- A call is read if it names a method and has the receiver that it needs. -/
theorem callOf_eq_ok {mode : CallMode} : callOf mode line = .ok k ↔
    ∃ m, k = .invoke mode m ∧ line.attrs.lookup "method" = some (.symbol m) ∧
      (mode.hasReceiver = true → line.operands ≠ []) := by
  unfold callOf
  split
  · next h =>
    rw [Bool.and_eq_true, List.isEmpty_iff] at h
    refine iff_of_false (by simp [Checked.bind_eq_ok]) ?_
    rintro ⟨m, -, -, hm⟩
    exact hm h.1 h.2
  · next h =>
    simp only [Bool.and_eq_true, List.isEmpty_iff, not_and] at h
    simp only [Checked.bind_eq_ok, symbolAttr_eq_ok, Checked.pure_eq_ok, eq_comm (b := k)]
    refine exists_congr fun m => ?_
    constructor
    · rintro ⟨hm, hk⟩
      exact ⟨hk, hm, h⟩
    · rintro ⟨hk, hm, -⟩
      exact ⟨hm, hk⟩


/-! ## Kinds -/

/-- What a line says for its word to stand for a kind. -/
def States (s : Scope) (line : Line) : Kind → Prop
  | .param _ | .phi => False
  | .const v => line.attrs.lookup "value" = some (.int v) ∨ v = 0 ∨ v = 1
  | .newInstance c => line.attrs.lookup "class" = some (.symbol c)
  | .instanceGet f | .instanceSet f | .staticGet f | .staticSet f => s.fieldOf line = .ok f
  | .invoke mode m =>
    line.attrs.lookup "method" = some (.symbol m) ∧ (mode.hasReceiver = true → line.operands ≠ [])
  | .unknown name => name = line.op ∧
    ∀ (s' : Scope) (line' : Line), line'.op = name → s'.kindOf line' = .ok (.unknown name)
  | .ret => line.operands ≠ []
  | .retVoid => line.operands = []
  | _ => True

/-- The kind that is read is the one that the line states. -/
theorem states_of_kindOf (h : s.kindOf line = .ok k) : s.States line k := by
  have plain : ∀ {k'}, (.ok k' : Reading Kind) = .ok k → s.States line k' → s.States line k := by
    intro k' heq h
    cases heq
    exact h
  have hcall : ∀ mode, callOf mode line = .ok k → s.States line k := by
    intro mode h
    obtain ⟨m, rfl, hm, hops⟩ := callOf_eq_ok.1 h
    exact ⟨hm, hops⟩
  unfold kindOf at h
  split at h
  · cases h
    exact trivial
  · cases h
    exact trivial
  · next hb hc =>
    split at h
    · cases h
    · split at h
      · next hv =>
        cases h
        exact .inl hv
      · next b _ =>
        cases h
        cases b
        · exact .inr (.inl rfl)
        · exact .inr (.inr rfl)
      · cases h
    · exact plain h trivial
    · obtain ⟨c, hc, h⟩ := Checked.bind_eq_ok.1 h
      exact plain h (symbolAttr_eq_ok.1 hc)
    · split at h
      · obtain ⟨t, -, h⟩ := Checked.bind_eq_ok.1 h
        exact plain h trivial
      · cases h
    · obtain ⟨f, hf, h⟩ := Checked.bind_eq_ok.1 h
      exact plain h hf
    · obtain ⟨f, hf, h⟩ := Checked.bind_eq_ok.1 h
      exact plain h hf
    · obtain ⟨f, hf, h⟩ := Checked.bind_eq_ok.1 h
      exact plain h hf
    · obtain ⟨f, hf, h⟩ := Checked.bind_eq_ok.1 h
      exact plain h hf
    · exact plain h trivial
    · exact plain h trivial
    · exact plain h trivial
    · exact plain h trivial
    · exact hcall .static h
    · exact hcall .direct h
    · exact hcall .virtual h
    · exact hcall .interface h
    · exact plain h trivial
    · exact plain h trivial
    · exact plain h trivial
    · exact plain h trivial
    · cases h
      split
      · next hops => exact List.isEmpty_iff.1 hops
      · next hops => exact fun hnil => hops (List.isEmpty_iff.2 hnil)
    · exact plain h trivial
    · cases h
      refine ⟨rfl, fun s' line' hop => ?_⟩
      unfold kindOf
      rw [hop, hb, hc]
      simp only


/-- The kind that is read is no phi. -/
theorem isPhi_of_kindOf (h : s.kindOf line = .ok k) : k.isPhi = false := by
  cases k with
  | phi => exact (states_of_kindOf h).elim
  | _ => rfl

/-- The kind that is read can be written. -/
theorem expressible_of_kindOf (hline : line.Lexical) (hphi : line.op ≠ "phi")
    (hfields : ∀ q f, s.fields.lookup q = some f → f.index < fields.size) (h : s.kindOf line = .ok k) :
    k.Expressible fields (line.operands ≠ []) := by
  have hattr : ∀ key a, line.attrs.lookup key = some a → a.Lexical := fun key a ha =>
    (hline.attrs _ (mem_of_lookup ha)).2
  have hfield : ∀ f, s.fieldOf line = .ok f → f.index < fields.size := by
    intro f hf
    obtain ⟨q, -, hq⟩ := fieldOf_eq_ok.1 hf
    exact hfields q f hq
  have hstates := states_of_kindOf h
  cases k with
  | param index => exact hstates
  | phi => exact hstates
  | const v =>
    rcases hstates with hv | rfl | rfl
    · exact hattr _ _ hv
    · show Int64.minValue.toInt ≤ 0 ∧ 0 ≤ Int64.maxValue.toInt
      decide
    · show Int64.minValue.toInt ≤ 1 ∧ 1 ≤ Int64.maxValue.toInt
      decide
  | newInstance c => exact hattr _ _ hstates
  | instanceGet f => exact hfield f hstates
  | instanceSet f => exact hfield f hstates
  | staticGet f => exact hfield f hstates
  | staticSet f => exact hfield f hstates
  | invoke mode m => exact ⟨hattr _ _ hstates.1, hstates.2⟩
  | unknown name =>
    obtain ⟨rfl, hread⟩ := hstates
    exact ⟨hline.op, hphi, hread⟩
  | ret => exact hstates
  | retVoid => exact not_not.2 hstates
  | _ => trivial

/-- Every field of a table can be named. -/
def Knows (s : Scope) (fields : Array Field) : Prop :=
  ∀ (f : FieldId) field, fields[f.index]? = some field → s.fields.lookup field.qualified = some f

/-- A kind is read back from the word and the attributes it is written with. -/
theorem kindOf_eq (hk : k.Expressible fields (line.operands ≠ [])) (hop : line.op = k.mnemonic)
    (hattrs : line.attrs = k.attrs fields) (hs : s.Knows fields) : s.kindOf line = .ok k := by
  have haccess : ∀ (kind : FieldId → Kind) (f : FieldId) {line : Line},
      line.attrs = [("field", .symbol ((fields[f.index]?.map Field.qualified).getD ""))] →
      f.index < fields.size → (do return kind (← s.fieldOf line) : Reading Kind) = .ok (kind f) := by
    intro kind f line ha hf
    have hget : fields[f.index]? = some fields[f.index] := Array.getElem?_eq_getElem hf
    have hfield : s.fieldOf line = .ok f := by
      rw [fieldOf_eq_ok, ha, hget]
      exact ⟨_, rfl, hs f _ hget⟩
    rw [hfield]
    rfl
  obtain ⟨result, op, operands, entries, succs, attrs, ty⟩ := line
  subst hop hattrs
  cases k with
  | param index => exact hk.elim
  | phi => exact hk.elim
  | binary op => simp [kindOf, Kind.mnemonic]
  | compare op =>
    have hop : BinaryOp.ofMnemonic? op.mnemonic = none := by cases op <;> decide
    simp [kindOf, Kind.mnemonic, hop]
  | newArray t => cases t <;> rfl
  | instanceGet f => exact haccess .instanceGet f rfl hk
  | instanceSet f => exact haccess .instanceSet f rfl hk
  | staticGet f => exact haccess .staticGet f rfl hk
  | staticSet f => exact haccess .staticSet f rfl hk
  | invoke mode m =>
    have hcall : callOf mode _ = _ := callOf_eq_ok.2 ⟨m, rfl, rfl, hk.2⟩
    cases mode <;> exact hcall
  | unknown name => exact hk.2.2 s _ rfl
  | ret =>
    obtain ⟨v, vs, rfl⟩ := List.exists_cons_of_ne_nil hk
    rfl
  | retVoid =>
    obtain rfl : operands = [] := not_not.1 hk
    rfl
  | _ => rfl

/-! ## What each step of the resolution does -/

/-- The scope after a value was added, with the name it got. -/
def grown (s : Scope) (name? : Option String) (it : Item) : Scope :=
  { s with
    graph := s.graph.push it
    values := name?.toList.map (fun name => (name, ⟨s.graph.insts.size⟩)) ++ s.values }

/-- A value is read if its name is in scope. -/
theorem value_eq_ok {name : String} {v : InstId} : s.value name = .ok v ↔ s.values.lookup name = some v :=
  orError_eq_ok

/-- A target is read if its label is in scope. -/
theorem target_eq_ok {label : String} {b : BlockId} : s.target label = .ok b ↔ s.labels.lookup label = some b :=
  orError_eq_ok

/-- A type is read if it has this name. -/
theorem readType_eq_ok {name : String} {t : Ty} : readType name = .ok t ↔ Ty.ofText? name = some t :=
  orError_eq_ok

/-- A name is defined once. -/
theorem define_eq_ok {name : String} {v : InstId} : s.define name v = .ok s' ↔
    s.values.lookup name = none ∧ s' = { s with values := (name, v) :: s.values } := by
  unfold define
  split
  · next h => simp [h]
  · next h => simp [h, eq_comm]

/-- A result is defined once, if it has a name. -/
theorem defineResult_eq_ok {name? : Option String} {v : InstId} : s.defineResult name? v = .ok s' ↔
    (∀ name ∈ name?, s.values.lookup name = none) ∧
      s' = { s with values := name?.toList.map (fun name => (name, v)) ++ s.values } := by
  cases name? with
  | none => simpa [defineResult] using eq_comm
  | some name => simp [defineResult, define_eq_ok]

/-- A label is declared once. -/
theorem declareLabel_eq_ok {label : String} {b : BlockId} : s.declareLabel label b = .ok s' ↔
    s.labels.lookup label = none ∧ s' = { s with labels := (label, b) :: s.labels } := by
  unfold declareLabel
  split
  · next h => simp [h]
  · next h => simp [h, eq_comm]

/-- A parameter is declared if its type is known and its name is new. -/
theorem declareParam_eq_ok {name ty : String} {index : Nat} : s.declareParam ((name, ty), index) = .ok s' ↔
    ∃ t, Ty.ofText? ty = some t ∧ s.values.lookup name = none ∧
      s' = s.grown (some name) ⟨.param index, t, [], s.graph.entry, []⟩ := by
  simp only [declareParam, Checked.bind_eq_ok, readType_eq_ok, define_eq_ok]
  rfl

/-- Edges to labelled blocks. -/
theorem foldlM_addTarget_eq_ok {b : BlockId} {labels : List String} :
    labels.foldlM (addTarget b) s = .ok s' ↔
      ∃ ts, labels.mapM s.target = .ok ts ∧
        s' = { s with graph := ts.foldl (fun g t => g.link b t) s.graph } := by
  induction labels generalizing s with
  | nil =>
    simp only [List.foldlM_nil, List.mapM_nil, Checked.pure_eq_ok, exists_eq_left']
    exact eq_comm
  | cons label labels ih =>
    simp only [List.foldlM_cons, List.mapM_cons, addTarget, Checked.bind_eq_ok, Checked.pure_eq_ok, ih]
    constructor
    · rintro ⟨s₁, ⟨t, ht, rfl⟩, ts, hts, rfl⟩
      exact ⟨t :: ts, ⟨t, ht, ts, hts, rfl⟩, rfl⟩
    · rintro ⟨_, ⟨t, ht, ts, hts, rfl⟩, rfl⟩
      exact ⟨_, ⟨t, ht, rfl⟩, ts, hts, rfl⟩

/-- The instruction that a line of a block stands for.  A phi has no operands as yet. -/
structure Resolves (s : Scope) (b : BlockId) (line : Line) (it : Item) : Prop where
  block : it.block = b
  ty : typeOf line = .ok it.ty
  phi : line.op = "phi" → it.kind = .phi ∧ it.inputs = [] ∧ it.succs = []
  kind : line.op ≠ "phi" → s.kindOf line = .ok it.kind
  inputs : line.op ≠ "phi" → line.operands.mapM s.value = .ok it.inputs
  succs : line.op ≠ "phi" → line.succs.mapM s.target = .ok it.succs
  count : line.op ≠ "phi" → ∀ n, it.kind.successorCount? = some n → n = line.succs.length
  fresh : ∀ name ∈ line.result, s.values.lookup name = none

/-- The scope after a line was read. -/
def after (s : Scope) (line : Line) (it : Item) : Scope :=
  { s.grown line.result it with
    pendingPhis := s.pendingPhis ++ if it.kind.isPhi then [(⟨s.graph.insts.size⟩, it.block, line)] else [] }

/-- A phi is added without operands, if its name is new. -/
theorem addPhi_eq_ok {b : BlockId} {ty : Ty} : s.addPhi b line ty = .ok s' ↔
    (∀ name ∈ line.result, s.values.lookup name = none) ∧ s' = s.after line ⟨.phi, ty, [], b, []⟩ := by
  simp only [addPhi, defineResult_eq_ok]
  rfl

/-- The edges and the name of an instruction that has been placed. -/
theorem link_then_define_eq_ok (b : BlockId) {kind : Kind} (ty : Ty) (inputs : List InstId)
    (hkind : kind.isPhi = false) :
    (do
      let (g, i) := s.graph.addInst kind ty inputs
      let s ← line.succs.foldlM (addTarget b) { s with graph := g.placeInst b i }
      s.defineResult line.result i) = .ok s' ↔
    ∃ succs, line.succs.mapM s.target = .ok succs ∧ (∀ name ∈ line.result, s.values.lookup name = none) ∧
      s' = s.after line ⟨kind, ty, inputs, b, succs⟩ := by
  have hafter : ∀ succs, s.after line ⟨kind, ty, inputs, b, succs⟩ = { s with
      graph := succs.foldl (fun g t => g.link b t)
        ((s.graph.addInst kind ty inputs).1.placeInst b (s.graph.addInst kind ty inputs).2)
      values := line.result.toList.map (fun name => (name, (s.graph.addInst kind ty inputs).2)) ++
        s.values } := by
    intro succs
    simp only [after, grown, Graph.push, hkind, Bool.false_eq_true, if_false, List.append_nil]
    rfl
  simp only [Checked.bind_eq_ok, foldlM_addTarget_eq_ok, defineResult_eq_ok, hafter]
  constructor
  · rintro ⟨_, ⟨succs, hsuccs, rfl⟩, hfresh, rfl⟩
    exact ⟨succs, hsuccs, hfresh, rfl⟩
  · rintro ⟨succs, hsuccs, hfresh, rfl⟩
    exact ⟨_, ⟨succs, hsuccs, rfl⟩, hfresh, rfl⟩

/-- Any other instruction is added if all it names is in scope, it has as many successors as it says and its
name is new. -/
theorem addOrdinary_eq_ok {b : BlockId} {ty : Ty} : s.addOrdinary b line ty = .ok s' ↔
    ∃ kind inputs succs, s.kindOf line = .ok kind ∧ line.operands.mapM s.value = .ok inputs ∧
      (∀ n, kind.successorCount? = some n → n = line.succs.length) ∧
      line.succs.mapM s.target = .ok succs ∧ (∀ name ∈ line.result, s.values.lookup name = none) ∧
      s' = s.after line ⟨kind, ty, inputs, b, succs⟩ := by
  unfold addOrdinary
  simp only [Checked.bind_eq_ok (x := s.kindOf line), Checked.bind_eq_ok (x := line.operands.mapM s.value)]
  constructor
  · rintro ⟨kind, hkind, inputs, hinputs, h⟩
    have hplain := isPhi_of_kindOf hkind
    cases hcount : kind.successorCount? with
    | none =>
      simp only [hcount] at h
      obtain ⟨succs, hsuccs, hfresh, rfl⟩ := (link_then_define_eq_ok b ty inputs hplain).1 h
      exact ⟨kind, inputs, succs, hkind, hinputs, by simp [hcount], hsuccs, hfresh, rfl⟩
    | some n =>
      simp only [hcount] at h
      split at h
      · obtain ⟨_, h, -⟩ := Checked.bind_eq_ok.1 h
        cases h
      · next hn =>
        obtain ⟨succs, hsuccs, hfresh, rfl⟩ := (link_then_define_eq_ok b ty inputs hplain).1 h
        refine ⟨kind, inputs, succs, hkind, hinputs, ?_, hsuccs, hfresh, rfl⟩
        simpa [hcount] using hn
  · rintro ⟨kind, inputs, succs, hkind, hinputs, hn, hsuccs, hfresh, rfl⟩
    refine ⟨kind, hkind, inputs, hinputs, ?_⟩
    have h := (link_then_define_eq_ok b ty inputs (isPhi_of_kindOf hkind)).2 ⟨succs, hsuccs, hfresh, rfl⟩
    cases hcount : kind.successorCount? with
    | none => exact h
    | some n =>
      simp only
      rw [if_neg (not_not.2 (hn n hcount))]
      exact h

/-- A line is added if it resolves to an instruction, and then the instruction is in the graph. -/
theorem addLine_eq_ok {b : BlockId} : addLine b s line = .ok s' ↔
    ∃ it, s.Resolves b line it ∧ s' = s.after line it := by
  simp only [addLine, Checked.bind_eq_ok]
  by_cases hop : line.op = "phi"
  · simp only [if_pos hop, addPhi_eq_ok]
    constructor
    · rintro ⟨ty, hty, hfresh, rfl⟩
      exact ⟨⟨.phi, ty, [], b, []⟩, ⟨rfl, hty, fun _ => ⟨rfl, rfl, rfl⟩, absurd hop, absurd hop, absurd hop,
        absurd hop, hfresh⟩, rfl⟩
    · rintro ⟨it, hit, rfl⟩
      obtain ⟨kind, ty, inputs, c, succs⟩ := it
      obtain ⟨rfl, rfl, rfl⟩ := hit.phi hop
      obtain rfl := hit.block
      exact ⟨ty, hit.ty, hit.fresh, rfl⟩
  · simp only [if_neg hop, addOrdinary_eq_ok]
    constructor
    · rintro ⟨ty, hty, kind, inputs, succs, hkind, hinputs, hn, hsuccs, hfresh, rfl⟩
      exact ⟨⟨kind, ty, inputs, b, succs⟩, ⟨rfl, hty, fun h => absurd h hop, fun _ => hkind, fun _ => hinputs,
        fun _ => hsuccs, fun _ => hn, hfresh⟩, rfl⟩
    · rintro ⟨it, hit, rfl⟩
      obtain rfl := hit.block
      exact ⟨it.ty, hit.ty, it.kind, it.inputs, it.succs, hit.kind hop, hit.inputs hop, hit.count hop,
        hit.succs hop, hit.fresh, rfl⟩

section Phis

variable {s s' : Scope} {i : InstId} {b : BlockId} {line : Line}

/-! ## Operands of phis -/

/-- One operand of a phi is filled by the first entry that is left for the predecessor. -/
theorem fillPhi_eq_ok {entries : List (String × String)} {pred : BlockId}
    {st : Scope × List (String × String)} : fillPhi line i (s, entries) pred = .ok st ↔ ∃ e v rest,
      takeFirst (fun e => s.labels.lookup e.1 = some pred) entries = some (e, rest) ∧
        s.values.lookup e.2 = some v ∧ st = ({ s with graph := s.graph.feed i v }, rest) := by
  simp only [fillPhi, Checked.bind_eq_ok, orError_eq_ok, value_eq_ok, Checked.pure_eq_ok]
  constructor
  · rintro ⟨⟨e, rest⟩, htake, v, hv, rfl⟩
    exact ⟨e, v, rest, htake, hv, rfl⟩
  · rintro ⟨e, v, rest, htake, hv, rfl⟩
    exact ⟨(e, rest), htake, v, hv, rfl⟩

section Fill

variable {label : BlockId → String} {name : InstId → String} {r : InstId → InstId}
  {es : List (BlockId × InstId)}

/-- Entries in the order of the predecessors are taken one after the other. -/
theorem foldlM_fillPhi_eq (hlabels : ∀ e ∈ es, s.labels.lookup (label e.1) = some e.1)
    (hvalues : ∀ e ∈ es, s.values.lookup (name e.2) = some (r e.2)) :
    (es.map Prod.fst).foldlM (fillPhi line i) (s, es.map fun e => (label e.1, name e.2)) =
      .ok ({ s with graph := (es.map fun e => r e.2).foldl (fun g v => g.feed i v) s.graph }, []) := by
  induction es generalizing s with
  | nil => rfl
  | cons e es ih =>
    have hhead : fillPhi line i (s, (e :: es).map fun e => (label e.1, name e.2)) e.1 =
        .ok ({ s with graph := s.graph.feed i (r e.2) }, es.map fun e => (label e.1, name e.2)) := by
      refine fillPhi_eq_ok.2 ⟨(label e.1, name e.2), r e.2, _, ?_, hvalues e List.mem_cons_self, rfl⟩
      simp [takeFirst, hlabels e List.mem_cons_self]
    rw [List.map_cons (f := Prod.fst), List.foldlM_cons, hhead]
    exact ih (s := { s with graph := s.graph.feed i (r e.2) })
      (fun e' he' => hlabels e' (List.mem_cons_of_mem _ he'))
      (fun e' he' => hvalues e' (List.mem_cons_of_mem _ he'))

/-- The operands of a phi are filled when its entries are in the order of the predecessors. -/
theorem fillPhis_eq (hpreds : s.graph.preds b = es.map Prod.fst)
    (hentries : line.phiEntries = es.map fun e => (label e.1, name e.2))
    (hlabels : ∀ e ∈ es, s.labels.lookup (label e.1) = some e.1)
    (hvalues : ∀ e ∈ es, s.values.lookup (name e.2) = some (r e.2)) :
    s.fillPhis (i, b, line) =
      .ok { s with graph := (es.map fun e => r e.2).foldl (fun g v => g.feed i v) s.graph } := by
  unfold fillPhis
  simp only [hpreds, hentries, List.length_map, ne_eq, not_true_eq_false, if_false]
  rw [foldlM_fillPhi_eq hlabels hvalues]
  rfl

end Fill

end Phis

end Scope

end Midend
