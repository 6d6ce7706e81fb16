import Midend.Proofs.Declarations
import Midend.Proofs.Reduction

/-!
# What the records of a graph agree on

A graph keeps several facts twice: an operand is also a use, an edge has two ends, an instruction is
listed by the block it names, and a field is found again by what identifies it.  After any edits that were
not refused, both records agree, and none of them is kept in more places than it should be.

## Shape of the argument

`Intact` says which uses are recorded, but not how often.  That a chain has no repetition is carried beside
it: an edit that records a use records a position that no chain had, because a chain with that position would
make it an operand.  Removal only takes away, and a replacement joins the chains of two values, which have
no position in common.  The field table is touched by interning alone.
-/

namespace Midend

/-- What tells a field from the others of a method: its class, its offset, and whether it is static. -/
def Field.identity (f : Field) : String × Nat × Bool := (f.owner, f.offset, f.isStatic)

/-- Fields share a slot when they have the same identity. -/
theorem Field.sameSlot_iff {f f' : Field} : f.sameSlot f' = true ↔ f.identity = f'.identity := by
  simp [sameSlot, identity, and_assoc]

namespace Graph

variable {g g' : Graph} {i x : InstId} {inst : Inst}

/-- The records of a graph agree with each other. -/
structure Orderly (g : Graph) : Prop where
  /-- A value is read at a position exactly when the position is among its uses. -/
  operand_iff : ∀ (u v : InstId) (k : Nat), g.input u k = .ok v ↔ ⟨u, k⟩ ∈ g.uses v
  use_once : ∀ (v : InstId) (u : Use), u ∈ g.uses v → (g.uses v).count u = 1
  /-- No instruction is listed twice, in one list or in two. -/
  listed_once : ∀ i, (g.blocks.toList.flatMap fun block => block.phis ++ block.insts).count i ≤ 1
  place_iff : ∀ i b, g.blockOf i = .ok (some b) ↔
    ∃ block, g.block b = .ok block ∧ (i ∈ block.phis ∨ i ∈ block.insts)
  removed_unlisted : ∀ i b block, g.isRemoved i = true → g.block b = .ok block →
    i ∉ block.phis ∧ i ∉ block.insts
  /-- An edge is recorded as often at one end as at the other. -/
  edges : ∀ a b, (g.succs a).count b = (g.preds b).count a
  field_distinct : ∀ f f' d d', g.field f = .ok d → g.field f' = .ok d' → f ≠ f' →
    d.identity ≠ d'.identity
  field_known : ∀ f d known, g.field f = .ok known → d.identity = known.identity →
    g.internField d = (g, f)

/-! ## Uses are recorded once -/

section Chains

variable (h : g.Intact) (hnodup : ∀ x, (g.uses x).Nodup)
include h hnodup

/-- Replacing a value leaves each use once. -/
theorem Intact.nodup_uses_replaceUses (old new x : InstId) : ((g.replaceUses old new).uses x).Nodup := by
  by_cases hne : new = old
  · rw [Graph.replaceUses, if_pos hne.symm]
    exact hnodup x
  obtain ⟨-, -, -, -, huses⟩ := replaceUses_spec (g := g) hne
  rw [huses]
  split
  · next hx =>
    refine List.nodup_append.2 ⟨hnodup x, hnodup old, fun u hu u' hu' heq => hne ?_⟩
    rw [h.used] at hu
    rw [← heq, h.used, hu, hx] at hu'
    exact Option.some.inj hu'
  · split
    · exact List.nodup_nil
    · exact hnodup x

end Chains

/-! ## What identifies a field is recorded once -/

theorem field_eq_ok {f : FieldId} {d : Field} : g.field f = .ok d ↔ g.fields[f.index]? = some d := by
  rw [field, Checked.ofOption_eq_ok]

/-- Two entries of a table without repetitions are one if they denote the same slot. -/
theorem eq_of_identity_eq (hnodup : (g.fields.toList.map Field.identity).Nodup) {f f' : FieldId} {d d' : Field}
    (hf : g.field f = .ok d) (hf' : g.field f' = .ok d') (heq : d.identity = d'.identity) : f = f' := by
  have hget : ∀ {f : FieldId} {d : Field}, g.field f = .ok d →
      (g.fields.toList.map Field.identity)[f.index]? = some d.identity := by
    intro f d hf
    rw [field_eq_ok] at hf
    rw [List.getElem?_map, Array.getElem?_toList, hf]
    rfl
  have hindex : f.index = f'.index :=
    (List.getElem?_inj (List.getElem?_eq_some_iff.1 (hget hf)).1 hnodup).1
      ((hget hf).trans ((congrArg some heq).trans (hget hf').symm))
  cases f
  cases f'
  exact congrArg FieldId.mk hindex

/-- Interning leaves fields with identities of their own. -/
theorem nodup_identity_internField (hnodup : (g.fields.toList.map Field.identity).Nodup) (d : Field) :
    ((g.internField d).1.fields.toList.map Field.identity).Nodup := by
  rcases Scope.internField_cases g d with ⟨k, d', -, -, heq⟩ | ⟨hnew, heq⟩
  · rw [heq]
    exact hnodup
  · rw [heq, Array.toList_push, List.map_append, List.nodup_append]
    refine ⟨hnodup, List.nodup_singleton _, fun a ha b hb hab => ?_⟩
    obtain ⟨d', hd', rfl⟩ := List.mem_map.1 ha
    rw [List.map_singleton, List.mem_singleton] at hb
    have hsame : d'.sameSlot d = true := Field.sameSlot_iff.2 (hab.trans hb)
    rw [hnew d' (Array.mem_toList_iff.1 hd')] at hsame
    cases hsame

/-- Interning a field that is there finds it. -/
theorem internField_of_known (hnodup : (g.fields.toList.map Field.identity).Nodup) {f : FieldId}
    {d known : Field} (hf : g.field f = .ok known) (heq : d.identity = known.identity) :
    g.internField d = (g, f) := by
  rcases Scope.internField_cases g d with ⟨k, d', hd', hsame, hintern⟩ | ⟨hnew, -⟩
  · have hk : g.field ⟨k⟩ = .ok d' := field_eq_ok.2 hd'
    rw [hintern, eq_of_identity_eq hnodup hk hf ((Field.sameSlot_iff.1 hsame).trans heq)]
  · have hsame : known.sameSlot d = true := Field.sameSlot_iff.2 heq.symm
    rw [hnew known (Array.mem_of_getElem? (field_eq_ok.1 hf))] at hsame
    cases hsame

/-! ## Sequences of edits -/

/-- Nothing is recorded twice. -/
structure Frugal (g : Graph) : Prop where
  uses : ∀ x, (g.uses x).Nodup
  fields : (g.fields.toList.map Field.identity).Nodup

theorem frugal_new (name : String) : (Graph.new name).Frugal where
  uses x := by simp [Graph.uses, new, Table.get_empty, default]
  fields := List.nodup_nil

/-- An edit that touches neither the use chains nor the field table. -/
theorem Frugal.congr (hf : g.Frugal) (huses : g'.useChains = g.useChains) (hfields : g'.fields = g.fields) :
    g'.Frugal where
  uses x := by
    rw [Graph.uses, huses]
    exact hf.uses x
  fields := hfields ▸ hf.fields

/-- Placing an instruction before another leaves its operands and the fields. -/
theorem insertBefore_unchanged {anchor : InstId} (hg' : g.insertBefore anchor i = .ok g') :
    g'.useChains = g.useChains ∧ g'.fields = g.fields := by
  simp only [insertBefore, Checked.bind_eq_ok] at hg'
  obtain ⟨_, -, place, -, hg'⟩ := hg'
  cases place with
  | none => simp at hg'
  | some b =>
    simp only [Checked.bind_eq_ok] at hg'
    obtain ⟨block, -, hg'⟩ := hg'
    cases hfind : block.insts.findIdx? (· = anchor) with
    | none => simp [hfind] at hg'
    | some k =>
      simp only [hfind, Checked.pure_eq_ok] at hg'
      subst hg'
      exact ⟨rfl, rfl⟩

/-- One edit records nothing twice. -/
theorem Frugal.edit (hf : g.Frugal) (h : g.Intact) {e : Edit} (hg' : e.apply g = .ok g') : g'.Frugal := by
  cases e with
  | setStatic | setSynchronized | setEntry | createBlock =>
    cases hg'
    exact hf.congr rfl rfl
  | addEdge s t =>
    simp only [Edit.apply, addEdge, Checked.bind_eq_ok, Checked.pure_eq_ok] at hg'
    obtain ⟨_, -, _, -, rfl⟩ := hg'
    exact hf.congr rfl rfl
  | internField d =>
    cases hg'
    refine ⟨fun x => ?_, nodup_identity_internField hf.fields d⟩
    have huses : (g.internField d).1.useChains = g.useChains := by
      rcases Scope.internField_cases g d with ⟨k, d', -, -, heq⟩ | ⟨-, heq⟩ <;> rw [heq]
    rw [Graph.uses, huses]
    exact hf.uses x
  | createInst kind ty inputs =>
    simp only [Edit.apply, createInst, Checked.bind_eq_ok, Checked.pure_eq_ok] at hg'
    obtain ⟨_, ⟨_, -, rfl⟩, rfl⟩ := hg'
    refine ⟨h.nodup_uses_addInst hf.uses kind ty inputs, ?_⟩
    have hfields : (g.addInst kind ty inputs).1.fields = g.fields := by
      rw [addInst, foldl_unchanged (p := Graph.fields)]
      exact fun _ _ => rfl
    rw [hfields]
    exact hf.fields
  | appendInst b i =>
    simp only [Edit.apply, Graph.appendInst, Checked.bind_eq_ok, Checked.pure_eq_ok] at hg'
    obtain ⟨_, -, _, -, _, -, rfl⟩ := hg'
    exact hf.congr rfl rfl
  | appendPhi b i =>
    simp only [Edit.apply, Graph.appendPhi, Checked.bind_eq_ok, Checked.pure_eq_ok] at hg'
    obtain ⟨_, -, _, -, _, -, rfl⟩ := hg'
    exact hf.congr rfl rfl
  | insertBefore anchor i =>
    obtain ⟨huses, hfields⟩ := insertBefore_unchanged hg'
    exact hf.congr huses hfields
  | pushInput i value =>
    simp only [Edit.apply, pushInput, Checked.bind_eq_ok, Checked.pure_eq_ok] at hg'
    obtain ⟨inst, hinst, rfl⟩ := hg'
    exact ⟨h.nodup_uses_feed hf.uses hinst value, hf.fields⟩
  | removeInst i =>
    refine ⟨fun x => (hf.uses x).sublist (uses_removeInst_sublist hg' x), ?_⟩
    have hfields : g'.fields = g.fields := congrArg (·.2.2.2.1) (removeInst_unchanged hg').1
    rw [hfields]
    exact hf.fields
  | replaceUses old new =>
    cases hg'
    refine ⟨h.nodup_uses_replaceUses hf.uses old new, ?_⟩
    by_cases hne : new = old
    · rw [Graph.replaceUses, if_pos hne.symm]
      exact hf.fields
    · have hfields : (g.replaceUses old new).fields = g.fields :=
        congrArg (·.2.2.2.1) (declared_replaceUses hne)
      rw [hfields]
      exact hf.fields

/-- A graph that was built by edits is frugal. -/
theorem Built.frugal (h : g.Built) : g.Frugal := by
  obtain ⟨name, edits, hedits⟩ := h
  have hboth : g.Intact ∧ g.Frugal :=
    Checked.foldlM_prefix (P := fun _ g => g.Intact ∧ g.Frugal) hedits ⟨intact_new name, frugal_new name⟩
      fun _ _ _ _ _ _ hc hstep => ⟨hc.1.edit hstep, hc.2.edit hc.1 hstep⟩
  exact hboth.2

/-- After any edits of an empty graph, none of them refused, the records agree with each other. -/
theorem Built.orderly (h : g.Built) : g.Orderly where
  operand_iff u v k := by
    rw [h.intact.used, getElem?_operandsOf, input_eq_ok]
  use_once v u hu := List.count_eq_one_of_mem (h.frugal.uses v) hu
  listed_once := List.nodup_iff_count_le_one.1 h.intact.attached_nodup
  place_iff i b := by
    have hplace := h.intact.listed i b
    rw [mem_bodyOf, placeOf_eq_some] at hplace
    simp only [Block.body, List.mem_append] at hplace
    rw [hplace, blockOf_eq_ok]
  removed_unlisted i b block hi hblock := by
    have hplace := h.intact.removed i hi
    have hnot : i ∉ block.body := fun hmem => by
      have := (h.intact.listed i b).1 (mem_bodyOf.2 ⟨block, hblock, hmem⟩)
      rw [hplace] at this
      cases this
    simpa [Block.body] using hnot
  edges := h.intact.edges
  field_distinct f f' d d' hf hf' hne heq := hne (eq_of_identity_eq h.frugal.fields hf hf' heq)
  field_known f d known hf heq := internField_of_known h.frugal.fields hf heq

/-- A loop around a phi that reads itself, with two edges back.  A check of the phi takes over its uses and
so comes to read itself, a load is put in and taken out again, and a field is declared twice. -/
def relinked : Graph := .ofEdits "relinked" [
  .internField ⟨"Cell", "next", .ref, 8, false, false⟩, .internField ⟨"Cell", "head", .ref, 8, true, false⟩,
  .internField ⟨"Cell", "link", .ref, 8, false, true⟩, .createBlock,
  .createInst (.param 0) .ref [], .appendInst ⟨0⟩ ⟨0⟩,
  .createInst .jump .void [], .appendInst ⟨0⟩ ⟨1⟩, .addEdge ⟨0⟩ ⟨1⟩,
  .createInst .phi .ref [⟨0⟩], .appendPhi ⟨1⟩ ⟨2⟩, .pushInput ⟨2⟩ ⟨2⟩, .pushInput ⟨2⟩ ⟨2⟩,
  .createInst (.compare .eq) .bool [⟨2⟩, ⟨2⟩], .appendInst ⟨1⟩ ⟨3⟩,
  .createInst .branch .void [⟨3⟩], .appendInst ⟨1⟩ ⟨4⟩, .addEdge ⟨1⟩ ⟨1⟩, .addEdge ⟨1⟩ ⟨1⟩,
  .createInst .nullCheck .ref [⟨2⟩], .insertBefore ⟨3⟩ ⟨5⟩, .replaceUses ⟨2⟩ ⟨5⟩,
  .createInst (.instanceGet ⟨0⟩) .ref [⟨5⟩], .insertBefore ⟨4⟩ ⟨6⟩, .removeInst ⟨6⟩]

/-- `relinked`, after edits of every sort, is orderly. -/
theorem orderly_relinked : relinked.Built ∧
    relinked.uses ⟨5⟩ = [⟨⟨2⟩, 1⟩, ⟨⟨2⟩, 2⟩, ⟨⟨3⟩, 0⟩, ⟨⟨3⟩, 1⟩, ⟨⟨5⟩, 0⟩] ∧
    relinked.isRemoved ⟨6⟩ = true ∧ relinked.attached = [0, 1, 2, 5, 3, 4].map InstId.mk ∧
    (relinked.succs ⟨1⟩).count ⟨1⟩ = 2 ∧ relinked.fields.size = 2 ∧ relinked.Orderly :=
  have hbuilt : relinked.Built := built_ofEdits _ _
  ⟨hbuilt, by decide +kernel, by decide +kernel, by decide +kernel, by decide +kernel, by decide +kernel,
    hbuilt.orderly⟩

end Graph

end Midend
