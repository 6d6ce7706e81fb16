import Midend.Graph.Edit
import Midend.Proofs.Availability

/-!
# Rewiring a graph

Letting the uses of a value read another one and taking the instruction that gave it out of its block,
again and again.  What comes of it is described by a substitution of operands and the list of the
instructions taken out.

## Shape of the argument

Two facts about use chains carry the description from one removal to the next: the operands of what is
still listed are recorded in the chains, and every record says what the user reads.  They say which
operands a redirection meets, so it amounts to a substitution.  What is left is well formed exactly when
no operand was substituted by an instruction that is gone.
-/

namespace Midend

/-- A block from which instructions were taken out. -/
def Block.without (gone : List InstId) (block : Block) : Block :=
  { block with phis := block.phis.filter (· ∉ gone), insts := block.insts.filter (· ∉ gone) }

/-- An instruction that reads another value at some of the uses of a value. -/
def Inst.redirect (uses : List Use) (value : InstId) (i : InstId) (inst : Inst) : Inst :=
  { inst with inputs := inst.inputs.mapIdx fun k x => if ⟨i, k⟩ ∈ uses then value else x }

namespace Block

variable {block : Block} {gone : List InstId} {i : InstId}

/-- What a block lists without some instructions is its list without them. -/
theorem body_without : (block.without gone).body = block.body.filter (· ∉ gone) := by
  simp [body, without]

/-- A block without some instructions lists the others. -/
theorem mem_body_without : i ∈ (block.without gone).body ↔ i ∈ block.body ∧ i ∉ gone := by
  simp [body_without]

/-- Without nothing a block is as it was. -/
theorem without_nil : block.without [] = block := by
  simp [without]

/-- Taking out two lists is taking out one after the other. -/
theorem without_append (gone' : List InstId) :
    block.without (gone ++ gone') = (block.without gone).without gone' := by
  simp only [without, List.filter_filter, List.mem_append, not_or, Bool.decide_and, Bool.and_comm]

/-- Taking out what is not listed changes nothing. -/
theorem without_of_not_mem (hi : i ∉ block.body) : block.without [i] = block := by
  have hmem : ∀ x ∈ block.body, x ∉ [i] := by
    rintro x hx hxi
    rw [List.mem_singleton] at hxi
    exact hi (hxi ▸ hx)
  have hphis : block.phis.filter (· ∉ [i]) = block.phis :=
    List.filter_eq_self.2 fun x hx => decide_eq_true (hmem x (List.mem_append_left _ hx))
  have hinsts : block.insts.filter (· ∉ [i]) = block.insts :=
    List.filter_eq_self.2 fun x hx => decide_eq_true (hmem x (List.mem_append_right _ hx))
  rw [without, hphis, hinsts]

end Block

namespace Graph

variable {g g' : Graph} {i x y old value : InstId} {inst : Inst}

/-- Whether an instruction was removed is in its slot. -/
theorem isRemoved_eq (h : g.inst i = .ok inst) : g.isRemoved i = inst.removed := by
  rw [isRemoved, inst_eq_ok.1 h]
  rfl

/-! ## One edit -/

/-- A new use is added to the chain of its value. -/
theorem uses_addUse {use : Use} :
    (g.addUse value use).uses x = if x = value then g.uses x ++ [use] else g.uses x := by
  simp only [uses, addUse, Table.modify, Table.get_set, InstId.index_inj]
  split
  · next hx => rw [hx]
  · rfl

/-- Redirecting no uses changes nothing. -/
theorem redirect_nil : inst.redirect [] value i = inst := by
  have hinputs : inst.inputs.mapIdx (fun k x => if (⟨i, k⟩ : Use) ∈ [] then value else x) = inst.inputs :=
    List.ext_getElem? fun k => by simp
  rw [Inst.redirect, hinputs]

/-- Redirecting uses one by one. -/
theorem redirect_cons {use : Use} {uses : List Use} :
    (if i = use.user then { inst with inputs := inst.inputs.set use.index value } else inst).redirect uses
      value i = inst.redirect (use :: uses) value i := by
  obtain ⟨user, index⟩ := use
  split
  · next hi =>
    simp only [Inst.redirect, Inst.mk.injEq, and_true, true_and]
    refine List.ext_getElem? fun k => ?_
    simp only [List.getElem?_mapIdx, List.getElem?_set, List.mem_cons, Use.mk.injEq, hi, true_and]
    by_cases hk : index = k
    · subst hk
      by_cases hlt : index < inst.inputs.length <;> simp [hlt]
    · simp [hk, Ne.symm hk]
  · next hi => simp [Inst.redirect, hi]

/-- Moving uses to a value, one after the other. -/
theorem foldl_redirect (value : InstId) (uses : List Use) (g : Graph) :
    ∃ g', uses.foldl (fun g use =>
        (g.modifyInst use.user fun inst => { inst with inputs := inst.inputs.set use.index value }).addUse
          value use) g = g' ∧
      g'.entry = g.entry ∧ g'.blocks = g.blocks ∧ g'.insts.size = g.insts.size ∧
      (∀ i : InstId, g'.insts[i.index]? = g.insts[i.index]?.map (·.redirect uses value i)) ∧
      ∀ x, g'.uses x = if x = value then g.uses x ++ uses else g.uses x := by
  induction uses generalizing g with
  | nil =>
    refine ⟨g, rfl, rfl, rfl, rfl, fun i => ?_, fun x => ?_⟩
    · simp [redirect_nil]
    · simp
  | cons use uses ih =>
    obtain ⟨g', hg', hentry, hblocks, hsize, hinsts, huses⟩ := ih ((g.modifyInst use.user fun inst =>
      { inst with inputs := inst.inputs.set use.index value }).addUse value use)
    refine ⟨g', hg', hentry, hblocks, by simpa [modifyInst, addUse] using hsize, fun i => ?_, fun x => ?_⟩
    · rw [hinsts]
      simp only [modifyInst, addUse, Array.getElem?_modify]
      by_cases hi : use.user = i
      · subst hi
        cases g.insts[use.user.index]? with
        | none => simp
        | some inst => simp [← redirect_cons]
      · cases g.insts[i.index]? with
        | none => simp [hi]
        | some inst => simp [hi, ← redirect_cons, Ne.symm hi]
    · rw [huses, uses_addUse]
      split
      · simp [Graph.uses, modifyInst]
      · simp [Graph.uses, modifyInst]

/-- Letting the uses of a value read another one. -/
theorem replaceUses_spec (hne : value ≠ old) :
    (g.replaceUses old value).entry = g.entry ∧ (g.replaceUses old value).blocks = g.blocks ∧
      (g.replaceUses old value).insts.size = g.insts.size ∧
      (∀ i : InstId, (g.replaceUses old value).insts[i.index]? =
        g.insts[i.index]?.map (·.redirect (g.uses old) value i)) ∧
      ∀ x, (g.replaceUses old value).uses x =
        if x = value then g.uses x ++ g.uses old else if x = old then [] else g.uses x := by
  obtain ⟨g', hg', hentry, hblocks, hsize, hinsts, huses⟩ := foldl_redirect value (g.uses old)
    { g with useChains := g.useChains.set old.index [] }
  have heq : g.replaceUses old value = g' := by
    rw [replaceUses, if_neg (Ne.symm hne)]
    exact hg'
  rw [heq]
  refine ⟨hentry, hblocks, hsize, hinsts, fun x => ?_⟩
  rw [huses]
  simp only [uses, Table.get_set, InstId.index_inj]
  by_cases hx : x = value
  · simp [hx, hne]
  · simp [hx]

/-- Redirecting the uses of a value changes its users only. -/
theorem inst_replaceUses {inst' : Inst} (hne : value ≠ old) : (g.replaceUses old value).inst i = .ok inst' ↔
    ∃ inst, g.inst i = .ok inst ∧ inst.redirect (g.uses old) value i = inst' := by
  obtain ⟨-, -, -, hinsts, -⟩ := replaceUses_spec (g := g) hne
  simp only [inst_eq_ok, hinsts, Option.map_eq_some_iff]

/-- Taking the operands of an instruction off their use chains, one after the other. -/
theorem foldl_unuse (ps : List (InstId × Nat)) (g : Graph) :
    ∃ g', ps.foldl (fun g p =>
        { g with useChains := g.useChains.modify p.1.index (·.filter (· ≠ ⟨i, p.2⟩)) }) g = g' ∧
      g'.entry = g.entry ∧ g'.blocks = g.blocks ∧ g'.insts = g.insts ∧
      ∀ x u, u ∈ g'.uses x ↔ u ∈ g.uses x ∧ ¬ (u.user = i ∧ (x, u.index) ∈ ps) := by
  induction ps generalizing g with
  | nil => exact ⟨g, rfl, rfl, rfl, rfl, by simp⟩
  | cons p ps ih =>
    obtain ⟨input, k⟩ := p
    obtain ⟨g', hg', hentry, hblocks, hinsts, huses⟩ := ih
      { g with useChains := g.useChains.modify input.index (·.filter (· ≠ ⟨i, k⟩)) }
    refine ⟨g', hg', hentry, hblocks, hinsts, fun x u => ?_⟩
    rw [huses]
    simp only [uses, Table.modify, Table.get_set, InstId.index_inj, List.mem_cons, Prod.mk.injEq]
    have hu : u = ⟨i, k⟩ ↔ u.user = i ∧ u.index = k := by
      cases u
      simp
    by_cases hx : x = input
    · subst hx
      simp only [if_true, List.mem_filter, decide_eq_true_eq, ne_eq, hu, true_and]
      tauto
    · simp only [hx, if_false, false_and, false_or]

/-- Taking an instruction without uses out of the graph. -/
theorem removeInst_spec (huses : g.uses i = []) (hinst : g.inst i = .ok inst) :
    ∃ g', g.removeInst i = .ok g' ∧ g'.entry = g.entry ∧
      (g'.blocks = match inst.block with
        | none => g.blocks
        | some b => g.blocks.modify b.index (Block.without [i])) ∧
      g'.insts = g.insts.modify i.index ({ · with block := none, inputs := [], removed := true }) ∧
      ∀ x u, u ∈ g'.uses x ↔ u ∈ g.uses x ∧ ¬ (u.user = i ∧ inst.inputs[u.index]? = some x) := by
  have hwithout : (fun block : Block =>
      { block with phis := block.phis.filter (· ≠ i), insts := block.insts.filter (· ≠ i) }) =
        Block.without [i] := by
    funext block
    simp [Block.without]
  obtain ⟨g', hg', hentry, hblocks, hinsts, huses'⟩ := foldl_unuse (i := i) inst.inputs.zipIdx
    (match inst.block with
      | none => g
      | some b => g.modifyBlock b (Block.without [i]))
  refine ⟨g'.modifyInst i ({ · with block := none, inputs := [], removed := true }), ?_, ?_, ?_, ?_, ?_⟩
  · simp only [removeInst, huses, hinst, hwithout, Checked.bind_eq_ok, Except.ok.injEq, exists_eq_left',
      Checked.pure_eq_ok]
    exact ⟨(), rfl, by subst hg'; rfl⟩
  · rw [modifyInst, hentry]
    cases inst.block <;> rfl
  · rw [modifyInst, hblocks]
    cases inst.block <;> rfl
  · rw [modifyInst, hinsts]
    cases inst.block <;> rfl
  · intro x u
    have hsame : (match inst.block with
        | none => g
        | some b => g.modifyBlock b (Block.without [i])).uses x = g.uses x := by
      cases inst.block <;> rfl
    have hu := huses' x u
    rw [hsame, List.mk_mem_zipIdx_iff_getElem?] at hu
    exact hu

/-! ## Places after a filter -/

/-- What is kept of a list stands where the number of kept ones before it says. -/
theorem getElem?_filter_take {l : List InstId} {p : InstId → Bool} {n : Nat} (hx : l[n]? = some x)
    (hp : p x = true) : (l.filter p)[((l.take n).filter p).length]? = some x := by
  obtain ⟨hn, hget⟩ := List.getElem?_eq_some_iff.1 hx
  have hsplit : l.filter p = (l.take n).filter p ++ x :: (l.drop (n + 1)).filter p := by
    rw [← List.filter_cons_of_pos hp, ← List.filter_append, ← hget, ← List.drop_eq_getElem_cons hn,
      List.take_append_drop]
  rw [hsplit, List.getElem?_append_right Nat.le.refl, Nat.sub_self]
  rfl

/-- What is kept stays in order. -/
theorem length_filter_take_lt {l : List InstId} {p : InstId → Bool} {m n : Nat} (hx : l[m]? = some x)
    (hp : p x = true) (hmn : m < n) : ((l.take m).filter p).length < ((l.take n).filter p).length := by
  have hget : (l.take n)[m]? = some x := by rw [List.getElem?_take_of_lt hmn, hx]
  have hplace := getElem?_filter_take hget hp
  rw [List.take_take, Nat.min_eq_left (Nat.le_of_lt hmn)] at hplace
  exact (List.getElem?_eq_some_iff.1 hplace).1

/-- What is settled where an instruction stands is defined before it. -/
theorem Consistent.definedBefore (hg : g.Consistent) {b : BlockId} {n : Nat}
    (hlisted : ∀ d block, g.block d = .ok block → x ∈ block.body →
      ∃ inst, g.inst x = .ok inst ∧ inst.block = some d)
    (hx : g.Settled b n x) (hi : g.At i b n) : g.DefinedBefore x i b := by
  obtain ⟨d, m, hat, hpos⟩ := hx
  obtain ⟨block, hblock, hget⟩ := id hat
  obtain ⟨inst, hinst, hd⟩ := hlisted d block hblock (List.mem_of_getElem? hget)
  refine ⟨inst, d, hinst, hd, ?_⟩
  rcases hpos with ⟨rfl, hm⟩ | hdom
  · rw [if_pos rfl, hg.positions_eq hat, hg.positions_eq hi]
    exact hm
  · rw [if_neg hdom.2]
    exact hdom.1

/-- What is settled somewhere in a reachable block is defined at its end. -/
theorem Settled.definedAtEnd {p : BlockId} {n : Nat} (hx : g.Settled p n x) (hp : g.Reachable p)
    (hlisted : ∀ d block, g.block d = .ok block → x ∈ block.body →
      ∃ inst, g.inst x = .ok inst ∧ inst.block = some d) : g.DefinedAtEnd x p := by
  obtain ⟨d, m, ⟨block, hblock, hget⟩, hpos⟩ := hx
  obtain ⟨inst, hinst, hd⟩ := hlisted d block hblock (List.mem_of_getElem? hget)
  refine ⟨inst, d, hinst, hd, ?_⟩
  rcases hpos with ⟨rfl, -⟩ | hdom
  · exact .refl hp
  · exact hdom.1

/-! ## Many edits -/

/-- A graph came from another by substituting operands and taking out instructions. -/
structure Rewired (g : Graph) (σ : InstId → InstId) (gone : List InstId) (g' : Graph) : Prop where
  entry : g'.entry = g.entry
  blocks : ∀ b : BlockId, g'.blocks[b.index]? = g.blocks[b.index]?.map (Block.without gone)
  slots : g'.insts.size = g.insts.size
  kept : ∀ i inst, i ∉ gone → g.inst i = .ok inst → ∃ xs, g'.inst i = .ok { inst with inputs := xs } ∧
    (i ∈ g.attached → xs = inst.inputs.map σ)
  listed : ∀ i ∈ gone, i ∈ g.attached
  removed : ∀ i inst, i ∈ gone → g'.inst i = .ok inst → inst.block = none ∧ inst.removed = true
  operand : ∀ i inst (k : Nat) x, i ∈ g.attached → i ∉ gone → g'.inst i = .ok inst →
    inst.inputs[k]? = some x → ⟨i, k⟩ ∈ g'.uses x
  use : ∀ x u, x ∈ g.attached → u ∈ g'.uses x → g'.isRemoved u.user = false ∧
    ∃ inst, g'.inst u.user = .ok inst ∧ inst.inputs[u.index]? = some x

variable {σ : InstId → InstId} {gone : List InstId}

/-- A well-formed graph is wired like itself. -/
theorem WellFormed.rewired (hw : g.WellFormed) : Rewired g id [] g where
  entry := rfl
  blocks b := by
    cases g.blocks[b.index]? with
    | none => rfl
    | some block => simp [Block.without_nil]
  slots := rfl
  kept i inst _ hinst := ⟨inst.inputs, hinst, fun _ => by simp⟩
  listed i hi := by cases hi
  removed i inst hi := by cases hi
  operand i inst k x hi _ hinst hx := (hw.operand i inst k x hi hinst hx).2
  use := hw.use

/-- What is recorded as a use of an instruction reads it. -/
theorem Rewired.eq_of_mem_uses {u : Use} (h : Rewired g σ gone g') (hx : x ∈ g.attached) (hu : u ∈ g'.uses x)
    (hinst : g'.inst u.user = .ok inst) (hy : inst.inputs[u.index]? = some y) : y = x := by
  obtain ⟨-, inst', hinst', hget⟩ := h.use x u hx hu
  rw [hinst] at hinst'
  cases hinst'
  exact Option.some.inj (hy.symm.trans hget)

section ReplaceUses

variable (h : Rewired g σ gone g') (hi : i ∈ g.attached) (hne : value ≠ i)
include h hi hne

/-- The uses that were recorded read what they read, or the new value if they have been moved to it. -/
theorem Rewired.use_replaceUses {u : Use} (hx : x ∈ g.attached) (hu : u ∈ (g'.replaceUses i value).uses x) :
    (g'.replaceUses i value).isRemoved u.user = false ∧ ∃ inst,
      (g'.replaceUses i value).inst u.user = .ok inst ∧ inst.inputs[u.index]? = some x := by
  have hold : ∀ {y : InstId}, y ∈ g.attached → u ∈ g'.uses y →
      (g'.replaceUses i value).isRemoved u.user = false ∧ ∃ inst,
        (g'.replaceUses i value).inst u.user = .ok inst ∧
        inst.inputs[u.index]? = some (if u ∈ g'.uses i then value else y) := by
    intro y hy hu
    obtain ⟨hrem, inst, hinst, hget⟩ := h.use y u hy hu
    have hslot := (inst_replaceUses hne).2 ⟨inst, hinst, rfl⟩
    refine ⟨?_, _, hslot, ?_⟩
    · rw [isRemoved_eq hslot, ← hrem, isRemoved_eq hinst]
      rfl
    · rw [Inst.redirect, List.getElem?_mapIdx, hget]
      rfl
  -- an operand position is recorded as a use of one value only
  have hstays : u ∈ g'.uses x → x ≠ i → u ∉ g'.uses i := by
    intro hu hxi hu'
    obtain ⟨-, inst, hinst, hget⟩ := h.use x u hx hu
    exact hxi (h.eq_of_mem_uses hi hu' hinst hget)
  obtain ⟨-, -, -, -, huses⟩ := replaceUses_spec (g := g') hne
  rw [huses] at hu
  split at hu
  · next hxv =>
    subst hxv
    rcases List.mem_append.1 hu with hu | hu
    · have := hold hx hu
      rwa [if_neg (hstays hu hne)] at this
    · have := hold hi hu
      rwa [if_pos hu] at this
  · split at hu
    · cases hu
    · next hxi =>
      have := hold hx hu
      rwa [if_neg (hstays hu hxi)] at this

omit hi in
/-- After uses are redirected, every operand has its use in the chain. -/
theorem Rewired.operand_replaceUses {j : InstId} {k : Nat} (hj : j ∈ g.attached) (hgone : j ∉ gone)
    (hinst : (g'.replaceUses i value).inst j = .ok inst) (hx : inst.inputs[k]? = some x) :
    ⟨j, k⟩ ∈ (g'.replaceUses i value).uses x := by
  obtain ⟨inst, hold, rfl⟩ := (inst_replaceUses hne).1 hinst
  rw [Inst.redirect, List.getElem?_mapIdx, Option.map_eq_some_iff] at hx
  obtain ⟨y, hy, rfl⟩ := hx
  have hrecorded := h.operand j inst k y hj hgone hold hy
  obtain ⟨-, -, -, -, huses⟩ := replaceUses_spec (g := g') hne
  rw [huses]
  split
  · next hu => simp [hu]
  · next hu =>
    have hyi : y ≠ i := fun hyi => hu (hyi ▸ hrecorded)
    split
    · exact List.mem_append_left _ hrecorded
    · simpa [hyi] using hrecorded

/-- Letting the uses of an instruction read another value substitutes that. -/
theorem Rewired.replaceUses :
    Rewired g (fun x => if σ x = i then value else σ x) gone (g'.replaceUses i value) := by
  obtain ⟨hentry, hblocks, hsize, -, -⟩ := replaceUses_spec (g := g') hne
  refine { entry := hentry.trans h.entry, blocks := fun b => by rw [hblocks, h.blocks],
           slots := hsize.trans h.slots, kept := fun j inst hj hinst => ?kept, listed := h.listed,
           removed := fun j inst₁ hj hinst₁ => ?removed,
           operand := fun j inst₁ k x hj hgone hinst₁ hx => h.operand_replaceUses hne hj hgone hinst₁ hx,
           use := fun x u hx hu => h.use_replaceUses hi hne hx hu }
  case kept =>
    obtain ⟨xs, hinst', hxs⟩ := h.kept j inst hj hinst
    refine ⟨xs.mapIdx fun k x => if (⟨j, k⟩ : Use) ∈ g'.uses i then value else x,
      (inst_replaceUses hne).2 ⟨_, hinst', rfl⟩, fun hatt => List.ext_getElem? fun k => ?_⟩
    obtain rfl := hxs hatt
    rw [List.getElem?_mapIdx, List.getElem?_map, List.getElem?_map]
    cases hget : inst.inputs[k]? with
    | none => rfl
    | some v =>
      have hget' : (inst.inputs.map σ)[k]? = some (σ v) := by rw [List.getElem?_map, hget]; rfl
      have hiff : (⟨j, k⟩ : Use) ∈ g'.uses i ↔ σ v = i :=
        ⟨fun hu => h.eq_of_mem_uses hi hu hinst' hget', fun hv => hv ▸ h.operand j _ k _ hatt hj hinst' hget'⟩
      simp [hiff]
  case removed =>
    obtain ⟨inst, hinst, rfl⟩ := (inst_replaceUses hne).1 hinst₁
    exact h.removed j inst hj hinst

end ReplaceUses

/-- Taking out an instruction that is not used any more. -/
theorem Rewired.removeInst (h : Rewired g σ gone g') (hw : g.WellFormed) (hi : i ∈ g.attached)
    (hgone : i ∉ gone) (hnone : g'.uses i = []) :
    ∃ g'', g'.removeInst i = .ok g'' ∧ Rewired g σ (gone ++ [i]) g'' := by
  obtain ⟨b, block, hb, hmem⟩ := mem_attached.1 hi
  obtain ⟨inst, hinst, hblock⟩ := hw.listed b block i hb hmem
  obtain ⟨xs, hinst', -⟩ := h.kept i inst hgone hinst
  obtain ⟨g₂, hg₂, hentry, hblocks, hinsts, huses⟩ := removeInst_spec hnone hinst'
  have hother : ∀ {j : InstId}, j ≠ i → g₂.inst j = g'.inst j := by
    intro j hj
    rw [Graph.inst, Graph.inst, hinsts, Array.getElem?_modify,
      if_neg fun h => hj (InstId.index_inj.1 h.symm)]
  refine ⟨g₂, hg₂, { entry := hentry.trans h.entry, blocks := fun b' => ?blocks,
                     slots := by rw [hinsts, Array.size_modify, h.slots],
                     kept := fun j inst hj hinst => ?kept, listed := fun j hj => ?listed,
                     removed := fun j inst₂ hj hinst₂ => ?removed,
                     operand := fun j inst₂ k x hj hgone hinst₂ hx => ?operand,
                     use := fun x u hx hu => ?use }⟩
  case blocks =>
    simp only [hblock] at hblocks
    rw [hblocks, Array.getElem?_modify, h.blocks]
    cases hb' : g.blocks[b'.index]? with
    | none => simp
    | some block' =>
      simp only [Option.map_some, Block.without_append]
      split
      · rfl
      · next hne =>
        -- the instruction is listed in one block only
        refine congrArg some (Block.without_of_not_mem fun hmem' => hne ?_).symm
        obtain ⟨inst', hinst', hblock'⟩ := hw.listed b' block' i (block_eq_ok.2 hb')
          (Block.mem_body_without.1 hmem').1
        rw [hinst] at hinst'
        cases hinst'
        rw [hblock] at hblock'
        cases hblock'
        rfl
  case kept =>
    simp only [List.mem_append, List.mem_singleton, not_or] at hj
    rw [hother hj.2]
    exact h.kept j inst hj.1 hinst
  case listed =>
    rcases List.mem_append.1 hj with hj | hj
    · exact h.listed j hj
    · exact List.mem_singleton.1 hj ▸ hi
  case removed =>
    by_cases hji : j = i
    · subst hji
      rw [inst_eq_ok, hinsts, Array.getElem?_modify, if_pos rfl, inst_eq_ok.1 hinst'] at hinst₂
      cases hinst₂
      exact ⟨rfl, rfl⟩
    · rw [hother hji] at hinst₂
      exact h.removed j inst₂ (by simpa [hji] using hj) hinst₂
  case operand =>
    simp only [List.mem_append, List.mem_singleton, not_or] at hgone
    rw [hother hgone.2] at hinst₂
    exact (huses x _).2 ⟨h.operand j inst₂ k x hj hgone.1 hinst₂ hx, fun hji => hgone.2 hji.1⟩
  case use =>
    obtain ⟨hu, hnot⟩ := (huses x u).1 hu
    obtain ⟨hrem, inst₁, hinst₁, hget⟩ := h.use x u hx hu
    have hui : u.user ≠ i := by
      intro hui
      rw [hui, hinst'] at hinst₁
      cases hinst₁
      exact hnot ⟨hui, hget⟩
    refine ⟨?_, inst₁, (hother hui).trans hinst₁, hget⟩
    rw [isRemoved_eq ((hother hui).trans hinst₁), ← hrem, isRemoved_eq hinst₁]

/-! ## What is left -/

section Left

variable {b : BlockId} {block : Block} {n : Nat} (h : Rewired g σ gone g')
include h

/-- A block of the rewired graph is what is left of the block that was there. -/
theorem Rewired.block_eq_ok : g'.block b = .ok block ↔ ∃ old, g.block b = .ok old ∧
    block = old.without gone := by
  rw [Graph.block_eq_ok, h.blocks, Option.map_eq_some_iff]
  simp only [Graph.block_eq_ok, eq_comm (a := block)]

/-- Edges stay. -/
theorem Rewired.edges : g'.succs = g.succs ∧ g'.preds = g.preds := by
  constructor <;> funext b
  · rw [succs, succs, h.blocks, Option.map_map]
    rfl
  · rw [preds, preds, h.blocks, Option.map_map]
    rfl

/-- What can be reached stays. -/
theorem Rewired.reachable : g'.Reachable b ↔ g.Reachable b := by
  rw [Reachable, Reachable, h.edges.1, h.entry]

/-- Dominance stays. -/
theorem Rewired.dom {a : BlockId} : g'.Dom a b ↔ g.Dom a b := by
  rw [Dom, Dom, h.reachable, h.edges.1, h.entry]

/-- What stays listed is what was not taken out. -/
theorem Rewired.attached : g'.attached = g.attached.filter (· ∉ gone) := by
  have hblocks : g'.blocks = g.blocks.map (Block.without gone) :=
    Array.ext_getElem? fun n => by simpa using h.blocks ⟨n⟩
  rw [Graph.attached, Graph.attached, hblocks, Array.toList_map, List.flatMap_map, List.filter_flatMap]
  simp only [Block.body_without]

/-- An instruction is still listed if it was and was not taken out. -/
theorem Rewired.mem_attached : i ∈ g'.attached ↔ i ∈ g.attached ∧ i ∉ gone := by
  simp [h.attached]

/-- What was not taken out is removed if it was before. -/
theorem Rewired.isRemoved (hi : i ∉ gone) : g'.isRemoved i = g.isRemoved i := by
  cases hslot : g.insts[i.index]? with
  | none =>
    have hslot' : g'.insts[i.index]? = none := by
      rw [Array.getElem?_eq_none_iff] at hslot ⊢
      rwa [h.slots]
    rw [Graph.isRemoved, Graph.isRemoved, hslot, hslot']
  | some inst =>
    obtain ⟨xs, hinst, -⟩ := h.kept i inst hi (inst_eq_ok.2 hslot)
    rw [isRemoved_eq hinst, isRemoved_eq (inst_eq_ok.2 hslot)]

/-- The slot of an instruction that is still there. -/
theorem Rewired.exists_inst {inst' : Inst} (hi : i ∉ gone) (hinst' : g'.inst i = .ok inst') :
    ∃ inst, g.inst i = .ok inst ∧ inst' = { inst with inputs := inst'.inputs } ∧
      (i ∈ g.attached → inst'.inputs = inst.inputs.map σ) := by
  have hlt : i.index < g.insts.size := h.slots ▸ (Array.getElem?_eq_some_iff.1 (inst_eq_ok.1 hinst')).1
  have hinst := inst_eq_ok.2 (Array.getElem?_eq_getElem hlt)
  obtain ⟨xs, hinst'', hxs⟩ := h.kept i _ hi hinst
  rw [hinst'] at hinst''
  cases hinst''
  exact ⟨_, hinst, rfl, hxs⟩

/-- What has a place was not taken out. -/
theorem Rewired.exists_slot {inst' : Inst} (hinst' : g'.inst i = .ok inst') {d : BlockId}
    (hd : inst'.block = some d) : i ∉ gone := by
  intro hi
  rw [(h.removed i inst' hi hinst').1] at hd
  cases hd

/-- A rewired graph is consistent. -/
theorem Rewired.consistent (hg : g.Consistent) : g'.Consistent where
  edges a b := by rw [h.edges.1, h.edges.2, hg.edges]
  listed_once := h.attached ▸ hg.listed_once.filter _
  listed i inst' b hinst' hb := by
    have hi := h.exists_slot hinst' hb
    obtain ⟨inst, hinst, heq, -⟩ := h.exists_inst hi hinst'
    rw [heq] at hb
    obtain ⟨block, hblock, hmem⟩ := hg.listed i inst b hinst hb
    exact ⟨block.without gone, h.block_eq_ok.2 ⟨block, hblock, rfl⟩, Block.mem_body_without.2 ⟨hmem, hi⟩⟩

/-- What is left in a block says so. -/
theorem Rewired.listed_left (hw : g.WellFormed) (hb : g'.block b = .ok block) (hi : i ∈ block.body) :
    ∃ inst', g'.inst i = .ok inst' ∧ inst'.block = some b := by
  obtain ⟨old, hold, rfl⟩ := h.block_eq_ok.1 hb
  obtain ⟨hi, hgone⟩ := Block.mem_body_without.1 hi
  obtain ⟨inst, hinst, hblock⟩ := hw.listed b old i hold hi
  obtain ⟨xs, hinst', -⟩ := h.kept i inst hgone hinst
  exact ⟨_, hinst', hblock⟩

/-! Instructions that are left keep their order. -/

/-- What is left moves up by what was taken out before it. -/
theorem Rewired.at_left (hb : g.block b = .ok block) (hi : block.body[n]? = some i) (hgone : i ∉ gone) :
    g'.At i b ((block.body.take n).filter (· ∉ gone)).length := by
  refine ⟨block.without gone, h.block_eq_ok.2 ⟨block, hb, rfl⟩, ?_⟩
  rw [Block.body_without]
  exact getElem?_filter_take hi (decide_eq_true hgone)

/-- What was settled and is left is settled at the place that has moved up. -/
theorem Rewired.settled_left (hb : g.block b = .ok block) (hx : g.Settled b n x) (hgone : x ∉ gone) :
    g'.Settled b ((block.body.take n).filter (· ∉ gone)).length x := by
  obtain ⟨d, m, ⟨dblock, hd, hget⟩, hpos⟩ := hx
  refine ⟨d, _, h.at_left hd hget hgone, ?_⟩
  rcases hpos with ⟨rfl, hm⟩ | hdom
  · rw [hb] at hd
    cases hd
    exact .inl ⟨rfl, length_filter_take_lt hget (decide_eq_true hgone) hm⟩
  · exact .inr ⟨h.dom.2 hdom.1, hdom.2⟩

/-- A block still ends with its only terminator, since no terminator was taken out. -/
theorem Rewired.endsWell (hkinds : ∀ i ∈ gone, ∀ inst, g.inst i = .ok inst → inst.kind.isTerminator = false)
    (hends : g.EndsWell block) : g'.EndsWell (block.without gone) := by
  obtain ⟨init, last, hinsts, hinit, inst, hlast, hcount⟩ := hends
  have hgone : last ∉ gone := by
    intro hmem
    have hterm := hkinds last hmem inst hlast
    rw [Kind.isTerminator, hcount] at hterm
    cases hterm
  refine ⟨init.filter (· ∉ gone), last, ?_, fun i hi => ?_, ?_⟩
  · simp [Block.without, hinsts, hgone]
  · obtain ⟨hi, hgone⟩ := List.mem_filter.1 hi
    obtain ⟨inst, hinst, hkind⟩ := hinit i hi
    obtain ⟨xs, hinst', -⟩ := h.kept i inst (of_decide_eq_true hgone) hinst
    exact ⟨_, hinst', hkind⟩
  · obtain ⟨xs, hinst', -⟩ := h.kept last inst hgone hlast
    exact ⟨_, hinst', hcount⟩

/-- A well-formed graph reads nothing that is gone. -/
theorem Rewired.not_mem_gone_of_wellFormed (hw : g.WellFormed) (hw' : g'.WellFormed) (hi : i ∈ g.attached)
    (hgone : i ∉ gone) (hinst : g.inst i = .ok inst) (hx : x ∈ inst.inputs) : σ x ∉ gone := by
  intro hmem
  obtain ⟨xs, hinst', hxs⟩ := h.kept i inst hgone hinst
  obtain rfl := hxs hi
  obtain ⟨k, hk⟩ := List.mem_iff_getElem?.1 (List.mem_map_of_mem hx)
  have hremoved := (hw'.operand i _ k (σ x) (h.mem_attached.2 ⟨hi, hgone⟩) hinst' hk).1
  obtain ⟨inst', hslot⟩ : ∃ inst', g'.inst (σ x) = .ok inst' := by
    obtain ⟨old, hold⟩ := hw.exists_inst (h.listed _ hmem)
    have hlt := (Array.getElem?_eq_some_iff.1 (inst_eq_ok.1 hold)).1
    exact ⟨_, inst_eq_ok.2 (Array.getElem?_eq_getElem (h.slots ▸ hlt))⟩
  rw [isRemoved_eq hslot, (h.removed _ inst' hmem hslot).2] at hremoved
  cases hremoved

/-- Where an operand of what is left comes from. -/
theorem Rewired.exists_operand_left {inst' : Inst} {k : Nat} (hi : i ∈ g.attached) (hgone : i ∉ gone)
    (hinst' : g'.inst i = .ok inst') (hy : inst'.inputs[k]? = some y) :
    ∃ inst x, g.inst i = .ok inst ∧ inst.inputs[k]? = some x ∧ y = σ x := by
  obtain ⟨inst, hinst, -, hmap⟩ := h.exists_inst hgone hinst'
  rw [hmap hi, List.getElem?_map, Option.map_eq_some_iff] at hy
  obtain ⟨x, hx, rfl⟩ := hy
  exact ⟨inst, x, hinst, hx, rfl⟩

/-- What is left is well formed if it reads nothing that is gone. -/
theorem Rewired.wellFormed (hw : g.WellFormed) (hg : g.Consistent)
    (hkinds : ∀ i ∈ gone, ∀ inst, g.inst i = .ok inst → inst.kind.isTerminator = false)
    (hremoved : ∀ x, g.isRemoved x = false → g.isRemoved (σ x) = false)
    (hsettled : ∀ b n x, g.Reachable b → g.Settled b n x → g.Settled b n (σ x))
    (hstays : ∀ i inst x, i ∈ g.attached → i ∉ gone → g.inst i = .ok inst → x ∈ inst.inputs → σ x ∉ gone) :
    g'.WellFormed where
  entry := by
    obtain ⟨block, hentry, hpreds⟩ := hw.entry
    exact ⟨_, h.block_eq_ok.2 ⟨block, h.entry ▸ hentry, rfl⟩, hpreds⟩
  listed b block i hb hi := h.listed_left hw hb hi
  phi_inputs b block' i inst' hb' hi hinst' := by
    obtain ⟨block, hb, rfl⟩ := h.block_eq_ok.1 hb'
    obtain ⟨hi, hgone⟩ := List.mem_filter.1 hi
    obtain ⟨inst, hinst, -, hmap⟩ := h.exists_inst (of_decide_eq_true hgone) hinst'
    rw [hmap (Graph.mem_attached.2 ⟨b, block, hb, List.mem_append_left _ hi⟩), List.length_map]
    exact hw.phi_inputs b block i inst hb hi hinst
  ends b block' hb' := by
    obtain ⟨block, hb, rfl⟩ := h.block_eq_ok.1 hb'
    exact h.endsWell hkinds (hw.ends b block hb)
  operand i inst' k y hi hinst' hy := by
    obtain ⟨hi, hgone⟩ := h.mem_attached.1 hi
    refine ⟨?_, h.operand i inst' k _ hi hgone hinst' hy⟩
    obtain ⟨inst, x, hinst, hx, rfl⟩ := h.exists_operand_left hi hgone hinst' hy
    rw [h.isRemoved (hstays i inst x hi hgone hinst (List.mem_of_getElem? hx))]
    exact hremoved x (hw.operand i inst k x hi hinst hx).1
  use x u hx hu := h.use x u (h.mem_attached.1 hx).1 hu
  phi_defined b block' i inst' k y p hb hblock' hi hinst' hy hp hreach := by
    obtain ⟨block, hblock, rfl⟩ := h.block_eq_ok.1 hblock'
    obtain ⟨hi, hgone⟩ := List.mem_filter.1 hi
    have hatt := Graph.mem_attached.2 ⟨b, block, hblock, List.mem_append_left _ hi⟩
    obtain ⟨inst, x, hinst, hx, rfl⟩ := h.exists_operand_left hatt (of_decide_eq_true hgone) hinst' hy
    have hy' := hstays i inst x hatt (of_decide_eq_true hgone) hinst (List.mem_of_getElem? hx)
    rw [h.reachable] at hb hreach
    obtain ⟨pred, hpred⟩ := hw.exists_block hg hreach
    have hset := hw.settled_phi_operand hg hb hblock hi hinst hx hp hreach hpred
    exact (h.settled_left hpred (hsettled p _ x hreach hset) hy').definedAtEnd (h.reachable.2 hreach)
      fun d block hd hmem => h.listed_left hw hd hmem
  defined b block' i inst' k y hb hblock' hi hinst' hy := by
    obtain ⟨block, hblock, rfl⟩ := h.block_eq_ok.1 hblock'
    obtain ⟨hi, hgone⟩ := List.mem_filter.1 hi
    have hatt := Graph.mem_attached.2 ⟨b, block, hblock, List.mem_append_right _ hi⟩
    obtain ⟨inst, x, hinst, hx, rfl⟩ := h.exists_operand_left hatt (of_decide_eq_true hgone) hinst' hy
    have hy' := hstays i inst x hatt (of_decide_eq_true hgone) hinst (List.mem_of_getElem? hx)
    rw [h.reachable] at hb
    obtain ⟨n, hn⟩ := List.mem_iff_getElem?.1 hi
    have hset := hw.settled_operand hg hb hblock hn hinst hx
    obtain ⟨block₁, hblock₁, hget⟩ := at_insts hblock hn
    rw [hblock] at hblock₁
    cases hblock₁
    exact (h.consistent hg).definedBefore (fun d block hd hmem => h.listed_left hw hd hmem)
      (h.settled_left hblock (hsettled b _ x hb hset) hy')
      (h.at_left hblock hget (of_decide_eq_true hgone))

/-- What is left is well formed exactly when it reads nothing that is gone. -/
theorem Rewired.wellFormed_iff (hw : g.WellFormed) (hg : g.Consistent)
    (hkinds : ∀ i ∈ gone, ∀ inst, g.inst i = .ok inst → inst.kind.isTerminator = false)
    (hremoved : ∀ x, g.isRemoved x = false → g.isRemoved (σ x) = false)
    (hsettled : ∀ b n x, g.Reachable b → g.Settled b n x → g.Settled b n (σ x)) :
    g'.WellFormed ↔ ∀ i inst x, i ∈ g.attached → i ∉ gone → g.inst i = .ok inst → x ∈ inst.inputs →
      σ x ∉ gone :=
  ⟨fun hw' _ _ _ hi hgone hinst hx => h.not_mem_gone_of_wellFormed hw hw' hi hgone hinst hx,
    h.wellFormed hw hg hkinds hremoved hsettled⟩

end Left

end Graph

end Midend
