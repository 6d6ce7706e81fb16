import Midend.Proofs.Arena
import Midend.Text.Read

/-!
# Graphs put together instruction by instruction

Reading a method adds its instructions one after the other to a graph that has all its blocks.  Such a
graph is known from the list of what was added: slots, bodies and edges are read off the list.

## Shape of the argument

`Assembled` says how the parts of a graph follow from the list.  Adding an instruction appends to the list
(`Assembled.push`), and giving operands to one that is there changes its entry (`Assembled.feeds`).
-/

namespace Midend

/-- The kind of phis is the one that is a phi. -/
theorem Kind.isPhi_eq_true {k : Kind} : k.isPhi = true ↔ k = .phi := by
  cases k <;> simp [Kind.isPhi]

/-- An instruction to be added: its operands and targets, and the block it is for. -/
structure Item where
  kind : Kind
  ty : Ty
  inputs : List InstId
  block : BlockId
  succs : List BlockId

namespace Item

/-- The slot of an added instruction. -/
def inst (it : Item) : Inst := ⟨it.kind, it.ty, it.inputs, some it.block, false⟩

/-- The instruction without its operands. -/
def bare (it : Item) : Item := { it with inputs := [] }

/-- The instruction with more operands. -/
def fed (it : Item) (vs : List InstId) : Item := { it with inputs := it.inputs ++ vs }

end Item

/-- What a graph is declared with. -/
structure Header where
  name : String
  isStatic : Bool
  isSynchronized : Bool
  fields : Array Field
  /-- The number of blocks. -/
  size : Nat

/-- The positions in a list where a condition holds, as names of instructions. -/
def idsWhere {α : Type} (p : α → Bool) (xs : List α) : List InstId :=
  (xs.zipIdx.filter fun x => p x.1).map fun x => ⟨x.2⟩

section Ids

variable {α β : Type} {p : α → Bool} {xs : List α} {x : α} {i : InstId}

/-- One more item adds its number if it passes the test. -/
theorem idsWhere_append : idsWhere p (xs ++ [x]) = idsWhere p xs ++ if p x then [⟨xs.length⟩] else [] := by
  unfold idsWhere
  rw [List.zipIdx_append, List.filter_append, List.map_append]
  split
  · next hp => simp [hp]
  · next hp => simp [hp]

/-- The numbers of the items that pass a test. -/
theorem mem_idsWhere : i ∈ idsWhere p xs ↔ ∃ x, xs[i.index]? = some x ∧ p x = true := by
  simp only [idsWhere, List.mem_map, List.mem_filter, Prod.exists, List.mk_mem_zipIdx_iff_getElem?]
  constructor
  · rintro ⟨x, n, ⟨hn, hp⟩, rfl⟩
    exact ⟨x, hn, hp⟩
  · rintro ⟨x, hi, hp⟩
    exact ⟨x, i.index, ⟨hi, hp⟩, rfl⟩

/-- The names come in ascending order. -/
theorem pairwise_idsWhere : (idsWhere p xs).Pairwise (·.index < ·.index) := by
  have hlt : (List.range' 0 xs.length).Pairwise (· < ·) := List.pairwise_lt_range'
  rw [← List.zipIdx_map_snd, List.pairwise_map] at hlt
  unfold idsWhere
  rw [List.pairwise_map]
  exact hlt.filter _

/-- Items may be changed before they are tested. -/
theorem idsWhere_map {q : β → Bool} {f : α → β} : idsWhere q (xs.map f) = idsWhere (fun x => q (f x)) xs := by
  unfold idsWhere
  rw [List.zipIdx_map, List.filter_map, List.map_map]
  rfl

/-- In a list without repetitions the names are the places where the elements are found. -/
theorem idsWhere_eq_map_idxOf [DecidableEq α] (hxs : xs.Nodup) :
    idsWhere p xs = (xs.filter p).map fun x => ⟨xs.idxOf x⟩ := by
  have hplace : ∀ y ∈ xs.zipIdx.filter (fun y => p y.1), (⟨y.2⟩ : InstId) = ⟨xs.idxOf y.1⟩ := by
    intro y hy
    have hget := List.mk_mem_zipIdx_iff_getElem?.1 (List.mem_filter.1 hy).1
    obtain ⟨hlt, heq⟩ := List.getElem?_eq_some_iff.1 hget
    rw [← heq, hxs.idxOf_getElem]
  calc idsWhere p xs = (xs.zipIdx.filter fun y => p y.1).map (fun y => ⟨xs.idxOf y.1⟩) :=
        List.map_congr_left hplace
    _ = ((xs.zipIdx.map Prod.fst).filter p).map (fun x => ⟨xs.idxOf x⟩) := by
        rw [List.filter_map, List.map_map]
        rfl
    _ = (xs.filter p).map fun x => ⟨xs.idxOf x⟩ := by rw [List.zipIdx_map_fst]

end Ids

section Sorted

variable {α : Type} {key : α → Nat} {xs : List α} {n : Nat}

/-- A list in the order of a key ends with the elements that have the last key. -/
theorem eq_filter_append_filter (hsorted : (xs.map key).Pairwise (· ≤ ·)) (hlt : ∀ x ∈ xs, key x < n + 1) :
    xs = xs.filter (key · < n) ++ xs.filter (key · = n) := by
  induction xs with
  | nil => rfl
  | cons x xs ih =>
    rw [List.map_cons, List.pairwise_cons] at hsorted
    by_cases hx : key x < n
    · have htail := ih hsorted.2 fun y hy => hlt y (List.mem_cons_of_mem _ hy)
      rw [List.filter_cons_of_pos (by simpa using hx), List.filter_cons_of_neg (by simp; omega),
        List.cons_append, ← htail]
    · have hall : ∀ y ∈ x :: xs, key y = n := by
        intro y hy
        have hle : key x ≤ key y := by
          rcases List.mem_cons.1 hy with rfl | hy
          · exact Nat.le_refl _
          · exact hsorted.1 _ (List.mem_map_of_mem hy)
        have := hlt y hy
        omega
      have hnone : (x :: xs).filter (key · < n) = [] :=
        List.filter_eq_nil_iff.2 fun y hy => by simp [hall y hy]
      have hevery : (x :: xs).filter (key · = n) = x :: xs :=
        List.filter_eq_self.2 fun y hy => by simp [hall y hy]
      rw [hnone, hevery, List.nil_append]

/-- A list in the order of a key is made of its parts with equal keys. -/
theorem eq_flatMap_filter (hsorted : (xs.map key).Pairwise (· ≤ ·)) (hlt : ∀ x ∈ xs, key x < n) :
    xs = (List.range n).flatMap fun k => xs.filter (key · = k) := by
  induction n generalizing xs with
  | zero =>
    cases xs with
    | nil => rfl
    | cons x xs => exact absurd (hlt x List.mem_cons_self) (Nat.not_lt_zero _)
  | succ n ih =>
    have hbelow : xs.filter (key · < n) = (List.range n).flatMap fun k => xs.filter (key · = k) := by
      have hfilter : ((xs.filter (key · < n)).map key).Pairwise (· ≤ ·) :=
        List.pairwise_map.2 ((List.pairwise_map.1 hsorted).filter _)
      rw [ih hfilter fun x hx => by simpa using (List.mem_filter.1 hx).2]
      refine List.flatMap_congr fun k hk => ?_
      rw [List.mem_range] at hk
      rw [List.filter_filter]
      refine List.filter_congr fun x _ => ?_
      by_cases hx : key x = k
      · simp [hx, hk]
      · simp [hx]
    calc xs = xs.filter (key · < n) ++ xs.filter (key · = n) := eq_filter_append_filter hsorted hlt
      _ = (List.range (n + 1)).flatMap fun k => xs.filter (key · = k) := by
        rw [hbelow, List.range_succ, List.flatMap_append, List.flatMap_singleton]

end Sorted

namespace Graph

variable {items : List Item} {it : Item} {b : BlockId} {g : Graph} {h : Header}

/-- The block that results from adding the instructions. -/
def blockIn (items : List Item) (b : BlockId) : Block where
  phis := idsWhere (fun it => it.block = b && it.kind.isPhi) items
  insts := idsWhere (fun it => it.block = b && !it.kind.isPhi) items
  preds := items.flatMap fun it => (it.succs.filter (· = b)).map fun _ => it.block
  succs := (items.filter (·.block = b)).flatMap (·.succs)

/-- A graph has been put together from a header and a list of instructions. -/
structure Assembled (h : Header) (items : List Item) (g : Graph) : Prop where
  name : g.name = h.name
  isStatic : g.isStatic = h.isStatic
  isSynchronized : g.isSynchronized = h.isSynchronized
  fields : g.fields = h.fields
  entry : g.entry = ⟨0⟩
  insts : g.insts.toList = items.map Item.inst
  blocks : ∀ b : BlockId, g.blocks[b.index]? = if b.index < h.size then some (blockIn items b) else none
  intact : g.Intact

/-- Which operands instructions have does not matter to the blocks. -/
theorem blockIn_bare : blockIn (items.map Item.bare) b = blockIn items b := by
  simp only [blockIn, idsWhere_map, List.flatMap_map, List.filter_map]
  rfl

/-- One more item changes the blocks that it is in and leads to. -/
theorem blockIn_append : blockIn (items ++ [it]) b = {
    phis := (blockIn items b).phis ++ if it.block = b && it.kind.isPhi then [⟨items.length⟩] else []
    insts := (blockIn items b).insts ++ if it.block = b && !it.kind.isPhi then [⟨items.length⟩] else []
    preds := (blockIn items b).preds ++ (it.succs.filter (· = b)).map fun _ => it.block
    succs := (blockIn items b).succs ++ if it.block = b then it.succs else [] } := by
  simp only [blockIn, idsWhere_append, List.flatMap_append, List.filter_append, Block.mk.injEq, true_and]
  refine ⟨by simp, ?_⟩
  by_cases hb : it.block = b
  · simp [hb]
  · simp [hb]

/-- The predecessors follow from the successors when the instructions are in the order of their blocks. -/
theorem preds_blockIn {n : Nat} (hsorted : (items.map (·.block.index)).Pairwise (· ≤ ·))
    (hlt : ∀ it ∈ items, it.block.index < n) :
    (blockIn items b).preds =
      (List.range n).flatMap fun k => ((blockIn items ⟨k⟩).succs.filter (· = b)).map fun _ => ⟨k⟩ := by
  show items.flatMap (fun it => (it.succs.filter (· = b)).map fun _ => it.block) = _
  rw [congrArg (List.flatMap _) (eq_flatMap_filter hsorted hlt), List.flatMap_assoc]
  refine List.flatMap_congr fun k _ => ?_
  have hsuccs : (blockIn items ⟨k⟩).succs = (items.filter (·.block.index = k)).flatMap (·.succs) := by
    unfold blockIn
    simp only [← BlockId.index_inj]
  rw [hsuccs, List.filter_flatMap, List.map_flatMap]
  refine List.flatMap_congr fun it hit => ?_
  have hblock : it.block = ⟨k⟩ := BlockId.index_inj.1 (by simpa using (List.mem_filter.1 hit).2)
  rw [hblock]

/-! ## Declarations -/

/-- There are as many blocks as were announced. -/
theorem Assembled.size_blocks (hg : Assembled h items g) : g.blocks.size = h.size := by
  apply Nat.le_antisymm
  · have hnone : g.blocks[h.size]? = none := by
      rw [hg.blocks ⟨h.size⟩, if_neg (Nat.lt_irrefl _)]
    exact Array.getElem?_eq_none_iff.1 hnone
  · by_contra hlt
    have hsome := hg.blocks ⟨g.blocks.size⟩
    rw [if_pos (Nat.lt_of_not_le hlt), Array.getElem?_eq_none (Nat.le_refl _)] at hsome
    cases hsome

/-- The successors of a block are what its items lead to. -/
theorem Assembled.succs_eq (hg : Assembled h items g) (hb : b.index < h.size) :
    g.succs b = (blockIn items b).succs := by
  rw [succs, hg.blocks, if_pos hb]
  rfl

/-- The predecessors of a block are the blocks of the items that lead to it. -/
theorem Assembled.preds_eq (hg : Assembled h items g) (hb : b.index < h.size) :
    g.preds b = (blockIn items b).preds := by
  rw [preds, hg.blocks, if_pos hb]
  rfl

/-- A method starts with its entry and nothing in it. -/
theorem assembled_initial (m : Source.Method) :
    Assembled ⟨m.name, m.isStatic, m.isSynchronized, #[], 1⟩ [] (Scope.initial m).graph := by
  refine ⟨rfl, rfl, rfl, rfl, rfl, rfl, fun b => ?_, (intact_new m.name).congr rfl rfl rfl rfl rfl rfl⟩
  show #[Block.empty][b.index]? = _
  cases hb : b.index with
  | zero => rfl
  | succ n => simp

/-- Declaring fields changes nothing else. -/
theorem Assembled.setFields (hg : Assembled h items g) (fields : Array Field) :
    Assembled { h with fields := fields } items { g with fields := fields } :=
  ⟨hg.name, hg.isStatic, hg.isSynchronized, rfl, hg.entry, hg.insts, hg.blocks,
    hg.intact.congr rfl rfl rfl rfl rfl rfl⟩

/-- Before there are items, a block may be added. -/
theorem Assembled.createBlock (hg : Assembled h [] g) :
    Assembled { h with size := h.size + 1 } [] g.createBlock.1 := by
  refine ⟨hg.name, hg.isStatic, hg.isSynchronized, hg.fields, hg.entry, hg.insts, fun b => ?_,
    hg.intact.createBlock⟩
  show (g.blocks.push Block.empty)[b.index]? = if b.index < h.size + 1 then _ else _
  rw [Array.getElem?_push, hg.size_blocks]
  by_cases hlast : b.index = h.size
  · rw [if_pos hlast, if_pos (by omega)]
    rfl
  · rw [if_neg hlast, hg.blocks]
    by_cases hb : b.index < h.size
    · rw [if_pos hb, if_pos (by omega)]
    · rw [if_neg hb, if_neg (by omega)]

/-! ## Adding instructions -/

/-- Edges from a block to some blocks, one after the other. -/
theorem foldl_link (ts : List BlockId) (g : Graph) :
    ∃ blocks, ts.foldl (fun g t => g.link b t) g = { g with blocks := blocks } ∧
      ∀ c : BlockId, blocks[c.index]? = g.blocks[c.index]?.map fun block => { block with
        preds := block.preds ++ (ts.filter (· = c)).map fun _ => b
        succs := block.succs ++ if b = c then ts else [] } := by
  induction ts generalizing g with
  | nil => exact ⟨g.blocks, rfl, fun c => by simp⟩
  | cons t ts ih =>
    obtain ⟨blocks, hblocks, hget⟩ := ih (g.link b t)
    refine ⟨blocks, hblocks, fun c => ?_⟩
    rw [hget, blocks_link, Option.map_map]
    congr 1
    funext block
    by_cases hb : b = c <;> by_cases ht : t = c <;> simp [hb, ht, eq_comm (a := c)]

/-- Recording operands only changes use chains. -/
theorem foldl_addUse_eq (i : InstId) (ps : List (InstId × Nat)) (g : Graph) :
    ∃ chains, ps.foldl (fun g (p : InstId × Nat) => g.addUse p.1 ⟨i, p.2⟩) g =
      { g with useChains := chains } := by
  induction ps generalizing g with
  | nil => exact ⟨g.useChains, rfl⟩
  | cons p ps ih => exact ih (g.addUse p.1 ⟨i, p.2⟩)

/-- Add an instruction at the end of its block, and its edges. -/
def push (g : Graph) (it : Item) : Graph :=
  let (g, i) := g.addInst it.kind it.ty it.inputs
  let g := if it.kind.isPhi then g.placePhi it.block i else g.placeInst it.block i
  it.succs.foldl (fun g t => g.link it.block t) g

/-- Changing what was just added. -/
theorem modify_push {α : Type} {xs : Array α} {x : α} {f : α → α} :
    (xs.push x).modify xs.size f = xs.push (f x) := by
  apply Array.ext_getElem?
  intro n
  rw [Array.getElem?_modify, Array.getElem?_push, Array.getElem?_push]
  by_cases hn : n = xs.size
  · simp [hn]
  · simp [hn, Ne.symm hn]

/-- What a graph is like after an instruction was added. -/
theorem push_eq (g : Graph) (it : Item) : ∃ blocks chains,
    g.push it = { g with insts := g.insts.push it.inst, blocks := blocks, useChains := chains } ∧
      ∀ c : BlockId, blocks[c.index]? = g.blocks[c.index]?.map fun block => {
        phis := block.phis ++ if it.block = c && it.kind.isPhi then [⟨g.insts.size⟩] else []
        insts := block.insts ++ if it.block = c && !it.kind.isPhi then [⟨g.insts.size⟩] else []
        preds := block.preds ++ (it.succs.filter (· = c)).map fun _ => it.block
        succs := block.succs ++ if it.block = c then it.succs else [] } := by
  obtain ⟨chains, hchains⟩ := foldl_addUse_eq ⟨g.insts.size⟩ it.inputs.zipIdx
    { g with insts := g.insts.push ⟨it.kind, it.ty, it.inputs, none, false⟩ }
  have hadd : g.addInst it.kind it.ty it.inputs = ({ g with
      insts := g.insts.push ⟨it.kind, it.ty, it.inputs, none, false⟩, useChains := chains },
      ⟨g.insts.size⟩) := Prod.ext hchains rfl
  -- both ways of placing it write the block into the slot
  have hslot : (g.insts.push ⟨it.kind, it.ty, it.inputs, none, false⟩).modify g.insts.size
      (fun inst => { inst with block := some it.block }) = g.insts.push it.inst := modify_push
  unfold push
  rw [hadd]
  cases hphi : it.kind.isPhi with
  | true =>
    simp only [if_true, placePhi, modifyBlock, modifyInst, hslot]
    obtain ⟨blocks, hblocks, hget⟩ := foldl_link (b := it.block) it.succs { g with
      insts := g.insts.push it.inst, useChains := chains,
      blocks := g.blocks.modify it.block.index fun block => { block with
        phis := block.phis ++ [⟨g.insts.size⟩] } }
    refine ⟨blocks, chains, hblocks, fun c => ?_⟩
    rw [hget, Array.getElem?_modify]
    simp only [BlockId.index_inj]
    by_cases hc : it.block = c
    · simp [hc, Option.map_map, Function.comp_def]
    · simp [hc]
  | false =>
    simp only [Bool.false_eq_true, if_false, placeInst, modifyBlock, modifyInst, hslot]
    obtain ⟨blocks, hblocks, hget⟩ := foldl_link (b := it.block) it.succs { g with
      insts := g.insts.push it.inst, useChains := chains,
      blocks := g.blocks.modify it.block.index fun block => { block with
        insts := block.insts ++ [⟨g.insts.size⟩] } }
    refine ⟨blocks, chains, hblocks, fun c => ?_⟩
    rw [hget, Array.getElem?_modify]
    simp only [BlockId.index_inj]
    by_cases hc : it.block = c
    · simp [hc, Option.map_map, Function.comp_def]
    · simp [hc]

/-- There are as many instructions as items. -/
theorem Assembled.size_insts (hg : Assembled h items g) : g.insts.size = items.length := by
  rw [← Array.length_toList, hg.insts, List.length_map]

/-- The books agree after an instruction was added. -/
theorem Intact.push (hg : g.Intact) (hblock : it.block ∈ g.blockIds) (hsuccs : ∀ t ∈ it.succs, t ∈ g.blockIds) :
    (g.push it).Intact := by
  obtain ⟨hid, hblocks, -, hinsts, -⟩ := addInst_spec (g := g) it.kind it.ty it.inputs
  have hadded := hg.addInst it.kind it.ty it.inputs
  obtain ⟨block, hb⟩ := mem_blockIds_iff.1 hblock
  unfold Graph.push
  rw [show g.addInst it.kind it.ty it.inputs = ((g.addInst it.kind it.ty it.inputs).1, ⟨g.insts.size⟩) from
    Prod.ext rfl hid]
  generalize (g.addInst it.kind it.ty it.inputs).1 = g₁ at hblocks hinsts hadded
  have hinst : g₁.inst ⟨g.insts.size⟩ = .ok ⟨it.kind, it.ty, it.inputs, none, false⟩ := by
    rw [inst_eq_ok, hinsts, Array.getElem?_push_size]
  have hb₁ : g₁.block it.block = .ok block := by rw [Graph.block, hblocks, ← Graph.block, hb]
  have hplaced : ∀ g₂ : Graph, g₂.Intact → g₂.blockIds = g.blockIds →
      (it.succs.foldl (fun g t => g.link it.block t) g₂).Intact := by
    intro g₂ hg₂ hids
    refine (List.foldlRecOn (motive := fun g₃ : Graph => g₃.Intact ∧ g₃.blockIds = g.blockIds) it.succs _
      ⟨hg₂, hids⟩ fun g₃ hg₃ t ht => ⟨?_, ?_⟩).1
    · exact hg₃.1.link (hg₃.2 ▸ hblock) (hg₃.2 ▸ hsuccs t ht)
    · rw [← hg₃.2, Graph.blockIds, Graph.blockIds, Graph.link]
      simp [modifyBlock]
  have hsize : ∀ f, ((g₁.modifyInst ⟨g.insts.size⟩ ({ · with block := some it.block })).modifyBlock
      it.block f).blockIds = g.blockIds := by
    intro f
    simp only [Graph.blockIds, modifyBlock, modifyInst, Array.size_modify, hblocks]
  show (it.succs.foldl _ (if it.kind.isPhi then g₁.placePhi it.block ⟨g.insts.size⟩
    else g₁.placeInst it.block ⟨g.insts.size⟩)).Intact
  cases hphi : it.kind.isPhi with
  | true =>
    refine hplaced _ (hadded.places (places_of_modifyBlock hb₁ rfl rfl ?_ fun j hj => ?_) hinst rfl
      (isRemoved_eq hinst)) (hsize _)
    · rw [Block.body, List.append_assoc]
      exact List.perm_middle
    · rw [List.mem_append, List.mem_singleton] at hj
      refine hj.imp_right fun hj => ⟨hj, ?_⟩
      rw [kind?_eq hinst, Kind.isPhi_eq_true.1 hphi]
  | false =>
    refine hplaced _ (hadded.places (places_of_modifyBlock hb₁ rfl rfl ?_ fun j hj => .inl hj) hinst rfl
      (isRemoved_eq hinst)) (hsize _)
    rw [Block.body, ← List.append_assoc]
    exact List.perm_append_singleton _ _

/-- One more item is one more instruction, in its block and with its edges. -/
theorem Assembled.push (hg : Assembled h items g) (hblock : it.block.index < h.size)
    (hsuccs : ∀ t ∈ it.succs, t.index < h.size) : Assembled h (items ++ [it]) (g.push it) := by
  have hintact : (g.push it).Intact := by
    refine hg.intact.push (mem_blockIds.2 (hg.size_blocks ▸ hblock)) fun t ht => mem_blockIds.2 ?_
    exact hg.size_blocks ▸ hsuccs t ht
  obtain ⟨blocks, chains, hpush, hblocks⟩ := push_eq g it
  rw [hpush] at hintact ⊢
  refine ⟨hg.name, hg.isStatic, hg.isSynchronized, hg.fields, hg.entry, ?_, fun c => ?_, hintact⟩
  · rw [Array.toList_push, hg.insts, List.map_append]
    rfl
  · show blocks[c.index]? = _
    rw [hblocks, hg.blocks, hg.size_insts]
    by_cases hc : c.index < h.size
    · rw [if_pos hc, if_pos hc, blockIn_append]
      rfl
    · rw [if_neg hc, if_neg hc]
      rfl

/-! ## Adding operands -/

/-- Changing a slot twice is changing it once by both. -/
theorem modify_modify {α : Type} {xs : Array α} {n : Nat} {f f' : α → α} :
    (xs.modify n f).modify n f' = xs.modify n fun x => f' (f x) := by
  apply Array.ext_getElem?
  intro m
  simp only [Array.getElem?_modify]
  split
  · simp [Function.comp_def]
  · rfl

/-- Giving an instruction operands, one after the other. -/
theorem foldl_feed_eq (i : InstId) (vs : List InstId) (g : Graph) :
    ∃ chains, vs.foldl (fun g v => g.feed i v) g = { g with
      insts := g.insts.modify i.index fun inst => { inst with inputs := inst.inputs ++ vs }
      useChains := chains } := by
  induction vs generalizing g with
  | nil =>
    refine ⟨g.useChains, ?_⟩
    have hid : g.insts.modify i.index (fun inst => { inst with inputs := inst.inputs ++ [] }) = g.insts := by
      apply Array.ext_getElem?
      intro n
      rw [Array.getElem?_modify]
      simp
    rw [hid]
    rfl
  | cons v vs ih =>
    obtain ⟨chains, hchains⟩ := ih (g.feed i v)
    refine ⟨chains, ?_⟩
    have hinsts : (g.feed i v).insts.modify i.index (fun inst => { inst with inputs := inst.inputs ++ vs }) =
        g.insts.modify i.index fun inst => { inst with inputs := inst.inputs ++ v :: vs } := by
      simp only [feed, modifyInst, addUse, modify_modify, List.append_assoc, List.cons_append,
        List.nil_append]
    rw [List.foldl_cons, hchains, hinsts]
    rfl

/-- Giving operands to an instruction that is there. -/
theorem Assembled.feeds (hg : Assembled h items g) {i : InstId} (hi : i.index < items.length)
    (vs : List InstId) :
    Assembled h (items.modify i.index (·.fed vs)) (vs.foldl (fun g v => g.feed i v) g) := by
  have hintact : (vs.foldl (fun g v => g.feed i v) g).Intact := by
    refine (List.foldlRecOn (motive := fun g' : Graph => g'.Intact ∧ g'.insts.size = g.insts.size) vs _
      ⟨hg.intact, rfl⟩ fun g' ⟨hg', hsize⟩ v _ => ⟨?_, ?_⟩).1
    · have hlt : i.index < g'.insts.size := by rw [hsize, hg.size_insts]; exact hi
      exact hg'.feed (inst_eq_ok.2 (Array.getElem?_eq_getElem hlt)) v
    · rw [← hsize, feed, addUse, modifyInst, Array.size_modify]
  obtain ⟨chains, hfeed⟩ := foldl_feed_eq i vs g
  rw [hfeed] at hintact ⊢
  refine ⟨hg.name, hg.isStatic, hg.isSynchronized, hg.fields, hg.entry, ?_, fun c => ?_, hintact⟩
  · apply List.ext_getElem?
    intro n
    have hn : g.insts[n]? = items[n]?.map Item.inst := by
      rw [← Array.getElem?_toList, hg.insts, List.getElem?_map]
    rw [Array.getElem?_toList, Array.getElem?_modify, List.getElem?_map, List.getElem?_modify, hn]
    by_cases hi : i.index = n
    · simp [hi, Item.fed, Item.inst, Function.comp_def]
    · simp [hi]
  · have hbare : (items.modify i.index (·.fed vs)).map Item.bare = items.map Item.bare := by
      apply List.ext_getElem?
      intro n
      rw [List.getElem?_map, List.getElem?_modify, List.getElem?_map]
      cases items[n]? with
      | none => rfl
      | some it =>
        simp only [Option.map_eq_map, Option.map_some]
        split <;> rfl
    rw [← blockIn_bare, hbare, blockIn_bare]
    exact hg.blocks c

/-! ## Uses are recorded once -/

/-- Recording the operands of an instruction puts each at the end of the chain of what it reads. -/
theorem uses_foldl_addUse (i : InstId) (ps : List (InstId × Nat)) (g : Graph) (x : InstId) :
    (ps.foldl (fun g (p : InstId × Nat) => g.addUse p.1 ⟨i, p.2⟩) g).uses x =
      g.uses x ++ (ps.filter (·.1 = x)).map fun p => ⟨i, p.2⟩ := by
  induction ps generalizing g with
  | nil => simp
  | cons p ps ih =>
    rw [List.foldl_cons, ih, uses_addUse, List.filter_cons]
    by_cases hx : x = p.1
    · simp [hx]
    · simp [hx, Ne.symm hx]

/-- Placing an instruction and adding its edges leaves the use chains alone. -/
theorem useChains_push (g : Graph) (it : Item) :
    (g.push it).useChains = (g.addInst it.kind it.ty it.inputs).1.useChains := by
  have hlink : ∀ g' : Graph, (it.succs.foldl (fun g t => g.link it.block t) g').useChains = g'.useChains := by
    intro g'
    obtain ⟨blocks, hblocks, -⟩ := foldl_link (b := it.block) it.succs g'
    rw [hblocks]
  unfold push
  rw [hlink]
  split <;> rfl

section Chains

variable {i : InstId} {inst : Inst} (hg : g.Intact) (hnodup : ∀ x, (g.uses x).Nodup)
include hg hnodup

/-- A new instruction uses each operand once at each place. -/
theorem Intact.nodup_uses_addInst (kind : Kind) (ty : Ty) (inputs : List InstId) (x : InstId) :
    ((g.addInst kind ty inputs).1.uses x).Nodup := by
  have huses : (g.addInst kind ty inputs).1.uses x =
      g.uses x ++ (inputs.zipIdx.filter (·.1 = x)).map fun p => ⟨⟨g.insts.size⟩, p.2⟩ :=
    uses_foldl_addUse ⟨g.insts.size⟩ inputs.zipIdx
      { g with insts := g.insts.push ⟨kind, ty, inputs, none, false⟩ } x
  have hpositions : ((inputs.zipIdx.filter (·.1 = x)).map fun p =>
      (⟨⟨g.insts.size⟩, p.2⟩ : Use)).Nodup := by
    have hlt : (inputs.zipIdx.map Prod.snd).Nodup := by
      rw [List.zipIdx_map_snd]
      exact List.nodup_range'
    have hfilter := (List.pairwise_map.1 hlt).filter (p := fun p => p.1 = x)
    exact List.pairwise_map.2 (hfilter.imp fun hne heq => hne (congrArg Use.index heq))
  rw [huses, List.nodup_append]
  refine ⟨hnodup x, hpositions, fun u hu u' hu' heq => ?_⟩
  -- the new instruction has no operand yet, so nothing is recorded for it
  obtain ⟨p, -, rfl⟩ := List.mem_map.1 hu'
  rw [heq, hg.used] at hu
  simp [operandsOf] at hu

/-- One more operand is one more use. -/
theorem Intact.nodup_uses_feed (hinst : g.inst i = .ok inst) (value x : InstId) :
    ((g.feed i value).uses x).Nodup := by
  have huses : (g.feed i value).uses x =
      if x = value then g.uses x ++ [⟨i, inst.inputs.length⟩] else g.uses x := by
    simp only [Graph.feed, inst_eq_ok.1 hinst, Option.map_some, Option.getD_some]
    exact uses_addUse
  rw [huses]
  split
  · refine List.nodup_append.2 ⟨hnodup x, List.nodup_singleton _, fun u hu u' hu' heq => ?_⟩
    rw [List.mem_singleton] at hu'
    rw [heq, hu', hg.used, operandsOf_eq hinst, List.getElem?_eq_none Nat.le.refl] at hu
    cases hu
  · exact hnodup x

/-- One more item leaves each use once. -/
theorem Intact.nodup_uses_push (it : Item) (x : InstId) : ((g.push it).uses x).Nodup := by
  rw [uses, useChains_push]
  exact hg.nodup_uses_addInst hnodup it.kind it.ty it.inputs x

/-- More operands leave each use once. -/
theorem Intact.nodup_uses_feeds (hinst : g.inst i = .ok inst) (vs : List InstId) (x : InstId) :
    ((vs.foldl (fun g v => g.feed i v) g).uses x).Nodup := by
  refine (List.foldlRecOn (motive := fun g' : Graph => g'.Intact ∧ (∀ x, (g'.uses x).Nodup) ∧
    ∃ inst, g'.inst i = .ok inst) vs _ ⟨hg, hnodup, inst, hinst⟩ ?_).2.1 x
  rintro g' ⟨h', hnodup', inst', hinst'⟩ v -
  refine ⟨h'.feed hinst' v, h'.nodup_uses_feed hnodup' hinst' v, ?_⟩
  have hlt : i.index < (g'.feed i v).insts.size := by
    rw [Graph.feed, addUse, modifyInst, Array.size_modify]
    exact (Array.getElem?_eq_some_iff.1 (inst_eq_ok.1 hinst')).1
  exact ⟨_, inst_eq_ok.2 (Array.getElem?_eq_getElem hlt)⟩

end Chains

end Graph

end Midend
