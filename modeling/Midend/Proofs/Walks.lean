import Midend.Proofs.Availability

/-!
# Walks, and what they execute

A walk goes from the entry along the edges of a graph.  It is kept as the list of the blocks it has left
and the block where it stands, so what it has executed at a place of that block can be written down: the
bodies of the blocks it left, and the part of the last body before the place.

The first result is about the dominator tree.  Nothing is asked of the graph but that its edges are
recorded at both ends: flow may be irreducible, blocks unreachable, edges doubled or from a block to
itself.

## Shape of the argument

Dominance and settled values were stated with paths that avoid a block.  A path is what is left of a walk
when the blocks on it are forgotten, so "every walk to `b` goes through `a`" is `Dom`, and "every walk to a
place has executed `x`" is `Settled`.  The second needs that `x` is listed once, and a walk that comes to
its last block for the first time.

The tree depends on the edges alone.  So it is the tree of the `skeleton` of the graph, the same blocks
without instructions, about which everything is known already.
-/

namespace Midend

namespace Graph

variable {g : Graph} {w : List BlockId} {a b d : BlockId} {i x : InstId} {m n : Nat} {block : Block}

/-- A walk from the entry: the blocks it has left, in order, and the block where it stands. -/
inductive Walk (g : Graph) : List BlockId → BlockId → Prop
  | entry : Walk g [] g.entry
  | step {w : List BlockId} {b c : BlockId} : Walk g w b → c ∈ g.succs b → Walk g (w ++ [b]) c

/-- Every walk to a block goes through another one, and there is such a walk. -/
def Dominates (g : Graph) (a b : BlockId) : Prop :=
  (∃ w, g.Walk w b) ∧ ∀ w, g.Walk w b → a ∈ w ++ [b]

/-- What a block executes, in order. -/
def bodyOf (g : Graph) (b : BlockId) : List InstId := (g.blocks[b.index]?.map Block.body).getD []

/-- What a walk has executed when it comes to a place of the block where it stands. -/
def executed (g : Graph) (w : List BlockId) (b : BlockId) (n : Nat) : List InstId :=
  w.flatMap g.bodyOf ++ (g.bodyOf b).take n

/-- An instruction is listed at a place and at no other, and records the block. -/
structure Placed (g : Graph) (i : InstId) (b : BlockId) (n : Nat) : Prop where
  listed : g.At i b n
  once : ∀ b' n', g.At i b' n' → b' = b ∧ n' = n
  recorded : g.blockOf i = .ok (some b)

/-! ## Walks and paths -/

/-- A walk is a path through the blocks that it goes through. -/
theorem Walk.path {ok : BlockId → Prop} (h : g.Walk w b) (hok : ∀ y ∈ w ++ [b], ok y) :
    Path g.succs ok g.entry b := by
  induction h with
  | entry => exact .refl (hok _ (by simp))
  | step _ hc ih =>
    exact (ih fun y hy => hok y (List.mem_append_left _ hy)).tail hc (hok _ (by simp))

/-- A path from the entry is a walk through blocks of the same kind. -/
theorem exists_walk {ok : BlockId → Prop} (h : Path g.succs ok g.entry b) :
    ∃ w, g.Walk w b ∧ ∀ y ∈ w ++ [b], ok y := by
  induction h with
  | refl hok => exact ⟨[], .entry, by simpa using hok⟩
  | tail _ hc hok ih =>
    obtain ⟨w, hw, hall⟩ := ih
    refine ⟨_, hw.step hc, fun y hy => ?_⟩
    rcases List.mem_append.1 hy with hy | hy
    · exact hall y hy
    · exact List.mem_singleton.1 hy ▸ hok

/-- A block is reachable when a walk leads to it. -/
theorem reachable_iff_walk : g.Reachable b ↔ ∃ w, g.Walk w b := by
  constructor
  · intro h
    obtain ⟨w, hw, -⟩ := exists_walk h
    exact ⟨w, hw⟩
  · rintro ⟨w, hw⟩
    exact hw.path fun _ _ => trivial

/-- A block dominates another when every walk to the other goes through it. -/
theorem dominates_iff_dom : g.Dominates a b ↔ g.Dom a b := by
  rw [Dominates, Dom, ← reachable_iff_walk]
  refine and_congr_right fun _ => ⟨fun h hp => ?_, fun h w hw => ?_⟩
  · obtain ⟨w, hw, havoid⟩ := exists_walk hp
    exact havoid a (h w hw) rfl
  · by_contra ha
    apply h
    apply hw.path
    rintro y hy rfl
    exact ha hy

/-- Some walk comes to a block for the first time. -/
theorem exists_walk_not_mem (h : g.Reachable b) : ∃ w, g.Walk w b ∧ b ∉ w := by
  by_cases hb : g.entry = b
  · exact ⟨[], hb ▸ .entry, by simp⟩
  · obtain ⟨p, hp, hedge⟩ := Path.exists_first h hb
    obtain ⟨w, hw, havoid⟩ := exists_walk hp
    exact ⟨_, hw.step hedge, fun hmem => (havoid b hmem).2 rfl⟩

/-! ## What has been executed -/

theorem bodyOf_eq (h : g.block b = .ok block) : g.bodyOf b = block.body := by
  rw [block_eq_ok] at h
  rw [bodyOf, h]
  rfl

theorem at_iff : g.At i b n ↔ (g.bodyOf b)[n]? = some i := by
  cases h : g.blocks[b.index]? with
  | none => simp [At, block_eq_ok, bodyOf, h]
  | some block => rw [at_iff_of_block (block_eq_ok.2 h), bodyOf_eq (block_eq_ok.2 h)]

/-- What was executed stands somewhere. -/
theorem exists_at_of_mem_executed (h : x ∈ g.executed w b n) : ∃ d m, g.At x d m := by
  rcases List.mem_append.1 h with h | h
  · obtain ⟨d, -, hx⟩ := List.mem_flatMap.1 h
    obtain ⟨m, hm⟩ := List.mem_iff_getElem?.1 hx
    exact ⟨d, m, at_iff.2 hm⟩
  · obtain ⟨m, hm⟩ := List.mem_iff_getElem?.1 (List.mem_of_mem_take h)
    exact ⟨b, m, at_iff.2 hm⟩

/-- An instruction that is listed once has been executed by a walk that has been through its block, or
stands in it further down. -/
theorem mem_executed (hx : g.At x d m) (honce : ∀ d' m', g.At x d' m' → d' = d ∧ m' = m) :
    x ∈ g.executed w b n ↔ d ∈ w ∨ (d = b ∧ m < n) := by
  rw [executed, List.mem_append]
  refine or_congr ?_ ?_
  · rw [List.mem_flatMap]
    constructor
    · rintro ⟨d', hd', hmem⟩
      obtain ⟨m', hm'⟩ := List.mem_iff_getElem?.1 hmem
      obtain ⟨rfl, -⟩ := honce d' m' (at_iff.2 hm')
      exact hd'
    · intro hd
      exact ⟨d, hd, List.mem_of_getElem? (at_iff.1 hx)⟩
  · constructor
    · intro hmem
      obtain ⟨m', hm'⟩ := List.mem_iff_getElem?.1 hmem
      rw [List.getElem?_take, Option.ite_none_right_eq_some] at hm'
      obtain ⟨hlt, hget⟩ := hm'
      obtain ⟨rfl, rfl⟩ := honce b m' (at_iff.2 hget)
      exact ⟨rfl, hlt⟩
    · rintro ⟨rfl, hmn⟩
      apply List.mem_of_getElem? (i := m)
      rw [List.getElem?_take_of_lt hmn]
      exact at_iff.1 hx

/-- What all walks to a place have executed is what is settled there. -/
theorem settled_iff_executed (hb : g.Reachable b)
    (honce : ∀ d m d' m', g.At x d m → g.At x d' m' → d' = d ∧ m' = m) :
    g.Settled b n x ↔ ∀ w, g.Walk w b → x ∈ g.executed w b n := by
  constructor
  · rintro ⟨d, m, hx, hpos⟩ w hw
    rw [mem_executed hx fun d' m' => honce d m d' m' hx]
    rcases hpos with hpos | hdom
    · exact .inr hpos
    · have hmem := (dominates_iff_dom.2 hdom.1).2 w hw
      rcases List.mem_append.1 hmem with hmem | hmem
      · exact .inl hmem
      · exact absurd (List.mem_singleton.1 hmem) hdom.2
  · intro h
    -- on the first visit to the block, what stands there has been executed only above the place
    obtain ⟨w₀, hw₀, hfirst⟩ := exists_walk_not_mem hb
    obtain ⟨d, m, hx⟩ := exists_at_of_mem_executed (h w₀ hw₀)
    refine ⟨d, m, hx, ?_⟩
    have hmem := fun w hw => (mem_executed hx fun d' m' => honce d m d' m' hx).1 (h w hw)
    by_cases hdb : d = b
    · rcases hmem w₀ hw₀ with hd | hpos
      · exact absurd (hdb ▸ hd) hfirst
      · exact .inl hpos
    · refine .inr ⟨dominates_iff_dom.1 ⟨⟨w₀, hw₀⟩, fun w hw => ?_⟩, hdb⟩
      rcases hmem w hw with hd | hpos
      · exact List.mem_append_left _ hd
      · exact absurd hpos.1 hdb

/-! ## The skeleton of a graph -/

/-- Every edge is recorded at its source as often as at its target. -/
def Mirrored (g : Graph) : Prop := ∀ a b, (g.succs a).count b = (g.preds b).count a

/-- The blocks and edges of a graph without its instructions. -/
def skeleton (g : Graph) : Graph :=
  { g with insts := #[], blocks := g.blocks.map fun b => { b with phis := [], insts := [] } }

theorem succs_skeleton : g.skeleton.succs = g.succs := by
  funext b
  simp only [succs, skeleton, Array.getElem?_map, Option.map_map]
  rfl

theorem preds_skeleton : g.skeleton.preds = g.preds := by
  funext b
  simp only [preds, skeleton, Array.getElem?_map, Option.map_map]
  rfl

/-- Blocks are reachable in the skeleton when they are in the graph. -/
theorem reachable_skeleton : g.skeleton.Reachable b ↔ g.Reachable b := by
  rw [Reachable, Reachable, succs_skeleton]
  rfl

/-- Blocks dominate each other in the skeleton when they do in the graph. -/
theorem dom_skeleton : g.skeleton.Dom a b ↔ g.Dom a b := by
  rw [Dom, Dom, reachable_skeleton, succs_skeleton]
  rfl

/-- The skeleton is consistent even where the instructions of the graph are not. -/
theorem Mirrored.consistent_skeleton (hg : g.Mirrored) : g.skeleton.Consistent where
  edges a b := by rw [succs_skeleton, preds_skeleton, hg]
  listed_once := by
    have hnil : g.skeleton.attached = [] := by simp [attached, skeleton, Block.body]
    rw [hnil]
    exact List.nodup_nil
  listed i inst b hinst := by
    rw [inst_eq_ok] at hinst
    simp [skeleton] at hinst

/-- The tree of a graph is that of its skeleton. -/
theorem ofGraph_skeleton {t : DomTree} (h : DomTree.ofGraph g.skeleton = .ok t) :
    DomTree.ofGraph g = .ok t :=
  DomTree.ofGraph_congr (g := g.skeleton) rfl (by simp [skeleton]) succs_skeleton.symm preds_skeleton.symm h

/-- The loops that make the tree see the edges alone. -/
theorem finished_of_skeleton {t : DomTree} (h : t.Finished g.skeleton) : t.Finished g := by
  obtain ⟨hsearch, hsweeps, htour⟩ := h
  rw [succs_skeleton] at hsearch
  rw [preds_skeleton] at hsweeps
  exact ⟨hsearch, hsweeps, htour⟩

/-! ## The dominator tree -/

/-- The place of an instruction is found by looking for it. -/
theorem Placed.position? (h : g.Placed i b n) : g.position? i = .ok (some n) := by
  obtain ⟨block, hblock, hget⟩ := id h.listed
  have hfind : block.body.findIdx? (· = i) = some n := by
    rw [List.findIdx?_eq_some_iff_getElem]
    obtain ⟨hlt, hn⟩ := List.getElem?_eq_some_iff.1 hget
    refine ⟨hlt, by simpa using hn, fun j hj => ?_⟩
    simp only [Bool.not_eq_true, decide_eq_false_iff_not]
    intro hji
    have hat : g.At i b j := ⟨block, hblock, by rw [List.getElem?_eq_getElem (by omega), hji]⟩
    have := (h.once b j hat).2
    omega
  simp only [Graph.position?, h.recorded, Checked.bind_eq_ok, Except.ok.injEq, exists_eq_left', hblock,
    Checked.pure_eq_ok, hfind]

/-- Dominance of instructions is a comparison of blocks, or of places in one block. -/
theorem instDominates_eq {t : DomTree} (hx : g.Placed x d m) (hi : g.Placed i b n) :
    t.instDominates g x i = .ok (if d = b then decide (m ≤ n) else t.dominates d b) := by
  simp only [DomTree.instDominates, hx.recorded, hi.recorded, hx.position?, hi.position?]
  by_cases hdb : d = b
  · simp [hdb, bind, Except.bind, pure, Except.pure]
  · simp [hdb, bind, Except.bind, pure, Except.pure]

/-- Different places hold different instructions. -/
theorem Placed.eq_iff (hx : g.Placed x d m) (hi : g.Placed i b n) : x = i ↔ d = b ∧ m = n := by
  constructor
  · rintro rfl
    exact hi.once d m hx.listed
  · rintro ⟨rfl, rfl⟩
    exact Option.some.inj ((at_iff.1 hx.listed).symm.trans (at_iff.1 hi.listed))

/-- One place comes before another, or is it, on every walk to the other. -/
theorem executed_or_eq_iff (hb : g.Reachable b) (hx : g.Placed x d m) (hi : g.Placed i b n) :
    (∀ w, g.Walk w b → x ∈ g.executed w b n ∨ x = i) ↔ if d = b then m ≤ n else g.Dom d b := by
  rw [hx.eq_iff hi]
  by_cases hdb : d = b
  · subst hdb
    simp only [mem_executed hx.listed hx.once, if_true, true_and]
    constructor
    · intro h
      obtain ⟨w, hw, hfirst⟩ := exists_walk_not_mem hb
      rcases h w hw with (hmem | hlt) | heq
      · exact absurd hmem hfirst
      · omega
      · omega
    · intro hmn w _
      rcases Nat.lt_or_eq_of_le hmn with hlt | heq
      · exact .inl (.inr hlt)
      · exact .inr heq
  · simp only [hdb, false_and, or_false, if_false]
    rw [← settled_iff_executed hb fun e k e' k' he he' => by
      obtain ⟨rfl, rfl⟩ := hx.once e k he
      exact hx.once e' k' he']
    constructor
    · rintro ⟨e, k, he, ⟨rfl, -⟩ | hdom⟩
      · exact absurd (hx.once e k he).1.symm hdb
      · exact (hx.once e k he).1 ▸ hdom.1
    · exact fun hdom => ⟨d, m, hx.listed, .inr ⟨hdom, hdb⟩⟩

end Graph

namespace DomTree

open Midend.Graph

variable {g : Graph}

/-- The tree of a graph exists and answers every question about walks.  The loops that make it come to an end
by themselves, with no bound on them.  Its post-order lists the blocks with a walk to them once each, it says
which blocks every walk to a block goes through, the immediate dominator is the one strict dominator that all
others dominate, and one instruction dominates another when it is executed before it, or is it, on every walk
there. -/
theorem ofGraph_answers_walks (hg : g.Mirrored) (hentry : g.entry ∈ g.blockIds) :
    ∃ t, ofGraph g = .ok t ∧ t.Finished g ∧
      (t.postorder.Nodup ∧ ∀ b, b ∈ t.postorder ↔ ∃ w, g.Walk w b) ∧
      (∀ a b, t.dominates a b = true ↔
        (∃ w, g.Walk w a) ∧ (∃ w, g.Walk w b) ∧ ∀ w, g.Walk w b → a ∈ w ++ [b]) ∧
      (∀ b, t.idom? b = none ↔ b = g.entry ∨ ¬ ∃ w, g.Walk w b) ∧
      (∀ a b, t.idom? b = some a ↔
        (a ≠ b ∧ g.Dominates a b) ∧ ∀ d, d ≠ b → g.Dominates d b → g.Dominates d a) ∧
      ∀ x d m i b n, g.Placed x d m → g.Placed i b n → (∃ w, g.Walk w d) → (∃ w, g.Walk w b) →
        ∃ r, t.instDominates g x i = .ok r ∧
          (r = true ↔ ∀ w, g.Walk w b → x ∈ g.executed w b n ∨ x = i) := by
  have hs := hg.consistent_skeleton
  obtain ⟨t, ht⟩ := ofGraph_eq_ok (g := g.skeleton) (by simpa [mem_blockIds, skeleton] using hentry)
  have hdom : ∀ a b, t.dominates a b = true ↔ g.Dom a b := fun a b => by
    rw [dominates_iff hs ht, dom_skeleton]
  simp only [← reachable_iff_walk, dominates_iff_dom]
  refine ⟨t, ofGraph_skeleton ht, finished_of_skeleton (finished hs ht), ⟨?_, fun b => ?_⟩, fun a b => ?_,
    fun b => ?_, fun a b => ?_, ?_⟩
  · rw [postorder, List.nodup_reverse]
    exact nodup_rpo ht
  · rw [postorder, List.mem_reverse, mem_rpo hs ht, reachable_skeleton]
  · rw [hdom]
    constructor
    · intro h
      exact ⟨h.left, h.1, (dominates_iff_dom.2 h).2⟩
    · rintro ⟨-, hb, h⟩
      exact dominates_iff_dom.1 ⟨reachable_iff_walk.1 hb, h⟩
  · rw [idom?_eq_none_iff hs ht, reachable_skeleton]
    rfl
  · rw [idom?_eq_some_iff hs ht]
    simp only [SDom, dom_skeleton]
    exact and_congr and_comm (forall_congr' fun d => and_imp.trans imp.swap)
  · intro x d m i b n hx hi _ hb
    refine ⟨_, instDominates_eq hx hi, ?_⟩
    rw [executed_or_eq_iff hb hx hi]
    split
    · exact decide_eq_true_iff
    · exact hdom d b

/-- A loop entered at two blocks, one of which goes round by itself and to the other twice, and a block
that nothing leads to. -/
def twoEntries : Graph where
  name := "twoEntries"
  isStatic := true
  isSynchronized := false
  insts := #[
    ⟨.param 0, .bool, [], some ⟨0⟩, false⟩,
    ⟨.branch, .void, [⟨0⟩], some ⟨0⟩, false⟩,
    ⟨.const 1, .int, [], some ⟨1⟩, false⟩,
    ⟨.branch, .void, [⟨0⟩], some ⟨1⟩, false⟩,
    ⟨.binary .add, .int, [⟨2⟩, ⟨2⟩], some ⟨2⟩, false⟩,
    ⟨.jump, .void, [], some ⟨2⟩, false⟩,
    ⟨.jump, .void, [], some ⟨3⟩, false⟩]
  blocks := #[
    ⟨[], [⟨0⟩, ⟨1⟩], [], [⟨1⟩, ⟨2⟩]⟩,
    ⟨[], [⟨2⟩, ⟨3⟩], [⟨0⟩, ⟨1⟩, ⟨2⟩], [⟨1⟩, ⟨2⟩, ⟨2⟩]⟩,
    ⟨[], [⟨4⟩, ⟨5⟩], [⟨0⟩, ⟨1⟩, ⟨1⟩, ⟨3⟩], [⟨1⟩]⟩,
    ⟨[], [⟨6⟩], [], [⟨2⟩]⟩]
  fields := #[]
  useChains := ⟨#[[⟨⟨1⟩, 0⟩, ⟨⟨3⟩, 0⟩], [], [⟨⟨4⟩, 0⟩, ⟨⟨4⟩, 1⟩]]⟩
  entry := ⟨0⟩

/-- In `twoEntries`, where a loop is entered at two blocks, the tree answers for walks, and two instructions
are placed. -/
theorem ofGraph_answers_walks_twoEntries :
    twoEntries.Mirrored ∧ twoEntries.entry ∈ twoEntries.blockIds ∧
      twoEntries.Placed ⟨0⟩ ⟨0⟩ 0 ∧ twoEntries.Placed ⟨4⟩ ⟨2⟩ 0 ∧
      ∃ t, ofGraph twoEntries = .ok t ∧ t.Finished twoEntries ∧
        (t.postorder.Nodup ∧ ∀ b, b ∈ t.postorder ↔ ∃ w, twoEntries.Walk w b) ∧
        (∀ a b, t.dominates a b = true ↔ (∃ w, twoEntries.Walk w a) ∧ (∃ w, twoEntries.Walk w b) ∧
          ∀ w, twoEntries.Walk w b → a ∈ w ++ [b]) ∧
        (∀ b, t.idom? b = none ↔ b = twoEntries.entry ∨ ¬ ∃ w, twoEntries.Walk w b) ∧
        (∀ a b, t.idom? b = some a ↔ (a ≠ b ∧ twoEntries.Dominates a b) ∧
          ∀ d, d ≠ b → twoEntries.Dominates d b → twoEntries.Dominates d a) ∧
        ∀ x d m i b n, twoEntries.Placed x d m → twoEntries.Placed i b n → (∃ w, twoEntries.Walk w d) →
          (∃ w, twoEntries.Walk w b) → ∃ r, t.instDominates twoEntries x i = .ok r ∧
            (r = true ↔ ∀ w, twoEntries.Walk w b → x ∈ twoEntries.executed w b n ∨ x = i) := by
  have hg : twoEntries.Consistent := by decide +kernel
  have hplaced : ∀ i b n, twoEntries.At i b n → twoEntries.blockOf i = .ok (some b) →
      twoEntries.Placed i b n := by
    intro i b n hat hblock
    refine ⟨hat, fun b' n' hat' => ⟨?_, (hg.positions_eq hat').symm.trans (hg.positions_eq hat)⟩, hblock⟩
    obtain ⟨block', hb', hi'⟩ := hat'
    have hrec : ∀ c ∈ twoEntries.blockIds, ∀ j ∈ twoEntries.bodyOf c,
        twoEntries.insts[j.index]?.map (·.block) = some (some c) := by decide +kernel
    have hlisted := hrec b' (mem_blockIds_iff.2 ⟨block', hb'⟩) i
      (bodyOf_eq hb' ▸ List.mem_of_getElem? hi')
    obtain ⟨inst, hinst, hblock'⟩ := blockOf_eq_ok.1 hblock
    rw [inst_eq_ok.1 hinst, Option.map_some, Option.some.injEq, hblock'] at hlisted
    exact (Option.some.inj hlisted).symm
  exact ⟨hg.edges, by decide, hplaced _ _ _ ⟨_, rfl, rfl⟩ rfl, hplaced _ _ _ ⟨_, rfl, rfl⟩ rfl,
    ofGraph_answers_walks hg.edges (by decide)⟩

end DomTree

end Midend
