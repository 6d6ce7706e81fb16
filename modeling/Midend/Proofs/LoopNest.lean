import Midend.Flow.Loops
import Midend.Proofs.Dominance

/-!
# Natural loops nest

The loop of a header, stated over paths, and what the loop forest says about it: its back edges are the
edges whose target dominates their source, and going outward from the innermost loop of a block one meets
every loop the block is in.

## Shape of the argument

Two loops with a block in common have headers that both dominate it, so one header dominates the other;
the loop of the dominating header then holds the whole path from the other header to the common block,
and so the other header itself.  The forest takes headers in reverse post-order, where a dominating
header comes first.  Hence the last loop taken that holds a block is its innermost one, and what was
innermost at a header before its own loop was taken is the loop around it.
-/

namespace Midend

namespace Graph

/-- An edge whose target dominates its source. -/
def BackEdge (g : Graph) (source target : BlockId) : Prop :=
  target ∈ g.succs source ∧ g.Dom target source

/-- The loop of a header: the header itself, and what reaches the source of a back edge to it without
passing through it. -/
def InLoop (g : Graph) (header b : BlockId) : Prop :=
  g.Reachable b ∧ ∃ latch, g.BackEdge latch header ∧ (b = header ∨ Path g.succs (· ≠ header) b latch)

variable {g : Graph} {a b h h' p : BlockId}

/-- A header dominates its loop. -/
theorem InLoop.dom (hb : g.InLoop h b) : g.Dom h b := by
  obtain ⟨hreach, latch, hback, rfl | hp⟩ := hb
  · exact .refl hreach
  · exact ⟨hreach, fun hq => hback.2.2 (hq.trans hp)⟩

/-- A latch is in the loop of its header. -/
theorem BackEdge.inLoop (hback : g.BackEdge p h) : g.InLoop h p := by
  refine ⟨hback.2.1, p, hback, ?_⟩
  by_cases hph : p = h
  · exact .inl hph
  · exact .inr (.refl hph)

/-- A loop is entered through its header only. -/
theorem InLoop.pred (hb : g.InLoop h b) (hne : b ≠ h) (hp : g.Reachable p) (hedge : b ∈ g.succs p) :
    g.InLoop h p := by
  obtain ⟨-, latch, hback, rfl | hpath⟩ := hb
  · exact absurd rfl hne
  refine ⟨hp, latch, hback, ?_⟩
  by_cases hph : p = h
  · exact .inl hph
  · exact .inr (.head hph hedge hpath)

/-- Of two loops with a block in common, one holds the header of the other. -/
theorem InLoop.nest (hb : g.InLoop h b) (hb' : g.InLoop h' b) (hne : h ≠ h') (hdom : ¬ g.SDom h' h) :
    g.InLoop h h' := by
  have hdom_h := hb.dom
  have hdom_h' := hb'.dom
  obtain ⟨hreach, latch, hback, rfl | hpath⟩ := hb
  · exact absurd ⟨hdom_h', Ne.symm hne⟩ hdom
  refine ⟨hdom_h'.left, latch, hback, .inr ?_⟩
  rcases Path.avoid_two_or_last hne hreach with hq | hq | hq
  · exact absurd (hq.mono fun _ hx => hx.2.1) hdom_h.2
  · -- a way from `h` to the common block that misses `h'` makes `h'` dominate `h`
    refine absurd ⟨⟨hdom_h.left, fun hr => ?_⟩, Ne.symm hne⟩ hdom
    exact hdom_h'.2 (hr.trans (hq.mono fun _ hx => hx.2))
  · exact (hq.mono fun _ hx => hx.2).trans hpath

end Graph

namespace LoopForest

open Midend.Graph

variable {g : Graph} {t : DomTree} {f : LoopForest} {a b h p : BlockId}

theorem get_marks (bs : List BlockId) (b : BlockId) : (marks bs).get b.index = true ↔ b ∈ bs := by
  have hempty : (Table.empty : Table Bool).get b.index = false := Table.get_empty _
  rw [marks, Table.get_foldl_set BlockId.index_injective fun _ => true, hempty]
  simp

/-- Latches are found where the back edges are. -/
theorem mem_latchesOf (hg : g.Consistent) (ht : DomTree.ofGraph g = .ok t) :
    p ∈ latchesOf g t h ↔ g.BackEdge p h := by
  rw [latchesOf, List.mem_filter, hg.mem_preds_iff, DomTree.dominates_iff hg ht, BackEdge]

/-- The blocks that are collected for a header are those of its loop. -/
theorem mem_bodyOf (hg : g.Consistent) (ht : DomTree.ofGraph g = .ok t) (hback : latchesOf g t h ≠ []) :
    b ∈ bodyOf g t h (latchesOf g t h) ↔ g.InLoop h b := by
  have htargets : ∀ p ∈ latchesOf g t h, p ∈ g.blockIds := by
    intro p hp
    exact mem_blockIds_of_mem_succs ((mem_latchesOf hg ht).1 hp).1
  rw [bodyOf, List.mem_filter, get_marks, List.mem_cons, hg.mem_reaching htargets,
    DomTree.mem_rpo hg ht, InLoop]
  refine and_congr_right fun _ => ?_
  constructor
  · rintro (rfl | ⟨p, hp, hpath⟩)
    · obtain ⟨p, hp⟩ := List.exists_mem_of_ne_nil _ hback
      exact ⟨p, (mem_latchesOf hg ht).1 hp, .inl rfl⟩
    · exact ⟨p, (mem_latchesOf hg ht).1 hp, .inr (hpath.mono fun _ hx => by simpa using hx)⟩
  · rintro ⟨p, hp, rfl | hpath⟩
    · exact .inl rfl
    · exact .inr ⟨p, (mem_latchesOf hg ht).2 hp, hpath.mono fun _ hx => by simpa using hx⟩

/-! ## The forest, header by header -/

/-- Does the loop with this number hold a block? -/
def Holds (loops : Array Loop) (n : Nat) (b : BlockId) : Prop :=
  ∃ loop, loops[n]? = some loop ∧ b ∈ loop.blocks

/-- The last of the first `n` loops that hold a block. -/
def IsLast (loops : Array Loop) (n : Nat) (b : BlockId) : Option LoopId → Prop
  | none => ∀ m < n, ¬ Holds loops m b
  | some l => l.index < n ∧ Holds loops l.index b ∧ ∀ m < n, Holds loops m b → m ≤ l.index

/-- The forest after some blocks have been taken into account, in order. -/
structure Built (g : Graph) (t : DomTree) (done : List BlockId) (f : LoopForest) : Prop where
  headers : f.loops.toList.map (·.header) = done.filter fun h => latchesOf g t h ≠ []
  latches : ∀ (n : Nat) loop, f.loops[n]? = some loop → loop.latches = latchesOf g t loop.header
  blocks : ∀ (n : Nat) loop, f.loops[n]? = some loop →
    loop.blocks = bodyOf g t loop.header (latchesOf g t loop.header)
  parent : ∀ (n : Nat) loop, f.loops[n]? = some loop → IsLast f.loops n loop.header loop.parent
  innermost : ∀ b, IsLast f.loops f.loops.size b (f.innermost? b)
  header_loop : ∀ h l, f.loopOfHeader? h = some l ↔ ∃ loop, f.loops[l.index]? = some loop ∧ loop.header = h

theorem Built.empty : Built g t [] .empty where
  headers := rfl
  latches := by simp [LoopForest.empty]
  blocks := by simp [LoopForest.empty]
  parent := by simp [LoopForest.empty]
  innermost b := by
    have hempty : LoopForest.empty.innermost? b = none := Table.get_empty _
    rw [hempty]
    simp [IsLast, LoopForest.empty]
  header_loop h l := by
    have hempty : LoopForest.empty.loopOfHeader? h = none := Table.get_empty _
    rw [hempty]
    simp [LoopForest.empty]

/-- One more loop holds its own blocks. -/
theorem holds_push {loops : Array Loop} {loop : Loop} {n : Nat} {b : BlockId} :
    Holds (loops.push loop) n b ↔ Holds loops n b ∨ (n = loops.size ∧ b ∈ loop.blocks) := by
  simp only [Holds, Array.getElem?_push]
  split
  · next hn =>
    subst hn
    simp
  · next hn => simp [hn]

theorem Holds.lt {loops : Array Loop} {n : Nat} {b : BlockId} (h : Holds loops n b) : n < loops.size := by
  obtain ⟨loop, hloop, -⟩ := h
  exact (Array.getElem?_eq_some_iff.1 hloop).1

/-- A new loop changes nothing about the first ones. -/
theorem IsLast.push {loops : Array Loop} {loop : Loop} {n : Nat} {b : BlockId} {o : Option LoopId}
    (h : IsLast loops n b o) (hn : n ≤ loops.size) : IsLast (loops.push loop) n b o := by
  have hsame : ∀ m < n, (Holds (loops.push loop) m b ↔ Holds loops m b) := by
    intro m hm
    rw [holds_push]
    constructor
    · rintro (hb | ⟨rfl, -⟩)
      · exact hb
      · omega
    · exact .inl
  cases o with
  | none => exact fun m hm hb => h m hm ((hsame m hm).1 hb)
  | some l => exact ⟨h.1, (hsame _ h.1).2 h.2.1, fun m hm hb => h.2.2 m hm ((hsame m hm).1 hb)⟩

/-- The blocks of a new loop have it as their last one, the other blocks keep theirs. -/
theorem IsLast.push_size {loops : Array Loop} {loop : Loop} {b : BlockId} {o : Option LoopId}
    (h : IsLast loops loops.size b o) :
    IsLast (loops.push loop) (loops.push loop).size b
      (if b ∈ loop.blocks then some ⟨loops.size⟩ else o) := by
  split
  · next hb =>
    refine ⟨by simp, holds_push.2 (.inr ⟨rfl, hb⟩), fun m hm _ => ?_⟩
    rw [Array.size_push] at hm
    exact Nat.le_of_lt_succ hm
  · next hb =>
    have hsame : ∀ m, Holds (loops.push loop) m b ↔ Holds loops m b := by
      intro m
      rw [holds_push]
      tauto
    cases o with
    | none =>
      intro m _ hm
      rw [hsame] at hm
      exact h m hm.lt hm
    | some l =>
      refine ⟨by rw [Array.size_push]; exact Nat.lt_succ_of_lt h.1, (hsame _).2 h.2.1, fun m _ hm => ?_⟩
      rw [hsame] at hm
      exact h.2.2 m hm.lt hm

/-- Adding a loop makes it the innermost one of its blocks. -/
theorem get_innermost_push {blocks : List BlockId} {id : LoopId} {u : Table (Option LoopId)} :
    (blocks.foldl (fun u b => u.set b.index (some id)) u).get b.index =
      if b ∈ blocks then some id else u.get b.index :=
  Table.get_foldl_set BlockId.index_injective (fun _ => some id) blocks u b

/-- A question about one loop of a larger forest is one about an old loop or about the new one. -/
theorem getElem?_push_eq_some {loops : Array Loop} {loop loop' : Loop} {n : Nat} :
    (loops.push loop)[n]? = some loop' ↔ loops[n]? = some loop' ∨ (n = loops.size ∧ loop' = loop) := by
  rw [Array.getElem?_push]
  split
  · next hn =>
    subst hn
    simp [eq_comm]
  · next hn => simp [hn]

/-- One more header adds its loop, if it has latches. -/
theorem Built.addHeader {done : List BlockId} (hf : Built g t done f) (hh : h ∉ done) :
    Built g t (done ++ [h]) (addHeader g t f h) := by
  have hnew : ∀ (n : Nat) loop, f.loops[n]? = some loop → loop.header ≠ h := by
    rintro n loop hloop rfl
    have hmem : loop.header ∈ f.loops.toList.map (·.header) :=
      List.mem_map_of_mem (Array.mem_toList_iff.2 (Array.mem_of_getElem? hloop))
    rw [hf.headers] at hmem
    exact hh (List.mem_filter.1 hmem).1
  unfold LoopForest.addHeader
  split
  · next hnil =>
    refine ⟨?_, hf.latches, hf.blocks, hf.parent, hf.innermost, hf.header_loop⟩
    rw [List.filter_append, hf.headers]
    simp [hnil]
  · next latches hlatches =>
    have hne : latchesOf g t h ≠ [] := hlatches
    refine { headers := ?headers, latches := ?latches, blocks := ?blocks, parent := ?parent,
             innermost := ?innermost, header_loop := ?header_loop }
    case headers =>
      simp only [Array.toList_push, List.map_append, hf.headers, List.filter_append, List.map_cons,
        List.map_nil]
      simp [hne]
    case latches =>
      intro n loop hn
      obtain hn | ⟨-, rfl⟩ := getElem?_push_eq_some.1 hn
      · exact hf.latches n loop hn
      · rfl
    case blocks =>
      intro n loop hn
      obtain hn | ⟨-, rfl⟩ := getElem?_push_eq_some.1 hn
      · exact hf.blocks n loop hn
      · rfl
    case parent =>
      intro n loop hn
      obtain hn | ⟨rfl, rfl⟩ := getElem?_push_eq_some.1 hn
      · exact (hf.parent n loop hn).push (Nat.le_of_lt (Array.getElem?_eq_some_iff.1 hn).1)
      · exact (hf.innermost h).push (Nat.le_refl _)
    case innermost =>
      intro b
      rw [innermost?, get_innermost_push]
      exact (hf.innermost b).push_size
    case header_loop =>
      intro h' l
      simp only [loopOfHeader?, Table.get_set, BlockId.index_inj, getElem?_push_eq_some]
      split
      · next hh' =>
        subst hh'
        rw [Option.some.injEq]
        constructor
        · rintro rfl
          exact ⟨_, .inr ⟨rfl, rfl⟩, rfl⟩
        · rintro ⟨loop, hl | ⟨hsize, -⟩, hheader⟩
          · exact absurd hheader (hnew _ loop hl)
          · rw [← hsize]
      · next hh' =>
        refine (hf.header_loop h' l).trans ?_
        constructor
        · rintro ⟨loop, hl, hheader⟩
          exact ⟨loop, .inl hl, hheader⟩
        · rintro ⟨loop, hl | ⟨-, rfl⟩, hheader⟩
          · exact ⟨loop, hl, hheader⟩
          · exact absurd hheader.symm hh'

/-- The forest is built from the headers in the order of the search. -/
theorem built_ofGraph (ht : DomTree.ofGraph g = .ok t) : Built g t t.rpo (ofGraph g t) := by
  have key : ∀ (rest done : List BlockId) (f : LoopForest), (done ++ rest).Nodup → Built g t done f →
      Built g t (done ++ rest) (rest.foldl (addHeader g t) f) := by
    intro rest
    induction rest with
    | nil =>
      intro done f _ hf
      simpa using hf
    | cons h rest ih =>
      intro done f hnodup hf
      have hh : h ∉ done := by
        intro hmem
        exact (List.nodup_append.1 hnodup).2.2 h hmem h (by simp) rfl
      rw [List.foldl_cons, show done ++ h :: rest = (done ++ [h]) ++ rest by simp]
      exact ih _ _ (by simpa using hnodup) (hf.addHeader hh)
  exact key t.rpo [] .empty (DomTree.nodup_rpo ht) .empty

/-! ## What the forest answers -/

/-- Back edges are recognized. -/
theorem isBackEdge_iff (hg : g.Consistent) (ht : DomTree.ofGraph g = .ok t) :
    (ofGraph g t).isBackEdge p h = true ↔ g.BackEdge p h := by
  have hf := built_ofGraph ht
  rw [isBackEdge]
  cases hl : (ofGraph g t).loopOfHeader? h with
  | none =>
    simp only [Bool.false_eq_true, false_iff]
    intro hback
    have hmem : h ∈ (ofGraph g t).loops.toList.map (·.header) := by
      rw [hf.headers, List.mem_filter]
      refine ⟨(DomTree.mem_rpo hg ht).2 hback.2.left, ?_⟩
      exact decide_eq_true (List.ne_nil_of_mem ((mem_latchesOf hg ht).2 hback))
    obtain ⟨loop, hloop, hheader⟩ := List.mem_map.1 hmem
    obtain ⟨n, hn⟩ := Array.mem_iff_getElem?.1 (Array.mem_toList_iff.1 hloop)
    have hsome := (hf.header_loop h ⟨n⟩).2 ⟨loop, hn, hheader⟩
    rw [hl] at hsome
    cases hsome
  | some l =>
    obtain ⟨loop, hloop, rfl⟩ := (hf.header_loop h l).1 hl
    simp only [hloop, Option.map_some, Option.getD_some, List.contains_iff_mem, hf.latches _ _ hloop,
      mem_latchesOf hg ht]

/-- What a back edge leads to heads a loop of the forest. -/
theorem isHeader_of_backEdge (hg : g.Consistent) (ht : DomTree.ofGraph g = .ok t)
    (hback : g.BackEdge p h) : ∃ l loop, (ofGraph g t).loopOfHeader? h = some l ∧
      (ofGraph g t).loops[l.index]? = some loop ∧ loop.header = h := by
  have hback' := (isBackEdge_iff hg ht).2 hback
  rw [isBackEdge] at hback'
  cases hl : (ofGraph g t).loopOfHeader? h with
  | none => simp [hl] at hback'
  | some l =>
    obtain ⟨loop, hloop, hheader⟩ := ((built_ofGraph ht).header_loop h l).1 hl
    exact ⟨l, loop, rfl, hloop, hheader⟩

/-- Only what has latches heads a loop. -/
theorem latchesOf_ne_nil (ht : DomTree.ofGraph g = .ok t) {n : Nat} {loop : Loop}
    (hn : (ofGraph g t).loops[n]? = some loop) : latchesOf g t loop.header ≠ [] := by
  have hmem : loop.header ∈ (ofGraph g t).loops.toList.map (·.header) :=
    List.mem_map_of_mem (Array.mem_toList_iff.2 (Array.mem_of_getElem? hn))
  rw [(built_ofGraph ht).headers, List.mem_filter] at hmem
  simpa using hmem.2

/-- A loop of the forest has the blocks of the loop of its header. -/
theorem mem_blocks (hg : g.Consistent) (ht : DomTree.ofGraph g = .ok t) {n : Nat} {loop : Loop}
    (hn : (ofGraph g t).loops[n]? = some loop) : b ∈ loop.blocks ↔ g.InLoop loop.header b := by
  rw [(built_ofGraph ht).blocks n loop hn, mem_bodyOf hg ht (latchesOf_ne_nil ht hn)]

/-- Of two loops that hold a block, the one with the smaller number holds the header of the other. -/
theorem holds_header (hg : g.Consistent) (ht : DomTree.ofGraph g = .ok t) {m n : Nat} {loop : Loop}
    (hmn : m < n) (hn : (ofGraph g t).loops[n]? = some loop) (hm : Holds (ofGraph g t).loops m b)
    (hb : b ∈ loop.blocks) : Holds (ofGraph g t).loops m loop.header := by
  obtain ⟨outer, houter, hbo⟩ := hm
  refine ⟨outer, houter, ?_⟩
  rw [mem_blocks hg ht houter] at hbo ⊢
  rw [mem_blocks hg ht hn] at hb
  -- headers stand in reverse post-order, each once
  have horder := (DomTree.pairwise_rpo ht).filter fun h => latchesOf g t h ≠ []
  have hnodup := (DomTree.nodup_rpo ht).filter fun h => latchesOf g t h ≠ []
  rw [← (built_ofGraph ht).headers] at horder hnodup
  have hgetm : ((ofGraph g t).loops.toList.map (·.header))[m]? = some outer.header := by simp [houter]
  have hgetn : ((ofGraph g t).loops.toList.map (·.header))[n]? = some loop.header := by simp [hn]
  obtain ⟨hltm, hgetm⟩ := List.getElem?_eq_some_iff.1 hgetm
  obtain ⟨hltn, hgetn⟩ := List.getElem?_eq_some_iff.1 hgetn
  have hnot := List.pairwise_iff_getElem.1 horder m n hltm hltn hmn
  have hneq := List.pairwise_iff_getElem.1 hnodup m n hltm hltn hmn
  rw [hgetm, hgetn] at hnot hneq
  exact hbo.nest hb hneq hnot

/-- Going outward from a loop goes through the loops around it. -/
theorem mem_outward (hg : g.Consistent) (ht : DomTree.ofGraph g = .ok t) {m n : Nat} {loop : Loop}
    (hn : (ofGraph g t).loops[n]? = some loop)
    (hm : m = n ∨ (m < n ∧ Holds (ofGraph g t).loops m loop.header)) :
    ⟨m⟩ ∈ (ofGraph g t).outward ⟨n⟩ := by
  induction n using Nat.strongRecOn generalizing loop with
  | ind n ih =>
    have hparent := (built_ofGraph ht).parent n loop hn
    rw [outward, hn]
    simp only
    cases hp : loop.parent with
    | none =>
      rw [hp] at hparent
      simp only
      rcases hm with rfl | ⟨hmn, hm⟩
      · simp
      · exact absurd hm (hparent m hmn)
    | some p =>
      rw [hp] at hparent
      obtain ⟨hpn, ⟨outer, houter, hhold⟩, hlast⟩ := hparent
      simp only [if_pos hpn, List.mem_cons]
      rcases hm with rfl | ⟨hmn, hm⟩
      · exact .inl rfl
      refine .inr (ih p.index hpn houter ?_)
      rcases Nat.eq_or_lt_of_le (hlast m hmn hm) with hmp | hmp
      · exact .inl hmp
      · exact .inr ⟨hmp, holds_header hg ht hmp houter hm hhold⟩

/-- Going outward from a block one meets every loop the block is in. -/
theorem mem_enclosing (hg : g.Consistent) (ht : DomTree.ofGraph g = .ok t) {n : Nat} {loop : Loop}
    (hn : (ofGraph g t).loops[n]? = some loop) (hb : g.InLoop loop.header b) :
    ⟨n⟩ ∈ (ofGraph g t).enclosing b := by
  have hhold : Holds (ofGraph g t).loops n b := ⟨loop, hn, (mem_blocks hg ht hn).2 hb⟩
  have hinner := (built_ofGraph ht).innermost b
  rw [enclosing]
  cases hl : (ofGraph g t).innermost? b with
  | none =>
    rw [hl] at hinner
    exact absurd hhold (hinner n hhold.lt)
  | some l =>
    rw [hl] at hinner
    obtain ⟨hlt, ⟨inner, hget, hbi⟩, hlast⟩ := hinner
    refine mem_outward hg ht hget ?_
    rcases Nat.eq_or_lt_of_le (hlast n hhold.lt hhold) with heq | hlt
    · exact .inl heq
    · exact .inr ⟨hlt, holds_header hg ht hlt hget hhold hbi⟩

end LoopForest

end Midend
