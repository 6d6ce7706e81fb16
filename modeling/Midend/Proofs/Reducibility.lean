import Mathlib.Logic.Relation
import Midend.Proofs.VisitingOrder

/-!
# Irreducible flow is a cycle of forward edges

Flow is reducible when the edges that are not back edges form no cycle.  That is a property of the graph
alone, while the loop forest looks at the numbers of one depth-first search: it reports irreducible flow
when an edge that is not a back edge goes back in reverse post-order.  The two are the same, so the answer
does not depend on the order in which the search takes the successors of a block.

## Shape of the argument

If no edge is reported, the numbers grow along every forward edge, and there is no cycle.

For the converse take an edge that goes back in reverse post-order.  Its target was finished after its
source, so the source was found while the target was being visited, and the branch of the search tree from
the one to the other goes forward in reverse post-order all the way.  An edge that goes forward in that
order is never a back edge, because what dominates a block comes before it.  So the branch and the edge
close a cycle of forward edges.  `Rooted` carries the branches through the search.
-/

namespace Midend

/-- A path along some edges is a path along more of them. -/
theorem Path.mono_edges {next next' : BlockId → List BlockId} {ok : BlockId → Prop} {a b : BlockId}
    (hnext : ∀ x y, y ∈ next x → y ∈ next' x) (h : Path next ok a b) : Path next' ok a b := by
  induction h with
  | refl ha => exact .refl ha
  | tail _ hc hok ih => exact ih.tail (hnext _ _ hc) hok

/-- Of two members of an append in a row, both are on one side, or each is on its own. -/
theorem pair_sublist_append {x y : BlockId} {l l' : List BlockId} (h : [x, y].Sublist (l ++ l')) :
    [x, y].Sublist l ∨ (x ∈ l ∧ y ∈ l') ∨ [x, y].Sublist l' := by
  induction l with
  | nil => exact .inr (.inr h)
  | cons z l ih =>
    rcases List.sublist_cons_iff.1 h with h | ⟨r, heq, hr⟩
    · rcases ih h with h | ⟨hx, hy⟩ | h
      · exact .inl (h.cons z)
      · exact .inr (.inl ⟨List.mem_cons_of_mem z hx, hy⟩)
      · exact .inr (.inr h)
    · obtain ⟨rfl, rfl⟩ := List.cons_eq_cons.1 heq
      rcases List.mem_append.1 (List.singleton_sublist.1 hr) with hy | hy
      · exact .inl ((List.singleton_sublist.2 hy).cons_cons x)
      · exact .inr (.inl ⟨List.mem_cons_self, hy⟩)

theorem pair_sublist_of_getElem? {x y : BlockId} {l : List BlockId} {m n : Nat} (hm : l[m]? = some x)
    (hn : l[n]? = some y) (hmn : m < n) : [x, y].Sublist l := by
  obtain ⟨hlt, rfl⟩ := List.getElem?_eq_some_iff.1 hm
  have hy : y ∈ l.drop (m + 1) := by
    apply List.mem_of_getElem? (i := n - (m + 1))
    rw [List.getElem?_drop, Nat.add_sub_cancel' hmn, hn]
  have hdrop : l.drop m = l[m] :: l.drop (m + 1) := List.drop_eq_getElem_cons hlt
  have hpair : [l[m], y].Sublist (l.drop m) := hdrop ▸ (List.singleton_sublist.2 hy).cons_cons _
  exact hpair.trans (List.drop_sublist m l)

namespace Search

open Relation

variable {next : BlockId → List BlockId} {roots roots' new new' : List BlockId} {s s' s'' : Search}
  {a b c p : BlockId}

/-- An edge that goes forward in the order of a search, where the block finished last comes first. -/
def Ahead (next : BlockId → List BlockId) (order : List BlockId) (a b : BlockId) : Prop :=
  b ∈ next a ∧ [a, b].Sublist order

/-- The order of a search has branches: forward edges lead from a root to every block, and back along
every edge that goes backward. -/
structure Rooted (next : BlockId → List BlockId) (roots new : List BlockId) : Prop where
  branch : ∀ p ∈ new, ∃ a ∈ roots, a ∈ new ∧ ReflTransGen (Ahead next new) a p
  retreat : ∀ c p, c ∈ next p → [c, p].Sublist new → ReflTransGen (Ahead next new) c p

theorem Rooted.nil : Rooted next roots [] where
  branch := by simp
  retreat _ _ _ h := by simp at h

/-- A longer order keeps the forward edges. -/
theorem reflTransGen_ahead_mono (hsub : new.Sublist new') (h : ReflTransGen (Ahead next new) a b) :
    ReflTransGen (Ahead next new') a b :=
  ReflTransGen.mono (fun _ _ hab => ⟨hab.1, hab.2.trans hsub⟩) _ _ h

/-- What a search adds is determined. -/
theorem Grown.unique (h : Grown next roots s new s') (h' : Grown next roots' s new' s') : new = new' :=
  List.append_cancel_right (h.done_eq.symm.trans h'.done_eq)

/-- Two searches one after the other.  No edge leads from what the first one found to what the second one
found, since the first one missed nothing. -/
theorem Rooted.append (h : Rooted next roots new) (hc : Complete next roots new s')
    (hg' : Grown next roots' s' new' s'') (h' : Rooted next roots' new') :
    Rooted next (roots ++ roots') (new' ++ new) where
  branch p hp := by
    rcases List.mem_append.1 hp with hp | hp
    · obtain ⟨a, ha, hnew, hpath⟩ := h'.branch p hp
      exact ⟨a, List.mem_append_right _ ha, List.mem_append_left _ hnew,
        reflTransGen_ahead_mono (List.sublist_append_left _ _) hpath⟩
    · obtain ⟨a, ha, hnew, hpath⟩ := h.branch p hp
      exact ⟨a, List.mem_append_left _ ha, List.mem_append_right _ hnew,
        reflTransGen_ahead_mono (List.sublist_append_right _ _) hpath⟩
  retreat c p hedge hsub := by
    rcases pair_sublist_append hsub with hsub | ⟨hc', hp⟩ | hsub
    · exact reflTransGen_ahead_mono (List.sublist_append_left _ _) (h'.retreat c p hedge hsub)
    · exact absurd (hc.next_seen p hp c hedge) (hg'.fresh c hc')
    · exact reflTransGen_ahead_mono (List.sublist_append_right _ _) (h.retreat c p hedge hsub)

/-- A block is finished after everything found from the blocks next to it, so it stands before all that. -/
theorem Rooted.visit (h : Rooted next (next b) new) : Rooted next [b] (b :: new) := by
  have hbranch : ∀ p ∈ b :: new, ReflTransGen (Ahead next (b :: new)) b p := by
    intro p hp
    rcases List.mem_cons.1 hp with rfl | hp
    · exact .refl
    · obtain ⟨a, ha, hnew, hpath⟩ := h.branch p hp
      have hfirst : Ahead next (b :: new) b a :=
        ⟨ha, (List.singleton_sublist.2 hnew).cons_cons b⟩
      exact .head hfirst (reflTransGen_ahead_mono (List.sublist_cons_self b new) hpath)
  refine ⟨fun p hp => ⟨b, by simp, by simp, hbranch p hp⟩, fun c p hedge hsub => ?_⟩
  rcases List.sublist_cons_iff.1 hsub with hsub | ⟨r, heq, hr⟩
  · exact reflTransGen_ahead_mono (List.sublist_cons_self b new) (h.retreat c p hedge hsub)
  · obtain ⟨rfl, rfl⟩ := List.cons_eq_cons.1 heq
    exact hbranch p (List.mem_cons_of_mem _ (List.singleton_sublist.1 hr))

/-- The order of a search that comes to an end has branches. -/
theorem Runs.rooted (h : Runs next roots s s') (hg : Grown next roots s new s') : Rooted next roots new := by
  induction h generalizing new with
  | @done s =>
    rw [hg.unique (.same [] s)]
    exact .nil
  | @skip b bs s s' hb hrest ih =>
    obtain ⟨new', hg', -⟩ := hrest.complete
    rw [hg.unique ((Grown.same [b] s).append hg')]
    have hskip : Complete next [b] [] s := ⟨by simpa using hb, by simp⟩
    exact Rooted.nil.append hskip hg' (ih hg')
  | @enter b bs s s₁ s' hb hbelow hrest ih ih' =>
    obtain ⟨new₁, hg₁, -⟩ := hbelow.complete
    obtain ⟨new₂, hg₂, -⟩ := hrest.complete
    have hvisit : Runs next [b] s { s₁ with done := b :: s₁.done } := .enter hb hbelow .done
    obtain ⟨new', hg', hc'⟩ := hvisit.complete
    rw [hg'.unique (hg₁.visit hb)] at hc'
    rw [hg.unique ((hg₁.visit hb).append hg₂)]
    exact (ih hg₁).visit.append hc' hg₂ (ih' hg₂)

end Search

namespace Graph

open Relation

variable {g g' : Graph} {a b p : BlockId}

/-- An edge between reachable blocks that is not a back edge. -/
def ForwardEdge (g : Graph) (source target : BlockId) : Prop :=
  g.Reachable source ∧ target ∈ g.succs source ∧ ¬ g.Dom target source

/-- Which edges are forward edges depends on the entry and the edges alone. -/
theorem forwardEdge_congr (hentry : g'.entry = g.entry) (hsuccs : ∀ a b, b ∈ g'.succs a ↔ b ∈ g.succs a) :
    g'.ForwardEdge = g.ForwardEdge := by
  have hpath : ∀ ok x, Path g'.succs ok g'.entry x ↔ Path g.succs ok g.entry x := by
    intro ok x
    rw [hentry]
    exact ⟨fun h => h.mono_edges fun _ _ hy => (hsuccs _ _).1 hy,
      fun h => h.mono_edges fun _ _ hy => (hsuccs _ _).2 hy⟩
  funext a b
  simp only [ForwardEdge, Dom, Reachable, hpath, hsuccs]

end Graph

namespace LoopForest

open Midend.Graph Relation

variable {g : Graph} {t : DomTree} {a b p : BlockId}

/-- A forward edge in reverse post-order is never a back edge. -/
theorem forwardEdge_of_ahead (hg : g.Consistent) (ht : DomTree.ofGraph g = .ok t)
    (h : Search.Ahead g.succs t.rpo a b) : g.ForwardEdge a b := by
  have ha : a ∈ t.rpo := h.2.subset (by simp)
  have horder := ((DomTree.pairwise_rpo ht).and (DomTree.nodup_rpo ht)).sublist h.2
  have hab := (List.pairwise_cons.1 horder).1 b (by simp)
  exact ⟨(DomTree.mem_rpo hg ht).1 ha, h.1, fun hdom => hab.1 ⟨hdom, hab.2.symm⟩⟩

/-- Forward edges lead back along every edge that goes backward in reverse post-order. -/
theorem reflTransGen_of_retreat (hg : g.Consistent) (ht : DomTree.ofGraph g = .ok t)
    (hedge : b ∈ g.succs p) (hsub : [b, p].Sublist t.rpo) : ReflTransGen g.ForwardEdge b p := by
  obtain ⟨s, hruns, hdone⟩ := hg.exists_runs_reachable (DomTree.entry_mem_of_ofGraph ht)
  obtain ⟨new, hgrown, -⟩ := hruns.complete
  have hnew : t.rpo = new := by
    rw [DomTree.rpo_eq ht, ← hdone, hgrown.done_eq]
    exact List.append_nil new
  subst hnew
  have hrooted := hruns.rooted hgrown
  exact ReflTransGen.mono (fun _ _ => forwardEdge_of_ahead hg ht) _ _ (hrooted.retreat b p hedge hsub)

/-- In reducible flow the numbers in reverse post-order grow along forward edges. -/
theorem rpoNumber?_lt_of_transGen (hg : g.Consistent) (ht : DomTree.ofGraph g = .ok t)
    (hred : (ofGraph g t).isIrreducible = false) (h : TransGen g.ForwardEdge a b) :
    ∃ m n, t.rpoNumber? a = some m ∧ t.rpoNumber? b = some n ∧ m < n := by
  have hstep : ∀ {x y}, g.ForwardEdge x y →
      ∃ m n, t.rpoNumber? x = some m ∧ t.rpoNumber? y = some n ∧ m < n := by
    intro x y hxy
    obtain ⟨m, n, hm, hn, hmn⟩ := rpo_lt_of_reducible hg ht hred hxy.1 hxy.2.1 hxy.2.2
    exact ⟨m, n, (DomTree.rpoNumber?_eq ht m).2 hm, (DomTree.rpoNumber?_eq ht n).2 hn, hmn⟩
  induction h with
  | single hab => exact hstep hab
  | tail _ hbc ih =>
    obtain ⟨m, n, hm, hn, hmn⟩ := ih
    obtain ⟨n', k, hn', hk, hnk⟩ := hstep hbc
    obtain rfl := Option.some.inj (hn.symm.trans hn')
    exact ⟨m, k, hm, hk, Nat.lt_trans hmn hnk⟩

/-- An edge that is reported closes a cycle of forward edges. -/
theorem transGen_of_isIrreducibleEdge (hg : g.Consistent) (ht : DomTree.ofGraph g = .ok t)
    (hp : p ∈ g.preds b) (hedge : isIrreducibleEdge t p b = true) : TransGen g.ForwardEdge p p := by
  have hsucc := hg.mem_preds_iff.1 hp
  simp only [isIrreducibleEdge, Bool.and_eq_true, Bool.not_eq_true', decide_eq_true_eq] at hedge
  obtain ⟨⟨hreach, hdom⟩, hle⟩ := hedge
  rw [DomTree.isReachable_iff hg ht] at hreach
  rw [Bool.eq_false_iff, ne_eq, DomTree.dominates_iff hg ht] at hdom
  obtain ⟨m, hm⟩ := List.mem_iff_getElem?.1 ((DomTree.mem_rpo hg ht).2 hreach)
  obtain ⟨n, hn⟩ := List.mem_iff_getElem?.1 ((DomTree.mem_rpo hg ht).2 (hreach.succ hsucc))
  rw [(DomTree.rpoNumber?_eq ht m).2 hm, (DomTree.rpoNumber?_eq ht n).2 hn] at hle
  have hne : n ≠ m := by
    rintro rfl
    obtain rfl := Option.some.inj (hm.symm.trans hn)
    exact hdom (.refl hreach)
  have hback := reflTransGen_of_retreat hg ht hsucc
    (pair_sublist_of_getElem? hn hm (Nat.lt_of_le_of_ne hle hne))
  exact .head' ⟨hreach, hsucc, hdom⟩ hback

/-- A forest is irreducible unless the forward edges are without a cycle. -/
theorem isIrreducible_eq_false_iff (hg : g.Consistent) (ht : DomTree.ofGraph g = .ok t) :
    (ofGraph g t).isIrreducible = false ↔ ∀ b, ¬ TransGen g.ForwardEdge b b := by
  constructor
  · intro hred b hcycle
    obtain ⟨m, n, hm, hn, hmn⟩ := rpoNumber?_lt_of_transGen hg ht hred hcycle
    obtain rfl := Option.some.inj (hm.symm.trans hn)
    exact Nat.lt_irrefl m hmn
  · intro hacyclic
    rw [isIrreducible_ofGraph, List.any_eq_false]
    intro b _
    rw [Bool.not_eq_true, List.any_eq_false]
    intro p hp hedge
    exact hacyclic p (transGen_of_isIrreducibleEdge hg ht hp hedge)

/-- The same for graphs of which nothing is known but their edges. -/
theorem exists_isIrreducible_iff (hg : g.Mirrored) (hentry : g.entry ∈ g.blockIds) :
    ∃ t, DomTree.ofGraph g = .ok t ∧
      ((ofGraph g t).isIrreducible = false ↔ ∀ b, ¬ TransGen g.ForwardEdge b b) := by
  obtain ⟨t, ht⟩ := DomTree.ofGraph_eq_ok (g := g.skeleton) (by simpa [mem_blockIds, skeleton] using hentry)
  have hloops : ofGraph g.skeleton t = ofGraph g t :=
    ofGraph_congr t (by simp [skeleton]) preds_skeleton
  have hedges : g.skeleton.ForwardEdge = g.ForwardEdge :=
    forwardEdge_congr rfl fun a b => by rw [succs_skeleton]
  refine ⟨t, ofGraph_skeleton ht, ?_⟩
  rw [← hloops, ← hedges]
  exact isIrreducible_eq_false_iff hg.consistent_skeleton ht

/-- Flow is reported as reducible exactly when the edges between reachable blocks whose target does not
dominate their source form no cycle.  So graphs with the same entry and the same edges, listed in whatever
order and however often, get the same answer. -/
theorem reducible_iff_forward_edges_acyclic (hg : g.Mirrored) (hentry : g.entry ∈ g.blockIds) :
    ∃ t, DomTree.ofGraph g = .ok t ∧
      ((ofGraph g t).isIrreducible = false ↔ ∀ b, ¬ TransGen g.ForwardEdge b b) ∧
      ∀ g' : Graph, g'.Mirrored → g'.entry ∈ g'.blockIds → g'.entry = g.entry →
        (∀ a b, b ∈ g'.succs a ↔ b ∈ g.succs a) →
        ∃ t', DomTree.ofGraph g' = .ok t' ∧
          (ofGraph g' t').isIrreducible = (ofGraph g t).isIrreducible := by
  obtain ⟨t, ht, hiff⟩ := exists_isIrreducible_iff hg hentry
  refine ⟨t, ht, hiff, fun g' hg' hentry' hsame hsuccs => ?_⟩
  obtain ⟨t', ht', hiff'⟩ := exists_isIrreducible_iff hg' hentry'
  refine ⟨t', ht', ?_⟩
  rw [forwardEdge_congr hsame hsuccs, ← hiff] at hiff'
  exact Bool.eq_iff_iff.2 (by simpa using not_congr hiff')

/-- The loop with two entries again: its successors are listed in another order, and no edge twice. -/
def twoEntriesRelisted : Graph :=
  { DomTree.twoEntries with
    blocks := #[
      ⟨[], [⟨0⟩, ⟨1⟩], [], [⟨2⟩, ⟨1⟩]⟩,
      ⟨[], [⟨2⟩, ⟨3⟩], [⟨0⟩, ⟨2⟩, ⟨1⟩], [⟨2⟩, ⟨1⟩]⟩,
      ⟨[], [⟨4⟩, ⟨5⟩], [⟨0⟩, ⟨1⟩, ⟨3⟩], [⟨1⟩]⟩,
      ⟨[], [⟨6⟩], [], [⟨2⟩]⟩] }

/-- `twoEntries` and the same graph with its edges in another order are irreducible, whichever order the
search takes. -/
theorem reducible_iff_forward_edges_acyclic_twoEntries :
    DomTree.twoEntries.Mirrored ∧ twoEntriesRelisted.Mirrored ∧
      (∀ a b, b ∈ twoEntriesRelisted.succs a ↔ b ∈ DomTree.twoEntries.succs a) ∧
      ∃ t t', DomTree.ofGraph DomTree.twoEntries = .ok t ∧ DomTree.ofGraph twoEntriesRelisted = .ok t' ∧
        t.rpo = [⟨0⟩, ⟨1⟩, ⟨2⟩] ∧ t'.rpo = [⟨0⟩, ⟨2⟩, ⟨1⟩] ∧
        (ofGraph DomTree.twoEntries t).isIrreducible = true ∧
        (ofGraph twoEntriesRelisted t').isIrreducible = true ∧
        ∃ b, TransGen DomTree.twoEntries.ForwardEdge b b := by
  have hg : DomTree.twoEntries.Consistent := by decide +kernel
  have hg' : twoEntriesRelisted.Consistent := by decide +kernel
  have hsuccs : ∀ a b, b ∈ twoEntriesRelisted.succs a ↔ b ∈ DomTree.twoEntries.succs a := by
    have hto : ∀ a ∈ twoEntriesRelisted.blockIds, ∀ b ∈ twoEntriesRelisted.succs a,
        b ∈ DomTree.twoEntries.succs a := by decide
    have hof : ∀ a ∈ DomTree.twoEntries.blockIds, ∀ b ∈ DomTree.twoEntries.succs a,
        b ∈ twoEntriesRelisted.succs a := by decide
    exact fun a b => ⟨fun hb => hto a (mem_blockIds_of_mem_succs hb) b hb,
      fun hb => hof a (mem_blockIds_of_mem_succs hb) b hb⟩
  obtain ⟨t, ht, hiff, horder⟩ := reducible_iff_forward_edges_acyclic hg.edges (by decide)
  obtain ⟨t', ht', hsame⟩ := horder twoEntriesRelisted hg'.edges (by decide) rfl hsuccs
  have hrun : (do
      let t ← DomTree.ofGraph DomTree.twoEntries
      let t' ← DomTree.ofGraph twoEntriesRelisted
      pure (t.rpo, t'.rpo, (ofGraph DomTree.twoEntries t).isIrreducible)) =
        .ok ([⟨0⟩, ⟨1⟩, ⟨2⟩], [⟨0⟩, ⟨2⟩, ⟨1⟩], true) := by
    decide +kernel
  simp only [ht, ht', Checked.bind_eq_ok, Except.ok.injEq, exists_eq_left', Checked.pure_eq_ok,
    Prod.mk.injEq] at hrun
  obtain ⟨hrpo, hrpo', hirr⟩ := hrun
  refine ⟨hg.edges, hg'.edges, hsuccs, t, t', ht, ht', hrpo, hrpo', hirr, hsame.trans hirr, ?_⟩
  by_contra hacyclic
  rw [hiff.2 fun b hb => hacyclic ⟨b, hb⟩] at hirr
  cases hirr

end LoopForest

end Midend
