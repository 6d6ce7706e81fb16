import Midend.Proofs.Paths

/-!
# Dominance over paths

`a` dominates `b` when `b` can be reached from the entry, and not without passing through `a`.  It is a
partial order, and the dominators of a block form a chain.  Nothing here is about how dominators are
computed.
-/

namespace Midend

namespace Path

variable {next : BlockId → List BlockId} {ok : BlockId → Prop} {a b d : BlockId}

/-- A path that ends at a block, or passes through it, comes to it a first time. -/
theorem avoid_or_first (d : BlockId) (h : Path next ok a b) (had : a ≠ d) :
    Path next (fun x => ok x ∧ x ≠ d) a b ∨
      ∃ p, Path next (fun x => ok x ∧ x ≠ d) a p ∧ d ∈ next p := by
  induction h with
  | refl ha => exact .inl (.refl ⟨ha, had⟩)
  | @tail b c h hc hok ih =>
    rcases ih with ih | ih
    · by_cases hcd : c = d
      · exact .inr ⟨b, ih, hcd ▸ hc⟩
      · exact .inl (ih.tail hc ⟨hok, hcd⟩)
    · exact .inr ih

/-- A path between different blocks reaches its end a first time. -/
theorem exists_first (h : Path next ok a b) (hab : a ≠ b) :
    ∃ p, Path next (fun x => ok x ∧ x ≠ b) a p ∧ b ∈ next p := by
  rcases h.avoid_or_first b hab with h | h
  · exact absurd rfl h.right.2
  · exact h

/-- A path either misses two blocks, or has a last part that starts at one of them and misses the
other. -/
theorem avoid_two_or_last {x y : BlockId} (hxy : x ≠ y) (h : Path next ok a b) :
    Path next (fun z => ok z ∧ z ≠ x ∧ z ≠ y) a b ∨ Path next (fun z => ok z ∧ z ≠ y) x b ∨
      Path next (fun z => ok z ∧ z ≠ x) y b := by
  induction h with
  | refl ha =>
    by_cases hax : a = x
    · subst hax
      exact .inr (.inl (.refl ⟨ha, hxy⟩))
    · by_cases hay : a = y
      · subst hay
        exact .inr (.inr (.refl ⟨ha, hxy.symm⟩))
      · exact .inl (.refl ⟨ha, hax, hay⟩)
  | @tail b c h hc hok ih =>
    by_cases hcx : c = x
    · subst hcx
      exact .inr (.inl (.refl ⟨hok, hxy⟩))
    · by_cases hcy : c = y
      · subst hcy
        exact .inr (.inr (.refl ⟨hok, hxy.symm⟩))
      · rcases ih with ih | ih | ih
        · exact .inl (ih.tail hc ⟨hok, hcx, hcy⟩)
        · exact .inr (.inl (ih.tail hc ⟨hok, hcy⟩))
        · exact .inr (.inr (ih.tail hc ⟨hok, hcx⟩))

end Path

namespace Graph

/-! ## Dominance over paths -/

/-- Is there a path from the entry to a block? -/
def Reachable (g : Graph) (b : BlockId) : Prop := Path g.succs (fun _ => True) g.entry b

/-- One block dominates another: the other is reachable, but not without passing through the one. -/
def Dom (g : Graph) (a b : BlockId) : Prop :=
  g.Reachable b ∧ ¬ Path g.succs (· ≠ a) g.entry b

/-- Dominance between different blocks. -/
def SDom (g : Graph) (a b : BlockId) : Prop := g.Dom a b ∧ a ≠ b

variable {g : Graph} {a b c d p : BlockId}

theorem reachable_entry : g.Reachable g.entry := .refl trivial

/-- What follows a reachable block is reachable. -/
theorem Reachable.succ (h : g.Reachable a) (hb : b ∈ g.succs a) : g.Reachable b :=
  h.tail hb trivial

theorem Dom.refl (h : g.Reachable b) : g.Dom b b := ⟨h, fun hp => hp.right rfl⟩

/-- What dominates is reachable. -/
theorem Dom.left (h : g.Dom a b) : g.Reachable a := by
  rcases h.1.avoid_or_reach a with hp | hp
  · exact absurd (hp.mono fun _ hx => hx.2) h.2
  · exact hp

/-- Dominance is transitive. -/
theorem Dom.trans (hab : g.Dom a b) (hbc : g.Dom b c) : g.Dom a c := by
  refine ⟨hbc.1, fun hp => ?_⟩
  rcases hp.avoid_or_reach b with hp | hp
  · exact hbc.2 (hp.mono fun _ hx => hx.2)
  · exact hab.2 hp

/-- Blocks that dominate each other are the same. -/
theorem Dom.antisymm (hab : g.Dom a b) (hba : g.Dom b a) : a = b := by
  by_contra hne
  -- whichever of the two a path meets first, it meets without the other
  rcases hab.1.avoid_or_reach a with hp | hp
  · exact hab.2 (hp.mono fun _ hx => hx.2)
  · by_cases hentry : g.entry = a
    · exact hba.2 (hentry ▸ .refl (hentry ▸ hne))
    · obtain ⟨p, hp, hpa⟩ := hp.exists_first hentry
      rcases (hp.mono fun _ hx => hx.2 : Path g.succs (· ≠ a) g.entry p).avoid_or_reach b with hq | hq
      · exact hba.2 ((hq.mono fun _ hx => hx.2).tail hpa hne)
      · exact hab.2 hq

/-- The dominators of a block form a chain. -/
theorem Dom.total (hac : g.Dom a c) (hbc : g.Dom b c) : g.Dom a b ∨ g.Dom b a := by
  by_cases hab : a = b
  · exact .inl (hab ▸ .refl hac.left)
  rcases Path.avoid_two_or_last hab hac.1 with hp | hp | hp
  · exact absurd (hp.mono fun _ hx => hx.2.1) hac.2
  · refine .inr ⟨hac.left, fun hq => hbc.2 (hq.trans (hp.mono fun _ hx => hx.2))⟩
  · refine .inl ⟨hbc.left, fun hq => hac.2 (hq.trans (hp.mono fun _ hx => hx.2))⟩

/-- The entry dominates what is reachable. -/
theorem dom_entry (h : g.Reachable b) : g.Dom g.entry b := ⟨h, fun hp => hp.left rfl⟩

/-- Only the entry dominates the entry. -/
theorem Dom.eq_entry (h : g.Dom a g.entry) : a = g.entry := h.antisymm (dom_entry h.left)

/-- What dominates the target of an edge, and is not the target, dominates the source. -/
theorem Dom.of_succ (h : g.Dom a b) (hne : a ≠ b) (hp : g.Reachable p) (hb : b ∈ g.succs p) :
    g.Dom a p :=
  ⟨hp, fun hq => h.2 (hq.tail hb (Ne.symm hne))⟩

/-- A block that is not the entry is first reached along an edge from a block it does not dominate. -/
theorem exists_forward_pred (h : g.Reachable b) (hne : b ≠ g.entry) :
    ∃ p, g.Reachable p ∧ b ∈ g.succs p ∧ ¬ g.Dom b p := by
  obtain ⟨p, hp, hb⟩ := Path.exists_first h (Ne.symm hne)
  exact ⟨p, hp.mono fun _ _ => trivial, hb, fun hd => hd.2 (hp.mono fun _ hx => hx.2)⟩

/-- What dominates every source of an edge into a block, except those sources the block dominates itself,
strictly dominates the block. -/
theorem sdom_of_forward_preds (h : g.Reachable b) (hne : b ≠ g.entry)
    (hall : ∀ p, g.Reachable p → b ∈ g.succs p → ¬ g.Dom b p → g.Dom a p) : g.SDom a b := by
  refine ⟨⟨h, fun hp => ?_⟩, ?_⟩
  · obtain ⟨p, hp, hb⟩ := hp.exists_first (Ne.symm hne)
    have hreach : g.Reachable p := hp.mono fun _ _ => trivial
    have hfwd : ¬ g.Dom b p := fun hd => hd.2 (hp.mono fun _ hx => hx.2)
    exact (hall p hreach hb hfwd).2 (hp.mono fun _ hx => hx.1)
  · rintro rfl
    obtain ⟨p, hp, hb, hfwd⟩ := exists_forward_pred h hne
    exact hfwd (hall p hp hb hfwd)

/-- In the order of the search, every block but the entry has an edge from an earlier block. -/
theorem exists_earlier_pred {l r : List BlockId} (h : g.reachable = l ++ b :: r) (hne : b ≠ g.entry) :
    ∃ p ∈ l, b ∈ g.succs p := by
  obtain ⟨p, hp, hb⟩ := (exists_path_of_reachable_eq h).exists_first (Ne.symm hne)
  obtain ⟨hmem, hpb⟩ := hp.right
  rcases List.mem_append.1 hmem with hmem | hmem
  · exact ⟨p, hmem, hb⟩
  · exact absurd (List.mem_singleton.1 hmem) hpb

end Graph

end Midend
