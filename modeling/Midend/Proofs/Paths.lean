import Mathlib.Data.List.Nodup
import Midend.Flow.Search
import Midend.Proofs.Sequences

/-!
# Paths, and what a search finds

A path runs along edges through blocks that satisfy a condition, its two ends included.  "Without
passing through `a`" is the condition "not `a`", so one relation serves for reachability, for dominance
and for the bodies of loops.

The second half says what the depth-first search of `Midend.Flow.Search` finds: exactly the blocks with a
path to them through open blocks, each once.

## Shape of the argument

`Grown` records what a search adds to one it started from, whatever its bound on the depth is: the new
blocks in the order they were finished, and for each of them a path that runs through blocks finished no
earlier.  That path is the branch of the search tree, and it is what ties the order of the search to
dominance.

`Runs` is the search once more, without a bound.  As long as the bound is not below the number of unseen
blocks, the search with a bound is this search (`runs_foldl_visit`), and so it misses nothing: everything
next to a new block has been seen (`Complete`).
-/

namespace Midend

/-- A path from one block to another, through blocks that satisfy a condition. -/
inductive Path (next : BlockId → List BlockId) (ok : BlockId → Prop) : BlockId → BlockId → Prop
  | refl {a : BlockId} : ok a → Path next ok a a
  | tail {a b c : BlockId} : Path next ok a b → c ∈ next b → ok c → Path next ok a c

namespace Path

variable {next : BlockId → List BlockId} {ok ok' : BlockId → Prop} {a b c d : BlockId}

theorem left (h : Path next ok a b) : ok a := by
  induction h with
  | refl ha => exact ha
  | tail _ _ _ ih => exact ih

theorem right (h : Path next ok a b) : ok b := by
  cases h with
  | refl ha => exact ha
  | tail _ _ hb => exact hb

/-- Paths can be put together. -/
theorem trans (h : Path next ok a b) (h' : Path next ok b c) : Path next ok a c := by
  induction h' with
  | refl _ => exact h
  | tail _ hc hok ih => exact ih.tail hc hok

/-- A path can be extended at its start. -/
theorem head (ha : ok a) (hb : b ∈ next a) (h : Path next ok b c) : Path next ok a c :=
  ((refl ha).tail hb h.left).trans h

/-- A path within some blocks is one within more blocks. -/
theorem mono (hok : ∀ x, ok x → ok' x) (h : Path next ok a b) : Path next ok' a b := by
  induction h with
  | refl ha => exact .refl (hok _ ha)
  | tail _ hc hc' ih => exact ih.tail hc (hok _ hc')

/-- A path either misses a block or leads to it. -/
theorem avoid_or_reach (d : BlockId) (h : Path next ok a b) :
    Path next (fun x => ok x ∧ x ≠ d) a b ∨ Path next ok a d := by
  induction h with
  | refl ha =>
    by_cases had : a = d
    · exact .inr (had ▸ .refl ha)
    · exact .inl (.refl ⟨ha, had⟩)
  | @tail b c h hc hok ih =>
    rcases ih with ih | ih
    · by_cases hcd : c = d
      · exact .inr (hcd ▸ h.tail hc hok)
      · exact .inl (ih.tail hc ⟨hok, hcd⟩)
    · exact .inr ih

/-- Turn a path around. -/
theorem reverse {prev : BlockId → List BlockId} (hprev : ∀ x y, y ∈ next x → x ∈ prev y)
    (h : Path next ok a b) : Path prev ok b a := by
  induction h with
  | refl ha => exact .refl ha
  | tail _ hc hok ih => exact head hok (hprev _ _ hc) ih

/-- What is closed under the edges of a path holds at its end. -/
theorem closed {P : BlockId → Prop} (h : Path next ok a b) (ha : P a)
    (step : ∀ x y, P x → y ∈ next x → ok y → P y) : P b := by
  induction h with
  | refl _ => exact ha
  | tail _ hc hok ih => exact step _ _ ih hc hok

end Path

namespace Search

variable {next : BlockId → List BlockId}

/-- Is a block closed to the rest of a search? -/
def Seen (s : Search) (b : BlockId) : Prop := s.seen.get b.index = true

/-- A search that avoids some blocks starts with these seen. -/
theorem seen_avoiding (closed : List BlockId) (b : BlockId) :
    (avoiding closed).Seen b ↔ b ∈ closed := by
  have hempty : (Table.empty : Table Bool).get b.index = false := Table.get_empty _
  rw [Seen, avoiding, Table.get_foldl_set BlockId.index_injective fun _ => true, hempty]
  simp

/-- `s'` is `s` after a search from some blocks, which finished the blocks `new`, the last one first. -/
structure Grown (next : BlockId → List BlockId) (roots : List BlockId) (s : Search)
    (new : List BlockId) (s' : Search) : Prop where
  done_eq : s'.done = new ++ s.done
  seen_iff : ∀ b, s'.Seen b ↔ s.Seen b ∨ b ∈ new
  fresh : ∀ b ∈ new, ¬ s.Seen b
  nodup : new.Nodup
  branch : ∀ l b r, new = l ++ b :: r → ∃ a ∈ roots, Path next (· ∈ l ++ [b]) a b

/-- Searching no further adds nothing. -/
theorem Grown.same (roots : List BlockId) (s : Search) : Grown next roots s [] s where
  done_eq := rfl
  seen_iff := by simp
  fresh := by simp
  nodup := .nil
  branch := by simp

/-- Two searches one after the other. -/
theorem Grown.append {roots roots' new new' : List BlockId} {s s' s'' : Search}
    (h : Grown next roots s new s') (h' : Grown next roots' s' new' s'') :
    Grown next (roots ++ roots') s (new' ++ new) s'' where
  done_eq := by rw [h'.done_eq, h.done_eq, List.append_assoc]
  seen_iff b := by rw [h'.seen_iff, h.seen_iff, List.mem_append]; tauto
  fresh b hb := by
    rcases List.mem_append.1 hb with hb | hb
    · exact fun hs => h'.fresh b hb ((h.seen_iff b).2 (.inl hs))
    · exact h.fresh b hb
  nodup := by
    refine List.nodup_append.2 ⟨h'.nodup, h.nodup, ?_⟩
    rintro x hx' y hy rfl
    exact h'.fresh x hx' ((h.seen_iff x).2 (.inr hy))
  branch l b r hl := by
    rcases List.append_eq_append_iff.1 hl with ⟨m, rfl, hm⟩ | ⟨m, rfl, hm⟩
    · obtain ⟨a, ha, hp⟩ := h.branch m b r hm
      refine ⟨a, List.mem_append_left _ ha, hp.mono ?_⟩
      intro x hx
      rw [List.append_assoc]
      exact List.mem_append_right _ hx
    · cases m with
      | nil =>
        obtain ⟨a, ha, hp⟩ := h.branch [] b r (by simpa using hm.symm)
        refine ⟨a, List.mem_append_left _ ha, hp.mono ?_⟩
        intro x hx
        exact List.mem_append_right _ (by simpa using hx)
      | cons c m =>
        obtain ⟨rfl, rfl⟩ := List.cons_eq_cons.1 hm
        obtain ⟨a, ha, hp⟩ := h'.branch l b m rfl
        exact ⟨a, List.mem_append_right _ ha, hp⟩

theorem seen_mark {s : Search} {b c : BlockId} :
    Seen { s with seen := s.seen.set b.index true } c ↔ s.Seen c ∨ c = b := by
  simp only [Seen, Table.get_set, BlockId.index_inj]
  by_cases hcb : c = b <;> simp [hcb]

/-- Searching from a block that is still open: everything found from the blocks next to it, and then
the block itself. -/
theorem Grown.visit {s s' : Search} {b : BlockId} {new : List BlockId} (hb : ¬ s.Seen b)
    (h : Grown next (next b) { s with seen := s.seen.set b.index true } new s') :
    Grown next [b] s (b :: new) { s' with done := b :: s'.done } := by
  refine ⟨?_, fun c => ?_, fun c hc => ?_, ?_, ?_⟩
  · rw [h.done_eq, List.cons_append]
  · have hiff := h.seen_iff c
    rw [seen_mark] at hiff
    rw [show Seen { s' with done := b :: s'.done } c ↔ s'.Seen c from Iff.rfl, hiff, List.mem_cons]
    tauto
  · rcases List.mem_cons.1 hc with rfl | hc
    · exact hb
    · exact fun hs => h.fresh c hc (seen_mark.2 (.inl hs))
  · exact List.nodup_cons.2 ⟨fun hmem => h.fresh b hmem (seen_mark.2 (.inr rfl)), h.nodup⟩
  · intro l c r hl
    cases l with
    | nil =>
      obtain ⟨rfl, -⟩ := List.cons_eq_cons.1 hl
      exact ⟨b, by simp, .refl (by simp)⟩
    | cons x l =>
      obtain ⟨rfl, hl'⟩ := List.cons_eq_cons.1 hl
      obtain ⟨a, ha, hp⟩ := h.branch l c r hl'
      refine ⟨b, by simp, Path.head (by simp) ha (hp.mono ?_)⟩
      intro x hx
      exact List.mem_cons_of_mem _ hx

/-- A fold of steps that each search from one block is a search from all of them. -/
theorem Grown.foldl {f : Search → BlockId → Search}
    (hf : ∀ s b, ∃ new, Grown next [b] s new (f s b)) (roots : List BlockId) (s : Search) :
    ∃ new, Grown next roots s new (roots.foldl f s) := by
  induction roots generalizing s with
  | nil => exact ⟨[], .same [] s⟩
  | cons b roots ih =>
    obtain ⟨new, h⟩ := hf s b
    obtain ⟨new', h'⟩ := ih (f s b)
    exact ⟨new' ++ new, h.append h'⟩

/-- One visit grows the search, in the order in which blocks are finished. -/
theorem grown_visit (next : BlockId → List BlockId) (depth : Nat) (s : Search) (b : BlockId) :
    ∃ new, Grown next [b] s new (visit next depth s b) := by
  induction depth generalizing s b with
  | zero => exact ⟨[], .same [b] s⟩
  | succ depth ih =>
    rw [visit]
    split
    · exact ⟨[], .same [b] s⟩
    · next hb =>
      obtain ⟨new, h⟩ := Grown.foldl ih (next b) { s with seen := s.seen.set b.index true }
      exact ⟨b :: new, h.visit hb⟩

/-! ## Nothing is missed -/

/-- The number of blocks, among some, that are still open to a search. -/
def openCount (all : List BlockId) (s : Search) : Nat := all.countP fun b => !s.seen.get b.index

theorem openCount_mono {l : List BlockId} {s s' : Search} (h : ∀ b, s.Seen b → s'.Seen b) :
    openCount l s' ≤ openCount l s := by
  apply List.countP_mono_left
  intro b _ hb
  have hb' : ¬ s'.Seen b := by simpa [Seen] using hb
  simpa [Seen] using fun hs => hb' (h b hs)

/-- Seeing a block leaves fewer unseen. -/
theorem openCount_lt {all : List BlockId} {s s' : Search} {b : BlockId} (h : ∀ c, s.Seen c → s'.Seen c)
    (hall : b ∈ all) (hb : ¬ s.Seen b) (hb' : s'.Seen b) : openCount all s' < openCount all s := by
  refine countP_lt_countP (fun c _ hc => ?_) hall (by simpa [Seen] using hb') (by simpa [Seen] using hb)
  have hc' : ¬ s'.Seen c := by simpa [Seen] using hc
  simpa [Seen] using fun hs => hc' (h c hs)

/-- To mark an open block brings the number of open blocks down. -/
theorem openCount_mark_lt {all : List BlockId} {s : Search} {b : BlockId} (hall : b ∈ all)
    (hb : ¬ s.Seen b) : openCount all { s with seen := s.seen.set b.index true } < openCount all s :=
  openCount_lt (fun _ hc => seen_mark.2 (.inl hc)) hall hb (seen_mark.2 (.inr rfl))

/-- A search that missed nothing: it saw its roots, and whatever comes next to what it found. -/
structure Complete (next : BlockId → List BlockId) (roots new : List BlockId) (s' : Search) :
    Prop where
  roots_seen : ∀ b ∈ roots, s'.Seen b
  next_seen : ∀ b ∈ new, ∀ c ∈ next b, s'.Seen c

/-- Two searches one after the other miss nothing if neither does. -/
theorem Complete.append {roots roots' new new' : List BlockId} {s' s'' : Search}
    (h : Complete next roots new s') (h' : Complete next roots' new' s'')
    (hg' : Grown next roots' s' new' s'') : Complete next (roots ++ roots') (new' ++ new) s'' where
  roots_seen b hb := by
    rcases List.mem_append.1 hb with hb | hb
    · exact (hg'.seen_iff b).2 (.inl (h.roots_seen b hb))
    · exact h'.roots_seen b hb
  next_seen b hb c hc := by
    rcases List.mem_append.1 hb with hb | hb
    · exact h'.next_seen b hb c hc
    · exact (hg'.seen_iff c).2 (.inl (h.next_seen b hb c hc))

/-- The search without a bound: it goes on from one block to the next until none is left.  A derivation is
a search that comes to an end. -/
inductive Runs (next : BlockId → List BlockId) : List BlockId → Search → Search → Prop
  | done {s : Search} : Runs next [] s s
  | skip {b : BlockId} {bs : List BlockId} {s s' : Search} : s.Seen b → Runs next bs s s' →
    Runs next (b :: bs) s s'
  | enter {b : BlockId} {bs : List BlockId} {s s₁ s' : Search} : ¬ s.Seen b →
    Runs next (next b) { s with seen := s.seen.set b.index true } s₁ →
    Runs next bs { s₁ with done := b :: s₁.done } s' → Runs next (b :: bs) s s'

/-- With a bound no smaller than the number of open blocks, it is not the bound that ends a search. -/
theorem runs_foldl_visit {all : List BlockId} (hnext : ∀ b ∈ all, ∀ c ∈ next b, c ∈ all) (depth : Nat)
    (roots : List BlockId) (hroots : ∀ b ∈ roots, b ∈ all) (s : Search) (hs : openCount all s ≤ depth) :
    Runs next roots s (roots.foldl (visit next depth) s) := by
  induction depth generalizing roots s with
  | zero =>
    have hseen : ∀ b ∈ all, s.Seen b := by
      intro b hb
      by_contra hopen
      have hpos : 0 < openCount all s := List.countP_pos_iff.2 ⟨b, hb, by simpa [Seen] using hopen⟩
      omega
    induction roots with
    | nil => exact .done
    | cons b roots ih =>
      exact .skip (hseen b (hroots b (by simp))) (ih fun c hc => hroots c (List.mem_cons_of_mem _ hc))
  | succ depth ih =>
    induction roots generalizing s with
    | nil => exact .done
    | cons b roots ihroots =>
      have hb := hroots b (by simp)
      obtain ⟨new, hg⟩ := grown_visit next (depth + 1) s b
      have hle : openCount all (visit next (depth + 1) s b) ≤ openCount all s :=
        openCount_mono fun c hc => (hg.seen_iff c).2 (.inl hc)
      have hrest := ihroots (fun c hc => hroots c (List.mem_cons_of_mem _ hc)) (visit next (depth + 1) s b)
        (by omega)
      rw [List.foldl_cons]
      by_cases hseen : s.seen.get b.index = true
      · rw [visit, if_pos hseen] at hrest ⊢
        exact .skip hseen hrest
      · rw [visit, if_neg hseen] at hrest ⊢
        -- the mark on `b` is what brings the number of open blocks below the bound
        have hlt := openCount_mark_lt hb hseen
        exact .enter hseen (ih (next b) (hnext b hb) _ (by omega)) hrest

/-- A search that comes to an end misses nothing. -/
theorem Runs.complete {roots : List BlockId} {s s' : Search} (h : Runs next roots s s') :
    ∃ new, Grown next roots s new s' ∧ Complete next roots new s' := by
  induction h with
  | @done s => exact ⟨[], .same [] s, by simp, by simp⟩
  | @skip b bs s s' hb _ ih =>
    obtain ⟨new, hg, hc⟩ := ih
    have hskip : Complete next [b] [] s := ⟨by simpa using hb, by simp⟩
    exact ⟨new ++ [], (Grown.same [b] s).append hg, hskip.append hc hg⟩
  | @enter b bs s s₁ s' hb _ _ ih ih' =>
    obtain ⟨new, hg, hc⟩ := ih
    obtain ⟨new', hg', hc'⟩ := ih'
    have hvisit : Complete next [b] (b :: new) { s₁ with done := b :: s₁.done } := by
      refine ⟨fun c hmem => ?_, fun c hmem d hd => ?_⟩
      · obtain rfl := List.mem_singleton.1 hmem
        exact (hg.seen_iff c).2 (.inl (seen_mark.2 (.inr rfl)))
      · rcases List.mem_cons.1 hmem with rfl | hmem
        · exact hc.roots_seen d hd
        · exact hc.next_seen c hmem d hd
    exact ⟨new' ++ b :: new, (hg.visit hb).append hg', hvisit.append hc' hg'⟩

/-- A search with closed blocks that misses nothing finds exactly the blocks with a path to them through
open ones. -/
theorem mem_done_avoiding {roots closed new : List BlockId} {s' : Search}
    (hg : Grown next roots (avoiding closed) new s') (hc : Complete next roots new s') (b : BlockId) :
    b ∈ s'.done ↔ ∃ a ∈ roots, Path next (· ∉ closed) a b := by
  have hdone : s'.done = new := by rw [hg.done_eq]; simp [avoiding]
  rw [hdone]
  constructor
  · intro hb
    obtain ⟨l, r, hl⟩ := List.append_of_mem hb
    obtain ⟨a, ha, hp⟩ := hg.branch l b r hl
    refine ⟨a, ha, hp.mono fun x hx => ?_⟩
    have hnew : x ∈ new := by
      rw [hl]
      rcases List.mem_append.1 hx with hx | hx
      · exact List.mem_append_left _ hx
      · exact List.mem_append_right _ (by simp_all)
    exact fun hcl => hg.fresh x hnew ((seen_avoiding closed x).2 hcl)
  · rintro ⟨a, ha, hp⟩
    have hopen : ∀ x, s'.Seen x → x ∉ closed → x ∈ new := by
      intro x hx hcl
      rcases (hg.seen_iff x).1 hx with hx | hx
      · exact absurd ((seen_avoiding closed x).1 hx) hcl
      · exact hx
    refine hp.closed (P := (· ∈ new)) (hopen a (hc.roots_seen a ha) hp.left) ?_
    intro x y hx hy hcl
    exact hopen y (hc.next_seen x hx y hy) hcl

end Search

/-! ## The edges of a graph -/

namespace Graph

/-- What the edits of a graph maintain between its redundant parts: edges are recorded at both ends, as
often at one as at the other, an instruction is listed at most once in the whole graph, and one that
says it is in a block is listed there. -/
structure Consistent (g : Graph) : Prop where
  edges : ∀ a b, (g.succs a).count b = (g.preds b).count a
  listed_once : g.attached.Nodup
  listed : ∀ i inst b, g.inst i = .ok inst → inst.block = some b →
    ∃ block, g.block b = .ok block ∧ i ∈ block.body

variable {g : Graph}

/-- In a consistent graph edges can be followed both ways. -/
theorem Consistent.mem_preds_iff (hg : g.Consistent) {a b : BlockId} :
    a ∈ g.preds b ↔ b ∈ g.succs a := by
  rw [← List.count_pos_iff, ← List.count_pos_iff, hg.edges]

theorem mem_blockIds {b : BlockId} : b ∈ g.blockIds ↔ b.index < g.blocks.size := by
  simp only [blockIds, List.mem_map, List.mem_range]
  constructor
  · rintro ⟨n, hn, rfl⟩
    exact hn
  · intro hb
    exact ⟨b.index, hb, rfl⟩

theorem mem_blockIds_of_mem_succs {a b : BlockId} (h : b ∈ g.succs a) : a ∈ g.blockIds := by
  rw [mem_blockIds]
  by_contra hlt
  rw [succs, Array.getElem?_eq_none (by omega)] at h
  simp at h

theorem mem_blockIds_of_mem_preds {a b : BlockId} (h : a ∈ g.preds b) : b ∈ g.blockIds := by
  rw [mem_blockIds]
  by_contra hlt
  rw [preds, Array.getElem?_eq_none (by omega)] at h
  simp at h

/-- There are no more blocks to be seen than there are blocks. -/
theorem openCount_le_size (closed : List BlockId) :
    Search.openCount g.blockIds (.avoiding closed) ≤ g.blocks.size := by
  refine Nat.le_trans List.countP_le_length ?_
  simp [blockIds]

/-- The search from the entry comes to an end by itself. -/
theorem Consistent.exists_runs_reachable (hg : g.Consistent) (hentry : g.entry ∈ g.blockIds) :
    ∃ s, Search.Runs g.succs [g.entry] (.avoiding []) s ∧ s.done = g.reachable := by
  have hnext : ∀ a ∈ g.blockIds, ∀ c ∈ g.succs a, c ∈ g.blockIds := fun a _ c hc =>
    mem_blockIds_of_mem_preds (hg.mem_preds_iff.2 hc)
  exact ⟨_, Search.runs_foldl_visit hnext g.blocks.size [g.entry] (by simpa using hentry) (.avoiding [])
    (openCount_le_size []), rfl⟩

/-- The search against the edges comes to an end by itself. -/
theorem Consistent.exists_runs_reaching (hg : g.Consistent) (closed : List BlockId) {targets : List BlockId}
    (htargets : ∀ t ∈ targets, t ∈ g.blockIds) :
    ∃ s, Search.Runs g.preds targets (.avoiding closed) s ∧ s.done = g.reaching closed targets := by
  have hnext : ∀ a ∈ g.blockIds, ∀ c ∈ g.preds a, c ∈ g.blockIds := fun a _ c hc =>
    mem_blockIds_of_mem_succs (hg.mem_preds_iff.1 hc)
  exact ⟨_, Search.runs_foldl_visit hnext g.blocks.size targets htargets (.avoiding closed)
    (openCount_le_size closed), rfl⟩

/-- The search from the entry finds exactly the blocks with a path from the entry. -/
theorem Consistent.mem_reachable (hg : g.Consistent) (hentry : g.entry ∈ g.blockIds) (b : BlockId) :
    b ∈ g.reachable ↔ Path g.succs (fun _ => True) g.entry b := by
  obtain ⟨s, hruns, hdone⟩ := hg.exists_runs_reachable hentry
  obtain ⟨new, hgrown, hcomplete⟩ := hruns.complete
  rw [← hdone, Search.mem_done_avoiding hgrown hcomplete]
  simp

/-- No block is reached twice. -/
theorem nodup_reachable : g.reachable.Nodup := by
  obtain ⟨new, hgrown⟩ := Search.grown_visit g.succs g.blocks.size (.avoiding []) g.entry
  rw [reachable, hgrown.done_eq]
  simpa [Search.avoiding] using hgrown.nodup

/-- In the order of the search, a block comes after all blocks of some path to it. -/
theorem exists_path_of_reachable_eq {l r : List BlockId} {b : BlockId} (h : g.reachable = l ++ b :: r) :
    Path g.succs (· ∈ l ++ [b]) g.entry b := by
  obtain ⟨new, hgrown⟩ := Search.grown_visit g.succs g.blocks.size (.avoiding []) g.entry
  rw [reachable, hgrown.done_eq] at h
  obtain ⟨a, ha, hp⟩ := hgrown.branch l b r (by simpa [Search.avoiding] using h)
  obtain rfl : a = g.entry := by simpa using ha
  exact hp

/-- The search against the edges finds exactly the blocks from which some target is reached through open
blocks. -/
theorem Consistent.mem_reaching (hg : g.Consistent) {closed targets : List BlockId}
    (htargets : ∀ t ∈ targets, t ∈ g.blockIds) (b : BlockId) :
    b ∈ g.reaching closed targets ↔ ∃ t ∈ targets, Path g.succs (· ∉ closed) b t := by
  obtain ⟨s, hruns, hdone⟩ := hg.exists_runs_reaching closed htargets
  obtain ⟨new, hgrown, hcomplete⟩ := hruns.complete
  rw [← hdone, Search.mem_done_avoiding hgrown hcomplete]
  constructor
  · rintro ⟨t, ht, hp⟩
    exact ⟨t, ht, hp.reverse fun x y hy => hg.mem_preds_iff.1 hy⟩
  · rintro ⟨t, ht, hp⟩
    exact ⟨t, ht, hp.reverse fun x y hy => hg.mem_preds_iff.2 hy⟩

end Graph

end Midend
