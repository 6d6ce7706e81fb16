import Mathlib.Logic.Relation
import Midend.Proofs.Knowledge
import Midend.Proofs.PassRun

/-!
# The course of load/store elimination

The pass as a machine that goes from program point to program point: it enters a block, visits its
instructions, leaves it, and enters the next one in pre-order of the dominator tree.  The stages it goes
through on its way from the first to the last state are the subject of this module.

## Shape of the argument

Every statement about the course is an invariant of single steps (`On.induction`).  The pass is at each
program point at most once (`On.unique`), and at each point of a reachable block exactly once
(`Trace.exists_on`).  What the tables of the last state say can so be traced back to the one visit that
made it so.
-/

namespace Midend

namespace LoadStore

open Midend.Graph

/-- Where the pass is: between blocks or inside one, the blocks left before, and what it has come to. -/
inductive Stage where
  | between (done : List BlockId) (s : State)
  | inside (done : List BlockId) (b : BlockId) (n : Nat) (s : State) (k : Knowledge)

namespace Stage

def state : Stage → State
  | between _ s => s
  | inside _ _ _ s _ => s

/-- The blocks that were entered. -/
def begun : Stage → List BlockId
  | between done _ => done
  | inside done b _ _ _ => done ++ [b]

/-- How far the pass has come. -/
def place : Stage → List BlockId × Option (BlockId × Nat)
  | between done _ => (done, none)
  | inside done b n _ _ => (done, some (b, n))

end Stage

/-- Leave a block: where it has an edge to a visited one, its pending stores count as observed. -/
def leave (block : Block) (b : BlockId) (s : State) (k : Knowledge) : State :=
  let s := if block.succs.any fun t => (s.exit? t).isSome then s.keepWhere k fun _ => true else s
  { s with exits := s.exits.set b.index (some k) }

section Course

variable (g : Graph) (t : DomTree) (summary : EffectSummary)

/-- One step of the pass. -/
inductive Advance : Stage → Stage → Prop
  | enter {done rest : List BlockId} {b : BlockId} {s : State} : t.preorder = done ++ b :: rest →
    Advance (.between done s)
      (.inside done b 0 (LoadStore.enter g t summary s b).1 (LoadStore.enter g t summary s b).2)
  | visit {done : List BlockId} {b : BlockId} {n : Nat} {s s' : State} {k k' : Knowledge} {block : Block}
      {i : InstId} : g.block b = .ok block → block.insts[n]? = some i →
    LoadStore.visit g summary (s, k) i block.insts[n + 1]? = .ok (s', k') →
    Advance (.inside done b n s k) (.inside done b (n + 1) s' k')
  | leave {done : List BlockId} {b : BlockId} {s : State} {k : Knowledge} {block : Block} :
    g.block b = .ok block →
    Advance (.inside done b block.insts.length s k) (.between (done ++ [b]) (LoadStore.leave block b s k))

/-- Any number of steps. -/
abbrev Advances : Stage → Stage → Prop := Relation.ReflTransGen (Advance g t summary)

/-- The state before the first block. -/
def first (hasMonitors : Bool) : State :=
  { State.empty with escapes := escapesOf g, hasMonitors := hasMonitors }

/-- The pass goes over a graph and comes to its last state. -/
structure Trace (hasMonitors : Bool) (last : State) : Prop where
  tree : DomTree.ofGraph g = .ok t
  summarizes : EffectSummary.Summarizes g t summary
  advances : Advances g t summary (.between [] (first g hasMonitors)) (.between t.preorder last)

/-- The stages on the way to the last state. -/
def On (hasMonitors : Bool) (last : State) (c : Stage) : Prop :=
  Advances g t summary (.between [] (first g hasMonitors)) c ∧
    Advances g t summary c (.between t.preorder last)

end Course

variable {g : Graph} {t : DomTree} {summary : EffectSummary} {hasMonitors : Bool} {last s s' : State}
  {k k' : Knowledge} {b : BlockId} {block : Block} {done : List BlockId} {c c' : Stage} {n : Nat}

/-! ## From the fold to the steps -/

/-- Visiting the rest of a block advances to its end. -/
theorem advances_visitAll (hb : g.block b = .ok block)
    (h : visitAll g summary (s, k) (block.insts.drop n) = .ok (s', k')) (hn : n ≤ block.insts.length) :
    Advances g t summary (.inside done b n s k) (.inside done b block.insts.length s' k') := by
  generalize hrest : block.insts.drop n = rest at h
  induction rest generalizing n s k with
  | nil =>
    cases h
    rw [show n = block.insts.length from Nat.le_antisymm hn (List.drop_eq_nil_iff.1 hrest)]
  | cons i rest ih =>
    rw [visitAll, Checked.bind_eq_ok] at h
    obtain ⟨⟨s₁, k₁⟩, hvisit, h⟩ := h
    have hi : block.insts[n]? = some i := by
      rw [← List.head?_drop, hrest]
      rfl
    have hdrop : block.insts.drop (n + 1) = rest := by
      rw [← List.tail_drop, hrest]
      rfl
    have hnext : rest.head? = block.insts[n + 1]? := by rw [← hdrop, List.head?_drop]
    rw [hnext] at hvisit
    have hlt := (List.getElem?_eq_some_iff.1 hi).1
    exact .head (.visit hb hi hvisit) (ih hlt hdrop h)

/-- Visiting a block advances past it. -/
theorem advances_visitBlock {rest : List BlockId} (horder : t.preorder = done ++ b :: rest)
    (h : visitBlock g t summary s b = .ok s') :
    Advances g t summary (.between done s) (.between (done ++ [b]) s') := by
  simp only [visitBlock, Checked.bind_eq_ok, Checked.pure_eq_ok] at h
  obtain ⟨block, hb, ⟨s₁, k₁⟩, hall, rfl⟩ := h
  refine .head (.enter horder) (.tail ?_ (.leave hb))
  exact advances_visitAll hb hall (Nat.zero_le _)

/-- Visiting the blocks that are left advances to the end of the order. -/
theorem advances_foldlM {todo : List BlockId} (horder : t.preorder = done ++ todo)
    (h : todo.foldlM (visitBlock g t summary) s = .ok s') :
    Advances g t summary (.between done s) (.between t.preorder s') := by
  induction todo generalizing done s with
  | nil =>
    cases h
    rw [horder, List.append_nil]
  | cons b todo ih =>
    rw [List.foldlM_cons, Checked.bind_eq_ok] at h
    obtain ⟨s₁, hvisit, h⟩ := h
    refine (advances_visitBlock horder hvisit).trans (ih ?_ h)
    rw [horder, List.append_assoc]
    rfl

/-- The outcome is what visiting the blocks comes to, and the last state of a course over the graph. -/
theorem exists_visits_of_outcome (hg : g.Consistent) (h : outcome g = .ok last) :
    ∃ t summary hasMonitors, Trace g t summary hasMonitors last ∧
      t.preorder.foldlM (visitBlock g t summary) (first g hasMonitors) = .ok last := by
  simp only [outcome, Checked.bind_eq_ok] at h
  obtain ⟨t, ht, summary, hsummary, hasMonitors, -, hvisits⟩ := h
  exact ⟨t, summary.finish g, hasMonitors, ⟨ht, EffectSummary.summarizes_finish hg ht hsummary,
    advances_foldlM rfl hvisits⟩, hvisits⟩

/-- The outcome of the pass has a trace. -/
theorem trace_of_outcome (hg : g.Consistent) (h : outcome g = .ok last) :
    ∃ t summary hasMonitors, Trace g t summary hasMonitors last := by
  obtain ⟨t, summary, hasMonitors, ht, -⟩ := exists_visits_of_outcome hg h
  exact ⟨t, summary, hasMonitors, ht⟩

/-! ## Invariants -/

/-- What holds at first and what every step keeps holds at every stage. -/
theorem On.induction {I : Stage → Prop} (hc : On g t summary hasMonitors last c)
    (hfirst : I (.between [] (first g hasMonitors)))
    (hstep : ∀ c c', On g t summary hasMonitors last c → On g t summary hasMonitors last c' →
      Advance g t summary c c' → I c → I c') : I c := by
  obtain ⟨hfrom, hto⟩ := hc
  induction hfrom with
  | refl => exact hfirst
  | @tail c c' hfrom hadv ih =>
    exact hstep c c' ⟨hfrom, .head hadv hto⟩ ⟨.tail hfrom hadv, hto⟩ hadv (ih (.head hadv hto))

/-- The blocks that the pass has begun with come first in the order. -/
theorem On.begun (hc : On g t summary hasMonitors last c) : ∃ rest, t.preorder = c.begun ++ rest := by
  refine hc.induction (I := fun c => ∃ rest, t.preorder = c.begun ++ rest) ⟨t.preorder, rfl⟩ ?_
  rintro c c' - - hadv ih
  cases hadv with
  | @enter done rest b s horder => exact ⟨rest, by simpa [Stage.begun] using horder⟩
  | visit => exact ih
  | leave => exact ih

/-- A stage inside a block is inside one that the order has. -/
theorem On.mem_preorder {n : Nat} (hc : On g t summary hasMonitors last (.inside done b n s k)) :
    b ∈ t.preorder := by
  obtain ⟨rest, horder⟩ := hc.begun
  simp [horder, Stage.begun]

/-- The pass has one history: at the same place it has come to the same state. -/
theorem eq_of_place_eq {c₁ c₂ : Stage} (h₁ : Advances g t summary (.between [] s) c₁)
    (h₂ : Advances g t summary (.between [] s) c₂) (hplace : c₁.place = c₂.place) : c₁ = c₂ := by
  induction h₁ generalizing c₂ with
  | refl =>
    cases h₂ with
    | refl => rfl
    | tail _ hadv => cases hadv <;> simp [Stage.place] at hplace
  | @tail c c₁ _ hadv ih =>
    cases h₂ with
    | refl => cases hadv <;> simp [Stage.place] at hplace
    | @tail c' _ h₂ hadv' =>
      -- the place tells which kind of step led to it, and from where
      cases hadv with
      | enter horder =>
        cases hadv' with
        | enter horder' =>
          simp only [Stage.place, Prod.mk.injEq, Option.some.injEq, and_true] at hplace
          obtain ⟨rfl, rfl⟩ := hplace
          cases ih h₂ rfl
          rfl
        | visit => simp [Stage.place] at hplace
        | leave => simp [Stage.place] at hplace
      | visit hb hi hvisit =>
        cases hadv' with
        | enter => simp [Stage.place] at hplace
        | visit hb' hi' hvisit' =>
          simp only [Stage.place, Prod.mk.injEq, Option.some.injEq, Nat.add_right_cancel_iff] at hplace
          obtain ⟨rfl, rfl, rfl⟩ := hplace
          cases ih h₂ rfl
          rw [hb] at hb'
          cases hb'
          rw [hi] at hi'
          cases hi'
          rw [hvisit] at hvisit'
          cases hvisit'
          rfl
        | leave => simp [Stage.place] at hplace
      | leave hb =>
        cases hadv' with
        | enter => simp [Stage.place] at hplace
        | visit => simp [Stage.place] at hplace
        | leave hb' =>
          simp only [Stage.place, Prod.mk.injEq, and_true] at hplace
          obtain ⟨rfl, hlast⟩ := List.append_inj' hplace rfl
          cases hlast
          rw [hb] at hb'
          cases hb'
          cases ih h₂ rfl
          rfl

/-- In a list without repetition, what comes before a member is determined. -/
theorem eq_of_nodup_append {l l' r r' : List BlockId} (hnodup : (l ++ b :: r).Nodup)
    (h : l ++ b :: r = l' ++ b :: r') : l = l' := by
  have hl : b ∉ l := fun hb => List.disjoint_of_nodup_append hnodup hb (by simp)
  rw [h] at hnodup
  have hl' : b ∉ l' := fun hb => List.disjoint_of_nodup_append hnodup hb (by simp)
  have htake : ∀ {xs ys : List BlockId}, b ∉ xs → (xs ++ b :: ys).takeWhile (· ≠ b) = xs := by
    intro xs ys hxs
    have hne : ∀ x ∈ xs, decide (x ≠ b) = true := fun x hx =>
      decide_eq_true fun hxb => hxs (hxb ▸ hx)
    rw [List.takeWhile_append_of_pos hne]
    simp
  rw [← htake hl, h, htake hl']

/-- There is one stage at each place of a block. -/
theorem On.unique {done' : List BlockId} (hg : g.Consistent) (ht : DomTree.ofGraph g = .ok t)
    (h : On g t summary hasMonitors last (.inside done b n s k))
    (h' : On g t summary hasMonitors last (.inside done' b n s' k')) : s' = s ∧ k' = k := by
  have hdone : done = done' := by
    obtain ⟨rest, horder⟩ := h.begun
    obtain ⟨rest', horder'⟩ := h'.begun
    have hnodup := DomTree.nodup_preorder hg ht
    simp only [Stage.begun, List.append_assoc, List.singleton_append] at horder horder'
    rw [horder] at hnodup
    exact eq_of_nodup_append hnodup (horder.symm.trans horder')
  subst hdone
  cases eq_of_place_eq h.1 h'.1 rfl
  exact ⟨rfl, rfl⟩

/-- Before a block starts, the pass was between blocks. -/
theorem On.enter_inv (h : On g t summary hasMonitors last (.inside done b 0 s k)) :
    ∃ s₀, On g t summary hasMonitors last (.between done s₀) ∧
      s = (enter g t summary s₀ b).1 ∧ k = (enter g t summary s₀ b).2 := by
  obtain ⟨hfrom, hto⟩ := h
  cases hfrom with
  | tail hfrom hadv =>
    cases hadv with
    | enter horder => exact ⟨_, ⟨hfrom, .head (.enter horder) hto⟩, rfl, rfl⟩

/-- After an instruction, the pass was before it. -/
theorem On.visit_inv (h : On g t summary hasMonitors last (.inside done b (n + 1) s' k')) :
    ∃ s k block i, On g t summary hasMonitors last (.inside done b n s k) ∧ g.block b = .ok block ∧
      block.insts[n]? = some i ∧ visit g summary (s, k) i block.insts[n + 1]? = .ok (s', k') := by
  obtain ⟨hfrom, hto⟩ := h
  cases hfrom with
  | tail hfrom hadv =>
    cases hadv with
    | visit hb hi hvisit =>
      exact ⟨_, _, _, _, ⟨hfrom, .head (.visit hb hi hvisit) hto⟩, hb, hi, hvisit⟩

/-- After an instruction, the pass has visited it. -/
theorem On.visited {i : InstId} (h : On g t summary hasMonitors last (.inside done b (n + 1) s' k'))
    (hb : g.block b = .ok block) (hi : block.insts[n]? = some i) :
    ∃ s k inst throws, On g t summary hasMonitors last (.inside done b n s k) ∧ g.inst i = .ok inst ∧
      mayThrow g k i = .ok throws ∧ Visited g summary (s.beforeThrow k throws) k i inst throws (s', k') := by
  obtain ⟨s, k, block', i', hon, hb', hi', hvisit⟩ := h.visit_inv
  rw [hb] at hb'
  cases hb'
  obtain rfl := Option.some.inj (hi'.symm.trans hi)
  obtain ⟨inst, throws, hinst, hthrows, hvisited⟩ := visit_eq_ok hvisit
  exact ⟨s, k, inst, throws, hon, hinst, hthrows, hvisited⟩

/-! ## Every point is visited -/

/-- The pass has come to a point, or passed it. -/
def Stage.Passed (b : BlockId) (n : Nat) : Stage → Prop
  | between done _ => b ∈ done
  | inside done b' m _ _ => b ∈ done ∨ (b = b' ∧ n ≤ m)

/-- A stage that has passed a place was at that place before. -/
theorem exists_of_passed (hb : g.block b = .ok block) (hn : n ≤ block.insts.length)
    (h : Advances g t summary (.between [] s) c) (hp : c.Passed b n) :
    ∃ done s' k, Advances g t summary (.between [] s) (.inside done b n s' k) ∧
      Advances g t summary (.inside done b n s' k) c := by
  induction h with
  | refl => cases hp
  | @tail c c' hfrom hadv ih =>
    -- the point was passed before the last step, or the last step leads to it
    have hearlier : c.Passed b n → ∃ done s' k,
        Advances g t summary (.between [] s) (.inside done b n s' k) ∧
          Advances g t summary (.inside done b n s' k) c' := by
      intro hp
      obtain ⟨done, s', k, hto, hon⟩ := ih hp
      exact ⟨done, s', k, hto, .tail hon hadv⟩
    cases hadv with
    | @enter done rest b' s₀ horder =>
      rcases hp with hdone | ⟨rfl, hn0⟩
      · exact hearlier hdone
      · rw [Nat.le_zero.1 hn0]
        exact ⟨_, _, _, .tail hfrom (.enter horder), .refl⟩
    | @visit done b' m s₀ s₁ k₀ k₁ block' i hb' hi hvisit =>
      rcases hp with hdone | ⟨rfl, hnm⟩
      · exact hearlier (.inl hdone)
      · rcases Nat.le_succ_iff.1 hnm with hnm | rfl
        · exact hearlier (.inr ⟨rfl, hnm⟩)
        · exact ⟨_, _, _, .tail hfrom (.visit hb' hi hvisit), .refl⟩
    | leave hb' =>
      rcases List.mem_append.1 hp with hdone | hb''
      · exact hearlier (.inl hdone)
      · rw [List.mem_singleton] at hb''
        subst hb''
        rw [hb] at hb'
        cases hb'
        exact hearlier (.inr ⟨rfl, hn⟩)

/-- The pass comes to every point of a reachable block. -/
theorem Trace.exists_on (h : Trace g t summary hasMonitors last) (hg : g.Consistent)
    (hreach : g.Reachable b) (hb : g.block b = .ok block) (hn : n ≤ block.insts.length) :
    ∃ done s k, On g t summary hasMonitors last (.inside done b n s k) := by
  obtain ⟨done, s, k, hto, hon⟩ := exists_of_passed hb hn h.advances
    ((DomTree.mem_preorder hg h.tree).2 hreach)
  exact ⟨done, s, k, hto, hon⟩

/-- The last stage is on the trace. -/
theorem Trace.on_last (h : Trace g t summary hasMonitors last) :
    On g t summary hasMonitors last (.between t.preorder last) :=
  ⟨h.advances, .refl⟩

/-- A stage inside a block is inside a reachable one. -/
theorem On.reachable (hg : g.Consistent) (ht : DomTree.ofGraph g = .ok t)
    (h : On g t summary hasMonitors last (.inside done b n s k)) : g.Reachable b :=
  (DomTree.mem_preorder hg ht).1 h.mem_preorder

/-! ## Observed stores stay observed -/

variable {S i : InstId} {inst : Inst} {throws : Bool} {st : State × Knowledge}

/-- Before an instruction that throws, what is pending and not private is kept. -/
theorem State.beforeThrow_eq (s : State) (k : Knowledge) (throws : Bool) :
    s.beforeThrow k throws = s.keep (if throws then k.pendingWhere (!s.isPrivate ·) else []) := by
  cases throws <;> rfl

/-- Values resolve as they did. -/
theorem State.resolve_beforeThrow (s : State) (k : Knowledge) (throws : Bool) (v : InstId) :
    (s.beforeThrow k throws).resolve v = s.resolve v := by
  rw [beforeThrow_eq, resolve_keep]

/-- What is kept before is kept. -/
theorem State.keeps_beforeThrow (h : s.Keeps S) : (s.beforeThrow k throws).Keeps S := by
  rw [beforeThrow_eq]
  exact keeps_keep.2 (.inr h)

/-- Visiting an instruction keeps what is kept. -/
theorem Visited.keeps (h : Visited g summary s k i inst throws st) (hS : s.Keeps S) : st.1.Keeps S := by
  cases h with
  | forward => exact hS
  | load => exact State.keeps_keep.2 (.inr hS)
  | redundant => exact hS
  | store => exact State.keeps_keep.2 (.inr hS)
  | other => exact State.keeps_keep.2 (.inr hS)

/-- Leaving a block keeps what is kept. -/
theorem leave_keeps (h : s.Keeps S) : (leave block b s k).Keeps S := by
  rw [leave]
  split
  · exact State.keeps_keep.2 (.inr h)
  · exact h

/-- A step keeps what is kept. -/
theorem Advance.keeps (h : Advance g t summary c c') (hS : c.state.Keeps S) : c'.state.Keeps S := by
  cases h with
  | @enter done rest b s =>
    obtain ⟨xs, hxs⟩ := enter_state g t summary s b
    simp only [Stage.state] at hS ⊢
    rw [hxs]
    exact State.keeps_keep.2 (.inr hS)
  | visit _ _ hvisit =>
    obtain ⟨inst, throws, -, -, hvisited⟩ := visit_eq_ok hvisit
    exact hvisited.keeps (State.keeps_beforeThrow hS)
  | leave => exact leave_keeps hS

/-- At the end of a block, the pass leaves it. -/
theorem On.leaves (h : On g t summary hasMonitors last (.inside done b n s k)) (hb : g.block b = .ok block)
    (hn : n = block.insts.length) :
    On g t summary hasMonitors last (.between (done ++ [b]) (leave block b s k)) := by
  obtain ⟨hfrom, hto⟩ := h
  rcases Relation.ReflTransGen.cases_head hto with heq | ⟨c, hadv, hto⟩
  · cases heq
  · cases hadv with
    | visit hb' hi =>
      rw [hb] at hb'
      cases hb'
      simp [hn] at hi
    | leave hb' =>
      rw [hb] at hb'
      cases hb'
      exact ⟨.tail hfrom (.leave hb), hto⟩

/-- What is kept at some stage is kept in the end. -/
theorem On.keeps_last (h : On g t summary hasMonitors last c) (hS : c.state.Keeps S) : last.Keeps S := by
  obtain ⟨-, hto⟩ := h
  induction hto using Relation.ReflTransGen.head_induction_on with
  | refl => exact hS
  | head hadv _ ih => exact ih (hadv.keeps hS)

/-! ## What the tables say -/

/-- A load that was removed stays removed. -/
theorem Advance.removedLoads (h : Advance g t summary c c') (hi : i ∈ c.state.removedLoads) :
    i ∈ c'.state.removedLoads := by
  cases h with
  | @enter done rest b s =>
    obtain ⟨xs, hxs⟩ := enter_state g t summary s b
    simp only [Stage.state] at hi ⊢
    rw [hxs]
    exact hi
  | visit _ _ hvisit =>
    obtain ⟨inst, throws, -, -, hvisited⟩ := visit_eq_ok hvisit
    rw [State.beforeThrow_eq] at hvisited
    simp only [Stage.state] at hi ⊢
    generalize hst : (_, _) = st at hvisited
    cases hvisited with
    | forward =>
      cases hst
      exact List.mem_append_left _ hi
    | load | redundant | store | other =>
      cases hst
      exact hi
  | leave =>
    simp only [Stage.state, LoadStore.leave] at hi ⊢
    split <;> exact hi

/-- A load that is removed at some stage is removed in the end. -/
theorem On.removedLoads_last (h : On g t summary hasMonitors last c) (hi : i ∈ c.state.removedLoads) :
    i ∈ last.removedLoads := by
  obtain ⟨-, hto⟩ := h
  induction hto using Relation.ReflTransGen.head_induction_on with
  | refl => exact hi
  | head hadv _ ih => exact ih (hadv.removedLoads hi)

/-- Visiting an instruction changes neither the exits nor what is known about allocations. -/
theorem Visited.frame (h : Visited g summary s k i inst throws st) :
    st.1.exits = s.exits ∧ st.1.escapes = s.escapes := by
  cases h <;> exact ⟨rfl, rfl⟩

/-- Keeping stores before a throw changes neither what is known at ends of blocks nor what escapes. -/
theorem State.beforeThrow_frame (s : State) (k : Knowledge) (throws : Bool) :
    (s.beforeThrow k throws).exits = s.exits ∧ (s.beforeThrow k throws).escapes = s.escapes := by
  cases throws <;> exact ⟨rfl, rfl⟩

/-- What escapes is what was found before the pass. -/
theorem On.escapes (hc : On g t summary hasMonitors last c) : c.state.escapes = escapesOf g := by
  refine hc.induction (I := fun c => c.state.escapes = escapesOf g) rfl ?_
  rintro c c' - - hadv ih
  cases hadv with
  | @enter done rest b s =>
    obtain ⟨xs, hxs⟩ := enter_state g t summary s b
    simp only [Stage.state] at ih ⊢
    rw [hxs]
    exact ih
  | visit _ _ hvisit =>
    obtain ⟨inst, throws, -, -, hvisited⟩ := visit_eq_ok hvisit
    exact hvisited.frame.2.trans ((State.beforeThrow_frame _ _ _).2.trans ih)
  | leave =>
    simp only [Stage.state, leave] at ih ⊢
    split <;> exact ih

/-- The blocks that were left. -/
def Stage.left : Stage → List BlockId
  | between done _ => done
  | inside done _ _ _ _ => done

/-- Leaving a block notes what is known at its end. -/
theorem leave_exit? (p : BlockId) :
    (leave block b s k).exit? p = if p = b then some k else s.exit? p := by
  have hexits : (leave block b s k).exits = s.exits.set b.index (some k) := by
    rw [leave]
    split <;> rfl
  simp only [State.exit?, hexits, Table.get_set, BlockId.index_inj]

/-- The exits are those of the blocks that were left, with what was known there. -/
theorem On.exits (hc : On g t summary hasMonitors last c) :
    (∀ p, p ∈ c.left → ∃ k, c.state.exit? p = some k) ∧
      ∀ p k, c.state.exit? p = some k → p ∈ c.left ∧ ∃ done s block, g.block p = .ok block ∧
        On g t summary hasMonitors last (.inside done p block.insts.length s k) := by
  refine hc.induction (I := fun c => (∀ p, p ∈ c.left → ∃ k, c.state.exit? p = some k) ∧
      ∀ p k, c.state.exit? p = some k → p ∈ c.left ∧ ∃ done s block, g.block p = .ok block ∧
        On g t summary hasMonitors last (.inside done p block.insts.length s k)) ⟨?_, ?_⟩ ?_
  · intro p hp
    cases hp
  · intro p k hexit
    simp [Stage.state, first, State.empty, State.exit?] at hexit
  · rintro c c' hc - hadv ih
    cases hadv with
    | @enter done rest b s =>
      obtain ⟨xs, hxs⟩ := enter_state g t summary s b
      simp only [Stage.state, Stage.left] at ih ⊢
      rw [hxs]
      exact ih
    | @visit _ _ _ s s' _ _ _ _ _ _ hvisit =>
      obtain ⟨inst, throws, -, -, hvisited⟩ := visit_eq_ok hvisit
      have hexits : s'.exits = s.exits := hvisited.frame.1.trans (State.beforeThrow_frame _ _ _).1
      simp only [Stage.state, Stage.left, State.exit?] at ih ⊢
      rw [hexits]
      exact ih
    | @leave done b s k block hb =>
      simp only [Stage.state, Stage.left, leave_exit?] at ih ⊢
      refine ⟨fun p hp => ?_, fun p k' hexit => ?_⟩
      · by_cases hpb : p = b
        · exact ⟨k, if_pos hpb⟩
        · rw [if_neg hpb]
          rw [List.mem_append, List.mem_singleton] at hp
          exact ih.1 p (hp.resolve_right hpb)
      · by_cases hpb : p = b
        · rw [if_pos hpb] at hexit
          cases hexit
          subst hpb
          exact ⟨by simp, done, s, block, hb, hc⟩
        · rw [if_neg hpb] at hexit
          obtain ⟨hdone, hon⟩ := ih.2 p k' hexit
          exact ⟨List.mem_append_left _ hdone, hon⟩

section Origins

variable (g t summary hasMonitors last)

/-- A load was replaced: its location was known where the pass visited it. -/
inductive Forwards (x v : InstId) : Prop
  | intro {done : List BlockId} {b : BlockId} {n : Nat} {s : State} {k : Knowledge} {block : Block}
      {inst : Inst} {l : Location} {known : Known} :
    On g t summary hasMonitors last (.inside done b n s k) → g.block b = .ok block →
    block.insts[n]? = some x → g.inst x = .ok inst → inst.kind.isLoad = true →
    g.location? x = .ok (some l) → k.get? l = some known → v = s.resolve known.value → Forwards x v

/-- A store was found redundant: its location was known to hold the value. -/
inductive Repeats (x : InstId) : Prop
  | intro {done : List BlockId} {b : BlockId} {n : Nat} {s s' : State} {k : Knowledge} {block : Block}
      {inst : Inst} {operand : InstId} {l : Location} {known : Known} :
    On g t summary hasMonitors last (.inside done b n s k) →
    On g t summary hasMonitors last (.inside done b (n + 1) s' k) → g.block b = .ok block →
    block.insts[n]? = some x → g.inst x = .ok inst → inst.kind.isStore = true →
    inst.inputs.getLast? = some operand → g.location? x = .ok (some l) → k.get? l = some known →
    s.resolve known.value = s.resolve operand → Repeats x

/-- A store was pending after the pass visited it. -/
inductive Pends (x : InstId) : Prop
  | intro {done : List BlockId} {b : BlockId} {n : Nat} {s : State} {k : Knowledge} {block : Block}
      {inst : Inst} {l : Location} {v : InstId} :
    On g t summary hasMonitors last (.inside done b (n + 1) s k) → g.block b = .ok block →
    block.insts[n]? = some x → g.inst x = .ok inst → inst.kind.isStore = true →
    g.location? x = .ok (some l) → k.get? l = some ⟨v, some x⟩ → Pends x

/-- The tables of the pass hold what its visits have put there. -/
structure Accounted (s : State) : Prop where
  substitutions : ∀ x v, s.substitutions.get x.index = some v →
    Forwards g t summary hasMonitors last x v
  removedLoads : ∀ x ∈ s.removedLoads, ∃ v, s.substitutions.get x.index = some v
  redundant : ∀ x ∈ s.redundant, Repeats g t summary hasMonitors last x
  candidates : ∀ x ∈ s.candidates, Pends g t summary hasMonitors last x

end Origins

/-- Keeping stores leaves every substitution accounted for. -/
theorem Accounted.keep (h : Accounted g t summary hasMonitors last s) (xs : List InstId) :
    Accounted g t summary hasMonitors last (s.keep xs) :=
  ⟨h.substitutions, h.removedLoads, h.redundant, h.candidates⟩

/-- Forwarding a value accounts for the substitution that it makes. -/
theorem Accounted.forward {v : InstId} (h : Accounted g t summary hasMonitors last s)
    (hforwards : Forwards g t summary hasMonitors last i v) :
    Accounted g t summary hasMonitors last { s with
      substitutions := s.substitutions.set i.index (some v), removedLoads := s.removedLoads ++ [i] } := by
  have hget : ∀ x : InstId, (s.substitutions.set i.index (some v)).get x.index =
      if x = i then some v else s.substitutions.get x.index := by
    intro x
    simp only [Table.get_set, InstId.index_inj]
  refine ⟨fun x w hw => ?_, fun x hx => ?_, h.redundant, h.candidates⟩
  · replace hw := (hget x).symm.trans hw
    split at hw
    · next hx =>
      cases hw
      exact hx ▸ hforwards
    · exact h.substitutions x w hw
  · rcases List.mem_append.1 hx with hx | hx
    · by_cases hxi : x = i
      · exact ⟨v, (hget x).trans (if_pos hxi)⟩
      · obtain ⟨w, hw⟩ := h.removedLoads x hx
        exact ⟨w, (hget x).trans ((if_neg hxi).trans hw)⟩
    · exact ⟨v, (hget x).trans (if_pos (List.mem_singleton.1 hx))⟩

/-- Every substitution is accounted for, at every stage. -/
theorem On.accounted (hc : On g t summary hasMonitors last c) :
    Accounted g t summary hasMonitors last c.state := by
  refine hc.induction (I := fun c => Accounted g t summary hasMonitors last c.state) ?_ ?_
  · refine ⟨fun x v hv => ?_, ?_, ?_, ?_⟩
    · simp [Stage.state, first, State.empty] at hv
    all_goals simp [Stage.state, first, State.empty]
  · rintro c c' hc hc' hadv ih
    cases hadv with
    | @enter done rest b s =>
      obtain ⟨xs, hxs⟩ := enter_state g t summary s b
      simp only [Stage.state] at ih ⊢
      rw [hxs]
      exact ih.keep xs
    | @visit done b n s s' k k' block i hb hi hvisit =>
      obtain ⟨inst, throws, hinst, -, hvisited⟩ := visit_eq_ok hvisit
      rw [State.beforeThrow_eq] at hvisited
      simp only [Stage.state] at ih ⊢
      generalize hxs : (if throws then k.pendingWhere (!s.isPrivate ·) else []) = xs at hvisited
      generalize hst : (s', k') = st at hvisited
      cases hvisited with
      | @forward l known hload hloc hknown =>
        cases hst
        rw [State.resolve_keep]
        exact (ih.keep _).forward (.intro hc hb hi hinst hload hloc hknown rfl)
      | load =>
        cases hst
        exact (ih.keep _).keep _
      | redundant hstore hloc hoperand hknown hvalue =>
        cases hst
        rw [State.resolve_keep, State.resolve_keep] at hvalue
        refine ⟨ih.substitutions, ih.removedLoads, fun x hx => ?_, ih.candidates⟩
        rcases List.mem_append.1 hx with hx | hx
        · exact ih.redundant x hx
        · rw [List.mem_singleton] at hx
          exact hx ▸ .intro hc hc' hb hi hinst hstore hoperand hloc hknown hvalue
      | store hstore hloc =>
        cases hst
        refine ⟨ih.substitutions, ih.removedLoads, ih.redundant, fun x hx => ?_⟩
        rcases List.mem_append.1 hx with hx | hx
        · exact ih.candidates x hx
        · rw [List.mem_singleton] at hx
          subst hx
          exact .intro hc' hb hi hinst hstore hloc (by rw [Knowledge.get?_insert, if_pos rfl])
      | other =>
        cases hst
        exact (ih.keep _).keep _
    | @leave done b s k block =>
      simp only [Stage.state, leave] at ih ⊢
      split
      · exact ⟨ih.substitutions, ih.removedLoads, ih.redundant, ih.candidates⟩
      · exact ⟨ih.substitutions, ih.removedLoads, ih.redundant, ih.candidates⟩

end LoadStore

end Midend
