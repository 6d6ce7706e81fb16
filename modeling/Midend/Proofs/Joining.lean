import Midend.Proofs.Arena
import Midend.Proofs.Trace

/-!
# Where paths join

What load/store elimination knows at the start of a block that heads no loop is what all paths to it agree on.
A location keeps its value if all of them know it with this value, and its pending store if all of them have
this store pending there.  The stores that the join observes are those on whose location the paths do not
agree.  The order in which the paths are looked at, whether one is looked at twice and how the entries of
their knowledge are arranged makes no difference.

## Shape of the argument

Knowledge that the pass has come to is a finite map, with a store pending only at its own location
(`Knowledge.Proper`); every step of the pass keeps it so.  Joining two maps is the meet of their entries,
location by location, and meets of values and of pending stores are conjunctions.  So the join of a list says
something about all members of the list, and a list enters the result only as a set.
-/

namespace Midend

namespace LoadStore

open Midend.Graph

variable {g : Graph} {t : DomTree} {summary : EffectSummary} {s s' : State} {k k' : Knowledge} {l : Location}
  {known : Known} {v S i : InstId} {b : BlockId} {ks ks' : List Knowledge}

/-! ## Knowledge as a map -/

namespace Knowledge

/-- A location occurs at most once. -/
def Functional (k : Knowledge) : Prop := (k.map Prod.fst).Nodup

/-- A map has one entry for a location if its first entry is the only one and the rest is a map. -/
theorem functional_cons {e : Location × Known} : Functional (e :: k) ↔ (∀ x, (e.1, x) ∉ k) ∧ k.Functional := by
  simp [Functional]

/-- Part of a map is a map. -/
theorem Functional.sublist (h : k.Functional) (hsub : k'.Sublist k) : k'.Functional :=
  (hsub.map Prod.fst).nodup h

/-- To be an entry is to be found. -/
theorem Functional.mem_iff (h : k.Functional) : (l, known) ∈ k ↔ k.get? l = some known := by
  refine ⟨fun hmem => ?_, mem_of_get?⟩
  induction k with
  | nil => cases hmem
  | cons e k ih =>
    rw [functional_cons] at h
    rw [get?_cons]
    rcases List.mem_cons.1 hmem with rfl | hmem
    · exact if_pos rfl
    · rw [if_neg]
      · exact ih h.2 hmem
      · rintro rfl
        exact h.1 known hmem

/-- What is pending in a map is pending where it is looked up. -/
theorem Functional.mem_pendingWhere (h : k.Functional) {p : Location → Bool} :
    S ∈ k.pendingWhere p ↔ ∃ l v, k.get? l = some ⟨v, some S⟩ ∧ p l = true := by
  simp only [Knowledge.mem_pendingWhere, h.mem_iff]

/-- Forgetting leaves a map. -/
theorem Functional.forget (h : k.Functional) (p : Location → Bool) : (k.forget p).Functional :=
  h.sublist List.filter_sublist

/-- Learning leaves a map. -/
theorem Functional.insert (h : k.Functional) : (k.insert l known).Functional := by
  refine functional_cons.2 ⟨fun x hx => ?_, h.sublist List.filter_sublist⟩
  simp at hx

/-- What is left of an entry has the location of the entry. -/
theorem Functional.join (h : k.Functional) : (k.join k').Functional := by
  induction k with
  | nil => exact h
  | cons e k ih =>
    rw [functional_cons] at h
    rw [Knowledge.join, List.filterMap_cons]
    split
    · exact ih h.2
    · next e' he' =>
      refine functional_cons.2 ⟨fun x hx => ?_, ih h.2⟩
      rw [(joinEntry_eq_some he').1] at hx
      obtain ⟨⟨y, hy, -⟩, -⟩ := mem_join hx
      exact h.1 y hy

/-- What a join knows of a location comes from what both sides know of it. -/
theorem Functional.get?_join (h : k.Functional) (hjoin : (k.join k').get? l = some known) :
    ∃ x y, k.get? l = some x ∧ k'.get? l = some y ∧ x.value = known.value ∧ y.value = known.value ∧
      ∀ S, known.pending = some S → x.pending = some S ∧ y.pending = some S := by
  obtain ⟨⟨l', x⟩, hx, hentry⟩ := List.mem_filterMap.1 (mem_of_get? hjoin)
  obtain ⟨rfl, hvalue, y, hy, hvalue', hpending⟩ := joinEntry_eq_some hentry
  exact ⟨x, y, h.mem_iff.1 hx, hy, hvalue.symm, hvalue'.trans hvalue.symm, hpending⟩

/-- After a join, a location has the value that it has on both sides. -/
theorem Functional.value_join (h : k.Functional) : (∃ pending, (k.join k').get? l = some ⟨v, pending⟩) ↔
    (∃ pending, k.get? l = some ⟨v, pending⟩) ∧ ∃ pending, k'.get? l = some ⟨v, pending⟩ := by
  constructor
  · rintro ⟨pending, hjoin⟩
    obtain ⟨⟨_, x⟩, ⟨_, y⟩, hx, hy, rfl, rfl, -⟩ := h.get?_join hjoin
    exact ⟨⟨x, hx⟩, y, hy⟩
  · rintro ⟨⟨x, hx⟩, y, hy⟩
    have hentry : ∃ pending, joinEntry k' (l, ⟨v, x⟩) = some (l, ⟨v, pending⟩) := by
      simp only [joinEntry, hy, if_true]
      split
      · exact ⟨x, rfl⟩
      · exact ⟨none, rfl⟩
    obtain ⟨pending, hentry⟩ := hentry
    exact ⟨pending, h.join.mem_iff.1 (List.mem_filterMap.2 ⟨_, mem_of_get? hx, hentry⟩)⟩

/-- After a join, a store is pending where it is pending on both sides. -/
theorem Functional.pending_join (h : k.Functional) : (k.join k').get? l = some ⟨v, some S⟩ ↔
    k.get? l = some ⟨v, some S⟩ ∧ k'.get? l = some ⟨v, some S⟩ := by
  refine ⟨fun hjoin => ?_, fun hboth => get?_join_of_agree hboth.1 hboth.2⟩
  obtain ⟨⟨_, x⟩, ⟨_, y⟩, hx, hy, rfl, rfl, hpending⟩ := h.get?_join hjoin
  obtain ⟨rfl, rfl⟩ := hpending S rfl
  exact ⟨hx, hy⟩

/-- A join observes what is pending on one side and not in the same way on the other. -/
theorem Functional.mem_joinObserves (h : k.Functional) (h' : k'.Functional) : S ∈ k.joinObserves k' ↔
    ∃ l v, k.get? l = some ⟨v, some S⟩ ∧ k'.get? l ≠ some ⟨v, some S⟩ ∨
      k'.get? l = some ⟨v, some S⟩ ∧ k.get? l ≠ some ⟨v, some S⟩ := by
  have hagree : ∀ l, (!agree k k' l) = true ↔ ∀ x, k.get? l = some x → k'.get? l ≠ some x := by
    intro l
    rw [Bool.not_eq_true', Bool.eq_false_iff, ne_eq, agree_eq_true, not_exists]
    simp only [not_and]
  rw [joinObserves, List.mem_append, h.mem_pendingWhere, h'.mem_pendingWhere]
  simp only [hagree, ← exists_or]
  refine exists_congr fun l => exists_congr fun v => or_congr ?_ ?_
  · refine and_congr_right fun hS => ⟨fun hx => hx _ hS, fun hno x hx => ?_⟩
    rwa [← hx, hS]
  · refine and_congr_right fun hS => ⟨fun hx hk => hx _ hk hS, fun hno x hx hx' => ?_⟩
    rw [hx', Option.some.injEq] at hS
    exact hno (hS ▸ hx)

end Knowledge

/-! ## Joins of any number of paths -/

/-- The paths are joined one after the other. -/
theorem joinExits_induction {P : List Knowledge → State × Knowledge → Prop} (hone : ∀ k, P [k] (s, k))
    (hnext : ∀ ks st k, ks ≠ [] → P ks st → P (ks ++ [k]) (joinExit st k)) (hne : ks ≠ []) :
    P ks (joinExits s ks) := by
  obtain ⟨first, others, rfl⟩ := List.exists_cons_of_ne_nil hne
  induction others using List.reverseRecOn with
  | nil => exact hone first
  | append_singleton others last ih =>
    rw [joinExits, List.foldl_append]
    exact hnext (first :: others) _ last (by simp) (ih (by simp))

/-- What is known after the join of paths: a value if all have it, and a pending store if all have it pending.
-/
structure Joined (ks : List Knowledge) (k : Knowledge) : Prop where
  functional : k.Functional
  value : ∀ l v, (∃ pending, k.get? l = some ⟨v, pending⟩) ↔ ∀ k ∈ ks, ∃ pending, k.get? l = some ⟨v, pending⟩
  pending : ∀ l v S, k.get? l = some ⟨v, some S⟩ ↔ ∀ k ∈ ks, k.get? l = some ⟨v, some S⟩

/-- Joining one more exit. -/
theorem Joined.join (h : Joined ks k) : Joined (ks ++ [k']) (k.join k') where
  functional := h.functional.join
  value l v := by
    rw [h.functional.value_join, h.value]
    simp [or_imp, forall_and]
  pending l v S := by
    rw [h.functional.pending_join, h.pending]
    simp [or_imp, forall_and]

/-- Joining all exits gives what all of them agree on. -/
theorem joined_joinExits (hks : ∀ k ∈ ks, k.Functional) (hne : ks ≠ []) : Joined ks (joinExits s ks).2 := by
  refine joinExits_induction (P := fun ks st => (∀ k ∈ ks, k.Functional) → Joined ks st.2) (fun k hk => ?_)
    (fun ks st k _ ih hks => ?_) hne hks
  · exact ⟨hk k List.mem_cons_self, fun l v => by simp, fun l v S => by simp⟩
  · exact (ih fun k' hk' => hks k' (List.mem_append_left _ hk')).join

/-- A store is pending on one of the paths, and not in the same way on all of them. -/
def Disputed (ks : List Knowledge) (S : InstId) : Prop :=
  ∃ k ∈ ks, ∃ l v, k.get? l = some ⟨v, some S⟩ ∧ ∃ k' ∈ ks, k'.get? l ≠ some ⟨v, some S⟩

/-- What is disputed among some exits is disputed among more. -/
theorem Disputed.mono (h : Disputed ks S) (hsub : ∀ k ∈ ks, k ∈ ks') : Disputed ks' S := by
  obtain ⟨k, hk, l, v, hS, k', hk', hno⟩ := h
  exact ⟨k, hsub k hk, l, v, hS, k', hsub k' hk', hno⟩

/-- What one more path makes the join observe is disputed. -/
theorem Joined.disputed_of_mem_joinObserves (h : Joined ks k) (hne : ks ≠ []) (hk' : k'.Functional)
    (hS : S ∈ k.joinObserves k') : Disputed (ks ++ [k']) S := by
  have hlast : k' ∈ ks ++ [k'] := by simp
  rw [h.functional.mem_joinObserves hk'] at hS
  obtain ⟨l, v, ⟨hS, hno⟩ | ⟨hS, hno⟩⟩ := hS
  · -- pending on all paths up to the last
    obtain ⟨first, hfirst⟩ := List.exists_mem_of_ne_nil ks hne
    exact ⟨first, List.mem_append_left _ hfirst, l, v, (h.pending l v S).1 hS first hfirst, k', hlast, hno⟩
  · rw [ne_eq, h.pending] at hno
    push Not at hno
    obtain ⟨k₁, hk₁, hno⟩ := hno
    exact ⟨k', hlast, l, v, hS, k₁, List.mem_append_left _ hk₁, hno⟩

/-- The join observes the stores that are disputed, and no others. -/
theorem keeps_joinExits (hks : ∀ k ∈ ks, k.Functional) (hne : ks ≠ []) :
    (joinExits s ks).1.Keeps S ↔ s.Keeps S ∨ Disputed ks S := by
  constructor
  · -- that what is known is the meet of the paths so far goes along in the induction
    refine (joinExits_induction (P := fun ks st => (∀ k ∈ ks, k.Functional) →
      Joined ks st.2 ∧ (st.1.Keeps S → s.Keeps S ∨ Disputed ks S))
    (fun k hk => ?_) (fun ks st k hne ih hks => ?_)
        hne hks).2
    · exact ⟨joined_joinExits (s := s) hk (by simp), .inl⟩
    · obtain ⟨hjoined, hkept⟩ := ih fun k' hk' => hks k' (List.mem_append_left _ hk')
      refine ⟨hjoined.join, fun hkeeps => ?_⟩
      rcases State.keeps_keep.1 hkeeps with hobserved | hkeeps
      · exact .inr (hjoined.disputed_of_mem_joinObserves hne (hks k (by simp)) hobserved)
      · exact (hkept hkeeps).imp_right (·.mono fun _ hk' => List.mem_append_left _ hk')
  · rintro (hkept | ⟨k, hk, l, v, hS, k', hk', hno⟩)
    · obtain ⟨xs, hxs⟩ := joinExits_state s ks
      rw [hxs, State.keeps_keep]
      exact .inr hkept
    · refine (pending_joinExits hk hS).resolve_right fun hpending => ?_
      exact hno (((joined_joinExits hks hne).pending l v S).1 hpending k' hk')

/-! ## Only the set of maps matters -/

/-- The same maps, in whatever order and however often, and with their entries in whatever order. -/
def SameMaps (ks ks' : List Knowledge) : Prop :=
  (∀ k ∈ ks, ∃ k' ∈ ks', ∀ l, k'.get? l = k.get? l) ∧ ∀ k' ∈ ks', ∃ k ∈ ks, ∀ l, k.get? l = k'.get? l

/-- Having the same maps is symmetric. -/
theorem SameMaps.symm (h : SameMaps ks ks') : SameMaps ks' ks := ⟨h.2, h.1⟩

/-- What holds of all answers of some maps holds of the answers of the same maps. -/
theorem SameMaps.forall_get? (h : SameMaps ks ks') {P : Option Known → Prop} (hks : ∀ k ∈ ks, P (k.get? l)) :
    ∀ k ∈ ks', P (k.get? l) := by
  intro k' hk'
  obtain ⟨k, hk, hget⟩ := h.2 k' hk'
  exact hget l ▸ hks k hk

/-- What is disputed does not depend on the order of the maps. -/
theorem SameMaps.disputed (h : SameMaps ks ks') (hS : Disputed ks S) : Disputed ks' S := by
  obtain ⟨k, hk, l, v, hS, k₁, hk₁, hno⟩ := hS
  obtain ⟨k', hk', hget⟩ := h.1 k hk
  obtain ⟨k₁', hk₁', hget₁⟩ := h.1 k₁ hk₁
  exact ⟨k', hk', l, v, (hget l).trans hS, k₁', hk₁', hget₁ l ▸ hno⟩

/-- What is known of a location is told by its value and its pending store. -/
theorem Knowledge.get?_eq_of_iff
    (hvalue : ∀ v, (∃ pending, k.get? l = some ⟨v, pending⟩) ↔ ∃ pending, k'.get? l = some ⟨v, pending⟩)
    (hpending : ∀ v S, k.get? l = some ⟨v, some S⟩ ↔ k'.get? l = some ⟨v, some S⟩) : k.get? l = k'.get? l := by
  cases hk : k.get? l with
  | none =>
    refine (Option.eq_none_iff_forall_ne_some.2 fun x hx => ?_).symm
    obtain ⟨pending, hpending⟩ := (hvalue x.value).2 ⟨x.pending, hx⟩
    rw [hk] at hpending
    cases hpending
  | some x =>
    obtain ⟨v, _ | S⟩ := x
    · obtain ⟨pending, hk'⟩ := (hvalue v).1 ⟨none, hk⟩
      cases pending with
      | none => exact hk'.symm
      | some S => exact hk.symm.trans (((hpending v S).2 hk').trans hk'.symm)
    · exact ((hpending v S).1 hk).symm

/-- What is agreed on does not depend on the order of the maps, nor on how often one occurs. -/
theorem Joined.get?_eq (h : Joined ks k) (h' : Joined ks' k') (hsame : SameMaps ks ks') (l : Location) :
    k.get? l = k'.get? l := by
  refine Knowledge.get?_eq_of_iff (fun v => ?_) fun v S => ?_
  · rw [h.value, h'.value]
    exact ⟨hsame.forall_get? (P := fun o => ∃ pending, o = some ⟨v, pending⟩),
      hsame.symm.forall_get? (P := fun o => ∃ pending, o = some ⟨v, pending⟩)⟩
  · rw [h.pending, h'.pending]
    exact ⟨hsame.forall_get? (P := (· = some ⟨v, some S⟩)), 
      hsame.symm.forall_get? (P := (· = some ⟨v, some S⟩))⟩

/-- The join of paths depends on what they know, and on nothing else. -/
theorem joinExits_eq_of_sameMaps (hks : ∀ k ∈ ks, k.Functional) (hks' : ∀ k ∈ ks', k.Functional) (hne : ks ≠ [])
    (hsame : SameMaps ks ks') : (∀ l, (joinExits s ks).2.get? l = (joinExits s ks').2.get? l) ∧
      ∀ S, (joinExits s ks).1.Keeps S ↔ (joinExits s ks').1.Keeps S := by
  have hne' : ks' ≠ [] := by
    obtain ⟨k, hk⟩ := List.exists_mem_of_ne_nil ks hne
    obtain ⟨k', hk', -⟩ := hsame.1 k hk
    exact List.ne_nil_of_mem hk'
  refine ⟨(joined_joinExits hks hne).get?_eq (joined_joinExits hks' hne') hsame, fun S => ?_⟩
  rw [keeps_joinExits hks hne, keeps_joinExits hks' hne']
  exact or_congr_right ⟨hsame.disputed, hsame.symm.disputed⟩

/-! ## Knowledge of the pass -/

/-- Knowledge as the pass has it: a location occurs once, and a store is pending only where it stores to. -/
structure Knowledge.Proper (g : Graph) (k : Knowledge) : Prop where
  functional : k.Functional
  pending : ∀ l v S, (l, ⟨v, some S⟩) ∈ k → g.location? S = .ok (some l)

/-- Nothing known is proper. -/
theorem Knowledge.proper_nil : Knowledge.Proper g [] :=
  ⟨List.nodup_nil, fun _ _ _ hmem => absurd hmem List.not_mem_nil⟩

/-- Forgetting leaves knowledge proper. -/
theorem Knowledge.Proper.forget (h : k.Proper g) (p : Location → Bool) : (k.forget p).Proper g :=
  ⟨h.functional.forget p, fun l v S hmem => h.pending l v S (Knowledge.mem_forget.1 hmem).1⟩

/-- Learning leaves knowledge proper, if what is pending is at its location. -/
theorem Knowledge.Proper.insert (h : k.Proper g)
    (hpending : ∀ S, known.pending = some S → g.location? S = .ok (some l)) : (k.insert l known).Proper g := by
  refine ⟨h.functional.insert, fun l' v S hmem => ?_⟩
  rcases Knowledge.mem_insert hmem with heq | ⟨hmem, -⟩
  · cases heq
    exact hpending S rfl
  · exact h.pending l' v S hmem

/-- Each way of visiting an instruction leaves knowledge proper. -/
theorem Visited.proper {inst : Inst} {throws : Bool} {st : State × Knowledge}
    (h : Visited g summary s k i inst throws st) (hk : k.Proper g) : st.2.Proper g := by
  cases h with
  | forward | redundant => exact hk
  | load => exact hk.insert fun S hS => nomatch hS
  | store _ hloc =>
    refine (hk.forget _).insert fun S hS => ?_
    cases hS
    exact hloc
  | other => exact hk.forget _

/-- Visiting instructions in order leaves knowledge proper, and the exits as they were. -/
theorem proper_visitAll {is : List InstId} {st st' : State × Knowledge} (h : visitAll g summary st is = .ok st')
    (hk : st.2.Proper g) : st'.2.Proper g ∧ st'.1.exits = st.1.exits := by
  induction is generalizing st with
  | nil =>
    cases h
    exact ⟨hk, rfl⟩
  | cons i is ih =>
    rw [visitAll, Checked.bind_eq_ok] at h
    obtain ⟨st₁, hvisit, h⟩ := h
    obtain ⟨inst, throws, -, -, hvisited⟩ := visit_eq_ok hvisit
    obtain ⟨hproper, hexits⟩ := ih h (hvisited.proper hk)
    exact ⟨hproper, hexits.trans (hvisited.frame.1.trans (State.beforeThrow_frame ..).1)⟩

/-- What was known at the end of each visited block is proper. -/
def State.Proper (g : Graph) (s : State) : Prop := ∀ b k, s.exit? b = some k → k.Proper g

/-- The state before the first block is proper. -/
theorem State.proper_first (g : Graph) (hasMonitors : Bool) : (first g hasMonitors).Proper g := by
  intro b k hexit
  simp [first, State.empty, State.exit?] at hexit

/-- What the predecessors of a block knew at their ends, as far as they were visited. -/
def State.exitsOf (s : State) (preds : List BlockId) : List Knowledge := (preds.map s.exit?).reduceOption

/-- The exits of some blocks are those that were noted. -/
theorem State.mem_exitsOf {preds : List BlockId} : k ∈ s.exitsOf preds ↔ ∃ p ∈ preds, s.exit? p = some k := by
  rw [exitsOf, List.reduceOption_mem_iff, List.mem_map]

/-- In a proper state the exits are maps. -/
theorem State.Proper.functional_exitsOf (h : s.Proper g) (preds : List BlockId) :
    ∀ k ∈ s.exitsOf preds, k.Functional := by
  intro k hk
  obtain ⟨p, -, hexit⟩ := State.mem_exitsOf.1 hk
  exact (h p k hexit).functional

/-- What is known where a block is entered is proper. -/
theorem State.Proper.enter (h : s.Proper g) : (enter g t summary s b).2.Proper g := by
  constructor
  · rw [LoadStore.enter]
    split
    · exact List.nodup_nil
    · have hjoin : (joinExits s (s.exitsOf (forwardPreds g t summary.loops b))).2.Functional := by
        by_cases hne : s.exitsOf (forwardPreds g t summary.loops b) = []
        · rw [hne]
          exact List.nodup_nil
        · exact (joined_joinExits (h.functional_exitsOf _) hne).functional
      split
      · exact hjoin.forget fun l => (summary.ofHeader b).mayWrite (l.category g)
      · exact hjoin
  · intro l v S hmem
    -- what is pending at the start of a block is pending at the end of any of its predecessors
    obtain ⟨hne, hpreds, -⟩ := mem_enter hmem
    obtain ⟨p, hp⟩ := List.exists_mem_of_ne_nil _ hne
    obtain ⟨k, ⟨w, pending⟩, hexit, hx, rfl, hpending⟩ := hpreds p hp
    obtain rfl := hpending S rfl
    exact (h p k hexit).pending l _ S hx

/-- Visiting a block leaves the state proper. -/
theorem State.Proper.visitBlock (h : s.Proper g) (hvisit : visitBlock g t summary s b = .ok s') :
    s'.Proper g := by
  simp only [LoadStore.visitBlock, Checked.bind_eq_ok, Checked.pure_eq_ok] at hvisit
  obtain ⟨block, -, ⟨s₁, k₁⟩, hall, rfl⟩ := hvisit
  obtain ⟨hproper, hexits⟩ := proper_visitAll hall h.enter
  obtain ⟨xs, hxs⟩ := enter_state g t summary s b
  intro p k hexit
  change (leave block b s₁ k₁).exit? p = some k at hexit
  rw [leave_exit?] at hexit
  split at hexit
  · cases hexit
    exact hproper
  · refine h p k ?_
    rw [State.exit?, hexits, hxs] at hexit
    exact hexit

/-- Visiting blocks in order does, from the first on. -/
theorem State.proper_of_visitBlocks {bs : List BlockId} {hasMonitors : Bool}
    (h : bs.foldlM (visitBlock g t summary) (first g hasMonitors) = .ok s) : s.Proper g :=
  Checked.foldlM_prefix (P := fun _ s => s.Proper g) h (State.proper_first g hasMonitors)
    fun _ _ _ _ _ _ hs hstep => hs.visitBlock hstep

/-! ## The start of a block -/

/-- What is known after paths from blocks have joined is what they agree on: the values that all of them know,
and the stores pending on all of them.  A store that is pending on one of them counts as observed if it is not
pending in the same way on all; whether any other store does is left as it was. -/
structure Agreement (s : State) (preds : List BlockId) (st : State × Knowledge) : Prop where
  value : ∀ l v, (∃ pending, st.2.get? l = some ⟨v, pending⟩) ↔
    ∀ p ∈ preds, ∃ k pending, s.exit? p = some k ∧ k.get? l = some ⟨v, pending⟩
  pending : ∀ l v S, st.2.get? l = some ⟨v, some S⟩ ↔
    ∀ p ∈ preds, ∃ k, s.exit? p = some k ∧ k.get? l = some ⟨v, some S⟩
  observed : ∀ p ∈ preds, ∀ k l v S, s.exit? p = some k → k.get? l = some ⟨v, some S⟩ →
    (st.1.Keeps S ↔ s.Keeps S ∨ ∃ p' ∈ preds, ∃ k', s.exit? p' = some k' ∧ k'.get? l ≠ some ⟨v, some S⟩)
  others : ∀ S, (∀ p ∈ preds, ∀ k l v, s.exit? p = some k → k.get? l ≠ some ⟨v, some S⟩) →
    (st.1.Keeps S ↔ s.Keeps S)
  frame : ∃ xs, st.1 = s.keep xs

/-- To hold of all ends is to hold at the end of each visited block. -/
theorem State.forall_exitsOf {preds : List BlockId} (hdone : ∀ p ∈ preds, ∃ k, s.exit? p = some k)
    {P : Knowledge → Prop} : (∀ k ∈ s.exitsOf preds, P k) ↔ ∀ p ∈ preds, ∃ k, s.exit? p = some k ∧ P k := by
  constructor
  · intro h p hp
    obtain ⟨k, hk⟩ := hdone p hp
    exact ⟨k, hk, h k (mem_exitsOf.2 ⟨p, hp, hk⟩)⟩
  · intro h k hk
    obtain ⟨p, hp, hexit⟩ := mem_exitsOf.1 hk
    obtain ⟨k', hexit', hk'⟩ := h p hp
    rw [hexit] at hexit'
    cases hexit'
    exact hk'

/-- The join of what visited blocks knew at their ends is what they agree on. -/
theorem State.Proper.agreement {preds : List BlockId} (h : s.Proper g) (hne : s.exitsOf preds ≠ [])
    (hdone : ∀ p ∈ preds, ∃ k, s.exit? p = some k) : Agreement s preds (joinExits s (s.exitsOf preds)) := by
  have hks := h.functional_exitsOf preds
  have hjoined := joined_joinExits (s := s) hks hne
  constructor
  case value =>
    intro l v
    rw [hjoined.value, State.forall_exitsOf hdone]
    simp only [exists_and_left]
  case pending =>
    intro l v S
    rw [hjoined.pending, State.forall_exitsOf hdone]
  case observed =>
    intro p hp k l v S hexit hS
    rw [keeps_joinExits hks hne]
    refine or_congr_right ⟨?_, ?_⟩
    · -- a store has one location, so the dispute is about this one
      rintro ⟨k₁, hk₁, l₁, v₁, hS₁, k', hk', hno⟩
      obtain ⟨p₁, hp₁, hexit₁⟩ := State.mem_exitsOf.1 hk₁
      obtain ⟨p', hp', hexit'⟩ := State.mem_exitsOf.1 hk'
      have hloc := (h p k hexit).pending l v S (Knowledge.mem_of_get? hS)
      have hloc₁ := (h p₁ k₁ hexit₁).pending l₁ v₁ S (Knowledge.mem_of_get? hS₁)
      obtain rfl : l = l₁ := Option.some.inj (Except.ok.inj (hloc.symm.trans hloc₁))
      by_cases hsame : k₁.get? l = some ⟨v, some S⟩
      · rw [hS₁] at hsame
        cases hsame
        exact ⟨p', hp', k', hexit', hno⟩
      · exact ⟨p₁, hp₁, k₁, hexit₁, hsame⟩
    · rintro ⟨p', hp', k', hexit', hno⟩
      exact ⟨k, State.mem_exitsOf.2 ⟨p, hp, hexit⟩, l, v, hS, k', State.mem_exitsOf.2 ⟨p', hp', hexit'⟩, hno⟩
  case others =>
    intro S hnone
    rw [keeps_joinExits hks hne, or_iff_left]
    rintro ⟨k, hk, l, v, hS, -⟩
    obtain ⟨p, hp, hexit⟩ := State.mem_exitsOf.1 hk
    exact hnone p hp k l v hexit hS
  case frame => exact joinExits_state s _

/-- At the start of a block that heads no loop, after any visits of blocks among which its forward
predecessors are, load/store elimination knows what these predecessors agree on.  Any list of maps that has
the same maps as their ends joins to the same. -/
theorem enter_is_agreement {bs : List BlockId} {hasMonitors : Bool}
    (hvisits : bs.foldlM (visitBlock g t summary) (first g hasMonitors) = .ok s)
    (hheader : summary.loops.isHeader b = false) (hne : forwardPreds g t summary.loops b ≠ [])
    (hdone : ∀ p ∈ forwardPreds g t summary.loops b, ∃ k, s.exit? p = some k) :
    Agreement s (forwardPreds g t summary.loops b) (enter g t summary s b) ∧
    ∀ ks : List Knowledge, (∀ k ∈ ks, k.Functional) →
      SameMaps (s.exitsOf (forwardPreds g t summary.loops b)) ks →
        (∀ l, (enter g t summary s b).2.get? l = (joinExits s ks).2.get? l) ∧
        ∀ S, (enter g t summary s b).1.Keeps S ↔ (joinExits s ks).1.Keeps S := by
  have hs := State.proper_of_visitBlocks hvisits
  have hne' : s.exitsOf (forwardPreds g t summary.loops b) ≠ [] := by
    obtain ⟨p, hp⟩ := List.exists_mem_of_ne_nil _ hne
    obtain ⟨k, hk⟩ := hdone p hp
    exact List.ne_nil_of_mem (State.mem_exitsOf.2 ⟨p, hp, hk⟩)
  have henter : enter g t summary s b = joinExits s (s.exitsOf (forwardPreds g t summary.loops b)) := by
    rw [enter, if_neg, hheader]
    · rfl
    · rw [List.contains_iff_mem, List.mem_map]
      rintro ⟨p, hp, hnone⟩
      obtain ⟨k, hk⟩ := hdone p hp
      rw [hnone] at hk
      cases hk
  rw [henter]
  exact ⟨hs.agreement hne' hdone, fun ks hks => joinExits_eq_of_sameMaps (hs.functional_exitsOf _) hks hne'⟩

/-- Three paths to one block.  A static field is set before they part.  One field of the receiver is set there
and set anew on one path, the other is set to the same value by two stores, one of which is on two of the
paths. -/
def threePaths : Graph := .ofEdits "threePaths" [
  .createBlock, .createBlock, .createBlock, .createBlock,
  .internField ⟨"Tank", "level", .int, 8, false, false⟩, .internField ⟨"Tank", "limit", .int, 12, false, false⟩,
  .internField ⟨"Tank", "count", .int, 0, true, false⟩,
  .createInst (.param 0) .ref [], .appendInst ⟨0⟩ ⟨0⟩, .createInst (.param 1) .bool [], .appendInst ⟨0⟩ ⟨1⟩,
  .createInst (.param 2) .int [], .appendInst ⟨0⟩ ⟨2⟩, .createInst (.param 3) .int [], .appendInst ⟨0⟩ ⟨3⟩,
  .createInst (.staticSet ⟨2⟩) .void [⟨2⟩], .appendInst ⟨0⟩ ⟨4⟩,
  .createInst (.instanceSet ⟨0⟩) .void [⟨0⟩, ⟨2⟩], .appendInst ⟨0⟩ ⟨5⟩,
  .createInst .branch .void [⟨1⟩], .appendInst ⟨0⟩ ⟨6⟩, .addEdge ⟨0⟩ ⟨1⟩, .addEdge ⟨0⟩ ⟨2⟩,
  .createInst (.instanceSet ⟨0⟩) .void [⟨0⟩, ⟨3⟩], .appendInst ⟨1⟩ ⟨7⟩,
  .createInst (.instanceSet ⟨1⟩) .void [⟨0⟩, ⟨2⟩], .appendInst ⟨1⟩ ⟨8⟩,
  .createInst .jump .void [], .appendInst ⟨1⟩ ⟨9⟩, .addEdge ⟨1⟩ ⟨4⟩,
  .createInst (.instanceSet ⟨1⟩) .void [⟨0⟩, ⟨2⟩], .appendInst ⟨2⟩ ⟨10⟩,
  .createInst .branch .void [⟨1⟩], .appendInst ⟨2⟩ ⟨11⟩, .addEdge ⟨2⟩ ⟨3⟩, .addEdge ⟨2⟩ ⟨4⟩,
  .createInst .jump .void [], .appendInst ⟨3⟩ ⟨12⟩, .addEdge ⟨3⟩ ⟨4⟩,
  .createInst .retVoid .void [], .appendInst ⟨4⟩ ⟨13⟩]

/-- Where the three paths of `threePaths` join, two locations are known, one of them with a store that is
pending on all paths. -/
theorem enter_is_agreement_threePaths :
    ∃ t summary s, DomTree.ofGraph threePaths = .ok t ∧
      [⟨0⟩, ⟨1⟩, ⟨2⟩, ⟨3⟩].foldlM (visitBlock threePaths t summary) (first threePaths false) = .ok s ∧
      summary.loops.isHeader ⟨4⟩ = false ∧ forwardPreds threePaths t summary.loops ⟨4⟩ = [⟨1⟩, ⟨2⟩, ⟨3⟩] ∧
      (∀ p ∈ forwardPreds threePaths t summary.loops ⟨4⟩, ∃ k, s.exit? p = some k) ∧
      (enter threePaths t summary s ⟨4⟩).2 = [(⟨some ⟨0⟩, .instanceField ⟨1⟩⟩, ⟨⟨2⟩, none⟩),
        (⟨none, .staticField ⟨2⟩⟩, ⟨⟨2⟩, some ⟨4⟩⟩)] ∧
      [4, 5, 7, 8, 10].map (enter threePaths t summary s ⟨4⟩).1.kept.get = [false, true, true, true, true] ∧
      Agreement s (forwardPreds threePaths t summary.loops ⟨4⟩) (enter threePaths t summary s ⟨4⟩) := by
  have hrun : (do
      let t ← DomTree.ofGraph threePaths
      let summary ← t.rpo.foldlM (EffectSummary.addBlock threePaths) (.start (LoopForest.ofGraph threePaths t))
      let s ← [⟨0⟩, ⟨1⟩, ⟨2⟩, ⟨3⟩].foldlM (visitBlock threePaths t (summary.finish threePaths))
        (first threePaths false)
      pure (t, summary.finish threePaths, s) : Checked (DomTree × EffectSummary × State)).toOption.any
        (fun (t, summary, s) => summary.loops.isHeader ⟨4⟩ = false ∧
          forwardPreds threePaths t summary.loops ⟨4⟩ = [⟨1⟩, ⟨2⟩, ⟨3⟩] ∧
          (∀ p ∈ forwardPreds threePaths t summary.loops ⟨4⟩, (s.exit? p).isSome = true) ∧
          (enter threePaths t summary s ⟨4⟩).2 = [(⟨some ⟨0⟩, .instanceField ⟨1⟩⟩, ⟨⟨2⟩, none⟩),
            (⟨none, .staticField ⟨2⟩⟩, ⟨⟨2⟩, some ⟨4⟩⟩)] ∧
          [4, 5, 7, 8, 10].map (enter threePaths t summary s ⟨4⟩).1.kept.get =
            [false, true, true, true, true]) = true := by decide +kernel
  obtain ⟨⟨t, summary, s⟩, hrun, hfacts⟩ := Checked.any_toOption.1 hrun
  simp only [Checked.bind_eq_ok, Checked.pure_eq_ok] at hrun
  obtain ⟨t, ht, summary, -, s, hvisits, hrun⟩ := hrun
  cases hrun
  obtain ⟨hheader, hpreds, hexits, hknown, hkept⟩ := of_decide_eq_true hfacts
  have hdone : ∀ p ∈ forwardPreds threePaths t (summary.finish threePaths).loops ⟨4⟩, ∃ k, s.exit? p = some k :=
    fun p hp => Option.isSome_iff_exists.1 (hexits p hp)
  exact ⟨t, _, s, ht, hvisits, hheader, hpreds, hdone, hknown, hkept,
    (enter_is_agreement hvisits hheader (by rw [hpreds]; simp) hdone).1⟩

end LoadStore

end Midend
