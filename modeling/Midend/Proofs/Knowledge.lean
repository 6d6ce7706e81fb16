import Mathlib.Data.List.Induction
import Mathlib.Data.List.ReduceOption
import Midend.Pass.LoadStore
import Midend.Proofs.Locations

/-!
# What is known about memory

The steps of load/store elimination, each by what it does to the knowledge about memory and to the
stores that count as observed.  Later modules use these and look into no step again.

## Shape of the knowledge

Two views are used.  A fact that holds of every entry is kept by forgetting and by joining, so what is
true of memory is said about entries (`∈`).  A pending store is followed by looking up its location
(`get?`), since that is how a join compares its sides: a step observes the store or leaves it pending.
-/

namespace Midend

namespace LoadStore

variable {g : Graph} {s s' : State} {k k' : Knowledge} {l l' : Location} {known : Known} {v S i : InstId}

/-! ## Entries -/

namespace Knowledge

/-- What is known of a location is an entry. -/
theorem mem_of_get? (h : k.get? l = some known) : (l, known) ∈ k := by
  obtain ⟨k₁, k₂, rfl, -⟩ := List.lookup_eq_some_iff.1 h
  simp

/-- The first entry for a location counts. -/
theorem get?_cons (e : Location × Known) (k : Knowledge) (l : Location) :
    get? (e :: k) l = if l = e.1 then some e.2 else k.get? l := by
  obtain ⟨l', known⟩ := e
  rw [get?, List.lookup_cons, get?]
  by_cases h : l = l'
  · simp [h]
  · simp [h, beq_eq_false_iff_ne.2 h]

/-- Keeping the entries of some locations keeps what is known of them. -/
theorem get?_filter (p : Location → Bool) (k : Knowledge) (l : Location) :
    get? (k.filter (p ·.1)) l = if p l = true then k.get? l else none := by
  induction k with
  | nil => simp [get?]
  | cons e k ih =>
    rw [List.filter_cons]
    by_cases he : p e.1 = true
    · rw [if_pos he, get?_cons, get?_cons, ih]
      by_cases hl : l = e.1
      · simp [hl, he]
      · simp [hl]
    · rw [if_neg he, ih, get?_cons]
      by_cases hl : l = e.1
      · simp [hl, he]
      · simp [hl]

/-- Learning replaces what was known of the location. -/
theorem get?_insert : (k.insert l known).get? l' = if l' = l then some known else k.get? l' := by
  rw [insert, get?_cons]
  by_cases h : l' = l
  · simp [h]
  · have hfilter := get?_filter (fun x => decide (x ≠ l)) k l'
    simpa [h] using hfilter

/-- Forgetting leaves what is known of other locations. -/
theorem get?_forget (p : Location → Bool) :
    (k.forget p).get? l = if p l = true then none else k.get? l := by
  rw [forget, get?_filter (fun x => !p x)]
  cases p l <;> rfl

/-- After learning, an entry is the new one or one of another location. -/
theorem mem_insert {e : Location × Known} (h : e ∈ k.insert l known) :
    e = (l, known) ∨ (e ∈ k ∧ e.1 ≠ l) := by
  simpa [insert] using h

/-- After forgetting, the entries of other locations are left. -/
theorem mem_forget {p : Location → Bool} {e : Location × Known} :
    e ∈ k.forget p ↔ e ∈ k ∧ p e.1 = false := by
  simp [forget]

/-- A store is pending somewhere when an entry has it. -/
theorem mem_pendingWhere {p : Location → Bool} :
    S ∈ k.pendingWhere p ↔ ∃ l v, (l, ⟨v, some S⟩) ∈ k ∧ p l = true := by
  simp only [pendingWhere, List.mem_filterMap, Prod.exists, Option.ite_none_right_eq_some]
  constructor
  · rintro ⟨l, ⟨v, pending⟩, hmem, hp, rfl⟩
    exact ⟨l, v, hmem, hp⟩
  · rintro ⟨l, v, hmem, hp⟩
    exact ⟨l, _, hmem, hp, rfl⟩

/-- A store that is pending where a location is looked up is pending. -/
theorem mem_pendingWhere_of_get? {p : Location → Bool} (h : k.get? l = some ⟨v, some S⟩)
    (hp : p l = true) : S ∈ k.pendingWhere p :=
  mem_pendingWhere.2 ⟨l, v, mem_of_get? h, hp⟩

/-! ## Joins -/

/-- A joined entry has a value that both sides agree on, and a pending store only if both have it. -/
theorem joinEntry_eq_some {e e' : Location × Known} (h : joinEntry k e = some e') :
    e'.1 = e.1 ∧ e'.2.value = e.2.value ∧ ∃ theirs, k.get? e.1 = some theirs ∧
      theirs.value = e.2.value ∧
      ∀ S, e'.2.pending = some S → e.2.pending = some S ∧ theirs.pending = some S := by
  obtain ⟨l, mine⟩ := e
  rw [joinEntry] at h
  split at h
  · next theirs htheirs =>
    by_cases hvalue : theirs.value = mine.value
    · rw [if_pos hvalue] at h
      by_cases hpending : theirs.pending = mine.pending
      · rw [if_pos hpending] at h
        cases h
        exact ⟨rfl, rfl, theirs, htheirs, hvalue, fun S hS => ⟨hS, hpending.trans hS⟩⟩
      · rw [if_neg hpending] at h
        cases h
        exact ⟨rfl, rfl, theirs, htheirs, hvalue, by simp⟩
    · rw [if_neg hvalue] at h
      cases h
  · cases h

/-- What a join knows is known on both sides. -/
theorem mem_join (h : (l, known) ∈ k.join k') :
    (∃ x, (l, x) ∈ k ∧ x.value = known.value ∧ ∀ S, known.pending = some S → x.pending = some S) ∧
      ∃ x, (l, x) ∈ k' ∧ x.value = known.value ∧ ∀ S, known.pending = some S → x.pending = some S := by
  obtain ⟨⟨l', mine⟩, hmine, hentry⟩ := List.mem_filterMap.1 h
  obtain ⟨rfl, hvalue, theirs, htheirs, hvalue', hpending⟩ := joinEntry_eq_some hentry
  exact ⟨⟨mine, hmine, hvalue.symm, fun S hS => (hpending S hS).1⟩, theirs, mem_of_get? htheirs,
    hvalue'.trans hvalue.symm, fun S hS => (hpending S hS).2⟩

/-- Two maps agree on a location when both know the same of it. -/
theorem agree_eq_true : agree k k' l = true ↔ ∃ x, k.get? l = some x ∧ k'.get? l = some x := by
  rw [agree]
  split
  · next x y hx hy => simp [hx, hy, eq_comm]
  · next hno =>
    simp only [Bool.false_eq_true, false_iff, not_exists, not_and]
    exact fun x hx hx' => hno x x hx hx'

/-- A location on which both sides agree is known after the join. -/
theorem get?_join_of_agree {x : Known} (h : k.get? l = some x) (h' : k'.get? l = some x) :
    (k.join k').get? l = some x := by
  induction k with
  | nil => simp [get?] at h
  | cons e k ih =>
    rw [get?_cons] at h
    rw [join, List.filterMap_cons]
    by_cases hl : l = e.1
    · rw [if_pos hl] at h
      have hentry : joinEntry k' e = some (l, x) := by
        obtain ⟨l', mine⟩ := e
        cases h
        cases hl
        simp [joinEntry, h']
      rw [hentry]
      simp [get?_cons]
    · rw [if_neg hl] at h
      split
      · exact ih h
      · next e' he' =>
        rw [get?_cons, if_neg (fun heq => hl (heq.trans (joinEntry_eq_some he').1))]
        exact ih h

/-- A join observes a pending store of either side, or leaves it pending. -/
theorem pending_join (h : k.get? l = some ⟨v, some S⟩ ∨ k'.get? l = some ⟨v, some S⟩) :
    S ∈ k.joinObserves k' ∨ (k.join k').get? l = some ⟨v, some S⟩ := by
  by_cases hagree : agree k k' l = true
  · obtain ⟨x, hx, hx'⟩ := agree_eq_true.1 hagree
    have hxS : x = ⟨v, some S⟩ := by
      rcases h with h | h
      · exact Option.some.inj (hx.symm.trans h)
      · exact Option.some.inj (hx'.symm.trans h)
    exact .inr (get?_join_of_agree (hxS ▸ hx) (hxS ▸ hx'))
  · refine .inl (List.mem_append.2 (h.imp ?_ ?_)) <;> intro h <;>
      exact mem_pendingWhere_of_get? h (by simpa using hagree)

end Knowledge

/-! ## The state of the pass -/

namespace State

/-- A store that counts as observed. -/
def Keeps (s : State) (S : InstId) : Prop := s.kept.get S.index = true

/-- Keeping stores adds them to what is kept. -/
theorem keeps_keep {xs : List InstId} : (s.keep xs).Keeps S ↔ S ∈ xs ∨ s.Keeps S := by
  rw [Keeps, keep, Keeps, Table.get_foldl_set InstId.index_injective fun _ => true]
  by_cases hS : S ∈ xs <;> simp [hS]

/-- Keeping stores twice is keeping all of them. -/
theorem keep_keep (s : State) (xs ys : List InstId) : (s.keep xs).keep ys = s.keep (xs ++ ys) := by
  simp [keep, List.foldl_append]

/-- Only the substitutions matter for what a value resolves to. -/
theorem resolve_keep (s : State) (xs : List InstId) (v : InstId) : (s.keep xs).resolve v = s.resolve v := by
  change (s.keep xs).resolveWithin s.substitutions.entries.size v = _
  rw [resolve]
  generalize s.substitutions.entries.size = depth
  induction depth generalizing v with
  | zero => rfl
  | succ depth ih =>
    have hsame : (s.keep xs).substitutions = s.substitutions := rfl
    rw [resolveWithin, resolveWithin, hsame]
    cases s.substitutions.get v.index with
    | none => rfl
    | some j => exact ih j

/-- What holds of a value, and along every substitution, holds of what the value resolves to. -/
theorem resolveWithin_induction {P : InstId → Prop} (hv : P v)
    (step : ∀ x y, P x → s.substitutions.get x.index = some y → P y) (depth : Nat) :
    P (s.resolveWithin depth v) := by
  induction depth generalizing v with
  | zero => exact hv
  | succ depth ih =>
    rw [resolveWithin]
    split
    · next y hy => exact ih (step v y hv hy)
    · exact hv

/-- To resolve a value that has a substitution is to resolve the substitute. -/
theorem resolve_eq_of_get (h : s.substitutions.get i.index = some v) :
    ∃ depth, s.resolve i = s.resolveWithin depth v := by
  rw [resolve]
  cases hsize : s.substitutions.entries.size with
  | zero => simp [Table.get, Array.size_eq_zero_iff.1 hsize] at h
  | succ depth => exact ⟨depth, by rw [resolveWithin, h]⟩

end State

/-! ## The start of a block -/

/-- Joining changes which stores count as observed, and nothing else of the state. -/
theorem joinExits_state (s : State) (ks : List Knowledge) : ∃ xs, (joinExits s ks).1 = s.keep xs := by
  cases ks with
  | nil => exact ⟨[], rfl⟩
  | cons first others =>
    rw [joinExits]
    induction others using List.reverseRecOn with
    | nil => exact ⟨[], rfl⟩
    | append_singleton others last ih =>
      obtain ⟨xs, hxs⟩ := ih
      exact ⟨_, by rw [List.foldl_append, List.foldl_cons, List.foldl_nil, joinExit, hxs, State.keep_keep]⟩

/-- What is known after a join is known on every path. -/
theorem mem_joinExits {ks : List Knowledge} (h : (l, known) ∈ (joinExits s ks).2) :
    ks ≠ [] ∧ ∀ k ∈ ks, ∃ x, (l, x) ∈ k ∧ x.value = known.value ∧
      ∀ S, known.pending = some S → x.pending = some S := by
  cases ks with
  | nil => simp [joinExits] at h
  | cons first others =>
    refine ⟨by simp, ?_⟩
    rw [joinExits] at h
    -- joined from left to right, what is known was known at each step
    induction others using List.reverseRecOn generalizing known with
    | nil =>
      simp only [List.mem_singleton, forall_eq]
      exact ⟨known, h, rfl, fun _ hS => hS⟩
    | append_singleton others last ih =>
      rw [List.foldl_append, List.foldl_cons, List.foldl_nil, joinExit] at h
      obtain ⟨⟨x, hx, hvalue, hpending⟩, hlast⟩ := Knowledge.mem_join h
      intro k hk
      rw [← List.cons_append, List.mem_append, List.mem_singleton] at hk
      rcases hk with hk | rfl
      · obtain ⟨y, hy, hvalue', hpending'⟩ := ih hx k hk
        exact ⟨y, hy, hvalue'.trans hvalue, fun S hS => hpending' S (hpending S hS)⟩
      · exact hlast

/-- A store pending on one path is observed by the join, or pending after it. -/
theorem pending_joinExits {ks : List Knowledge} (hk : k ∈ ks) (h : k.get? l = some ⟨v, some S⟩) :
    (joinExits s ks).1.Keeps S ∨ (joinExits s ks).2.get? l = some ⟨v, some S⟩ := by
  cases ks with
  | nil => cases hk
  | cons first others =>
    rw [joinExits]
    induction others using List.reverseRecOn with
    | nil =>
      rw [List.mem_singleton] at hk
      exact .inr (hk ▸ h)
    | append_singleton others last ih =>
      rw [List.foldl_append, List.foldl_cons, List.foldl_nil, joinExit, State.keeps_keep]
      -- the sides before the last have observed the store or left it pending
      have hside : (others.foldl joinExit (s, first)).1.Keeps S ∨
          (others.foldl joinExit (s, first)).2.get? l = some ⟨v, some S⟩ ∨
            last.get? l = some ⟨v, some S⟩ := by
        rw [← List.cons_append, List.mem_append, List.mem_singleton] at hk
        rcases hk with hk | rfl
        · exact (ih hk).imp_right .inl
        · exact .inr (.inr h)
      rcases hside with hkept | hside
      · exact .inl (.inr hkept)
      · exact (Knowledge.pending_join hside).imp_left .inl

/-- Forgetting by a test leaves the entries that fail it. -/
theorem mem_forgetWhere {st : State × Knowledge} {p : Location → Bool} :
    (l, known) ∈ (forgetWhere st p).2 ↔ (l, known) ∈ st.2 ∧ p l = false :=
  Knowledge.mem_forget

/-- Forgetting a location observes what is pending there, and leaves the others alone. -/
theorem pending_forgetWhere {p : Location → Bool} (h : k.get? l = some ⟨v, some S⟩) :
    (forgetWhere (s, k) p).1.Keeps S ∨ (forgetWhere (s, k) p).2.get? l = some ⟨v, some S⟩ := by
  rw [forgetWhere, State.keepWhere, State.keeps_keep, Knowledge.get?_forget]
  by_cases hp : p l = true
  · exact .inl (.inl (Knowledge.mem_pendingWhere_of_get? h hp))
  · rw [if_neg hp]
    exact .inr h

section Enter

variable {t : DomTree} {summary : EffectSummary} {b p : BlockId}

/-- Entering a block changes the state by keeping stores only. -/
theorem enter_state (g : Graph) (t : DomTree) (summary : EffectSummary) (s : State) (b : BlockId) :
    ∃ xs, (enter g t summary s b).1 = s.keep xs := by
  rw [enter]
  split
  · exact ⟨_, rfl⟩
  · obtain ⟨xs, hxs⟩ := joinExits_state s ((forwardPreds g t summary.loops b).map s.exit?).reduceOption
    split
    · exact ⟨_, by rw [forgetWhere, State.keepWhere, hxs, State.keep_keep]⟩
    · exact ⟨xs, hxs⟩

/-- What is known at the start of a block is known at the end of every forward predecessor, all of which
were visited; and the loop that the block heads, if any, does not write there. -/
theorem mem_enter (h : (l, known) ∈ (enter g t summary s b).2) :
    forwardPreds g t summary.loops b ≠ [] ∧
    (∀ p ∈ forwardPreds g t summary.loops b, ∃ k x, s.exit? p = some k ∧ (l, x) ∈ k ∧
      x.value = known.value ∧ ∀ S, known.pending = some S → x.pending = some S) ∧
    (summary.loops.isHeader b = true → (summary.ofHeader b).mayWrite (l.category g) = false) := by
  rw [enter] at h
  split at h
  · cases h
  · next hvisited =>
    have hjoin : (l, known) ∈
        (joinExits s ((forwardPreds g t summary.loops b).map s.exit?).reduceOption).2 := by
      split at h
      · exact (mem_forgetWhere.1 h).1
      · exact h
    obtain ⟨hne, hall⟩ := mem_joinExits hjoin
    refine ⟨?_, fun p hp => ?_, fun hheader => ?_⟩
    · intro hnil
      simp [hnil, List.reduceOption] at hne
    · cases hexit : s.exit? p with
      | none =>
        refine absurd (List.contains_iff_mem.2 (List.mem_map.2 ⟨p, hp, hexit⟩)) hvisited
      | some k =>
        obtain ⟨x, hx⟩ := hall k (List.reduceOption_mem_iff.2 (List.mem_map.2 ⟨p, hp, hexit⟩))
        exact ⟨k, x, rfl, hx⟩
    · rw [if_pos hheader] at h
      exact (mem_forgetWhere.1 h).2

/-- A store pending at the end of a forward predecessor is observed where the block starts, or pending
there. -/
theorem pending_enter (hp : p ∈ forwardPreds g t summary.loops b) (hexit : s.exit? p = some k)
    (h : k.get? l = some ⟨v, some S⟩) :
    (enter g t summary s b).1.Keeps S ∨ (enter g t summary s b).2.get? l = some ⟨v, some S⟩ := by
  have hk : k ∈ ((forwardPreds g t summary.loops b).map s.exit?).reduceOption :=
    List.reduceOption_mem_iff.2 (List.mem_map.2 ⟨p, hp, hexit⟩)
  rw [enter]
  split
  · refine .inl (State.keeps_keep.2 (.inl (List.mem_flatMap.2 ⟨k, hk, ?_⟩)))
    exact Knowledge.mem_pendingWhere_of_get? h rfl
  · have hjoin := pending_joinExits (s := s) hk h
    split
    · rcases hjoin with hkept | hpending
      · exact .inl (State.keeps_keep.2 (.inr hkept))
      · exact pending_forgetWhere hpending
    · exact hjoin

end Enter

/-! ## Instructions -/

/-- Where an instruction may throw, what is pending outside private objects is observed. -/
def State.beforeThrow (s : State) (k : Knowledge) (throws : Bool) : State :=
  if throws then s.keepWhere k (!s.isPrivate ·) else s

/-- A location is private when its object is. -/
theorem State.isPrivate_eq_true {s : State} {l : Location} :
    s.isPrivate l = true ↔ ∃ r, l.object = some r ∧ (s.escapes.get r.index).isPrivate = true := by
  rw [isPrivate]
  cases l.object with
  | none => simp
  | some r => simp

/-- A location in a private object that an instruction is not handed. -/
def State.Exempts (s : State) (inst : Inst) (l : Location) : Prop :=
  ∃ r, l.object = some r ∧ (s.escapes.get r.index).isPrivate = true ∧ r ∉ inst.inputs

/-- What visiting an instruction may come to. -/
inductive Visited (g : Graph) (summary : EffectSummary) (s : State) (k : Knowledge) (i : InstId)
    (inst : Inst) (throws : Bool) : State × Knowledge → Prop
  | forward {l : Location} {known : Known} :
    inst.kind.isLoad = true → g.location? i = .ok (some l) → k.get? l = some known →
    g.ty (s.resolve known.value) = g.ty i →
    Visited g summary s k i inst throws ({ s with
      substitutions := s.substitutions.set i.index (some (s.resolve known.value))
      removedLoads := s.removedLoads ++ [i] }, k)
  | load {l : Location} :
    inst.kind.isLoad = true → g.location? i = .ok (some l) →
    Visited g summary s k i inst throws
      (s.keepWhere k (·.mayAlias g s.isSingleton l), k.insert l ⟨i, none⟩)
  | redundant {l : Location} {known : Known} {operand : InstId} :
    inst.kind.isStore = true → g.location? i = .ok (some l) → inst.inputs.getLast? = some operand →
    k.get? l = some known → s.resolve known.value = s.resolve operand → throws = false →
    Visited g summary s k i inst throws ({ s with redundant := s.redundant ++ [i] }, k)
  | store {l : Location} {operand : InstId} {p : Location → Bool} {mustKeep : Bool} :
    inst.kind.isStore = true → g.location? i = .ok (some l) → inst.inputs.getLast? = some operand →
    (∀ l', p l' = true ↔ l' ≠ l ∧ l'.mayAlias g s.isSingleton l = true) →
    (throws = true → mustKeep = true) →
    Visited g summary s k i inst throws
      ({ s with candidates := s.candidates ++ [i] }.keep
        (k.pendingWhere p ++ if mustKeep then [i] else []),
        (k.forget p).insert l ⟨s.resolve operand, some i⟩)
  | other {xs : List InstId} {p : Location → Bool} :
    g.location? i = .ok none →
    (inst.kind.isExit = true → ∀ S ∈ k.pendingWhere (!s.isPrivate ·), S ∈ xs) →
    (∀ S ∈ k.pendingWhere p, S ∈ xs) →
    (summary.ofInst i = .all → ∀ l, p l = true ∨ s.Exempts inst l) →
    Visited g summary s k i inst throws (s.keep xs, k.forget p)

variable {summary : EffectSummary} {inst : Inst} {throws : Bool} {next : Option InstId}
  {st : State × Knowledge}

/-- A load gives way to the known value if the types agree, else it becomes the known value. -/
theorem visitLoad_eq_ok (h : visitLoad g (s, k) i l = .ok st) :
    (∃ known, k.get? l = some known ∧ g.ty (s.resolve known.value) = g.ty i ∧
      st = ({ s with
        substitutions := s.substitutions.set i.index (some (s.resolve known.value))
        removedLoads := s.removedLoads ++ [i] }, k)) ∨
    ((∀ known, k.get? l = some known → g.ty (s.resolve known.value) ≠ g.ty i) ∧
      st = (s.keepWhere k (·.mayAlias g s.isSingleton l), k.insert l ⟨i, none⟩)) := by
  rw [visitLoad] at h
  split at h
  · next hnone =>
    cases h
    refine .inr ⟨fun known hknown => ?_, rfl⟩
    rw [hnone] at hknown
    cases hknown
  · next known hknown =>
    simp only [Checked.bind_eq_ok] at h
    obtain ⟨ty, hty, ty', hty', h⟩ := h
    split at h
    · next hsame =>
      cases h
      exact .inl ⟨known, hknown, by rw [hty, hty', hsame], rfl⟩
    · next hdiffer =>
      cases h
      refine .inr ⟨fun known' hknown' heq => hdiffer ?_, rfl⟩
      obtain rfl : known = known' := Option.some.inj (hknown.symm.trans hknown')
      exact Except.ok.inj (hty.symm.trans (heq.trans hty'))

/-- A store of what is known to be there is redundant unless it must be kept, and any other one becomes
pending. -/
theorem visitStore_eq_ok {mustKeep : Bool} (hinst : g.inst i = .ok inst)
    (h : visitStore g (s, k) i l mustKeep = .ok st) : ∃ operand, inst.inputs.getLast? = some operand ∧
    ((∃ known, k.get? l = some known ∧ s.resolve known.value = s.resolve operand ∧ mustKeep = false ∧
      st = ({ s with redundant := s.redundant ++ [i] }, k)) ∨
    ∃ p : Location → Bool, (∀ l', p l' = true ↔ l' ≠ l ∧ l'.mayAlias g s.isSingleton l = true) ∧
      st = ({ s with candidates := s.candidates ++ [i] }.keep
        (k.pendingWhere p ++ if mustKeep then [i] else []),
        (k.forget p).insert l ⟨s.resolve operand, some i⟩)) := by
  rw [visitStore, Checked.bind_eq_ok] at h
  obtain ⟨inputs, hinputs, h⟩ := h
  obtain ⟨inst', hinst', rfl⟩ := Graph.inputs_eq_ok.1 hinputs
  rw [hinst] at hinst'
  cases hinst'
  split at h
  · cases h
  · next operand hoperand =>
    refine ⟨operand, hoperand, ?_⟩
    simp only at h
    split at h
    · next hsame =>
      cases h
      rw [Bool.and_eq_true, Option.any_eq_true] at hsame
      obtain ⟨⟨known, hknown, hvalue⟩, hfree⟩ := hsame
      exact .inl ⟨known, hknown, of_decide_eq_true hvalue, by simpa using hfree, rfl⟩
    · cases h
      refine .inr ⟨fun other => other ≠ l && other.mayAlias g s.isSingleton l, by simp, ?_⟩
      rw [← State.keep_keep]
      cases mustKeep <;> rfl

/-- Any other instruction, in the steps it is made of: which stores it observes, which objects it leaves
alone, and what it makes unknown. -/
theorem visitOther_eq_ok (hinst : g.inst i = .ok inst) (h : visitOther g summary (s, k) i = .ok st) :
    ∃ xs, ∃ exempt : Location → Bool, (∀ l, exempt l = true ↔ s.Exempts inst l) ∧
      (inst.kind.isExit = true → ∀ S ∈ k.pendingWhere (!s.isPrivate ·), S ∈ xs) ∧
      (∀ S ∈ xs, S ∈ k.pendingWhere (!s.isPrivate ·) ∨
        (summary.ofInst i).anyRead = true ∧ S ∈ k.pendingWhere (!exempt ·)) ∧
      st = if (summary.ofInst i).anyWrite then
          forgetWhere (s.keep xs, k) fun l => (summary.ofInst i).mayWrite (l.category g) && !exempt l
        else (s.keep xs, k) := by
  rw [visitOther, hinst] at h
  obtain ⟨inst', hinst', h⟩ := Checked.bind_eq_ok.1 h
  cases hinst'
  set left := if inst.kind.isExit then s.keepWhere k (!s.isPrivate ·) else s with hleft
  have hleaving : ∃ xs, (inst.kind.isExit = true → ∀ S ∈ k.pendingWhere (!s.isPrivate ·), S ∈ xs) ∧
      (∀ S ∈ xs, S ∈ k.pendingWhere (!s.isPrivate ·)) ∧ left = s.keep xs := by
    by_cases hexit : inst.kind.isExit = true
    · exact ⟨_, fun _ S hS => hS, fun S hS => hS, by rw [hleft, if_pos hexit]; rfl⟩
    · exact ⟨[], fun hexit' => absurd hexit' hexit, by simp, by rw [hleft, if_neg hexit]; rfl⟩
  obtain ⟨xs, hxs, hsub, hleft⟩ := hleaving
  rw [hleft] at h
  obtain ⟨exempt, hprivate, h⟩ : ∃ exempt : Location → Bool, (∀ l, exempt l = true ↔ s.Exempts inst l) ∧
      (do
        let s' := if (summary.ofInst i).anyRead then
            (s.keep xs).keepWhere k fun l => (summary.ofInst i).mayRead (l.category g) && !exempt l
          else s.keep xs
        if (summary.ofInst i).anyWrite then
          return forgetWhere (s', k) fun l => (summary.ofInst i).mayWrite (l.category g) && !exempt l
        else
          return (s', k) : Checked (State × Knowledge)) = .ok st := by
    refine ⟨_, fun l => ?_, h⟩
    cases hobj : l.object with
    | none => simp [hobj, State.Exempts]
    | some r =>
      simp only [hobj, State.Exempts, State.isPrivate, State.keep, Bool.and_eq_true, Bool.not_eq_true',
        List.contains_eq_mem, decide_eq_false_iff_not, Option.some.injEq, exists_eq_left']
  by_cases hread : (summary.ofInst i).anyRead = true
  · refine ⟨xs ++ k.pendingWhere fun l => (summary.ofInst i).mayRead (l.category g) && !exempt l,
      exempt, hprivate, fun hexit S hS => List.mem_append_left _ (hxs hexit S hS), fun S hS => ?_, ?_⟩
    · refine (List.mem_append.1 hS).imp (hsub S) fun hS => ⟨hread, ?_⟩
      obtain ⟨l, v, hmem, hl⟩ := Knowledge.mem_pendingWhere.1 hS
      exact Knowledge.mem_pendingWhere.2 ⟨l, v, hmem, (Bool.and_eq_true _ _ ▸ hl).2⟩
    · rw [← State.keep_keep]
      simp only [hread, if_true] at h
      split at h
      · next hwrite =>
        cases h
        exact (if_pos hwrite).symm
      · next hwrite =>
        cases h
        exact (if_neg hwrite).symm
  · refine ⟨xs, exempt, hprivate, hxs, fun S hS => .inl (hsub S hS), ?_⟩
    simp only [hread, Bool.false_eq_true, if_false] at h
    split at h
    · next hwrite =>
      cases h
      exact (if_pos hwrite).symm
    · next hwrite =>
      cases h
      exact (if_neg hwrite).symm

/-- An instruction is visited as the load or store that it is at its location, or as any other one. -/
theorem visit_cases (h : visit g summary (s, k) i next = .ok st) :
    ∃ inst throws, g.inst i = .ok inst ∧ mayThrow g k i = .ok throws ∧
      ((∃ l, inst.kind.isLoad = true ∧ g.location? i = .ok (some l) ∧
          visitLoad g (s.beforeThrow k throws, k) i l = .ok st) ∨
        (∃ l, inst.kind.isStore = true ∧ g.location? i = .ok (some l) ∧
          visitStore g (s.beforeThrow k throws, k) i l
            ((s.beforeThrow k throws).hasMonitors &&
              (next.any fun n => g.kind? n = some .monitorExit) || throws) =
            .ok st) ∨
        g.location? i = .ok none ∧ visitOther g summary (s.beforeThrow k throws, k) i = .ok st) := by
  simp only [visit, Checked.bind_eq_ok] at h
  obtain ⟨throws, hthrows, kind, hkind, loc, hloc, h⟩ := h
  obtain ⟨inst, hinst, rfl⟩ := Graph.kind_eq_ok.1 hkind
  refine ⟨inst, throws, hinst, hthrows, ?_⟩
  split at h
  · next hk => exact .inl ⟨_, by rw [hk]; rfl, hloc, h⟩
  · next hk => exact .inl ⟨_, by rw [hk]; rfl, hloc, h⟩
  · next hk => exact .inl ⟨_, by rw [hk]; rfl, hloc, h⟩
  · next hk => exact .inr (.inl ⟨_, by rw [hk]; rfl, hloc, h⟩)
  · next hk => exact .inr (.inl ⟨_, by rw [hk]; rfl, hloc, h⟩)
  · next hk => exact .inr (.inl ⟨_, by rw [hk]; rfl, hloc, h⟩)
  · next loc _ _ higet hsget haget hiset hsset haset =>
    cases loc with
    | none => exact .inr (.inr ⟨hloc, h⟩)
    | some l =>
      -- what has a location is one of the accesses above
      cases Graph.location?_eq_some hinst hloc with
      | field hk => exact (hk.elim (higet _ _ · rfl) (hiset _ _ · rfl)).elim
      | static hk => exact (hk.elim (hsget _ _ · rfl) (hsset _ _ · rfl)).elim
      | element hk => exact (hk.elim (haget _ ·.1 rfl) (haset _ ·.1 rfl)).elim

/-- Visiting what has no location, as one of the ways to visit. -/
theorem visited_of_visitOther (hinst : g.inst i = .ok inst) (hloc : g.location? i = .ok none)
    (h : visitOther g summary (s, k) i = .ok st) : Visited g summary s k i inst throws st := by
  obtain ⟨xs, exempt, hexempt, hexit, -, rfl⟩ := visitOther_eq_ok hinst h
  split
  · rw [forgetWhere, State.keepWhere, State.keep_keep]
    refine .other hloc (fun h S hS => List.mem_append_left _ (hexit h S hS))
      (fun S hS => List.mem_append_right _ hS) (fun hall l => ?_)
    rw [hall, Effects.mayWrite_all, Bool.true_and]
    cases hl : exempt l with
    | true => exact .inr ((hexempt l).1 hl)
    | false => exact .inl rfl
  · next hwrite =>
    have hforget : k.forget (fun _ => false) = k := by simp [Knowledge.forget]
    have hvisited : Visited g summary s k i inst throws (s.keep xs, k.forget fun _ => false) := by
      refine .other hloc hexit (fun S hS => ?_) (fun hall => ?_)
      · obtain ⟨l, v, -, hp⟩ := Knowledge.mem_pendingWhere.1 hS
        cases hp
      · rw [hall] at hwrite
        exact absurd (by decide) hwrite
    rwa [hforget] at hvisited

/-- Visiting an instruction is one of the ways to visit, after what a throw observes was kept. -/
theorem visit_eq_ok (h : visit g summary (s, k) i next = .ok st) :
    ∃ inst throws, g.inst i = .ok inst ∧ mayThrow g k i = .ok throws ∧
      Visited g summary (s.beforeThrow k throws) k i inst throws st := by
  obtain ⟨inst, throws, hinst, hthrows, ⟨l, hload, hloc, h⟩ | ⟨l, hstore, hloc, h⟩ | ⟨hloc, h⟩⟩ := visit_cases h
  · refine ⟨inst, throws, hinst, hthrows, ?_⟩
    obtain ⟨known, hknown, hty, rfl⟩ | ⟨-, rfl⟩ := visitLoad_eq_ok h
    · exact .forward hload hloc hknown hty
    · exact .load hload hloc
  · refine ⟨inst, throws, hinst, hthrows, ?_⟩
    obtain ⟨operand, hoperand, ⟨known, hknown, hvalue, hfree, rfl⟩ | ⟨p, hp, rfl⟩⟩ := visitStore_eq_ok hinst h
    · exact .redundant hstore hloc hoperand hknown hvalue (Bool.or_eq_false_iff.1 hfree).2
    · exact .store hstore hloc hoperand hp fun hthrow => by rw [hthrow, Bool.or_true]
  · exact ⟨inst, throws, hinst, hthrows, visited_of_visitOther hinst hloc h⟩

/-- An instruction observes a pending store, leaves it pending, or stores to its location. -/
theorem Visited.pending (h : Visited g summary s k i inst throws st) (hS : k.get? l = some ⟨v, some S⟩)
    (hself : l.mayAlias g s.isSingleton l = true) :
    st.1.Keeps S ∨ st.2.get? l = some ⟨v, some S⟩ ∨
      (inst.kind.isStore = true ∧ g.location? i = .ok (some l)) := by
  cases h with
  | forward => exact .inr (.inl hS)
  | @load l' _ _ =>
    by_cases halias : l.mayAlias g s.isSingleton l' = true
    · exact .inl (State.keeps_keep.2 (.inl (Knowledge.mem_pendingWhere_of_get? hS halias)))
    · refine .inr (.inl ?_)
      rw [Knowledge.get?_insert, if_neg, hS]
      rintro rfl
      exact halias hself
  | redundant => exact .inr (.inl hS)
  | @store l' operand p mustKeep hstore hloc _ _ _ =>
    by_cases hl : l = l'
    · exact .inr (.inr ⟨hstore, hl ▸ hloc⟩)
    · by_cases hp : p l = true
      · refine .inl (State.keeps_keep.2 (.inl (List.mem_append_left _ ?_)))
        exact Knowledge.mem_pendingWhere_of_get? hS hp
      · refine .inr (.inl ?_)
        rw [Knowledge.get?_insert, if_neg hl, Knowledge.get?_forget, if_neg hp, hS]
  | @other xs p _ _ hobserved _ =>
    by_cases hp : p l = true
    · refine .inl (State.keeps_keep.2 (.inl (hobserved S ?_)))
      exact Knowledge.mem_pendingWhere_of_get? hS hp
    · refine .inr (.inl ?_)
      rw [Knowledge.get?_forget, if_neg hp, hS]

/-- A store becomes pending where it is visited, and nowhere else. -/
theorem Visited.pending_inv (h : Visited g summary s k i inst throws st)
    (hS : st.2.get? l = some ⟨v, some S⟩) : i = S ∨ k.get? l = some ⟨v, some S⟩ := by
  cases h with
  | forward | redundant => exact .inr hS
  | load =>
    rw [Knowledge.get?_insert] at hS
    split at hS
    · cases hS
    · exact .inr hS
  | store =>
    rw [Knowledge.get?_insert, Knowledge.get?_forget] at hS
    split at hS
    · cases hS
      exact .inl rfl
    · split at hS
      · cases hS
      · exact .inr hS
  | other =>
    rw [Knowledge.get?_forget] at hS
    split at hS
    · cases hS
    · exact .inr hS

/-- Where an instruction can be visited, its location can be told. -/
theorem Visited.location? (h : Visited g summary s k i inst throws st) : ∃ l, g.location? i = .ok l := by
  cases h with
  | forward _ hloc | load _ hloc | redundant _ hloc | store _ hloc | other hloc => exact ⟨_, hloc⟩

/-- A load that is not replaced observes the pending stores that may be to its location. -/
theorem Visited.keeps_of_load {l' : Location} (h : Visited g summary s k i inst throws st)
    (hS : k.get? l = some ⟨v, some S⟩) (hload : inst.kind.isLoad = true)
    (hloc : g.location? i = .ok (some l')) (halias : l.mayAlias g s.isSingleton l' = true) :
    i ∈ st.1.removedLoads ∨ st.1.Keeps S := by
  cases h with
  | forward => exact .inl (by simp)
  | load _ hloc' =>
    rw [hloc] at hloc'
    cases hloc'
    exact .inr (State.keeps_keep.2 (.inl (Knowledge.mem_pendingWhere_of_get? hS halias)))
  | redundant hstore | store hstore =>
    rw [Kind.isStore_eq_false hload] at hstore
    cases hstore
  | other hloc' =>
    rw [hloc] at hloc'
    cases hloc'

/-- An instruction that may read everything observes the pending stores it does not exempt. -/
theorem Visited.keeps_of_all (h : Visited g summary s k i inst throws st)
    (hS : k.get? l = some ⟨v, some S⟩) (hloc : g.location? i = .ok none) (hall : summary.ofInst i = .all) :
    st.1.Keeps S ∨ s.Exempts inst l := by
  cases h with
  | forward _ hloc' | load _ hloc' | redundant _ hloc' | store _ hloc' =>
    rw [hloc] at hloc'
    cases hloc'
  | other _ _ hobserved hreads =>
    refine (hreads hall l).imp (fun hp => State.keeps_keep.2 (.inl (hobserved S ?_))) id
    exact Knowledge.mem_pendingWhere_of_get? hS hp

/-- The end of the method observes the pending stores outside private objects. -/
theorem Visited.keeps_of_isExit (h : Visited g summary s k i inst throws st)
    (hS : k.get? l = some ⟨v, some S⟩) (hloc : g.location? i = .ok none) (hexit : inst.kind.isExit = true)
    (hl : s.isPrivate l = false) : st.1.Keeps S := by
  cases h with
  | forward _ hloc' | load _ hloc' | redundant _ hloc' | store _ hloc' =>
    rw [hloc] at hloc'
    cases hloc'
  | other _ hobserved =>
    refine State.keeps_keep.2 (.inl (hobserved hexit S ?_))
    exact Knowledge.mem_pendingWhere_of_get? hS (by simp [hl])

end LoadStore

end Midend
