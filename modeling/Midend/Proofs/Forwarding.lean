import Midend.Proofs.SettledKnowledge
import Midend.Proofs.Totality

/-!
# Load/store elimination comes to an end

On a well-formed graph whose instructions have the operands they are asked for and name declared fields, and
whose stores have no uses, load/store elimination visits every reachable block and changes the graph without a
fault, and what it makes of the graph is well formed again.

## Shape of the argument

What the visits ask about has been settled where they ask, so it is there.  A chain of substitutions leads to
ever earlier values, so it names none twice and is no longer than the table that holds it: what a load
resolves to is no load that goes.  Hence moving all uses is one substitution, in blocks and outside, and what
is to be removed has no uses after it.
-/

namespace Midend

open Midend.Graph

namespace Graph

variable {g g' : Graph} {σ : InstId → InstId} {gone : List InstId}

/-! ## Removing what has no uses -/

/-- Where all that has not been removed is in a block, what is not read has no uses. -/
theorem InRange.uses_eq_nil (hr : g.InRange) (hw : g.WellFormed) {i : InstId} (hi : i ∈ g.attached)
    (hunread : ¬ g.IsRead i) : g.uses i = [] := by
  refine List.eq_nil_iff_forall_not_mem.2 fun u hu => ?_
  obtain ⟨hstays, user, huser, hget⟩ := hw.use i u hi hu
  have hatt : u.user ∈ g.attached := by
    refine hr.placed _ user huser ?_
    rw [← isRemoved_eq huser]
    exact hstays
  exact hunread (isRead_of_mem hatt huser (List.mem_of_getElem? hget))

/-- What has no uses can be removed, one after the other: removals take uses away, and make none. -/
theorem Rewired.exists_removeInsts {xs : List InstId} (h : Rewired g σ gone g') (hw : g.WellFormed)
    (hxs : (gone ++ xs).Nodup) (hatt : ∀ v ∈ xs, v ∈ g.attached) (huses : ∀ v ∈ xs, g'.uses v = []) :
    ∃ g₂, xs.foldlM Graph.removeInst g' = .ok g₂ ∧ Rewired g σ (gone ++ xs) g₂ ∧
      ∀ v, g₂.uses v ⊆ g'.uses v := by
  refine Checked.foldlM_total_prefix
    (P := fun done g₁ => Rewired g σ (gone ++ done) g₁ ∧ ∀ v, g₁.uses v ⊆ g'.uses v)
    ⟨by simpa using h, fun _ => List.Subset.refl _⟩ ?_
  rintro done v rest g₁ hsplit ⟨h₁, hsub⟩
  have hv : v ∈ xs := by simp [hsplit]
  have hnew : v ∉ gone ++ done := by
    rw [hsplit, ← List.append_assoc] at hxs
    exact fun hmem => List.disjoint_of_nodup_append hxs hmem List.mem_cons_self
  have hnil : g₁.uses v = [] := List.eq_nil_of_subset_nil (huses v hv ▸ hsub v)
  obtain ⟨g₂, hg₂, h₂⟩ := h₁.removeInst hw (hatt v hv) hnew hnil
  refine ⟨g₂, hg₂, List.append_assoc .. ▸ h₂, fun x => ?_⟩
  exact List.Subset.trans (uses_removeInst_sublist hg₂ x).subset (hsub x)

/-- Removing instructions takes their operands and leaves those of the others. -/
theorem Intact.operandsOf_removeInsts {xs : List InstId} (hg : g.Intact)
    (h : xs.foldlM Graph.removeInst g = .ok g') :
    g'.Intact ∧ ∀ i, g'.operandsOf i = if i ∈ xs then [] else g.operandsOf i := by
  refine Checked.foldlM_prefix (P := fun done g₁ => g₁.Intact ∧
    ∀ i, g₁.operandsOf i = if i ∈ done then [] else g.operandsOf i) h ⟨hg, by simp⟩ ?_
  rintro done v rest g₁ g₂ - ⟨hi, hops⟩ hstep
  obtain ⟨inst, -, -, -, hslots, -⟩ := hi.removeInst_spec hstep
  refine ⟨hi.removeInst hstep, fun i => ?_⟩
  have hnow : g₂.operandsOf i = if i = v then [] else g₁.operandsOf i := by
    rw [operandsOf, hslots]
    split <;> rfl
  rw [hnow, hops]
  by_cases hiv : i = v <;> simp [hiv]

end Graph

namespace LoadStore

variable {g g' : Graph} {summary : EffectSummary} {s s' : State} {k k' : Knowledge}
  {i x v : InstId} {inst : Inst}
  {t : DomTree} {b : BlockId} {block : Block} {l : Location} {next : Option InstId} {hasMonitors : Bool}
  {last : State} {done : List BlockId} {n : Nat} {c : Stage}

/-! ## Visits -/

/-- A load is visited without a fault. -/
theorem exists_visitLoad (hvalue : ∀ known, k.get? l = some known → ∃ ty, g.ty (s.resolve known.value) = .ok ty)
    (hinst : g.inst i = .ok inst) : ∃ st, visitLoad g (s, k) i l = .ok st := by
  rw [visitLoad]
  split
  · exact ⟨_, rfl⟩
  · next known hknown =>
    refine Checked.bind_total (hvalue known hknown) fun _ _ =>
      Checked.bind_total ⟨_, ty_eq_ok.2 ⟨inst, hinst, rfl⟩⟩ fun _ _ => ?_
    split <;> exact ⟨_, rfl⟩

/-- A store is visited without a fault. -/
theorem exists_visitStore {mustKeep : Bool} (hl : g.Furnished) (hatt : i ∈ g.attached)
    (hinst : g.inst i = .ok inst)
    (hneeds : 0 < inst.kind.needs) : ∃ st, visitStore g (s, k) i l mustKeep = .ok st := by
  have hne : inst.inputs ≠ [] :=
    List.ne_nil_of_length_pos (Nat.lt_of_lt_of_le hneeds (hl.operands i inst hatt hinst))
  refine Checked.bind_total_of_eq (inputs_eq_ok.2 ⟨inst, hinst, rfl⟩) ?_
  rw [List.getLast?_eq_getLast_of_ne_nil hne]
  dsimp only
  split <;> exact ⟨_, rfl⟩

/-- What has no location is visited without a fault. -/
theorem exists_visitOther (hinst : g.inst i = .ok inst) : ∃ st, visitOther g summary (s, k) i = .ok st := by
  refine Checked.bind_total_of_eq hinst ?_
  show ∃ st, (if (summary.ofInst i).anyWrite = true then _ else _ : Checked (State × Knowledge)) = .ok st
  split <;> exact ⟨_, rfl⟩

section Visits

variable (hw : g.WellFormed) (hg : g.Consistent) (hl : g.Furnished) (hf : g.FieldsDeclared) (hb : g.Reachable b)
include hw hg hl hf hb

section Block

variable (hblock : g.block b = .ok block)
include hblock

/-- Whether an instruction may throw is told without a fault. -/
theorem exists_mayThrow (hi : i ∈ block.insts) (hinst : g.inst i = .ok inst) :
    ∃ throws, mayThrow g k i = .ok throws := by
  have hatt : i ∈ g.attached := mem_attached.2 ⟨b, block, hblock, List.mem_append_right _ hi⟩
  have hobject : 0 < inst.kind.needs → ∃ r,
      (do return !(← isKnownNonNull g k (← g.unchecked (← g.input i 0))) : Checked Bool) = .ok r := by
    intro hneeds
    obtain ⟨x, y, hx, hy, inst', hinst'⟩ := exists_dereferenced_unchecked hw hg hl hb hblock hi hinst hneeds
    exact Checked.bind_total_of_eq hx (Checked.bind_total_of_eq hy (Checked.bind_total
      (Checked.bind_total ⟨_, kind_eq_ok.2 ⟨inst', hinst', rfl⟩⟩ fun _ _ => ⟨_, rfl⟩) fun _ _ => ⟨_, rfl⟩))
  refine Checked.bind_total_of_eq (kind_eq_ok.2 ⟨inst, hinst, rfl⟩) ?_
  split
  · exact ⟨_, rfl⟩
  · cases hk : inst.kind with
    | instanceGet | instanceSet | nullCheck | arrayLength => exact hobject (by rw [hk]; exact Nat.one_pos)
    | arrayGet | arraySet =>
      refine Checked.bind_total (exists_location? hw hg hl hb hblock hi hinst fun f =>
        hf.exists_field hatt hinst)
        fun o _ => ?_
      cases o <;> exact ⟨_, rfl⟩
    | _ => exact ⟨_, rfl⟩

/-- An instruction is visited without a fault. -/
theorem exists_visit (hs : Grounded g (.inside done b n s k)) (hi : i ∈ block.insts) :
    ∃ st, visit g summary (s, k) i next = .ok st := by
  have hatt : i ∈ g.attached := mem_attached.2 ⟨b, block, hblock, List.mem_append_right _ hi⟩
  obtain ⟨inst, hinst⟩ := hw.exists_inst hatt
  refine Checked.bind_total (exists_mayThrow hw hg hl hf hb hblock hi hinst) fun throws _ =>
    Checked.bind_total_of_eq (kind_eq_ok.2 ⟨inst, hinst, rfl⟩)
      (Checked.bind_total (exists_location? hw hg hl hb hblock hi hinst fun f => hf.exists_field hatt hinst)
        fun o _ => ?_)
  have hload : ∀ l, ∃ st, visitLoad g (s.beforeThrow k throws, k) i l = .ok st := by
    refine fun l => exists_visitLoad (fun known hknown => ?_) hinst
    obtain ⟨value, hvalue⟩ := hs.exists_resolved hw hg hb hblock (Knowledge.mem_of_get? hknown)
    refine ⟨_, ty_eq_ok.2 ⟨value, ?_, rfl⟩⟩
    rw [State.resolve_beforeThrow]
    exact hvalue
  have hstore : 0 < inst.kind.needs → ∀ l mustKeep,
      ∃ st, visitStore g (s.beforeThrow k throws, k) i l mustKeep = .ok st :=
    fun hneeds l mustKeep => exists_visitStore hl hatt hinst hneeds
  split
  · exact hload _
  · exact hload _
  · exact hload _
  · next hk _ => exact hstore (by rw [hk]; exact Nat.one_pos) _ _
  · next hk _ => exact hstore (by rw [hk]; exact Nat.one_pos) _ _
  · next hk _ => exact hstore (by rw [hk]; decide) _ _
  · exact exists_visitOther hinst

/-- The instructions of a block are visited without a fault, and what is known stays grounded. -/
theorem exists_visitAll {is : List InstId} (hs : Grounded g (.inside done b n s k))
    (his : block.insts.drop n = is)
    (hn : n ≤ block.insts.length) : ∃ st, visitAll g summary (s, k) is = .ok st ∧
      Grounded g (.inside done b block.insts.length st.1 st.2) := by
  induction is generalizing n s k with
  | nil =>
    obtain rfl : n = block.insts.length := Nat.le_antisymm hn (List.drop_eq_nil_iff.1 his)
    exact ⟨_, rfl, hs⟩
  | cons i is ih =>
    have hi : block.insts[n]? = some i := by
      rw [← List.head?_drop, his]
      rfl
    have hrest : block.insts.drop (n + 1) = is := by
      rw [← List.tail_drop, his]
      rfl
    obtain ⟨⟨s₁, k₁⟩, hvisit⟩ : ∃ st, visit g summary (s, k) i is.head? = .ok st :=
      exists_visit hw hg hl hf hb hblock hs (List.mem_of_getElem? hi)
    obtain ⟨inst, throws, hinst, -, hvisited⟩ := visit_eq_ok hvisit
    obtain ⟨st, hst, hend⟩ := ih (hs.visit hw hg hl hb hblock hi hinst hvisited) hrest
      (List.getElem?_eq_some_iff.1 hi).1
    exact ⟨st, Checked.bind_eq_ok.2 ⟨_, hvisit, hst⟩, hend⟩

end Block

/-- A block is visited without a fault. -/
theorem exists_visitBlock (ht : DomTree.ofGraph g = .ok t) (hloops : summary.loops = LoopForest.ofGraph g t)
    (hs : Grounded g (.between done s)) :
    ∃ s', visitBlock g t summary s b = .ok s' ∧ Grounded g (.between (done ++ [b]) s') := by
  obtain ⟨block, hblock⟩ := hw.exists_block hg hb
  obtain ⟨⟨s₁, k₁⟩, hall, hend⟩ := exists_visitAll hw hg hl hf hb hblock (hs.enter hw hg ht hloops hb) rfl
    (Nat.zero_le _)
  refine ⟨leave block b s₁ k₁, ?_, hend.leave hblock⟩
  exact Checked.bind_eq_ok.2 ⟨block, hblock, Checked.bind_eq_ok.2 ⟨_, hall, rfl⟩⟩

end Visits

/-! ## What a value resolves to -/

/-- Only values of the graph are substituted. -/
theorem State.lt_size_of_get (h : s.substitutions.get x.index = some v) :
    x.index < s.substitutions.entries.size := by
  by_contra hge
  rw [Table.get, Array.getD, dif_neg hge] at h
  cases h

/-- Following substitutions that lead to ever other values, one comes to a value that has none. -/
theorem State.get_resolveWithin {r : InstId → InstId → Prop} (hirrefl : ∀ x, ¬ r x x)
    (htrans : ∀ x y z, r x y → r y z → r x z) (hstep : ∀ x y, s.substitutions.get x.index = some y → r x y)
    {depth : Nat} (seen : List InstId) (hseen : ∀ x ∈ seen, x.index < s.substitutions.entries.size ∧ r x v)
    (hnodup : seen.Nodup) (hdepth : seen.length + depth = s.substitutions.entries.size) :
    s.substitutions.get (s.resolveWithin depth v).index = none := by
  -- the values passed are different, and there are no more than entries in the table
  have hnew : v ∉ seen := fun hv => hirrefl v (hseen v hv).2
  induction depth generalizing v seen with
  | zero =>
    rw [resolveWithin]
    cases hget : s.substitutions.get v.index with
    | none => rfl
    | some y =>
      have hsub : (v :: seen).map InstId.index ⊆ List.range s.substitutions.entries.size := by
        intro n hn
        obtain ⟨x, hx, rfl⟩ := List.mem_map.1 hn
        rw [List.mem_range]
        rcases List.mem_cons.1 hx with rfl | hx
        · exact lt_size_of_get hget
        · exact (hseen x hx).1
      have hdistinct : ((v :: seen).map InstId.index).Nodup :=
        (List.nodup_cons.2 ⟨hnew, hnodup⟩).map InstId.index_injective
      have hle := (hdistinct.subperm hsub).length_le
      rw [List.length_map, List.length_cons, List.length_range] at hle
      omega
  | succ depth ih =>
    rw [resolveWithin]
    cases hget : s.substitutions.get v.index with
    | none => exact hget
    | some y =>
      have hpassed : ∀ x ∈ v :: seen, x.index < s.substitutions.entries.size ∧ r x y := by
        intro x hx
        rcases List.mem_cons.1 hx with rfl | hx
        · exact ⟨lt_size_of_get hget, hstep x y hget⟩
        · exact ⟨(hseen x hx).1, htrans x v y (hseen x hx).2 (hstep v y hget)⟩
      refine ih _ hpassed (List.nodup_cons.2 ⟨hnew, hnodup⟩) ?_ fun hy => hirrefl y (hpassed y hy).2
      rw [List.length_cons]
      omega

/-! ## The change -/

/-- What is read in place of a value, once the uses of some loads have been moved. -/
def State.forwardIn (s : State) (loads : List InstId) (x : InstId) : InstId :=
  if x ∈ loads then s.resolve x else x

/-- What the pass lets the graph read in place of a value. -/
def State.forward (s : State) (x : InstId) : InstId := s.forwardIn s.removedLoads x

theorem State.forward_of_mem (hx : x ∈ s.removedLoads) : s.forward x = s.resolve x := if_pos hx

theorem State.forward_of_not_mem (hx : x ∉ s.removedLoads) : s.forward x = x := if_neg hx

section Change

variable (hw : g.WellFormed) (hg : g.Consistent) (hl : g.Furnished) (ht : Trace g t summary hasMonitors last)
include hw hg hl ht

/-- What a value resolves to has no substitution itself, at any time. -/
theorem On.get_resolve (hc : On g t summary hasMonitors last c) (v : InstId) :
    c.state.substitutions.get (c.state.resolve v).index = none := by
  have haccounted := hc.accounted
  have hground := hc.grounded hw hg hl ht
  refine State.get_resolveWithin (r := fun x y => ∃ d m, g.At x d m ∧ g.Settled d m y) ?_ ?_ ?_
    [] (by simp) List.nodup_nil (Nat.zero_add _)
  · rintro x ⟨d, m, hat, hset⟩
    exact hw.not_settled_self hg hat hset
  · rintro x y z ⟨d, m, hat, hset⟩ ⟨d', m', hat', hset'⟩
    exact ⟨d, m, hat, hw.settled_trans hg hat' hset' hset⟩
  · intro x y hy
    obtain ⟨-, hb, hi, -⟩ := haccounted.substitutions x y hy
    exact ⟨_, _, at_insts hb hi, hground.substitutions x y _ _ hy (at_insts hb hi)⟩

/-- What a value is resolved to stays. -/
theorem Trace.resolve_not_mem (v : InstId) : last.resolve v ∉ last.removedLoads := by
  intro hmem
  have haccounted : Accounted g t summary hasMonitors last last := ht.on_last.accounted
  obtain ⟨w, hw'⟩ := haccounted.removedLoads _ hmem
  have hnone : last.substitutions.get (last.resolve v).index = none := ht.on_last.get_resolve hw hg hl ht v
  rw [hnone] at hw'
  cases hw'

/-- What a value is replaced by stays. -/
theorem Trace.forward_not_mem (x : InstId) : last.forward x ∉ last.removedLoads := by
  by_cases hx : x ∈ last.removedLoads
  · rw [State.forward_of_mem hx]
    exact ht.resolve_not_mem hw hg hl x
  · rwa [State.forward_of_not_mem hx]

omit hw hg hl in
/-- A removed load was in the graph. -/
theorem Trace.mem_attached_of_load (hx : x ∈ last.removedLoads) : x ∈ g.attached := by
  have haccounted : Accounted g t summary hasMonitors last last := ht.on_last.accounted
  obtain ⟨v, hv⟩ := haccounted.removedLoads x hx
  obtain ⟨-, hb, hi, -⟩ := haccounted.substitutions x v hv
  exact (at_insts hb hi).mem_attached

/-- No load resolves to one that is removed, so moving the uses of one more leaves alone what was moved
before. -/
theorem Trace.forwardIn_append {load : InstId} (hload : load ∈ last.removedLoads) (loads : List InstId)
    (x : InstId) : last.forwardIn (loads ++ [load]) x =
      if last.forwardIn loads x = load then last.resolve load else last.forwardIn loads x := by
  have hne : last.resolve x ≠ load := fun heq => ht.resolve_not_mem hw hg hl x (heq ▸ hload)
  by_cases hx : x ∈ loads
  · simp [State.forwardIn, hx, hne]
  · by_cases hxl : x = load
    · subst hxl
      simp [State.forwardIn, hx]
    · simp [State.forwardIn, hx, hxl]

/-- Moving the uses of the removed loads, one load after the other, is one substitution; it meets the operands
of all instructions, wherever they are. -/
theorem Trace.rewired_forward (hi : g.Intact) :
    ∃ g₁, last.removedLoads.foldl (fun g load => g.replaceUses load (last.resolve load)) g = g₁ ∧
      Rewired g last.forward [] g₁ ∧ g₁.Intact ∧ ∀ i, g₁.operandsOf i = (g.operandsOf i).map last.forward := by
  suffices hmoved : ∀ loads : List InstId, loads ⊆ last.removedLoads →
      ∃ g₁, loads.foldl (fun g load => g.replaceUses load (last.resolve load)) g = g₁ ∧
        Rewired g (last.forwardIn loads) [] g₁ ∧ g₁.Intact ∧
        ∀ i, g₁.operandsOf i = (g.operandsOf i).map (last.forwardIn loads) from hmoved _ (List.Subset.refl _)
  intro loads hloads
  induction loads using List.reverseRecOn with
  | nil =>
    have hid : last.forwardIn [] = id := funext fun x => if_neg List.not_mem_nil
    rw [hid]
    exact ⟨g, rfl, hw.rewired, hi, fun i => (List.map_id _).symm⟩
  | append_singleton loads load ih =>
    rw [List.append_subset, List.cons_subset] at hloads
    obtain ⟨hloads, hload, -⟩ := hloads
    obtain ⟨g₁, hfold, hrewired, hi₁, hops⟩ := ih hloads
    have hstep := ht.forwardIn_append hw hg hl hload loads
    have hne : last.resolve load ≠ load := fun heq => ht.resolve_not_mem hw hg hl load (heq.symm ▸ hload)
    refine ⟨g₁.replaceUses load (last.resolve load), ?_, ?_, hi₁.replaceUses _ _, fun i => ?_⟩
    · rw [List.foldl_append, hfold]
      rfl
    · rw [funext hstep]
      exact hrewired.replaceUses (ht.mem_attached_of_load hload) hne
    · rw [hi₁.operandsOf_replaceUses, hops, List.map_map, funext hstep]
      rfl

omit hw hg hl in
/-- A removed store is a store. -/
theorem Trace.isStore_of_mem_removableStores (hx : x ∈ removableStores last) :
    ∃ inst, g.inst x = .ok inst ∧ inst.kind.isStore = true := by
  have haccounted : Accounted g t summary hasMonitors last last := ht.on_last.accounted
  rcases List.mem_append.1 hx with hx | hx
  · obtain ⟨-, -, -, -, hinst, hstore, -⟩ := haccounted.redundant x hx
    exact ⟨_, hinst, hstore⟩
  · obtain ⟨-, -, -, hinst, hstore, -⟩ := haccounted.candidates x (List.mem_filter.1 hx).1
    exact ⟨_, hinst, hstore⟩

omit hw hg hl ht in
/-- What is found dead is a store that is in a block. -/
theorem isStore_of_outcome (hc : g.Consistent) (h : outcome g = .ok last) (hx : x ∈ removableStores last) :
    x ∈ g.attached ∧ ∃ inst, g.inst x = .ok inst ∧ inst.kind.isStore = true := by
  obtain ⟨t, summary, hasMonitors, htrace, hvisits⟩ := exists_visits_of_outcome hc h
  have hmarks := marks_of_visitBlocks rfl hvisits
  exact ⟨hmarks.mem_attached (List.mem_append_right _ hx), htrace.isStore_of_mem_removableStores hx⟩

/-- What instructions come to read is neither a removed load nor a removed store. -/
theorem Trace.forward_not_mem_removed (hi : g.Intact) (hstores : ∀ y ∈ removableStores last, g.uses y = [])
    (hsourced : Sourced g last []) (hx : x ∈ g.operandsOf i) :
    last.forward x ∉ last.removedLoads ++ removableStores last := by
  -- nothing reads a store, in a block or outside
  have hunread : ∀ y ∈ removableStores last, ∀ j, y ∉ g.operandsOf j := by
    intro y hy j hread
    obtain ⟨k, hk⟩ := List.mem_iff_getElem?.1 hread
    have huse := (hi.used y ⟨j, k⟩).2 hk
    rw [hstores y hy] at huse
    cases huse
  intro hmem
  rcases List.mem_append.1 hmem with hmem | hmem
  · exact ht.forward_not_mem hw hg hl x hmem
  by_cases hload : x ∈ last.removedLoads
  · rw [State.forward_of_mem hload] at hmem
    rcases hsourced.resolve x with heq | ⟨⟨j, -, hread⟩ | ⟨-, inst', hinst', hisload⟩, -⟩
    · exact ht.resolve_not_mem hw hg hl x (heq.symm ▸ hload)
    · exact hunread _ hmem j hread
    · obtain ⟨inst, hinst, hstore⟩ := ht.isStore_of_mem_removableStores hmem
      obtain rfl : inst = inst' := Except.ok.inj (hinst.symm.trans hinst')
      rw [Kind.isStore_eq_false hisload] at hstore
      cases hstore
  · rw [State.forward_of_not_mem hload] at hmem
    exact hunread x hmem i hx

section Applied

variable {bs : List BlockId} (hi : g.Intact) (hstores : ∀ y ∈ removableStores last, g.uses y = [])
  (hbs : bs.Nodup) (hmarks : Marks g (bs.flatMap g.bodyOf) last) (hsourced : Sourced g last [])
include hi hstores hbs hmarks hsourced

/-- The change is made without a fault: it lets the uses of the removed loads read what these resolve to, and
takes out the loads and the stores.  What is left is well formed. -/
theorem Trace.exists_applyTo : ∃ g', applyTo last g = .ok g' ∧
    Rewired g last.forward (last.removedLoads ++ removableStores last) g' ∧ g'.WellFormed := by
  have hnodup := hmarks.nodup_removed hi hbs
  have hunread : ∀ {i x}, x ∈ g.operandsOf i → last.forward x ∉ last.removedLoads ++ removableStores last :=
    fun hx => ht.forward_not_mem_removed hw hg hl hi hstores hsourced hx
  obtain ⟨g₀, hfold, h₀, hi₀, hops⟩ := ht.rewired_forward hw hg hl hi
  have hunused : ∀ v ∈ last.removedLoads ++ removableStores last, g₀.uses v = [] := by
    refine fun v hv => List.eq_nil_iff_forall_not_mem.2 fun u hu => ?_
    have hread := List.mem_of_getElem? ((hi₀.used v u).1 hu)
    rw [hops] at hread
    obtain ⟨x, hx, rfl⟩ := List.mem_map.1 hread
    exact hunread hx hv
  obtain ⟨g₁, hg₁, h₁, hsub⟩ := h₀.exists_removeInsts hw (hnodup.sublist (List.sublist_append_left _ _))
    (fun v hv => hmarks.mem_attached (List.mem_append_left _ hv))
    fun v hv => hunused v (List.mem_append_left _ hv)
  obtain ⟨g₂, hg₂, h₂, -⟩ := h₁.exists_removeInsts hw hnodup
    (fun v hv => hmarks.mem_attached (List.mem_append_right _ hv))
    fun v hv => List.eq_nil_of_subset_nil (hunused v (List.mem_append_right _ hv) ▸ hsub v)
  refine ⟨g₂, Checked.bind_eq_ok.2 ⟨g₁, hfold.symm ▸ hg₁, hg₂⟩, h₂,
    h₂.wellFormed hw hg ?kinds ?removed ?settled ?stays⟩
  case kinds =>
    intro v hv inst hinst
    exact (hmarks.removable v ((removed_sublist_marked last).subset hv)).isTerminator_eq_false hinst
  case removed =>
    intro x hx
    by_cases hload : x ∈ last.removedLoads
    · rw [State.forward_of_mem hload]
      rcases hsourced.resolve x with heq | ⟨hread | ⟨hatt, -⟩, -⟩
      · rwa [heq]
      · obtain ⟨i, hatt, hmem⟩ := hread
        obtain ⟨inst, hinst⟩ := hw.exists_inst hatt
        rw [operandsOf_eq hinst] at hmem
        obtain ⟨k, hk⟩ := List.mem_iff_getElem?.1 hmem
        exact (hw.operand i inst k _ hatt hinst hk).1
      · exact hi.isRemoved_eq_false hatt
    · rwa [State.forward_of_not_mem hload]
  case settled =>
    intro b n x _ hx
    by_cases hload : x ∈ last.removedLoads
    · rw [State.forward_of_mem hload]
      exact settled_resolve hw hg (ht.on_last.grounded hw hg hl ht).substitutions hx
    · rwa [State.forward_of_not_mem hload]
  case stays =>
    intro i inst x _ _ hinst hx
    exact hunread (by rw [operandsOf_eq hinst]; exact hx)

omit hstores hbs hmarks hsourced in
/-- What is left reads what the removed loads resolve to in their place, and all else as before. -/
theorem Trace.operandsOf_applyTo (h : applyTo last g = .ok g') (i : InstId) : g'.operandsOf i =
    if i ∈ last.removedLoads ++ removableStores last then [] else (g.operandsOf i).map last.forward := by
  obtain ⟨g₀, hfold, -, hi₀, hops⟩ := ht.rewired_forward hw hg hl hi
  obtain ⟨g₁, hg₁, hg'⟩ := Checked.bind_eq_ok.1 h
  rw [hfold] at hg₁
  obtain ⟨hi₁, hops₁⟩ := hi₀.operandsOf_removeInsts hg₁
  rw [(hi₁.operandsOf_removeInsts hg').2, hops₁, hops]
  by_cases hload : i ∈ last.removedLoads <;> by_cases hstore : i ∈ removableStores last <;> simp [hload, hstore]

end Applied

end Change

end LoadStore

end Midend
