import Midend.Proofs.Declarations

/-!
# Graphs that a text gives

What is known of a graph because it was read from a text.

## Shape of the argument

The invariant `Grounded` of the scope says that every name in scope is a name of something that is there,
and that the instructions added so far fit.  Each step of reading keeps it.  When all steps have been made the
graph is `Legible`.
-/

namespace Midend

open Source

/-- An instruction fits at its place: what it names is there, operands come before their use unless the user
is a phi, and a line of text can say what the instruction is. -/
structure Item.Fits (h : Header) (params n size : Nat) (it : Item) : Prop where
  block : it.block.index < h.size
  succs : ∀ t ∈ it.succs, t.index < h.size
  inputs : ∀ v ∈ it.inputs, v.index < if it.kind.isPhi then size else n
  param : n < params → it.kind = .param n ∧ it.block = ⟨0⟩ ∧ it.inputs = []
  body : params ≤ n → it.kind = .phi ∨ it.kind.Expressible h.fields (it.inputs ≠ [])

theorem Item.Fits.mono {h : Header} {params n size size' : Nat} {it : Item} (hit : it.Fits h params n size)
    (hle : size ≤ size') : it.Fits h params n size' := by
  refine ⟨hit.block, hit.succs, fun v hv => ?_, hit.param, hit.body⟩
  apply Nat.lt_of_lt_of_le (hit.inputs v hv)
  split
  · exact hle
  · exact Nat.le_refl _

/-- More operands for a phi. -/
theorem Item.Fits.fed {h : Header} {params n size : Nat} {it : Item} {vs : List InstId}
    (hit : it.Fits h params n size) (hphi : it.kind = .phi) (hvs : ∀ v ∈ vs, v.index < size) :
    (it.fed vs).Fits h params n size := by
  refine ⟨hit.block, hit.succs, fun v hv => ?_, fun hn => ?_, fun _ => .inl hphi⟩
  · show v.index < if it.kind.isPhi then size else n
    rcases List.mem_append.1 hv with hv | hv
    · exact hit.inputs v hv
    · rw [hphi]
      exact hvs v hv
  · have hkind := (hit.param hn).1
    rw [hphi] at hkind
    cases hkind

/-- A graph is made of instructions that fit, in the order of their blocks, and its names can be written. -/
structure Graph.Legible (h : Header) (params : Nat) (items : List Item) (g : Graph) : Prop where
  assembled : g.Assembled h items
  fits : ∀ (n : Nat) (it : Item), items[n]? = some it → it.Fits h params n items.length
  sorted : (items.map (·.block.index)).Pairwise (· ≤ ·)
  name : IsSymbol h.name
  size : 0 < h.size
  declarable : ∀ f ∈ h.fields, f.Declarable
  distinct : h.fields.toList.Pairwise fun f f' => f.sameSlot f' = false ∧ f.qualified ≠ f'.qualified

namespace Scope

/-- Names in scope name what is there, and the instructions added so far fit. -/
structure Grounded (h : Header) (params : Nat) (items : List Item) (last : Nat) (s : Scope) : Prop where
  assembled : s.graph.Assembled h items
  values : ∀ name v, s.values.lookup name = some v → v.index < items.length
  labels : ∀ label b, s.labels.lookup label = some b → b.index < h.size
  fields : ∀ q f, s.fields.lookup q = some f → f.index < h.fields.size
  pending : ∀ e ∈ s.pendingPhis, ∃ it, items[e.1.index]? = some it ∧ it.kind = .phi
  fits : ∀ (n : Nat) (it : Item), items[n]? = some it → it.Fits h params n items.length
  sorted : (items.map (·.block.index)).Pairwise (· ≤ ·)
  bounded : ∀ k ∈ items.map (·.block.index), k ≤ last

variable {h : Header} {params last : Nat} {items : List Item} {s s' : Scope} {it : Item}
  {pending : List (InstId × BlockId × Line)} {line : Line} {b : BlockId}

theorem Grounded.mono {last' : Nat} (hs : s.Grounded h params items last) (hle : last ≤ last') :
    s.Grounded h params items last' :=
  { hs with bounded := fun k hk => Nat.le_trans (hs.bounded k hk) hle }

/-- One more instruction. -/
theorem Grounded.grow (name? : Option String) (hs : s.Grounded h params items last)
    (hit : it.Fits h params items.length (items.length + 1)) (hlast : last ≤ it.block.index)
    (hpending : ∀ e ∈ pending, e ∈ s.pendingPhis ∨ e.1.index = items.length ∧ it.kind = .phi) :
    { s.grown name? it with pendingPhis := pending }.Grounded h params (items ++ [it]) it.block.index where
  assembled := hs.assembled.push hit.block hit.succs
  values := by
    intro name v hv
    rw [List.length_append, List.length_singleton]
    simp only [grown, List.lookup_append, Option.or_eq_some_iff] at hv
    rcases hv with hv | ⟨-, hv⟩
    · obtain ⟨name', -, heq⟩ := List.mem_map.1 (mem_of_lookup hv)
      cases heq
      exact Nat.lt_succ_of_le (Nat.le_of_eq hs.assembled.size_insts)
    · exact Nat.lt_succ_of_lt (hs.values name v hv)
  labels := hs.labels
  fields := hs.fields
  pending := by
    intro e he
    rcases hpending e he with he | ⟨he, hphi⟩
    · obtain ⟨it', hit', hphi⟩ := hs.pending e he
      exact ⟨it', by rw [List.getElem?_append_left (List.getElem?_eq_some_iff.1 hit').1, hit'], hphi⟩
    · exact ⟨it, by rw [he]; exact List.getElem?_concat_length, hphi⟩
  fits := by
    intro n it' hn
    rw [List.length_append, List.length_singleton]
    rw [List.getElem?_append] at hn
    split at hn
    · exact (hs.fits n it' hn).mono (Nat.le_succ _)
    · rw [List.getElem?_singleton] at hn
      split at hn
      · cases hn
        obtain rfl : n = items.length := by omega
        exact hit
      · cases hn
  sorted := by
    rw [List.map_append, List.pairwise_append]
    refine ⟨hs.sorted, List.pairwise_singleton _ _, fun k hk k' hk' => ?_⟩
    rw [List.map_singleton, List.mem_singleton] at hk'
    subst hk'
    exact Nat.le_trans (hs.bounded k hk) hlast
  bounded := by
    intro k hk
    rw [List.map_append, List.map_singleton, List.mem_append, List.mem_singleton] at hk
    rcases hk with hk | rfl
    · exact Nat.le_trans (hs.bounded k hk) hlast
    · exact Nat.le_refl _

/-- The instruction of a line fits. -/
theorem Resolves.fits (hres : s.Resolves b line it) (hs : s.Grounded h params items last) (hline : line.Lexical)
    (hb : b.index < h.size) (hparams : params ≤ items.length) :
    it.Fits h params items.length (items.length + 1) := by
  by_cases hop : line.op = "phi"
  · obtain ⟨hkind, hinputs, hsuccs⟩ := hres.phi hop
    refine ⟨hres.block ▸ hb, by simp [hsuccs], by simp [hinputs], fun hlt => ?_, fun _ => .inl hkind⟩
    exact absurd hparams (Nat.not_le_of_lt hlt)
  · have hkind := hres.kind hop
    refine ⟨hres.block ▸ hb, ?_, ?_, fun hlt => absurd hparams (Nat.not_le_of_lt hlt), fun _ => .inr ?_⟩
    · intro t ht
      obtain ⟨label, -, hlabel⟩ := Checked.exists_of_mem_mapM (hres.succs hop) ht
      exact hs.labels label t (target_eq_ok.1 hlabel)
    · intro v hv
      obtain ⟨name, -, hname⟩ := Checked.exists_of_mem_mapM (hres.inputs hop) hv
      rw [isPhi_of_kindOf hkind]
      exact hs.values name v (value_eq_ok.1 hname)
    · have hlength := (Checked.mapM_eq_ok.1 (hres.inputs hop)).length_eq
      have hnil : (line.operands ≠ []) = (it.inputs ≠ []) := by
        rw [ne_eq, ne_eq, ← List.length_eq_zero_iff, hlength, List.length_eq_zero_iff]
      rw [← hnil]
      exact expressible_of_kindOf hline hop hs.fields hkind

/-- One more parameter. -/
theorem Grounded.declareParam (hs : s.Grounded h params items 0) (hsize : 0 < h.size)
    (hlt : items.length < params) (name : String) (t : Ty) :
    (s.grown (some name) ⟨.param items.length, t, [], s.graph.entry, []⟩).Grounded h params
      (items ++ [⟨.param items.length, t, [], s.graph.entry, []⟩]) 0 := by
  have hentry : s.graph.entry = ⟨0⟩ := hs.assembled.entry
  have hfits : Item.Fits h params items.length (items.length + 1)
      ⟨.param items.length, t, [], s.graph.entry, []⟩ := by
    rw [hentry]
    exact ⟨hsize, by simp, by simp, fun _ => ⟨rfl, rfl, rfl⟩, fun hle => absurd hle (Nat.not_le_of_lt hlt)⟩
  have hgrow := hs.grow (some name) hfits (Nat.zero_le _) fun e he => .inl he
  rw [show s.graph.entry.index = 0 by rw [hentry]] at hgrow
  exact hgrow

/-- One more line. -/
theorem Grounded.addLine (hs : s.Grounded h params items b.index) (hres : s.Resolves b line it)
    (hline : line.Lexical) (hb : b.index < h.size) (hparams : params ≤ items.length) :
    (s.after line it).Grounded h params (items ++ [it]) b.index := by
  have hblock := hres.block
  subst hblock
  apply hs.grow line.result (hres.fits hs hline hb hparams) (Nat.le_refl _)
  intro e he
  rcases List.mem_append.1 he with he | he
  · exact .inl he
  · split at he
    · next hphi =>
      rw [List.mem_singleton] at he
      rw [he]
      exact .inr ⟨hs.assembled.size_insts, Kind.isPhi_eq_true.1 hphi⟩
    · cases he

/-- More operands for a phi. -/
theorem Grounded.feeds {i : InstId} {phi : Item} {vs : List InstId} (hs : s.Grounded h params items last)
    (hphi : items[i.index]? = some phi) (hkind : phi.kind = .phi) (hvs : ∀ v ∈ vs, v.index < items.length) :
    { s with graph := vs.foldl (fun g v => g.feed i v) s.graph }.Grounded h params
      (items.modify i.index (·.fed vs)) last := by
  have hget : ∀ n, (items.modify i.index (·.fed vs))[n]? =
      items[n]?.map fun it => if i.index = n then it.fed vs else it := fun n => List.getElem?_modify ..
  have hblocks : (items.modify i.index (·.fed vs)).map (·.block.index) = items.map (·.block.index) := by
    apply List.ext_getElem?
    intro n
    rw [List.getElem?_map, hget, List.getElem?_map, Option.map_map]
    congr 1
    funext it
    show (if i.index = n then it.fed vs else it).block.index = it.block.index
    split <;> rfl
  refine ⟨hs.assembled.feeds (List.getElem?_eq_some_iff.1 hphi).1 vs, ?_, hs.labels, hs.fields, ?_, ?_, ?_, ?_⟩
  · rw [List.length_modify]
    exact hs.values
  · intro e he
    obtain ⟨it, hit, hkind⟩ := hs.pending e he
    refine ⟨if i.index = e.1.index then it.fed vs else it, by rw [hget, hit]; rfl, ?_⟩
    split <;> exact hkind
  · intro n it' hn
    rw [hget, Option.map_eq_some_iff] at hn
    obtain ⟨it, hit, rfl⟩ := hn
    rw [List.length_modify]
    have hfits := hs.fits n it hit
    split
    · next hn =>
      obtain rfl : phi = it := by
        rw [← hn, hphi] at hit
        exact Option.some.inj hit
      exact hfits.fed hkind hvs
    · exact hfits
  · rw [hblocks]
    exact hs.sorted
  · rw [hblocks]
    exact hs.bounded

end Scope

end Midend
