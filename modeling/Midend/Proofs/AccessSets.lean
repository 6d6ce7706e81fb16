import Midend.Proofs.ExactSummary

/-!
# Effects as sets of accesses

An effect that was put together from reads and writes of parts of memory answers every question as the list of
these accesses does.  It knows each access: no two parts of memory share a bit, and what is read does not show
in what is written.  Memory that cannot be named overlaps all other memory, on either side of a question.

## Shape of the argument

A bit of the union is set when an access of the list has it (`Effects.bit_ofAccesses`), and parts of memory
that hold values are told apart by their bits (`Category.bit_inj`).  Every question is about common bits, so
each is answered bit by bit and then read back as a statement about accesses.
-/

namespace Midend

/-! ## Bits of categories -/

/-- Types of values are told apart by their numbers. -/
theorem Ty.valueIndex?_inj {ty ty' : Ty} (h : ty.valueIndex? = ty'.valueIndex?) : ty = ty' := by
  have hinv : ∀ ty : Ty, (ty.valueIndex?.bind (Ty.all[·]?)).getD .void = ty := by
    intro ty
    cases ty <;> rfl
  rw [← hinv ty, h, hinv]

/-- Every type but `void` has a number below nine. -/
theorem Ty.exists_valueIndex? {ty : Ty} (h : ty ≠ .void) : ∃ n < 9, ty.valueIndex? = some n := by
  cases ty with
  | void => exact absurd rfl h
  | _ => exact ⟨_, by decide, rfl⟩

namespace Category

variable {c c' : Category} {s s' : CategorySet}

/-- The category is memory that may hold something: there are no values of type `void`. -/
def Storable : Category → Prop
  | instanceField ty | staticField ty | arrayElement ty => ty ≠ .void
  | unknown => True

instance : DecidablePred Storable
  | instanceField _ | staticField _ | arrayElement _ => inferInstanceAs (Decidable (_ ≠ _))
  | unknown => inferInstanceAs (Decidable True)

/-- Categories are numbered below 28. -/
theorem bit_lt (c : Category) : c.bit < 28 := by
  cases c with
  | instanceField ty | staticField ty | arrayElement ty => cases ty <;> decide
  | unknown => decide

/-- The three families of nine bits, and the one above them. -/
theorem Storable.bit_eq (h : c.Storable) : (∃ ty n, n < 9 ∧ ty.valueIndex? = some n ∧
    (c = .instanceField ty ∧ c.bit = n ∨ c = .staticField ty ∧ c.bit = 9 + n ∨
      c = .arrayElement ty ∧ c.bit = 18 + n)) ∨ c = .unknown ∧ c.bit = unknownBit := by
  cases c with
  | instanceField ty | staticField ty | arrayElement ty =>
    obtain ⟨n, hlt, hn⟩ := Ty.exists_valueIndex? h
    exact .inl ⟨ty, n, hlt, hn, by simp [bit, hn]⟩
  | unknown => exact .inr ⟨rfl, rfl⟩

/-- A bit belongs to one category. -/
theorem bit_inj (hc : c.Storable) (hc' : c'.Storable) : c.bit = c'.bit ↔ c = c' := by
  refine ⟨fun h => ?_, congrArg bit⟩
  rcases hc.bit_eq with ⟨ty, n, hlt, hn, hbit⟩ | ⟨rfl, hbit⟩ <;>
    rcases hc'.bit_eq with ⟨ty', n', hlt', hn', hbit'⟩ | ⟨rfl, hbit'⟩
  · -- the same place in the same family, so the same type
    have hty : n = n' → ty = ty' := fun heq => Ty.valueIndex?_inj (by rw [hn, hn', heq])
    rcases hbit with ⟨rfl, hb⟩ | ⟨rfl, hb⟩ | ⟨rfl, hb⟩ <;>
      rcases hbit' with ⟨rfl, hb'⟩ | ⟨rfl, hb'⟩ | ⟨rfl, hb'⟩ <;>
      first
      | omega
      | rw [hty (by omega)]
  · rw [unknownBit] at hbit'
    omega
  · rw [unknownBit] at hbit
    omega
  · rfl

/-- Memory of a type without values has no name. -/
theorem bit_eq_unknownBit (hc : ¬ c.Storable) : c.bit = unknownBit := by
  cases c with
  | instanceField ty | staticField ty | arrayElement ty =>
    obtain rfl := not_ne_iff.1 hc
    rfl
  | unknown => rfl

/-- The bits that overlap a category, as categories. -/
theorem Storable.bit_eq_or (hc : c.Storable) :
    c.bit = c'.bit ∨ c.bit = unknownBit ↔ c = c' ∨ c = .unknown := by
  have hstorable : unknown.Storable := trivial
  have hunknown : c.bit = unknownBit ↔ c = .unknown := bit_inj hc hstorable
  by_cases hc' : c'.Storable
  · rw [bit_inj hc hc', hunknown]
  · rw [bit_eq_unknownBit hc', or_self, hunknown]
    refine (or_iff_right ?_).symm
    rintro rfl
    exact hc' hc

theorem ne_zero_iff : s ≠ 0#28 ↔ ∃ n, s.getLsbD n = true := by
  refine ⟨fun h => ?_, ?_⟩
  · by_contra hno
    refine h (BitVec.eq_of_getLsbD_eq fun n _ => ?_)
    rw [BitVec.getLsbD_zero, Bool.eq_false_iff]
    exact fun hn => hno ⟨n, hn⟩
  · rintro ⟨n, hn⟩ rfl
    rw [BitVec.getLsbD_zero] at hn
    cases hn

theorem and_ne_zero_iff : s &&& s' ≠ 0#28 ↔ ∃ n, s.getLsbD n = true ∧ s'.getLsbD n = true := by
  simp only [ne_zero_iff, BitVec.getLsbD_and, Bool.and_eq_true]

theorem getLsbD_singleton (c : Category) (n : Nat) : c.singleton.getLsbD n = decide (n = c.bit) := by
  rw [singleton, BitVec.getLsbD_twoPow, decide_eq_true c.bit_lt, Bool.true_and]
  exact decide_eq_decide.2 eq_comm

/-- A set touches a category through its bit or the bit of unnamed memory, and unnamed memory through any bit.
-/
theorem isTouched_iff : c.isTouched s = true ↔
    ∃ n, s.getLsbD n = true ∧ (n = c.bit ∨ n = unknownBit ∨ c = .unknown) := by
  rw [isTouched]
  split
  · next h => simp [h, ne_zero_iff]
  · next h =>
    simp only [bne_iff_ne, and_ne_zero_iff, BitVec.getLsbD_or, getLsbD_singleton, Bool.or_eq_true,
      decide_eq_true_eq, h, or_false]
    rfl

end Category

/-! ## Lists of accesses -/

/-- A read or a write of a part of memory that may hold something. -/
structure CategoryAccess where
  isWrite : Bool
  category : Category
  storable : category.Storable
deriving DecidableEq

namespace CategoryAccess

/-- Two accesses touch the same memory if their categories are one, or one of them has no name. -/
def Overlaps (x y : CategoryAccess) : Prop :=
  x.category = y.category ∨ x.category = .unknown ∨ y.category = .unknown

/-- Accesses are told apart by whether they write and by their category. -/
theorem eq_iff {x y : CategoryAccess} : x = y ↔ x.isWrite = y.isWrite ∧ x.category.bit = y.category.bit := by
  rw [Category.bit_inj x.storable y.storable]
  cases x
  cases y
  simp

end CategoryAccess

namespace Effects

variable {e e' d : Effects} {as bs : List CategoryAccess} {written : Bool} {n : Nat} {c : Category}

/-- The effects of all accesses of a list together. -/
def ofAccesses (as : List CategoryAccess) : Effects := unionAll (as.map fun x => ofAccess x.isWrite x.category)

/-- An access has the bit of its category, in the half that it belongs to. -/
theorem bit_ofAccess (isWrite : Bool) : (ofAccess isWrite c).bit written n = true ↔
    isWrite = written ∧ c.bit = n := by
  have hlt := c.bit_lt
  have hshift : readShift = 32 := rfl
  rw [ofAccess, bit_eq]
  cases isWrite <;> cases written <;>
    simp only [read, write, BitVec.getLsbD_twoPow, Bool.and_eq_true, decide_eq_true_eq, if_true,
      Bool.false_eq_true, Bool.true_eq_false, if_false, true_and, false_and, iff_false] <;>
    omega

/-- A bit of the effect is set when an access of the list has it. -/
theorem bit_ofAccesses : (ofAccesses as).bit written n = true ↔
    ∃ x ∈ as, x.isWrite = written ∧ x.category.bit = n := by
  rw [ofAccesses, bit_unionAll, List.any_map, List.any_eq_true]
  simp only [Function.comp_apply, bit_ofAccess]

/-- The effects of more accesses are the effects of both together. -/
theorem ofAccesses_append : ofAccesses (as ++ bs) = (ofAccesses as).union (ofAccesses bs) := by
  refine ext_bit fun written n => ?_
  rw [Bool.eq_iff_iff, bit_union, Bool.or_eq_true, bit_ofAccesses, bit_ofAccesses, bit_ofAccesses]
  simp only [List.mem_append, or_and_right, exists_or]

/-! ## Questions -/

/-- What is written or read of a category, by the accesses. -/
theorem isTouched_ofAccesses (written : Bool) :
    c.isTouched (if written then (ofAccesses as).writes else (ofAccesses as).reads) = true ↔
      (∃ x ∈ as, x.isWrite = written ∧ (x.category = c ∨ x.category = .unknown)) ∨
        c = .unknown ∧ ∃ x ∈ as, x.isWrite = written := by
  have hbit : ∀ n, (if written then (ofAccesses as).writes else (ofAccesses as).reads).getLsbD n = true ↔
      ∃ x ∈ as, x.isWrite = written ∧ x.category.bit = n := fun n => bit_ofAccesses
  simp only [Category.isTouched_iff, hbit, ← or_assoc]
  constructor
  · rintro ⟨_, ⟨x, hx, hw, rfl⟩, hn | hc⟩
    · exact .inl ⟨x, hx, hw, x.storable.bit_eq_or.1 hn⟩
    · exact .inr ⟨hc, x, hx, hw⟩
  · rintro (⟨x, hx, hw, hc⟩ | ⟨hc, x, hx, hw⟩)
    · exact ⟨_, ⟨x, hx, hw, rfl⟩, .inl (x.storable.bit_eq_or.2 hc)⟩
    · exact ⟨_, ⟨x, hx, hw, rfl⟩, .inr hc⟩

/-- Effects include others when they have every access of these. -/
theorem includes_iff : e.includes d = true ↔ ∀ written n, d.bit written n = true → e.bit written n = true := by
  have hword : e.word &&& d.word = d.word ↔ ∀ n, d.word.getLsbD n = true → e.word.getLsbD n = true := by
    refine ⟨fun h n hn => ?_, fun h => BitVec.eq_of_getLsbD_eq fun n _ => ?_⟩
    · rw [← h, BitVec.getLsbD_and, Bool.and_eq_true] at hn
      exact hn.1
    · rw [BitVec.getLsbD_and, Bool.and_eq_right_iff_imp]
      exact h n
  rw [includes, beq_iff_eq, hword]
  refine ⟨fun h written n hn => ?_, fun h n => getLsbD_word_imp h⟩
  rw [bit_eq, Bool.and_eq_true] at hn ⊢
  exact ⟨hn.1, h _ hn.2⟩

/-- Every access of a list is known to the effect, and no other. -/
theorem includes_ofAccesses : (ofAccesses as).includes (ofAccesses bs) = true ↔ ∀ x ∈ bs, x ∈ as := by
  simp only [includes_iff, bit_ofAccesses]
  constructor
  · intro h x hx
    obtain ⟨y, hy, heq⟩ := h x.isWrite x.category.bit ⟨x, hx, rfl, rfl⟩
    exact CategoryAccess.eq_iff.2 heq ▸ hy
  · rintro h _ _ ⟨x, hx, rfl, rfl⟩
    exact ⟨x, h x hx, rfl, rfl⟩

/-- Effects depend on others when they read what these write, or one of both is unknown. -/
theorem mayDependOn_iff : e.mayDependOn d = true ↔ ∃ n m, e.bit false n = true ∧ d.bit true m = true ∧
    (n = m ∨ n = Category.unknownBit ∨ m = Category.unknownBit) := by
  have hunnamed : ∀ s : CategorySet,
      s &&& Category.unknown.singleton ≠ 0#28 ↔ s.getLsbD Category.unknownBit = true := by
    intro s
    simp only [Category.and_ne_zero_iff, Category.getLsbD_singleton, decide_eq_true_eq, exists_eq_right]
    rfl
  simp only [mayDependOn, anyWrite, anyRead, Bool.or_eq_true, Bool.and_eq_true, bne_iff_ne, hunnamed,
    Category.ne_zero_iff, BitVec.getLsbD_and, bit, if_true, Bool.false_eq_true, if_false]
  constructor
  · rintro ((⟨hn, m, hm⟩ | ⟨hm, n, hn⟩) | ⟨n, hn, hm⟩)
    · exact ⟨_, m, hn, hm, .inr (.inl rfl)⟩
    · exact ⟨n, _, hn, hm, .inr (.inr rfl)⟩
    · exact ⟨n, n, hn, hm, .inl rfl⟩
  · rintro ⟨n, m, hn, hm, rfl | rfl | rfl⟩
    · exact .inr ⟨n, hn, hm⟩
    · exact .inl (.inl ⟨hn, m, hm⟩)
    · exact .inl (.inr ⟨hm, n, hn⟩)

/-- A read and a write that overlap make an effect depend on another, and nothing else does. -/
theorem mayDependOn_ofAccesses : (ofAccesses as).mayDependOn (ofAccesses bs) = true ↔
    ∃ x ∈ as, ∃ y ∈ bs, x.isWrite = false ∧ y.isWrite = true ∧ x.Overlaps y := by
  have hoverlap : ∀ x y : CategoryAccess, x.Overlaps y ↔ x.category.bit = y.category.bit ∨
      x.category.bit = Category.unknownBit ∨ y.category.bit = Category.unknownBit := by
    intro x y
    have hunknown : Category.unknown.Storable := trivial
    rw [CategoryAccess.Overlaps, ← Category.bit_inj x.storable y.storable,
      ← Category.bit_inj x.storable hunknown, ← Category.bit_inj y.storable hunknown]
    rfl
  simp only [mayDependOn_iff, bit_ofAccesses, hoverlap]
  constructor
  · rintro ⟨_, _, ⟨x, hx, hread, rfl⟩, ⟨y, hy, hwrite, rfl⟩, h⟩
    exact ⟨x, hx, y, hy, hread, hwrite, h⟩
  · rintro ⟨x, hx, y, hy, hread, hwrite, h⟩
    exact ⟨_, _, ⟨x, hx, hread, rfl⟩, ⟨y, hy, hwrite, rfl⟩, h⟩

/-- The half of the writes has no trace of the reads, and the other way round. -/
theorem bit_ofAccesses_filter (written : Bool) :
    (ofAccesses (as.filter (·.isWrite = written))).bit written n = (ofAccesses as).bit written n := by
  rw [Bool.eq_iff_iff, bit_ofAccesses, bit_ofAccesses]
  simp only [List.mem_filter, decide_eq_true_eq]
  constructor
  · rintro ⟨x, ⟨hx, -⟩, h⟩
    exact ⟨x, hx, h⟩
  · rintro ⟨x, hx, h⟩
    exact ⟨x, ⟨hx, h.1⟩, h⟩

/-! Adding to an effect takes no answer back. -/

/-- More effects have the accesses of fewer. -/
theorem bit_union_left (h : e.bit written n = true) : (e.union e').bit written n = true := by
  rw [bit_union, h, Bool.true_or]

/-- More effects may write what fewer may write. -/
theorem mayWrite_union_left (h : e.mayWrite c = true) : (e.union e').mayWrite c = true := by
  rw [mayWrite_union, h, Bool.true_or]

/-- More effects may read what fewer may read. -/
theorem mayRead_union_left (h : e.mayRead c = true) : (e.union e').mayRead c = true := by
  have hor : (e.union e').mayRead c = (e.mayRead c || e'.mayRead c) := by
    rw [mayRead, reads_union, c.isTouched_or]
    rfl
  rw [hor, h, Bool.true_or]

/-- More effects include what fewer include. -/
theorem includes_union_left (h : e.includes d = true) : (e.union e').includes d = true :=
  includes_iff.2 fun written n hn => bit_union_left (includes_iff.1 h written n hn)

/-- More effects depend on what fewer depend on. -/
theorem mayDependOn_union_left (h : e.mayDependOn d = true) : (e.union e').mayDependOn d = true := by
  obtain ⟨n, m, hn, hm, hoverlap⟩ := mayDependOn_iff.1 h
  exact mayDependOn_iff.2 ⟨n, m, bit_union_left hn, hm, hoverlap⟩

/-- What depends on some effects depends on more. -/
theorem mayDependOn_union_right (h : d.mayDependOn e = true) : d.mayDependOn (e.union e') = true := by
  obtain ⟨n, m, hn, hm, hoverlap⟩ := mayDependOn_iff.1 h
  exact mayDependOn_iff.2 ⟨n, m, hn, bit_union_left hm, hoverlap⟩

/-- Effects that were put together from lists of accesses answer as the lists do: what may be written and
read, what includes what, and what depends on what.  Adding to an effect takes no answer back.  The writes of
a list are those of the writes in it alone, and so are its reads. -/
theorem ofAccesses_faithful (as bs : List CategoryAccess) :
    (∀ c, (ofAccesses as).mayWrite c = true ↔
      (∃ x ∈ as, x.isWrite = true ∧ (x.category = c ∨ x.category = .unknown)) ∨
        c = .unknown ∧ ∃ x ∈ as, x.isWrite = true) ∧
    (∀ c, (ofAccesses as).mayRead c = true ↔
      (∃ x ∈ as, x.isWrite = false ∧ (x.category = c ∨ x.category = .unknown)) ∨
        c = .unknown ∧ ∃ x ∈ as, x.isWrite = false) ∧
    ((ofAccesses as).includes (ofAccesses bs) = true ↔ ∀ x ∈ bs, x ∈ as) ∧
    ((ofAccesses as).mayDependOn (ofAccesses bs) = true ↔
      ∃ x ∈ as, ∃ y ∈ bs, x.isWrite = false ∧ y.isWrite = true ∧ x.Overlaps y) ∧
    (ofAccesses as).union (ofAccesses bs) = ofAccesses (as ++ bs) ∧
    (∀ e e' d : Effects, ∀ c,
      (e.mayWrite c = true → (e.union e').mayWrite c = true) ∧
      (e.mayRead c = true → (e.union e').mayRead c = true) ∧
      (e.includes d = true → (e.union e').includes d = true) ∧
      (e.mayDependOn d = true → (e.union e').mayDependOn d = true) ∧
      (d.mayDependOn e = true → d.mayDependOn (e.union e') = true)) ∧
    (ofAccesses as).writes = (ofAccesses (as.filter (·.isWrite = true))).writes ∧
    (ofAccesses as).reads = (ofAccesses (as.filter (·.isWrite = false))).reads := by
  refine ⟨fun c => isTouched_ofAccesses true, fun c => isTouched_ofAccesses false, includes_ofAccesses,
    mayDependOn_ofAccesses, ofAccesses_append.symm, fun e e' d c => ⟨mayWrite_union_left, mayRead_union_left,
      includes_union_left, mayDependOn_union_left, mayDependOn_union_right⟩, ?_, ?_⟩
  · exact BitVec.eq_of_getLsbD_eq fun n _ => (bit_ofAccesses_filter true).symm
  · exact BitVec.eq_of_getLsbD_eq fun n _ => (bit_ofAccesses_filter false).symm

end Effects

end Midend
