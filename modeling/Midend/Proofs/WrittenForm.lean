import Midend.Proofs.Scanning

/-!
# Texts and written forms

The text of a written form, and when a written form has one: its names are made of the right characters and
its numbers fit.  Names, numbers, attributes and lists are read back from their texts, and what is scanned has
a text.

## Shape of the argument

One layer of the grammar after the other: characters, names, attributes, lists in brackets.  What follows a
name or a number must not continue it, so the lemmas carry the rest of the text.
-/

namespace Midend

namespace Source

open Scan

/-! ## Written forms that have a text -/

/-- A value or a label can be named so. -/
def IsName (s : String) : Prop := s.toList ≠ [] ∧ ∀ c ∈ s.toList, isNameChar c = true

/-- A class, a member or a method can be named so. -/
def IsSymbol (s : String) : Prop := s.toList ≠ [] ∧ ∀ c ∈ s.toList, isSymbolChar c = true

/-- A letter or underscore starts a word. -/
def startsWord (c : Char) : Bool := isLetter c || c = '_'

/-- A word goes on with letters, digits, underscores and dots. -/
def continuesWord (c : Char) : Bool := isNameChar c || c = '.'

/-- An operation, a type or a key of an attribute can be named so. -/
def IsIdent (s : String) : Prop :=
  ∃ c cs, s.toList = c :: cs ∧ startsWord c = true ∧ ∀ d ∈ cs, continuesWord d = true

instance (s : String) : Decidable (IsIdent s) :=
  match h : s.toList with
  | [] => isFalse (by rintro ⟨c, cs, hcs, -⟩; rw [h] at hcs; cases hcs)
  | c :: cs => decidable_of_iff (startsWord c = true ∧ cs.all continuesWord = true)
      ⟨fun hc => ⟨c, cs, h, hc.1, List.all_eq_true.1 hc.2⟩, by
        rintro ⟨c', cs', hcs, hc, hcs'⟩
        rw [h] at hcs
        cases hcs
        exact ⟨hc, List.all_eq_true.2 hcs'⟩⟩

/-- An attribute's value can be written.  A word must not look like a truth value. -/
def Attr.Lexical : Attr → Prop
  | bool _ => True
  | int n => Int64.minValue.toInt ≤ n ∧ n ≤ Int64.maxValue.toInt
  | symbol s => IsSymbol s
  | ident s => IsIdent s ∧ ¬ "true".toList <+: s.toList ∧ ¬ "false".toList <+: s.toList

structure Line.Lexical (l : Line) : Prop where
  result : ∀ v, l.result = some v → IsName v
  op : IsIdent l.op
  operands : ∀ v ∈ l.operands, IsName v
  phiEntries : ∀ e ∈ l.phiEntries, IsName e.1 ∧ IsName e.2
  phi : l.op = "phi" → l.operands = []
  ordinary : l.op ≠ "phi" → l.phiEntries = []
  succs : ∀ s ∈ l.succs, IsName s
  attrs : ∀ e ∈ l.attrs, IsIdent e.1 ∧ e.2.Lexical
  ty : ∀ t, l.ty = some t → IsIdent t

structure Block.Lexical (b : Block) : Prop where
  label : IsName b.label
  lines : ∀ l ∈ b.lines, l.Lexical

structure FieldDecl.Lexical (f : FieldDecl) : Prop where
  qualified : IsSymbol f.qualified
  ty : IsIdent f.ty
  attrs : ∀ e ∈ f.attrs, IsIdent e.1 ∧ e.2.Lexical

structure Method.Lexical (m : Method) : Prop where
  name : IsSymbol m.name
  params : ∀ e ∈ m.params, IsName e.1 ∧ IsIdent e.2
  fields : ∀ f ∈ m.fields, f.Lexical
  blocks : ∀ b ∈ m.blocks, b.Lexical

/-! ## Texts of written forms -/

def commas (parts : List (List Char)) : List Char := ", ".toList.intercalate parts

def Attr.chars : Attr → List Char
  | bool b => (if b then "true" else "false").toList
  | int n => (toString n).toList
  | symbol s => '@' :: s.toList
  | ident s => s.toList

def entryChars (e : String × Attr) : List Char := e.1.toList ++ " = ".toList ++ e.2.chars

def dictChars (es : List (String × Attr)) : List Char :=
  '\x7b' :: (commas (es.map entryChars) ++ ['\x7d'])

def valueChars (v : String) : List Char := '%' :: v.toList

def labelChars (l : String) : List Char := '^' :: l.toList

def phiEntryChars (e : String × String) : List Char := labelChars e.1 ++ ": ".toList ++ valueChars e.2

def paramChars (e : String × String) : List Char := valueChars e.1 ++ ": ".toList ++ e.2.toList

namespace Line

def resultChars (l : Line) : List Char :=
  match l.result with
  | some v => valueChars v ++ " = ".toList
  | none => []

def argumentChars (l : Line) : List Char :=
  if l.op = "phi" then " [".toList ++ commas (l.phiEntries.map phiEntryChars) ++ [']']
  else if l.operands = [] then []
  else ' ' :: commas (l.operands.map valueChars)

def succChars (l : Line) : List Char :=
  if l.succs = [] then [] else " [".toList ++ commas (l.succs.map labelChars) ++ [']']

def attrChars (l : Line) : List Char := if l.attrs = [] then [] else ' ' :: dictChars l.attrs

def tyChars (l : Line) : List Char :=
  match l.ty with
  | some t => " : ".toList ++ t.toList
  | none => []

def chars (l : Line) : List Char :=
  l.resultChars ++ (l.op.toList ++ (l.argumentChars ++ (l.succChars ++ (l.attrChars ++ l.tyChars))))

end Line

/-- The note at the end of a line. -/
def noteChars : Option String → List Char
  | some note => "  // ".toList ++ note.toList
  | none => []

def lineChars (l : Line × Option String) : List Char :=
  "  ".toList ++ (l.1.chars ++ (noteChars l.2 ++ ['\n']))

/-- A block with its label and its lines, each with its note. -/
abbrev NotedBlock := String × List (Line × Option String)

/-- The block without its notes. -/
def NotedBlock.block (b : NotedBlock) : Block := ⟨b.1, b.2.map Prod.fst⟩

def blockChars (b : NotedBlock) : List Char := labelChars b.1 ++ (":\n".toList ++ b.2.flatMap lineChars)

def fieldBody (f : FieldDecl) : List Char :=
  "field".toList ++ (" @".toList ++ (f.qualified.toList ++ (" : ".toList ++ (f.ty.toList ++
    (' ' :: (dictChars f.attrs ++ ['\n']))))))

def fieldChars (f : FieldDecl) : List Char := "  ".toList ++ fieldBody f

/-- The words after the parameters. -/
def flagChars (m : Method) : List Char :=
  (if m.isStatic then " static".toList else []) ++ (if m.isSynchronized then " synchronized".toList else [])

/-- The text of a method whose blocks have these notes. -/
def methodChars (m : Method) (noted : List NotedBlock) : List Char :=
  "method".toList ++ (" @".toList ++ (m.name.toList ++ ('(' :: (commas (m.params.map paramChars) ++
    (')' :: (flagChars m ++ (" \x7b\n".toList ++ (m.fields.flatMap fieldChars ++
      (noted.flatMap blockChars ++ "\x7d\n".toList)))))))))

/-! ## Names and numbers -/

variable {v : String} {s rest : List Char} {c : Char} {n : Int}

/-- What is scanned as the name of a value can be written as one. -/
theorem gives_valueName : Gives valueName IsName :=
  gives_true.bind fun _ _ => gives_takeWhile1.bind fun cs h => .pure (by simpa [IsName] using h)

/-- What is scanned as a label can be written as one. -/
theorem gives_label : Gives label IsName :=
  gives_true.bind fun _ _ => gives_takeWhile1.bind fun cs h => .pure (by simpa [IsName] using h)

/-- What is scanned as a symbol can be written as one. -/
theorem gives_symbol : Gives symbol IsSymbol :=
  gives_true.bind fun _ _ => gives_takeWhile1.bind fun cs h => .pure (by simpa [IsSymbol] using h)

/-- What is scanned as a word can be written as one. -/
theorem gives_ident : Gives ident IsIdent :=
  gives_satisfy.bind fun c hc => gives_takeWhile.bind fun cs h => .pure ⟨c, cs, String.toList_ofList, hc, h⟩

section Tokens

-- the characters of symbols include those of all other tokens
variable (hrest : Stops isSymbolChar rest)
include hrest

/-- The name of a value is read back, whatever cannot continue it follows. -/
theorem run_valueName (hv : IsName v) : run valueName (valueChars v ++ rest) = .ok v rest := by
  have hname : Stops isNameChar rest := hrest.mono fun c hc => by simp [isSymbolChar, hc]
  refine run_bind_ok (run_char _) (run_bind_ok (run_takeWhile1 hv.1 hv.2 hname) ?_)
  rw [String.ofList_toList]
  rfl

/-- A label is read back. -/
theorem run_label (hv : IsName v) : run label (labelChars v ++ rest) = .ok v rest := by
  have hname : Stops isNameChar rest := hrest.mono fun c hc => by simp [isSymbolChar, hc]
  refine run_bind_ok (run_char _) (run_bind_ok (run_takeWhile1 hv.1 hv.2 hname) ?_)
  rw [String.ofList_toList]
  rfl

/-- A symbol is read back. -/
theorem run_symbol (hv : IsSymbol v) : run symbol ('@' :: (v.toList ++ rest)) = .ok v rest := by
  refine run_bind_ok (run_char _) (run_bind_ok (run_takeWhile1 hv.1 hv.2 hrest) ?_)
  rw [String.ofList_toList]
  rfl

/-- A word is read back. -/
theorem run_ident (hv : IsIdent v) : run ident (v.toList ++ rest) = .ok v rest := by
  have hword : Stops continuesWord rest := hrest.mono fun c hc => by
    simp only [continuesWord, Bool.or_eq_true, decide_eq_true_eq] at hc
    rcases hc with hname | rfl
    · simp [isSymbolChar, hname]
    · rfl
  obtain ⟨c, cs, hcs, hc, hd⟩ := hv
  rw [hcs]
  refine run_bind_ok (run_satisfy hc) (run_bind_ok (run_takeWhile hd hword) ?_)
  rw [← hcs, String.ofList_toList]
  rfl

end Tokens

/-- Digits are the digits of the standard library. -/
theorem isDigit_eq (c : Char) : isDigit c = c.isDigit := by
  rw [Bool.eq_iff_iff]
  simp [isDigit, Char.isDigit, Char.le_def]

/-- The decimal digits of a number are digits. -/
theorem isDigit_of_mem {m : Nat} (hc : c ∈ Nat.toDigits 10 m) : isDigit c = true := by
  rw [isDigit_eq]
  exact Nat.isDigit_of_mem_toDigits (by decide) (by decide) hc

/-- A positive number does not start with a zero. -/
theorem head_toDigits {m : Nat} (hm : 0 < m) : ∃ c cs, Nat.toDigits 10 m = c :: cs ∧ c ≠ '0' := by
  induction m using Nat.strongRecOn with
  | _ m ih =>
    by_cases hlt : m < 10
    · refine ⟨_, _, Nat.toDigits_of_lt_base hlt, ?_⟩
      rw [Ne, Nat.digitChar_eq_zero]
      omega
    · obtain ⟨c, cs, hcs, hc⟩ := ih (m / 10) (by omega) (by omega)
      refine ⟨c, cs ++ [(m % 10).digitChar], ?_, hc⟩
      rw [Nat.toDigits_of_base_le (by decide) (by omega), hcs]
      rfl

/-- A number can be the name of a value or a label. -/
theorem isName_toString (m : Nat) : IsName (toString m) := by
  rw [IsName, Nat.toString_eq_ofList_toDigits, String.toList_ofList]
  refine ⟨Nat.toDigits_ne_nil, fun c hc => ?_⟩
  simp [isNameChar, isAlphanum, isDigit_of_mem hc]

/-- Different numbers are different names. -/
theorem toString_inj {m n : Nat} (h : toString m = toString n) : m = n := by
  rw [← String.toList_inj, Nat.toString_eq_ofList_toDigits, Nat.toString_eq_ofList_toDigits,
    String.toList_ofList, String.toList_ofList] at h
  rw [← Nat.ofDigitChars_ten_toDigits (n := m), h, Nat.ofDigitChars_ten_toDigits]

/-- A number that is not zero is read back from its sign and its digits. -/
theorem integer_digits {m : Nat} (hm : 0 < m) (hrest : Stops isDigit rest) (negative : Bool)
    (hn : n = if negative then -(m : Int) else m)
    (hrange : Int64.minValue.toInt ≤ n ∧ n ≤ Int64.maxValue.toInt) :
    integer ((if negative then ['-'] else []) ++ (Nat.toDigits 10 m ++ rest)) = .ok n rest := by
  have hvalue : digitsToNat (Nat.toDigits 10 m) = m := by
    rw [digitsToNat, ← Nat.ofDigitChars_eq_foldl]
    exact Nat.ofDigitChars_ten_toDigits
  obtain ⟨htake, hdrop⟩ := takeWhile_eq (fun c => isDigit_of_mem (m := m)) hrest
  obtain ⟨c, cs, hcs, hc⟩ := head_toDigits hm
  have hdigit : isDigit c = true := isDigit_of_mem (by rw [hcs]; exact List.mem_cons_self)
  have hminus : c ≠ '-' := by rintro rfl; exact absurd hdigit (by decide)
  have hplus : c ≠ '+' := by rintro rfl; exact absurd hdigit (by decide)
  have hin : (decide (Int64.minValue.toInt ≤ n) && decide (n ≤ Int64.maxValue.toInt)) = true := by
    rw [Bool.and_eq_true, decide_eq_true_eq, decide_eq_true_eq]
    exact hrange
  rw [hcs] at htake hdrop hvalue ⊢
  rw [List.cons_append] at htake hdrop
  unfold integer
  cases negative with
  | true =>
    simp only [if_true] at hn
    simp only [if_true, List.cons_append, List.nil_append, htake, hdrop, hvalue, if_neg hc, ← hn, hin]
  | false =>
    simp only [Bool.false_eq_true, if_false] at hn
    simpa [hminus, hplus, htake, hdrop, hc, hvalue, ← hn] using hin

/-- A number that fits into a word is read back, minus sign included. -/
theorem run_integer (hrest : Stops isSymbolChar rest)
    (hrange : Int64.minValue.toInt ≤ n ∧ n ≤ Int64.maxValue.toInt) :
    run integer ((toString n).toList ++ rest) = .ok n rest := by
  have hdigit : Stops isDigit rest :=
    hrest.mono fun c hc => by simp [isSymbolChar, isNameChar, isAlphanum, hc]
  rw [Int.toString_eq_repr, Int.repr_eq_if]
  split
  · next hn =>
    obtain ⟨m, rfl⟩ := Int.eq_ofNat_of_zero_le hn
    rw [Int.toNat_natCast, Nat.toList_repr]
    by_cases hm : m = 0
    · subst hm
      rfl
    · exact integer_digits (Nat.pos_of_ne_zero hm) hdigit false rfl hrange
  · next hn =>
    rw [String.toList_append, Nat.toList_repr, List.append_assoc]
    exact integer_digits (by omega) hdigit true (by simp; omega) hrange

/-- A number starts with a minus sign or a digit. -/
theorem head_toString (n : Int) : ∃ c cs, (toString n).toList = c :: cs ∧ (c = '-' ∨ isDigit c = true) := by
  rw [Int.toString_eq_repr, Int.repr_eq_if]
  split
  · rw [Nat.toList_repr]
    obtain ⟨c, cs, hcs⟩ := List.exists_cons_of_ne_nil (Nat.toDigits_ne_nil (n := n.toNat) (b := 10))
    exact ⟨c, cs, hcs, .inr (isDigit_of_mem (hcs ▸ List.mem_cons_self))⟩
  · exact ⟨'-', _, by rw [String.toList_append]; rfl, .inl rfl⟩

/-- A word is no number. -/
theorem run_integer_failed (hc : startsWord c = true) : run integer (c :: s) = .failed (c :: s) := by
  have hminus : c ≠ '-' := by rintro rfl; revert hc; decide
  have hplus : c ≠ '+' := by rintro rfl; revert hc; decide
  have hdigit : isDigit c = false := by
    simp only [startsWord, isLetter, Bool.or_eq_true, Bool.and_eq_true, decide_eq_true_eq, Char.le_def,
      UInt32.le_iff_toNat_le] at hc
    simp only [isDigit, Bool.and_eq_false_iff, decide_eq_false_iff_not, Char.le_def,
      UInt32.le_iff_toNat_le]
    rcases hc with (⟨hlo, -⟩ | ⟨hlo, -⟩) | rfl
    · right
      have : 97 ≤ c.val.toNat := hlo
      show ¬ c.val.toNat ≤ 57
      omega
    · right
      have : 65 ≤ c.val.toNat := hlo
      show ¬ c.val.toNat ≤ 57
      omega
    · decide
  show integer (c :: s) = _
  unfold integer
  simp [hminus, hplus, hdigit]

/-! ## Blanks -/

/-- A blank is passed over. -/
theorem skipBlank_blank (hc : isBlank c = true) : skipBlank false (c :: s) = skipBlank false s := by
  simp [skipBlank, hc]

/-- Blanks end at a character that is no blank and starts no comment. -/
theorem skipBlank_solid (hc : isBlank c = false) (hslash : c ≠ '/') :
    skipBlank false (c :: s) = c :: s := by
  simp [skipBlank, hc, hslash]

/-- A comment ends with its line. -/
theorem skipBlank_comment (hs : '\n' ∉ s) : skipBlank true (s ++ '\n' :: rest) = skipBlank false rest := by
  induction s with
  | nil => rfl
  | cons c s ih =>
    rw [List.mem_cons, not_or] at hs
    have hc : (decide (c ≠ '\n')) = true := by simpa using Ne.symm hs.1
    rw [List.cons_append, skipBlank, if_pos rfl, hc]
    exact ih hs.2

/-- Where blanks end there are none. -/
theorem skipBlank_skipBlank (inComment : Bool) (s : List Char) :
    skipBlank false (skipBlank inComment s) = skipBlank inComment s := by
  induction s generalizing inComment with
  | nil => rfl
  | cons c s ih =>
    rw [skipBlank]
    split
    · exact ih _
    · split
      · exact ih _
      · next hblank =>
        split
        · exact ih _
        · next hcomment => rw [skipBlank, if_neg (by decide), if_neg hblank, if_neg hcomment]

/-- Passing over blanks takes nothing but characters away. -/
theorem length_skipBlank_le (inComment : Bool) (s : List Char) :
    (skipBlank inComment s).length ≤ s.length := by
  induction s generalizing inComment with
  | nil => exact Nat.le_refl _
  | cons c s ih =>
    unfold skipBlank
    rw [List.length_cons]
    split
    · exact Nat.le_succ_of_le (ih _)
    · split
      · exact Nat.le_succ_of_le (ih _)
      · split
        · exact Nat.le_succ_of_le (ih _)
        · exact Nat.le_refl _

/-- Passing over blanks always succeeds. -/
theorem run_blank : run blank s = .ok () (skipBlank false s) := rfl

/-- A text after the spaces and tabs at its front. -/
def dropSpace (s : List Char) : List Char := s.dropWhile fun c => c = ' ' || c = '\t'

/-- Passing over spaces always succeeds. -/
theorem run_space : run space s = .ok () (dropSpace s) := rfl

/-- A space is dropped. -/
@[simp] theorem dropSpace_space : dropSpace (' ' :: s) = dropSpace s := rfl

/-- Where no space stands, none is dropped. -/
theorem dropSpace_solid (hs : Stops (fun c => c = ' ' || c = '\t') s) : dropSpace s = s := by
  cases s with
  | nil => rfl
  | cons c s =>
    rw [stops_cons] at hs
    simp [dropSpace, hs]

/-- Where spaces end there are none. -/
@[simp] theorem dropSpace_dropSpace : dropSpace (dropSpace s) = dropSpace s := by
  induction s with
  | nil => rfl
  | cons c s ih =>
    unfold dropSpace at ih ⊢
    rw [List.dropWhile_cons]
    split
    · exact ih
    · next hc => rw [List.dropWhile_cons, if_neg hc]

/-- Spaces are blanks. -/
theorem skipBlank_dropSpace : skipBlank false (dropSpace s) = skipBlank false s := by
  induction s with
  | nil => rfl
  | cons c s ih =>
    unfold dropSpace at ih ⊢
    rw [List.dropWhile_cons]
    split
    · next hc =>
      rw [ih, skipBlank_blank]
      simp only [Bool.or_eq_true, decide_eq_true_eq] at hc
      rcases hc with rfl | rfl <;> rfl
    · rfl

/-- A word or number does not start with a blank or a comment. -/
theorem isBlank_of_isNameChar (hc : isNameChar c = true) : isBlank c = false ∧ c ≠ '/' := by
  refine ⟨?_, ?_⟩
  · by_contra hblank
    simp only [Bool.not_eq_false, isBlank, Bool.or_eq_true, decide_eq_true_eq] at hblank
    rcases hblank with (((rfl | rfl) | rfl) | rfl) | rfl <;> revert hc <;> decide
  · rintro rfl
    revert hc
    decide

/-- What starts a word may stand in a name. -/
theorem isNameChar_of_startsWord (hc : startsWord c = true) : isNameChar c = true := by
  simp only [startsWord, Bool.or_eq_true, decide_eq_true_eq] at hc
  rcases hc with hletter | rfl
  · simp [isNameChar, isAlphanum, hletter]
  · rfl

/-- No blank stands before a word. -/
theorem IsIdent.skipBlank (hv : IsIdent v) : skipBlank false (v.toList ++ rest) = v.toList ++ rest := by
  obtain ⟨c, cs, hcs, hc, -⟩ := hv
  obtain ⟨hblank, hslash⟩ := isBlank_of_isNameChar (isNameChar_of_startsWord hc)
  rw [hcs, List.cons_append, skipBlank_solid hblank hslash]

/-- No space stands before a word. -/
theorem IsIdent.dropSpace (hv : IsIdent v) : dropSpace (v.toList ++ rest) = v.toList ++ rest := by
  obtain ⟨c, cs, hcs, hc, -⟩ := hv
  rw [hcs, List.cons_append]
  apply dropSpace_solid
  rw [stops_cons, Bool.or_eq_false_iff, decide_eq_false_iff_not, decide_eq_false_iff_not]
  constructor
  · rintro rfl
    revert hc
    decide
  · rintro rfl
    revert hc
    decide

/-! ## Attributes -/

/-- What a choice accepts, its first part accepts, or its second part after the first has given up. -/
theorem run_orElse_inv {α : Type} {p q : Scan α} {a : α} (h : run (orElse p q) s = .ok a rest) :
    run p s = .ok a rest ∨ (∃ s', run p s = .failed s') ∧ run q s = .ok a rest := by
  cases hp : run p s with
  | ok b s' => exact .inl (by rw [← h, run_orElse hp])
  | failed s' => exact .inr ⟨⟨s', rfl⟩, by rw [← h, run_orElse_right hp]⟩

/-- A word that was read stood at the start of the text. -/
theorem prefix_of_run_ident (h : run ident s = .ok v rest) : v.toList <+: s := by
  cases s with
  | nil => cases h
  | cons c s =>
    unfold ident at h
    rw [run_bind] at h
    split at h
    · next c' s' hc =>
      change satisfy _ _ = _ at hc
      rw [satisfy] at hc
      split at hc
      · cases hc
        cases h
        rw [String.toList_ofList]
        exact List.cons_prefix_cons.2 ⟨rfl, List.takeWhile_prefix _⟩
      · cases hc
    · cases h

/-- A given word that was not read did not stand at the start of the text. -/
theorem not_prefix_of_failed {w : List Char} {a : Attr} {s' : List Char}
    (h : run (do word w; return a) s = .failed s') : ¬ w <+: s := by
  rintro ⟨t, rfl⟩
  rw [run_bind_ok run_word (run_pure a t)] at h
  cases h

/-- A number that is scanned fits into a word. -/
theorem gives_integer :
    Gives integer fun n => Int64.minValue.toInt ≤ n ∧ n ≤ Int64.maxValue.toInt := by
  intro s n rest h
  have hin : ∀ {k : Int} {t t' : List Char},
      (if (decide (Int64.minValue.toInt ≤ k) && decide (k ≤ Int64.maxValue.toInt)) = true then
        Scanned.ok k t else Scanned.failed t') = .ok n rest →
      Int64.minValue.toInt ≤ n ∧ n ≤ Int64.maxValue.toInt := by
    intro k t t' h
    split at h
    · next hk =>
      cases h
      simpa using hk
    · cases h
  change integer s = _ at h
  unfold integer at h
  simp only at h
  split at h
  · cases h
  · split at h
    · split at h
      · cases h
        decide
      · cases h
    · exact hin h

/-- What is scanned as the value of an attribute can be written as one. -/
theorem gives_attrValue : Gives attrValue Attr.Lexical := by
  have hbool : ∀ w b, Gives (do word w; return Attr.bool b) Attr.Lexical :=
    fun w b => gives_true.bind fun _ _ => .pure trivial
  have hsymbol : Gives (do return Attr.symbol (← symbol)) Attr.Lexical :=
    gives_symbol.bind fun v hv => .pure hv
  have hint : Gives (do return Attr.int (← integer)) Attr.Lexical :=
    gives_integer.bind fun n hn => .pure hn
  intro s a rest h
  rcases run_orElse_inv h with h | ⟨⟨_, hnotTrue⟩, h⟩
  · exact hbool _ _ h
  rcases run_orElse_inv h with h | ⟨⟨_, hnotFalse⟩, h⟩
  · exact hbool _ _ h
  rcases run_orElse_inv h with h | ⟨-, h⟩
  · exact hsymbol h
  rcases run_orElse_inv h with h | ⟨-, h⟩
  · exact hint h
  rw [run_bind] at h
  split at h
  · next v s' hv =>
    cases h
    have hpre := prefix_of_run_ident hv
    exact ⟨gives_ident hv, fun hw => not_prefix_of_failed hnotTrue (hw.trans hpre),
      fun hw => not_prefix_of_failed hnotFalse (hw.trans hpre)⟩
  · cases h

/-- What is scanned as attributes can be written as such. -/
theorem gives_attrDict : Gives attrDict fun es => ∀ e ∈ es, IsIdent e.1 ∧ e.2.Lexical := by
  have hentry : Gives attrEntry fun e => IsIdent e.1 ∧ e.2.Lexical :=
    gives_true.bind fun _ _ => gives_ident.bind fun key hkey => gives_true.bind fun _ _ =>
      gives_true.bind fun _ _ => gives_true.bind fun _ _ => gives_attrValue.bind fun value hvalue =>
        gives_true.bind fun _ _ => .pure ⟨hkey, hvalue⟩
  exact gives_true.bind fun _ _ => gives_true.bind fun _ _ => hentry.separated.bind fun es hes =>
    gives_true.bind fun _ _ => gives_true.bind fun _ _ => .pure hes

/-- No blank stands before the value of an attribute. -/
theorem skipBlank_attr {a : Attr} (ha : a.Lexical) :
    skipBlank false (a.chars ++ rest) = a.chars ++ rest := by
  cases a with
  | bool b => cases b <;> rfl
  | symbol v => rfl
  | int n =>
    obtain ⟨d, ds, hds, hd⟩ := head_toString n
    rw [Attr.chars, hds, List.cons_append]
    apply skipBlank_solid
    all_goals rcases hd with rfl | hd
    · rfl
    · exact (isBlank_of_isNameChar (by simp [isNameChar, isAlphanum, hd])).1
    · decide
    · exact (isBlank_of_isNameChar (by simp [isNameChar, isAlphanum, hd])).2
  | ident v => exact ha.1.skipBlank

/-- A character that neither goes on with a token nor starts a blank or a comment. -/
def isPunct (c : Char) : Bool := !isSymbolChar c && !isBlank c && c ≠ '/'

section Punct

variable (hc : isPunct c = true)
include hc

/-- A punctuation mark continues no name. -/
theorem stops_punct (rest : List Char) : Stops isSymbolChar (c :: rest) := by
  simp only [isPunct, Bool.and_eq_true, Bool.not_eq_true'] at hc
  rw [stops_cons]
  exact hc.1.1

/-- No blank stands before a punctuation mark. -/
theorem skipBlank_punct : skipBlank false (c :: rest) = c :: rest := by
  simp only [isPunct, Bool.and_eq_true, Bool.not_eq_true', decide_eq_true_eq] at hc
  exact skipBlank_solid hc.1.2 hc.2

/-- What is a word before a punctuation mark is no longer with it. -/
theorem prefix_of_prefix_append {w : List Char} (hw : ∀ d ∈ w, isSymbolChar d = true)
    (h : w <+: s ++ c :: rest) : w <+: s := by
  rcases List.prefix_or_prefix_of_prefix h (List.prefix_append s _) with h' | ⟨u, rfl⟩
  · exact h'
  · rw [List.prefix_append_right_inj] at h
    cases u with
    | nil => simp
    | cons d u =>
      obtain rfl := (List.cons_prefix_cons.1 h).1
      have hd := hw d (by simp)
      have hstop := stops_cons.1 (stops_punct hc rest)
      rw [hd] at hstop
      cases hstop

/-- The value of an attribute is read back from its text. -/
theorem run_attrValue {a : Attr} (ha : a.Lexical) :
    run attrValue (a.chars ++ c :: rest) = .ok a (c :: rest) := by
  have hstop := stops_punct hc rest
  have hword : ∀ {w s : List Char} {b : Attr}, ¬ w <+: s → run (do word w; return b) s = .failed s :=
    fun h => run_bind_failed (run_word_failed h)
  have hsymbol : ∀ {s : List Char}, s.head? ≠ some '@' →
      run (do return Attr.symbol (← symbol)) s = .failed s :=
    fun h => run_bind_failed (run_bind_failed (run_char_failed h))
  unfold attrValue
  cases a with
  | bool b =>
    cases b with
    | true => exact run_orElse (run_bind_ok run_word rfl)
    | false =>
      rw [run_orElse_right (hword (by simp [Attr.chars]))]
      exact run_orElse (run_bind_ok run_word rfl)
  | symbol v =>
    rw [run_orElse_right (hword (by simp [Attr.chars])), run_orElse_right (hword (by simp [Attr.chars]))]
    exact run_orElse (run_bind_ok (run_symbol hstop ha) rfl)
  | int n =>
    obtain ⟨d, ds, hds, hd⟩ := head_toString n
    have hchars : Attr.chars (.int n) = d :: ds := hds
    have hne : ∀ {e : Char}, e ≠ '-' → isDigit e = false → e ≠ d := by
      rintro e hminus hdigit rfl
      rcases hd with rfl | hd
      · exact hminus rfl
      · rw [hdigit] at hd
        cases hd
    have hnot : ∀ {e : Char} {w : List Char}, e ≠ d →
        ¬ e :: w <+: Attr.chars (.int n) ++ c :: rest := by
      intro e w he hpre
      rw [hchars, List.cons_append] at hpre
      exact he (List.cons_prefix_cons.1 hpre).1
    have htrue : ¬ "true".toList <+: Attr.chars (.int n) ++ c :: rest :=
      hnot (hne (e := 't') (by decide) (by decide))
    have hfalse : ¬ "false".toList <+: Attr.chars (.int n) ++ c :: rest :=
      hnot (hne (e := 'f') (by decide) (by decide))
    rw [run_orElse_right (hword htrue), run_orElse_right (hword hfalse), run_orElse_right (hsymbol ?_)]
    · exact run_orElse (run_bind_ok (run_integer hstop ha) rfl)
    · rw [hchars]
      simpa using (hne (by decide) (by decide) : '@' ≠ d).symm
  | ident v =>
    obtain ⟨hv, htrue, hfalse⟩ := ha
    have hnot : ∀ {w : List Char}, (∀ d ∈ w, isSymbolChar d = true) → ¬ w <+: v.toList →
        ¬ w <+: Attr.chars (.ident v) ++ c :: rest :=
      fun hw h hpre => h (prefix_of_prefix_append hc hw hpre)
    have htrue := hnot (List.all_eq_true.1 (show "true".toList.all isSymbolChar = true by decide +kernel)) htrue
    have hfalse := hnot (List.all_eq_true.1 (show "false".toList.all isSymbolChar = true by decide +kernel))
      hfalse
    rw [run_orElse_right (hword htrue), run_orElse_right (hword hfalse)]
    obtain ⟨d, ds, hds, hd, -⟩ := id hv
    have hchars : Attr.chars (.ident v) = d :: ds := hds
    have hint : run integer (Attr.chars (.ident v) ++ c :: rest) =
        .failed (Attr.chars (.ident v) ++ c :: rest) := by
      rw [hchars]
      exact run_integer_failed hd
    rw [run_orElse_right (hsymbol ?_), run_orElse_right (run_bind_failed hint)]
    · exact run_bind_ok (run_ident hstop hv) rfl
    · rw [hchars]
      have : d ≠ '@' := by rintro rfl; revert hd; decide
      simpa using this

/-- An attribute is read back from its text. -/
theorem run_attrEntry {e : String × Attr} (he : IsIdent e.1 ∧ e.2.Lexical) :
    run attrEntry (entryChars e ++ c :: rest) = .ok e (c :: rest) := by
  unfold entryChars
  rw [List.append_assoc, List.append_assoc]
  refine run_bind_ok run_blank ?_
  rw [he.1.skipBlank]
  refine run_bind_ok (run_ident (stops_cons.2 rfl) he.1) (run_bind_ok run_blank ?_)
  refine run_bind_ok (run_char (' ' :: (e.2.chars ++ c :: rest))) (run_bind_ok run_blank ?_)
  rw [skipBlank_blank rfl, skipBlank_attr he.2]
  refine run_bind_ok (run_attrValue hc he.2) (run_bind_ok run_blank ?_)
  rw [skipBlank_punct hc]
  rfl

end Punct

section Bracketed

variable {α : Type} {p : Scan α} {q : Scan (List α)} {text : α → List Char} {as : List α} {o k : Char}

/-- No blank stands before a list that starts with none, nor before the mark that closes it. -/
theorem skipBlank_commas (hstart : ∀ a ∈ as, ∀ s, skipBlank false (text a ++ s) = text a ++ s)
    (hk : isPunct k = true) :
    skipBlank false (commas (as.map text) ++ k :: rest) = commas (as.map text) ++ k :: rest := by
  unfold commas
  cases as with
  | nil => exact skipBlank_punct hk
  | cons a as =>
    rw [intercalate_map_cons, List.append_assoc]
    exact hstart a List.mem_cons_self _

/-- A list in brackets. -/
theorem run_bracketed (hstart : ∀ a ∈ as, ∀ s, skipBlank false (text a ++ s) = text a ++ s)
    (hk : isPunct k = true) (hq : run q (commas (as.map text) ++ k :: rest) = .ok as (k :: rest)) :
    run (do char o; blank; let as ← q; blank; char k; return as)
      (o :: (commas (as.map text) ++ k :: rest)) = .ok as rest := by
  refine run_bind_ok (run_char _) (run_bind_ok run_blank ?_)
  rw [skipBlank_commas hstart hk]
  refine run_bind_ok hq (run_bind_ok run_blank ?_)
  rw [skipBlank_punct hk]
  exact run_bind_ok (run_char _) rfl

/-- Values with commas between them, up to a closing bracket. -/
theorem run_separated_punct (hp : ∀ a ∈ as, ∀ c s, isPunct c = true → run p (text a ++ c :: s) = .ok a (c :: s))
    (hspace : ∀ s, run p (' ' :: s) = run p s) (hk : isPunct k = true) (hcomma : k ≠ ',')
    (hfail : run p (k :: rest) = .failed s) :
    run (separated p (char ',')) (commas (as.map text) ++ k :: rest) = .ok as (k :: rest) :=
  run_separated (fun a ha s => hp a ha ',' s rfl) (fun a ha => hp a ha k rest hk) hspace (by simpa using hcomma)
    hfail

end Bracketed

/-- Attributes in braces are read back from their text. -/
theorem run_attrDict {es : List (String × Attr)} (hes : ∀ e ∈ es, IsIdent e.1 ∧ e.2.Lexical) :
    run attrDict (dictChars es ++ rest) = .ok es rest := by
  unfold dictChars
  rw [List.cons_append, List.append_assoc]
  refine run_bracketed (fun e he s => ?_) rfl (run_separated_punct
    (fun e he c s hc => run_attrEntry hc (hes e he)) (fun s => rfl) rfl (by decide) rfl)
  rw [entryChars, List.append_assoc, List.append_assoc]
  exact (hes e he).1.skipBlank

/-! ## Parameters, operands, successors -/

/-- What is scanned as the declaration of a parameter can be written as one. -/
theorem gives_paramDecl : Gives paramDecl fun e => IsName e.1 ∧ IsIdent e.2 :=
  gives_true.bind fun _ _ => gives_valueName.bind fun _ hv => gives_true.bind fun _ _ =>
    gives_true.bind fun _ _ => gives_true.bind fun _ _ => gives_ident.bind fun _ ht =>
      gives_true.bind fun _ _ => .pure ⟨hv, ht⟩

/-- What is scanned as an entry of a phi can be written as one. -/
theorem gives_phiEntry : Gives phiEntry fun e => IsName e.1 ∧ IsName e.2 :=
  gives_true.bind fun _ _ => gives_label.bind fun _ hl => gives_true.bind fun _ _ =>
    gives_true.bind fun _ _ => gives_true.bind fun _ _ => gives_valueName.bind fun _ hv =>
      gives_true.bind fun _ _ => .pure ⟨hl, hv⟩

/-- The declaration of a parameter is read back from its text. -/
theorem run_paramDecl {e : String × String} (he : IsName e.1 ∧ IsIdent e.2) (hc : isPunct c = true) :
    run paramDecl (paramChars e ++ c :: rest) = .ok e (c :: rest) := by
  unfold paramChars
  rw [List.append_assoc, List.append_assoc]
  refine run_bind_ok run_blank (run_bind_ok (run_valueName (stops_cons.2 rfl) he.1) ?_)
  refine run_bind_ok run_blank (run_bind_ok (run_char (' ' :: (e.2.toList ++ c :: rest))) ?_)
  refine run_bind_ok run_blank ?_
  rw [skipBlank_blank rfl, he.2.skipBlank]
  refine run_bind_ok (run_ident (stops_punct hc _) he.2) (run_bind_ok run_blank ?_)
  rw [skipBlank_punct hc]
  rfl

/-- An entry of a phi is read back from its text. -/
theorem run_phiEntry {e : String × String} (he : IsName e.1 ∧ IsName e.2) (hc : isPunct c = true) :
    run phiEntry (phiEntryChars e ++ c :: rest) = .ok e (c :: rest) := by
  unfold phiEntryChars
  rw [List.append_assoc, List.append_assoc]
  refine run_bind_ok run_blank (run_bind_ok (run_label (stops_cons.2 rfl) he.1) ?_)
  refine run_bind_ok run_blank (run_bind_ok (run_char _) (run_bind_ok run_blank ?_))
  refine run_bind_ok (run_valueName (stops_punct hc _) he.2) (run_bind_ok run_blank ?_)
  rw [skipBlank_punct hc]
  rfl

/-- The parameters of a method are read back from their text. -/
theorem run_paramList {es : List (String × String)} (hes : ∀ e ∈ es, IsName e.1 ∧ IsIdent e.2) :
    run paramList ('(' :: (commas (es.map paramChars) ++ ')' :: rest)) = .ok es rest :=
  run_bracketed (fun e he s => rfl) rfl (run_separated_punct
    (fun e he c s hc => run_paramDecl (hes e he) hc) (fun s => rfl) rfl (by decide) rfl)

/-- The entries of a phi are read back from their text. -/
theorem run_phiEntryList {es : List (String × String)} (hes : ∀ e ∈ es, IsName e.1 ∧ IsName e.2) :
    run phiEntryList ('[' :: (commas (es.map phiEntryChars) ++ ']' :: rest)) = .ok es rest :=
  run_bracketed (fun e he s => rfl) rfl (run_separated_punct
    (fun e he c s hc => run_phiEntry (hes e he) hc) (fun s => rfl) rfl (by decide) rfl)

/-- The successors of an instruction are read back from their text. -/
theorem run_successorList {ls : List String} (hne : ls ≠ []) (hls : ∀ l ∈ ls, IsName l) :
    run successorList ('[' :: (commas (ls.map labelChars) ++ ']' :: rest)) = .ok ls rest := by
  have hlabel : ∀ l ∈ ls, ∀ c s, isPunct c = true →
      run (do blank; let l ← label; blank; return l) (labelChars l ++ c :: s) = .ok l (c :: s) := by
    intro l hl c s hc
    refine run_bind_ok run_blank (run_bind_ok (run_label (stops_punct hc _) (hls l hl)) ?_)
    refine run_bind_ok run_blank ?_
    rw [skipBlank_punct hc]
    rfl
  exact run_bracketed (fun l hl s => rfl) rfl (run_separated1 (fun l hl s => hlabel l hl ',' s rfl)
    (fun l hl => hlabel l hl ']' rest rfl) (fun s => rfl) (by simp) (Nat.le_refl _) hne)

/-- Operands are read back from their text, if no comma follows. -/
theorem run_operandList {vs : List String} (hne : vs ≠ []) (hvs : ∀ v ∈ vs, IsName v)
    (hrest : Stops isSymbolChar rest) (hcomma : (dropSpace rest).head? ≠ some ',') :
    run operandList (commas (vs.map valueChars) ++ rest) = .ok vs (dropSpace rest) := by
  have hvalue : ∀ v ∈ vs, ∀ s, Stops isSymbolChar s →
      run (do space; let v ← valueName; space; return v) (valueChars v ++ s) = .ok v (dropSpace s) :=
    fun v hv s hs => run_bind_ok run_space (run_bind_ok (run_valueName hs (hvs v hv))
      (run_bind_ok run_space rfl))
  refine run_separated1 (fun v hv s => hvalue v hv _ (stops_cons.2 rfl)) (fun v hv => hvalue v hv _ hrest)
    (fun s => rfl) hcomma ?_ hne
  exact (List.dropWhile_suffix _).length_le

end Source

end Midend
