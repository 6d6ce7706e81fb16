import Midend.Proofs.WrittenForm

/-!
# Texts of methods

Every text that can be scanned gives written forms that have a text.  Conversely the text of each such written
form is scanned, and gives it back, whatever notes stand at the ends of its lines.

## Shape of the argument

Lines, then blocks, then methods.  The parts of a line may be missing; a part that is there starts with a
space.  So the scanner of a line is described up to the spaces in front of what is left, and the scanners of
the larger parts up to blanks and comments.
-/

namespace Midend

namespace Source

open Scan

variable {s rest : List Char}

/-! ## Lines -/

/-- Arguments that are scanned can be written, and are operands or entries of a phi. -/
theorem gives_arguments (op : String) : Gives (arguments op) fun r =>
    (∀ v ∈ r.1, IsName v) ∧ (∀ e ∈ r.2, IsName e.1 ∧ IsName e.2) ∧ (op = "phi" → r.1 = []) ∧
      (op ≠ "phi" → r.2 = []) := by
  unfold arguments
  split
  · next hop =>
    have hlist : Gives phiEntryList fun es => ∀ e ∈ es, IsName e.1 ∧ IsName e.2 :=
      gives_true.bind fun _ _ => gives_true.bind fun _ _ => gives_phiEntry.separated.bind fun es hes =>
        gives_true.bind fun _ _ => gives_true.bind fun _ _ => .pure hes
    exact hlist.bind fun es hes => .pure ⟨by simp, hes, fun _ => rfl, fun h => absurd hop h⟩
  · next hop =>
    refine gives_true.bind fun s _ => ?_
    split
    · have hvalue : Gives (do space; let v ← valueName; space; return v) IsName :=
        gives_true.bind fun _ _ => gives_valueName.bind fun v hv => gives_true.bind fun _ _ => .pure hv
      have hlist : Gives operandList fun vs => ∀ v ∈ vs, IsName v := hvalue.separated1
      exact hlist.bind fun vs hvs =>
        .pure ⟨hvs, by simp, fun h => absurd h hop, fun _ => rfl⟩
    · exact .pure ⟨by simp, by simp, fun h => absurd h hop, fun _ => rfl⟩

/-- A line that is scanned can be written. -/
theorem gives_line : Gives line Line.Lexical := by
  have hresult : Gives resultName IsName :=
    gives_valueName.bind fun v hv => gives_true.bind fun _ _ => gives_true.bind fun _ _ =>
      gives_true.bind fun _ _ => .pure hv
  have hlabel : Gives (do blank; let l ← label; blank; return l) IsName :=
    gives_true.bind fun _ _ => gives_label.bind fun l hl => gives_true.bind fun _ _ => .pure hl
  have hsuccs : Gives (do space; successorList) fun ls => ∀ l ∈ ls, IsName l :=
    gives_true.bind fun _ _ => gives_true.bind fun _ _ => gives_true.bind fun _ _ =>
      hlabel.separated1.bind fun ls hls => gives_true.bind fun _ _ => gives_true.bind fun _ _ => .pure hls
  have hattrs : Gives (do space; attrDict) fun es => ∀ e ∈ es, IsIdent e.1 ∧ e.2.Lexical :=
    gives_true.bind fun _ _ => gives_attrDict
  have hty : Gives typeAnnotation IsIdent :=
    gives_true.bind fun _ _ => gives_true.bind fun _ _ => gives_true.bind fun _ _ => gives_ident
  refine hresult.optional.bind fun result hresult => gives_ident.bind fun op hop =>
    gives_true.bind fun _ _ => (gives_arguments op).bind fun args hargs =>
      hsuccs.optional.bind fun succs hsuccs => hattrs.optional.bind fun attrs hattrs =>
        hty.optional.bind fun ty hty => .pure ?_
  refine ⟨hresult, hop, hargs.1, hargs.2.1, hargs.2.2.1, hargs.2.2.2, ?_, ?_, hty⟩
  · cases succs with
    | none => exact fun l hl => nomatch hl
    | some ls => exact hsuccs ls rfl
  · cases attrs with
    | none => exact fun e he => nomatch he
    | some es => exact hattrs es rfl

/-- A text that goes on with one of these marks after spaces. -/
structure Follows (marks : List Char) (s : List Char) : Prop where
  stops : Stops isSymbolChar s
  mark : ∃ c ∈ marks, (dropSpace s).head? = some c

/-- Text that goes on with one of some marks does not go on with another character. -/
theorem Follows.ne {marks : List Char} (h : Follows marks s) (hc : c ∉ marks) :
    (dropSpace s).head? ≠ some c := by
  obtain ⟨d, hd, hhead⟩ := h.mark
  rw [hhead]
  rintro ⟨⟩
  exact hc hd

/-- A part of a line that may be missing. -/
theorem Follows.part {marks part : List Char} (h : Follows marks s) {m : Char} (hm : m ≠ ' ' ∧ m ≠ '\t')
    (hpart : part = [] ∨ ∃ t, part = ' ' :: m :: t) : Follows (m :: marks) (part ++ s) := by
  rcases hpart with rfl | ⟨t, rfl⟩
  · obtain ⟨d, hd, hhead⟩ := h.mark
    exact ⟨h.stops, d, List.mem_cons_of_mem _ hd, hhead⟩
  · refine ⟨stops_cons.2 rfl, m, List.mem_cons_self, ?_⟩
    rw [List.cons_append, dropSpace_space, List.cons_append, dropSpace_solid (stops_cons.2 (by simp [hm]))]
    rfl

/-- A part of a line that may be missing is scanned up to the spaces after it. -/
theorem run_part {α : Type} {q : Scan α} {part t x : List Char} {o : Option α}
    (hx : dropSpace x = dropSpace (part ++ t))
    (hsome : ∀ a, o = some a → run q (dropSpace (part ++ t)) = .ok a t)
    (hnone : o = none → part = [] ∧ run q (dropSpace t) = .failed (dropSpace t)) :
    ∃ x', run (optional (do space; q)) x = .ok o x' ∧ dropSpace x' = dropSpace t := by
  cases o with
  | some a =>
    refine ⟨t, run_optional (run_bind_ok run_space ?_), rfl⟩
    rw [hx]
    exact hsome a rfl
  | none =>
    obtain ⟨rfl, hfail⟩ := hnone rfl
    refine ⟨x, run_optional_none (?_ : _ = Scanned.failed (dropSpace t)), hx⟩
    rw [run_bind, run_space, hx]
    exact hfail

section Line

variable {l : Line} (hl : l.Lexical) {note : Option String}
  (hnote : ∀ text, note = some text → '\n' ∉ text.toList)
include hl

include hnote in
omit hl in
/-- The note and the line's end are skipped. -/
theorem skipBlank_note : skipBlank false (noteChars note ++ '\n' :: s) = skipBlank false s := by
  cases note with
  | none => exact skipBlank_blank rfl
  | some text => exact skipBlank_comment (s := '/' :: ' ' :: text.toList) (by simpa using hnote text rfl)

omit hl in
/-- A note or the end of a line follows. -/
theorem follows_note : Follows ['\n', '/'] (noteChars note ++ '\n' :: s) := by
  cases note with
  | none => exact ⟨stops_cons.2 rfl, '\n', by simp, rfl⟩
  | some text => exact ⟨stops_cons.2 rfl, '/', by simp, rfl⟩

omit hl in
/-- A type may come before what follows. -/
theorem follows_ty {marks : List Char} (h : Follows marks s) : Follows (':' :: marks) (l.tyChars ++ s) := by
  refine h.part (by decide) ?_
  unfold Line.tyChars
  split
  · exact .inr ⟨_, rfl⟩
  · exact .inl rfl

omit hl in
/-- Attributes may come before what follows. -/
theorem follows_attrs {marks : List Char} (h : Follows marks s) :
    Follows ('\x7b' :: marks) (l.attrChars ++ s) := by
  refine h.part (by decide) ?_
  unfold Line.attrChars
  split
  · exact .inl rfl
  · exact .inr ⟨_, rfl⟩

omit hl in
/-- Successors may come before what follows. -/
theorem follows_succs {marks : List Char} (h : Follows marks s) :
    Follows ('[' :: marks) (l.succChars ++ s) := by
  refine h.part (by decide) ?_
  unfold Line.succChars
  split
  · exact .inl rfl
  · exact .inr ⟨_, rfl⟩

/-- The type of a line is read back, or its absence. -/
theorem run_ty {x t : List Char} (ht : Follows ['\n', '/'] t) (hx : dropSpace x = dropSpace (l.tyChars ++ t)) :
    ∃ x', run (optional typeAnnotation) x = .ok l.ty x' ∧ dropSpace x' = dropSpace t := by
  refine run_part hx (fun ty hty => ?_) fun hty => ?_
  · have hident := hl.ty ty hty
    rw [Line.tyChars, hty]
    refine run_bind_ok (run_char (' ' :: (ty.toList ++ t))) (run_bind_ok run_space ?_)
    rw [dropSpace_space, hident.dropSpace]
    exact run_ident ht.stops hident
  · exact ⟨by rw [Line.tyChars, hty], run_bind_failed (run_char_failed (ht.ne (by decide)))⟩

/-- The attributes of a line are read back, or their absence. -/
theorem run_attrs {x t : List Char} (ht : Follows [':', '\n', '/'] t)
    (hx : dropSpace x = dropSpace (l.attrChars ++ t)) :
    ∃ o x', run (optional (do space; attrDict)) x = .ok o x' ∧ o.getD [] = l.attrs ∧
      dropSpace x' = dropSpace t := by
  have hfail : run attrDict (dropSpace t) = .failed (dropSpace t) :=
    run_bind_failed (run_char_failed (ht.ne (by decide)))
  by_cases hattrs : l.attrs = []
  · obtain ⟨x', hrun, hx'⟩ := run_part (o := none) hx (fun _ h => nomatch h) fun _ =>
      ⟨by rw [Line.attrChars, if_pos hattrs], hfail⟩
    exact ⟨none, x', hrun, hattrs.symm, hx'⟩
  · have hdict : run attrDict (dropSpace (l.attrChars ++ t)) = .ok l.attrs t := by
      rw [Line.attrChars, if_neg hattrs]
      exact run_attrDict hl.attrs
    obtain ⟨x', hrun, hx'⟩ := run_part (o := some l.attrs) hx
      (fun es hes => Option.some.inj hes ▸ hdict) fun h => nomatch h
    exact ⟨some l.attrs, x', hrun, rfl, hx'⟩

/-- The successors of a line are read back, or their absence. -/
theorem run_succs {x t : List Char} (ht : Follows ['\x7b', ':', '\n', '/'] t)
    (hx : dropSpace x = dropSpace (l.succChars ++ t)) :
    ∃ o x', run (optional (do space; successorList)) x = .ok o x' ∧ o.getD [] = l.succs ∧
      dropSpace x' = dropSpace t := by
  have hfail : run successorList (dropSpace t) = .failed (dropSpace t) :=
    run_bind_failed (run_char_failed (ht.ne (by decide)))
  by_cases hsuccs : l.succs = []
  · obtain ⟨x', hrun, hx'⟩ := run_part (o := none) hx (fun _ h => nomatch h) fun _ =>
      ⟨by rw [Line.succChars, if_pos hsuccs], hfail⟩
    exact ⟨none, x', hrun, hsuccs.symm, hx'⟩
  · have hlist : run successorList (dropSpace (l.succChars ++ t)) = .ok l.succs t := by
      rw [Line.succChars, if_neg hsuccs, List.append_assoc, List.append_assoc]
      exact run_successorList hsuccs hl.succs
    obtain ⟨x', hrun, hx'⟩ := run_part (o := some l.succs) hx
      (fun ls hls => Option.some.inj hls ▸ hlist) fun h => nomatch h
    exact ⟨some l.succs, x', hrun, rfl, hx'⟩

/-- The arguments of a line are read back. -/
theorem run_arguments {t : List Char} (ht : Follows ['[', '\x7b', ':', '\n', '/'] t) :
    ∃ x', run (arguments l.op) (dropSpace (l.argumentChars ++ t)) = .ok (l.operands, l.phiEntries) x' ∧
      dropSpace x' = dropSpace t := by
  unfold arguments Line.argumentChars
  by_cases hphi : l.op = "phi"
  · rw [if_pos hphi, if_pos hphi, hl.phi hphi, List.append_assoc, List.append_assoc]
    exact ⟨t, run_bind_ok (run_phiEntryList hl.phiEntries) rfl, rfl⟩
  · rw [if_neg hphi, if_neg hphi, hl.ordinary hphi]
    by_cases hops : l.operands = []
    · rw [if_pos hops, List.nil_append, hops]
      refine ⟨dropSpace t, run_bind_ok (a := dropSpace t) rfl ?_, dropSpace_dropSpace⟩
      rw [if_neg (ht.ne (by decide))]
      rfl
    · rw [if_neg hops, List.cons_append, dropSpace_space]
      obtain ⟨v, vs, hvs⟩ := List.exists_cons_of_ne_nil hops
      have hhead : (dropSpace (commas (l.operands.map valueChars) ++ t)) =
          commas (l.operands.map valueChars) ++ t := by
        rw [hvs, commas, intercalate_map_cons]
        rfl
      rw [hhead]
      refine ⟨dropSpace t, run_bind_ok (a := commas (l.operands.map valueChars) ++ t) rfl ?_,
        dropSpace_dropSpace⟩
      rw [if_pos (by rw [hvs, commas, intercalate_map_cons]; rfl)]
      exact run_bind_ok (run_operandList hops hl.operands ht.stops (ht.ne (by decide))) rfl

/-- The result of a line is read back, or its absence. -/
theorem run_result {t : List Char} :
    run (optional resultName) (l.resultChars ++ (l.op.toList ++ t)) = .ok l.result (l.op.toList ++ t) := by
  unfold Line.resultChars
  cases hresult : l.result with
  | some v =>
    refine run_optional ?_
    rw [List.append_assoc]
    refine run_bind_ok (run_valueName (stops_cons.2 rfl) (hl.result v hresult)) (run_bind_ok run_blank ?_)
    refine run_bind_ok (run_char (' ' :: (l.op.toList ++ t))) (run_bind_ok run_blank ?_)
    rw [skipBlank_blank rfl, hl.op.skipBlank]
    rfl
  | none =>
    obtain ⟨c, cs, hcs, hc, -⟩ := hl.op
    refine run_optional_none (run_bind_failed (run_bind_failed (?_ : _ = Scanned.failed (l.op.toList ++ t))))
    apply run_char_failed
    rw [hcs]
    rintro ⟨⟩
    revert hc
    decide

omit hl in
/-- Arguments do not run on into the word of the operation. -/
theorem stops_arguments {marks t : List Char} (ht : Follows marks t) :
    Stops isSymbolChar (l.argumentChars ++ t) := by
  unfold Line.argumentChars
  split
  · exact stops_cons.2 rfl
  · split
    · exact ht.stops
    · exact stops_cons.2 rfl

/-- What is left after the parts of a line is a text that its end can be skipped from. -/
theorem run_line (hnote : ∀ text, note = some text → '\n' ∉ text.toList) :
    ∃ x, run line (l.chars ++ (noteChars note ++ '\n' :: s)) = .ok l x ∧
      skipBlank false x = skipBlank false s := by
  have h₃ : Follows ['\n', '/'] (noteChars note ++ '\n' :: s) := follows_note
  have h₂ := follows_ty (l := l) h₃
  have h₁ := follows_attrs (l := l) h₂
  have h₀ := follows_succs (l := l) h₁
  obtain ⟨x₀, hargs, hx₀⟩ := run_arguments hl h₀
  obtain ⟨succs, x₁, hsuccs, hsuccs', hx₁⟩ := run_succs hl h₁ hx₀
  obtain ⟨attrs, x₂, hattrs, hattrs', hx₂⟩ := run_attrs hl h₂ hx₁
  obtain ⟨x₃, hty, hx₃⟩ := run_ty hl h₃ hx₂
  refine ⟨x₃, ?_, ?_⟩
  · simp only [Line.chars, List.append_assoc]
    refine run_bind_ok (run_result hl) (run_bind_ok (run_ident (stops_arguments h₀) hl.op) ?_)
    refine run_bind_ok run_space (run_bind_ok hargs (run_bind_ok hsuccs (run_bind_ok hattrs ?_)))
    refine run_bind_ok hty ?_
    rw [hsuccs', hattrs']
    rfl
  · rw [← skipBlank_dropSpace, hx₃, skipBlank_dropSpace, skipBlank_note hnote]

/-- No blank, comment, label or closing brace starts a line. -/
theorem Line.Lexical.head : ∃ c cs, l.chars = c :: cs ∧ isBlank c = false ∧ c ≠ '/' ∧ c ≠ '^' ∧ c ≠ '\x7d' := by
  unfold Line.chars Line.resultChars
  cases l.result with
  | some v => exact ⟨'%', _, rfl, by decide⟩
  | none =>
    obtain ⟨c, cs, hcs, hc, -⟩ := hl.op
    have hname := isNameChar_of_startsWord hc
    obtain ⟨hblank, hslash⟩ := isBlank_of_isNameChar hname
    refine ⟨c, _, by rw [hcs]; rfl, hblank, hslash, ?_, ?_⟩
    · rintro rfl
      revert hname
      decide
    · rintro rfl
      revert hname
      decide

end Line

/-! ## Blocks, fields and methods -/

/-- Pieces of text, each with blanks before it and blanks to be skipped after it. -/
theorem run_manyWhile {ι α : Type} {more : List Char → Bool} {p : Scan α} (value : ι → α)
    (chunk body : ι → List Char) (Good : List Char → Prop) {items : List ι}
    (hskip : ∀ x ∈ items, ∀ s, skipBlank false (chunk x ++ s) = body x ++ s)
    (hbody : ∀ x ∈ items, body x ≠ []) (hgood : ∀ x ∈ items, ∀ s, Good (chunk x ++ s))
    (hmore : ∀ x ∈ items, ∀ s, more (body x ++ s) = true)
    (hstep : ∀ x ∈ items, ∀ s, Good s → run p (body x ++ s) = .ok (value x) (skipBlank false s))
    (hrest : Good rest) (hend : more (skipBlank false rest) = false) :
    run (manyWhile more p) (skipBlank false (items.flatMap chunk ++ rest)) =
      .ok (items.map value) (skipBlank false rest) := by
  induction items with
  | nil => exact run_manyWhile_nil hend
  | cons x items ih =>
    have hx : x ∈ x :: items := List.mem_cons_self
    have htail : ∀ y ∈ items, y ∈ x :: items := fun y => List.mem_cons_of_mem x
    have hnext : Good (items.flatMap chunk ++ rest) := by
      cases items with
      | nil => exact hrest
      | cons y items =>
        rw [List.flatMap_cons, List.append_assoc]
        exact hgood y (htail y List.mem_cons_self) _
    rw [List.flatMap_cons, List.append_assoc, hskip x hx]
    refine run_manyWhile_cons (hmore x hx _) (hstep x hx _ hnext) ?_ (ih (fun y hy => hskip y (htail y hy))
      (fun y hy => hbody y (htail y hy)) (fun y hy => hgood y (htail y hy))
      (fun y hy => hmore y (htail y hy)) (fun y hy => hstep y (htail y hy)))
    have hlen := length_skipBlank_le false (items.flatMap chunk ++ rest)
    have hpos := List.length_pos_iff.2 (hbody x hx)
    rw [List.length_append]
    omega

/-- A block is read back from its text, notes and all. -/
theorem run_blockText {b : NotedBlock} (hb : b.block.Lexical)
    (hnotes : ∀ l ∈ b.2, ∀ text, l.2 = some text → '\n' ∉ text.toList)
    (hend : atLine (skipBlank false rest) = false) :
    run blockText (blockChars b ++ rest) = .ok b.block (skipBlank false rest) := by
  have hlex : ∀ l ∈ b.2, l.1.Lexical := fun l hl => hb.lines l.1 (List.mem_map_of_mem hl)
  unfold blockChars
  rw [List.append_assoc, List.append_assoc]
  refine run_bind_ok (run_label (stops_cons.2 rfl) hb.label) (run_bind_ok run_blank ?_)
  refine run_bind_ok (run_char ('\n' :: (b.2.flatMap lineChars ++ rest))) (run_bind_ok run_blank ?_)
  rw [skipBlank_blank rfl]
  refine run_bind_ok (run_manyWhile Prod.fst lineChars (fun l => l.1.chars ++ (noteChars l.2 ++ ['\n']))
    (fun _ => True) (fun l hl s => ?_) (fun l hl => ?_) (fun _ _ _ => trivial) (fun l hl s => ?_)
    (fun l hl s _ => ?_) trivial hend) rfl
  · obtain ⟨c, cs, hcs, hblank, hslash, -⟩ := (hlex l hl).head
    show skipBlank false (l.1.chars ++ (noteChars l.2 ++ ['\n']) ++ s) = _
    rw [hcs]
    exact skipBlank_solid hblank hslash
  · simp
  · obtain ⟨c, cs, hcs, -, -, hlabel, hbrace⟩ := (hlex l hl).head
    rw [hcs]
    simp [atLine, hlabel, hbrace]
  · rw [List.append_assoc, List.append_assoc]
    obtain ⟨x, hrun, hx⟩ := run_line (s := s) (hlex l hl) (hnotes l hl)
    refine run_bind_ok hrun (run_bind_ok run_blank ?_)
    rw [hx]
    rfl

/-- The declaration of a field is read back from its text. -/
theorem run_fieldDecl {f : FieldDecl} (hf : f.Lexical) :
    run fieldDecl (fieldBody f ++ rest) = .ok f ('\n' :: rest) := by
  unfold fieldBody
  simp only [List.append_assoc, List.cons_append, List.nil_append]
  refine run_bind_ok run_word (run_bind_ok run_blank ?_)
  refine run_bind_ok (run_symbol (stops_cons.2 rfl) hf.qualified) (run_bind_ok run_blank ?_)
  refine run_bind_ok (run_char (' ' :: (f.ty.toList ++ (' ' :: (dictChars f.attrs ++ '\n' :: rest)))))
    (run_bind_ok run_blank ?_)
  rw [skipBlank_blank rfl, hf.ty.skipBlank]
  refine run_bind_ok (run_ident (stops_cons.2 rfl) hf.ty) (run_bind_ok run_blank ?_)
  exact run_bind_ok (run_attrDict hf.attrs) rfl

/-- The words after the parameters are read back. -/
theorem run_flags (m : Method) (rest : List Char) :
    ∃ flags, run (many methodFlag) (flagChars m ++ (" \x7b\n".toList ++ rest)) =
        .ok flags (" \x7b\n".toList ++ rest) ∧ flags.contains true = m.isStatic ∧
      flags.contains false = m.isSynchronized := by
  have hnone : run methodFlag (" \x7b\n".toList ++ rest) = .failed ('\x7b' :: '\n' :: rest) := rfl
  have hstatic : ∀ s, run methodFlag (" static".toList ++ s) = .ok true s :=
    fun s => run_bind_ok run_blank (run_orElse (run_bind_ok (run_word (s := "static".toList)) rfl))
  have hsync : ∀ s, run methodFlag (" synchronized".toList ++ s) = .ok false s := by
    intro s
    have hword : ¬ "static".toList <+: "synchronized".toList ++ s := by simp
    refine run_bind_ok run_blank ?_
    show run _ ("synchronized".toList ++ s) = _
    rw [run_orElse_right (run_bind_failed (run_word_failed hword))]
    exact run_bind_ok run_word rfl
  have hlt : ∀ {w s : List Char}, w ≠ [] → s.length < (w ++ s).length := by
    intro w s hw
    rw [List.length_append]
    have := List.length_pos_iff.2 hw
    omega
  unfold flagChars
  cases m.isStatic <;> cases m.isSynchronized
  · exact ⟨[], run_many_nil hnone, rfl, rfl⟩
  · exact ⟨[false], run_many_cons (hsync _) (hlt (by decide)) (run_many_nil hnone), rfl, rfl⟩
  · exact ⟨[true], run_many_cons (hstatic _) (hlt (by decide)) (run_many_nil hnone), rfl, rfl⟩
  · have hrest := run_many_cons (hsync _) (hlt (by decide)) (run_many_nil hnone)
    refine ⟨[true, false], ?_, rfl, rfl⟩
    rw [if_pos rfl, if_pos rfl, List.append_assoc]
    exact run_many_cons (hstatic _) (hlt (by decide)) hrest

section Method

variable {m : Method} {noted : List NotedBlock} (hm : m.Lexical)
  (hblocks : m.blocks = noted.map NotedBlock.block)
  (hnotes : ∀ b ∈ noted, ∀ l ∈ b.2, ∀ text, l.2 = some text → '\n' ∉ text.toList)
include hm hblocks hnotes

omit hblocks hnotes in
/-- The fields of a method are read back, up to what is no field. -/
theorem run_fields (hend : ("field".toList.isPrefixOf (skipBlank false rest)) = false) :
    run (manyWhile ("field".toList.isPrefixOf ·) do let f ← fieldDecl; blank; return f)
      (skipBlank false (m.fields.flatMap fieldChars ++ rest)) = .ok m.fields (skipBlank false rest) := by
  have h := run_manyWhile (p := do let f ← fieldDecl; blank; return f) id fieldChars fieldBody
    (fun _ => True) (fun f hf s => rfl) (fun f hf => by unfold fieldBody; simp) (fun _ _ _ => trivial)
    (fun f hf s => by unfold fieldBody; simp)
    (fun f hf s _ => run_bind_ok (run_fieldDecl (hm.fields f hf)) (run_bind_ok run_blank rfl)) trivial hend
  rwa [List.map_id] at h

/-- The blocks of a method are read back, up to what is no block. -/
theorem run_blocks (hend : atLine (skipBlank false rest) = false)
    (hlabel : (skipBlank false rest).head? ≠ some '^') :
    run (manyWhile (·.head? = some '^') do let b ← blockText; blank; return b)
      (skipBlank false (noted.flatMap blockChars ++ rest)) = .ok m.blocks (skipBlank false rest) := by
  have hlex : ∀ b ∈ noted, b.block.Lexical :=
    fun b hb => hm.blocks b.block (hblocks ▸ List.mem_map_of_mem hb)
  rw [hblocks]
  refine run_manyWhile NotedBlock.block blockChars blockChars (fun s => atLine (skipBlank false s) = false)
    (fun b hb s => rfl) (fun b hb => by simp [blockChars, labelChars]) (fun b hb s => rfl)
    (fun b hb s => rfl) (fun b hb s hs => ?_) hend (by simpa using hlabel)
  refine run_bind_ok (run_blockText (hlex b hb) (hnotes b hb) hs) (run_bind_ok run_blank ?_)
  rw [skipBlank_skipBlank]
  rfl

/-- A method is read back from its text. -/
theorem run_method : run method (methodChars m noted ++ rest) = .ok m ('\n' :: rest) := by
  -- what stands after the opening brace, and after the fields
  obtain ⟨inside, hinside⟩ : ∃ inside, inside = noted.flatMap blockChars ++ ("\x7d\n".toList ++ rest) :=
    ⟨_, rfl⟩
  obtain ⟨flags, hflags, hstatic, hsync⟩ := run_flags m (m.fields.flatMap fieldChars ++ inside)
  have hfield : ("field".toList.isPrefixOf (skipBlank false inside)) = false := by
    rw [hinside]
    cases noted with
    | nil => rfl
    | cons b noted => rfl
  unfold methodChars
  simp only [List.append_assoc, List.cons_append, ← hinside]
  refine run_bind_ok run_word (run_bind_ok run_blank ?_)
  refine run_bind_ok (run_symbol (stops_cons.2 rfl) hm.name) (run_bind_ok run_blank ?_)
  refine run_bind_ok (run_paramList hm.params) (run_bind_ok hflags (run_bind_ok run_blank ?_))
  refine run_bind_ok (run_char ('\n' :: (m.fields.flatMap fieldChars ++ inside))) (run_bind_ok run_blank ?_)
  rw [skipBlank_blank rfl]
  refine run_bind_ok (run_fields hm hfield) ?_
  rw [hinside]
  have hbrace : (skipBlank false ("\x7d\n".toList ++ rest)).head? = some '\x7d' := rfl
  refine run_bind_ok (run_blocks hm hblocks hnotes rfl (by rw [hbrace]; decide)) (run_bind_ok run_blank ?_)
  refine run_bind_ok (run_char ('\n' :: rest)) ?_
  rw [hstatic, hsync]
  rfl

end Method

/-- A method that is scanned can be written. -/
theorem gives_method : Gives method Method.Lexical := by
  have hflag : Gives (do let i ← line; blank; return i) Line.Lexical :=
    gives_line.bind fun l hl => gives_true.bind fun _ _ => .pure hl
  have hblock : Gives (do let b ← blockText; blank; return b) Block.Lexical :=
    Gives.bind (gives_label.bind fun l hl => gives_true.bind fun _ _ => gives_true.bind fun _ _ =>
      gives_true.bind fun _ _ => hflag.manyWhile.bind fun ls hls => .pure ⟨hl, hls⟩)
      fun b hb => gives_true.bind fun _ _ => .pure hb
  have hfield : Gives (do let f ← fieldDecl; blank; return f) FieldDecl.Lexical :=
    Gives.bind (gives_true.bind fun _ _ => gives_true.bind fun _ _ => gives_symbol.bind fun q hq =>
      gives_true.bind fun _ _ => gives_true.bind fun _ _ => gives_true.bind fun _ _ =>
        gives_ident.bind fun t ht => gives_true.bind fun _ _ => gives_attrDict.bind fun es hes =>
          .pure ⟨hq, ht, hes⟩)
      fun f hf => gives_true.bind fun _ _ => .pure hf
  have hparams : Gives paramList fun es => ∀ e ∈ es, IsName e.1 ∧ IsIdent e.2 :=
    gives_true.bind fun _ _ => gives_true.bind fun _ _ => gives_paramDecl.separated.bind fun es hes =>
      gives_true.bind fun _ _ => gives_true.bind fun _ _ => .pure hes
  exact gives_true.bind fun _ _ => gives_true.bind fun _ _ => gives_symbol.bind fun name hname =>
    gives_true.bind fun _ _ => hparams.bind fun ps hps => gives_true.bind fun _ _ =>
      gives_true.bind fun _ _ => gives_true.bind fun _ _ => gives_true.bind fun _ _ =>
        hfield.manyWhile.bind fun fs hfs => hblock.manyWhile.bind fun bs hbs =>
          gives_true.bind fun _ _ => gives_true.bind fun _ _ => .pure ⟨hname, hps, hfs, hbs⟩

/-- Everything that is scanned has a text. -/
theorem gives_methods : Gives methods fun ms => ∀ m ∈ ms, m.Lexical := by
  have hmethod : Gives (do let m ← method; blank; return m) Method.Lexical :=
    gives_method.bind fun m hm => gives_true.bind fun _ _ => .pure hm
  exact gives_true.bind fun _ _ => hmethod.manyWhile

/-- The text of a method with blanks before it. -/
def spacedChars (x : List Char × Method × List NotedBlock) : List Char := x.1 ++ methodChars x.2.1 x.2.2

/-- Methods are read back from their texts, with empty lines between them. -/
theorem run_methods {ms : List (Method × List NotedBlock)} (hlex : ∀ m ∈ ms, m.1.Lexical)
    (hblocks : ∀ m ∈ ms, m.1.blocks = m.2.map NotedBlock.block)
    (hnotes : ∀ m ∈ ms, ∀ b ∈ m.2, ∀ l ∈ b.2, ∀ text, l.2 = some text → '\n' ∉ text.toList) :
    run methods (['\n'].intercalate (ms.map fun m => methodChars m.1 m.2)) = .ok (ms.map Prod.fst) [] := by
  cases ms with
  | nil => exact run_bind_ok run_blank (run_manyWhile_nil rfl)
  | cons m ms =>
    -- each method with the line end before it, which only the first one has not
    obtain ⟨items, hdef⟩ : ∃ items, items = ([], m) :: ms.map (['\n'], ·) := ⟨_, rfl⟩
    have hitems : ∀ x ∈ items, (x.1 = [] ∨ x.1 = ['\n']) ∧ x.2 ∈ m :: ms := by
      intro x hx
      rw [hdef] at hx
      rcases List.mem_cons.1 hx with rfl | hx
      · exact ⟨.inl rfl, List.mem_cons_self⟩
      · obtain ⟨m', hm', rfl⟩ := List.mem_map.1 hx
        exact ⟨.inr rfl, List.mem_cons_of_mem _ hm'⟩
    have htext : ['\n'].intercalate ((m :: ms).map fun m => methodChars m.1 m.2) =
        items.flatMap spacedChars ++ [] := by
      rw [hdef, intercalate_map_cons, List.append_nil, List.flatMap_cons, List.flatMap_map]
      rfl
    have hvalues : items.map (Prod.fst ∘ Prod.snd) = (m :: ms).map Prod.fst := by
      simp [hdef, Function.comp_def]
    rw [htext, ← hvalues]
    refine run_bind_ok run_blank (run_manyWhile (Prod.fst ∘ Prod.snd) spacedChars
      (fun x => methodChars x.2.1 x.2.2) (fun _ => True) (fun x hx s => ?_)
      (fun x hx => by unfold methodChars; simp) (fun _ _ _ => trivial)
      (fun x hx s => by unfold methodChars; simp)
      (fun x hx s _ => ?_) trivial rfl)
    · rw [spacedChars]
      rcases (hitems x hx).1 with h | h
      · rw [h]
        rfl
      · rw [h]
        rfl
    · have hmem := (hitems x hx).2
      exact run_bind_ok (run_method (hlex _ hmem) (hblocks _ hmem) (hnotes _ hmem))
        (run_bind_ok run_blank rfl)

end Source

end Midend
