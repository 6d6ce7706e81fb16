import Midend.Proofs.RoundTrip

/-!
# Texts one after another

The methods of two texts, one after the other on lines of their own, are the methods of the first and then the
methods of the second.

## Shape of the argument

What has to be shown is that nothing in the first text is read differently because more text follows.  Tokens
never are: no token holds a line break (`Steady`).  Blanks are the only thing that can run on over the end of
the first text, so a part that passes over blanks is read the same way as long as it stops before that end
(`Local`).  Attempts that are taken back need more care, because an attempt that failed at the end of the
first text may well go on in the second.  Each of them is settled by what stands after it: a list by its
closing bracket, the brackets of an instruction by the start of the next one.  `Stable E` says that what is
accepted with a rest in `E` is accepted the same way when more follows, and the grammar is put together from
that.
-/

namespace Midend

namespace Scanned

variable {α : Type}

/-- The text that was left. -/
def rest : Scanned α → List Char
  | ok _ rest => rest
  | failed rest => rest

/-- The same answer with more text after the text that was left. -/
def followedBy (t : List Char) : Scanned α → Scanned α
  | ok a rest => ok a (rest ++ t)
  | failed rest => failed (rest ++ t)

end Scanned

namespace Scan

variable {α β : Type} {p q : Scan α} {f : α → Scan β} {s s' rest t w : List Char} {a : α} {b : β} {c : Char}
  {cls : Char → Bool} {E E' : List Char → Prop}

/-- A sequence that is accepted was accepted part by part. -/
theorem bind_inv (h : run (p >>= f) s = .ok b rest) :
    ∃ a s', run p s = .ok a s' ∧ run (f a) s' = .ok b rest := by
  rw [run_bind] at h
  split at h
  · next a s' hp => exact ⟨a, s', hp, h⟩
  · cases h

/-! ## Parts that do not see what follows -/

/-- A scanner reads a text the same way when a line break and more text follow. -/
structure Steady (p : Scan α) : Prop where
  append : ∀ s t, run p (s ++ '\n' :: t) = (run p s).followedBy ('\n' :: t)
  atEnd : (run p []).rest = []

/-- A scanner reads a text the same way when a line break and more text follow, unless it comes to the end of
the text. -/
structure Local (p : Scan α) : Prop where
  append : ∀ s t, (run p s).rest ≠ [] → run p (s ++ '\n' :: t) = (run p s).followedBy ('\n' :: t)
  atEnd : (run p []).rest = []

/-- What never sees the text that follows does not see it before the end either. -/
theorem Steady.isLocal (hp : Steady p) : Local p := ⟨fun s t _ => hp.append s t, hp.atEnd⟩

/-- A steady scanner accepts the same when more follows. -/
theorem Steady.ok (hp : Steady p) (h : run p s = .ok a rest) (t : List Char) :
    run p (s ++ '\n' :: t) = .ok a (rest ++ '\n' :: t) := by
  rw [hp.append, h]
  rfl

/-- A steady scanner that gives up does so when more follows, at the same place. -/
theorem Steady.failed (hp : Steady p) (h : run p s = .failed rest) (t : List Char) :
    run p (s ++ '\n' :: t) = .failed (rest ++ '\n' :: t) := by
  rw [hp.append, h]
  rfl

/-- A local scanner that stops before the end accepts the same when more follows. -/
theorem Local.ok (hp : Local p) (h : run p s = .ok a rest) (hrest : rest ≠ []) (t : List Char) :
    run p (s ++ '\n' :: t) = .ok a (rest ++ '\n' :: t) := by
  rw [hp.append s t (by rwa [h]), h]
  rfl

/-- A local scanner that gives up before the end does so when more follows. -/
theorem Local.failed (hp : Local p) (h : run p s = .failed rest) (hrest : rest ≠ []) (t : List Char) :
    run p (s ++ '\n' :: t) = .failed (rest ++ '\n' :: t) := by
  rw [hp.append s t (by rwa [h]), h]
  rfl

/-- Reading nothing is steady. -/
theorem Steady.pure : Steady (pure a : Scan α) := ⟨fun _ _ => rfl, rfl⟩

/-- At the end of the text a sequence stays there if its parts do. -/
theorem rest_bind_nil (hp : (run p []).rest = []) (hf : ∀ a, (run (f a) []).rest = []) :
    (run (p >>= f) []).rest = [] := by
  rw [run_bind]
  cases h : run p [] with
  | ok a s' =>
    rw [h] at hp
    obtain rfl : s' = [] := hp
    exact hf a
  | failed s' =>
    rw [h] at hp
    exact hp

/-- A sequence of steady scanners is steady. -/
theorem Steady.bind (hp : Steady p) (hf : ∀ a, Steady (f a)) : Steady (p >>= f) := by
  refine ⟨fun s t => ?_, rest_bind_nil hp.atEnd fun a => (hf a).atEnd⟩
  rw [run_bind, hp.append, run_bind]
  cases run p s with
  | ok a s' => exact (hf a).append s' t
  | failed s' => rfl

/-- A sequence of local scanners is local: if the whole stops before the end, so did the first part. -/
theorem Local.bind (hp : Local p) (hf : ∀ a, Local (f a)) : Local (p >>= f) := by
  refine ⟨fun s t hrest => ?_, rest_bind_nil hp.atEnd fun a => (hf a).atEnd⟩
  rw [run_bind] at hrest ⊢
  rw [run_bind]
  cases h : run p s with
  | ok a s' =>
    rw [h] at hrest
    -- At the end of the text the second part would have nothing left to leave.
    have hs' : s' ≠ [] := by
      rintro rfl
      exact hrest (hf a).atEnd
    rw [hp.ok h hs']
    exact (hf a).append s' t hrest
  | failed s' =>
    rw [h] at hrest
    rw [hp.failed h hrest]
    rfl

/-- Whether a steady scanner is tried in vain does not depend on what follows. -/
theorem Steady.optional (hp : Steady p) : Steady (optional p) := by
  refine ⟨fun s t => ?_, ?_⟩
  · cases h : run p s with
    | ok a s' => rw [run_optional h, run_optional (hp.ok h t)]; rfl
    | failed s' => rw [run_optional_none h, run_optional_none (hp.failed h t)]; rfl
  · cases h : run p [] with
    | ok a s' =>
      rw [run_optional h]
      exact (congrArg Scanned.rest h).symm.trans hp.atEnd
    | failed s' => rw [run_optional_none h]; rfl

/-- A choice between steady scanners is steady. -/
theorem Steady.orElse (hp : Steady p) (hq : Steady q) : Steady (orElse p q) := by
  refine ⟨fun s t => ?_, ?_⟩
  · cases h : run p s with
    | ok a s' => rw [run_orElse h, run_orElse (hp.ok h t)]; rfl
    | failed s' => rw [run_orElse_right h, run_orElse_right (hp.failed h t)]; exact hq.append s t
  · cases h : run p [] with
    | ok a s' =>
      rw [run_orElse h]
      exact (congrArg Scanned.rest h).symm.trans hp.atEnd
    | failed s' => rw [run_orElse_right h]; exact hq.atEnd

/-- At the end of the text a repetition stays there. -/
theorem rest_many_nil : (run (many p) []).rest = [] := by
  show (many p []).rest = []
  rw [many]
  split
  · rfl
  · rw [if_neg (by simp)]
    rfl

/-- A repetition of a steady scanner is steady, by induction on the text that is left. -/
theorem Steady.many (hp : Steady p) : Steady (many p) := by
  refine ⟨fun s t => ?_, rest_many_nil⟩
  show Scan.many p (s ++ '\n' :: t) = (Scan.many p s).followedBy ('\n' :: t)
  fun_induction Scan.many p s with
  | case1 s s' hs => exact run_many_nil (hp.failed hs t)
  | case2 s a s' hs hlt as s'' hmany ih =>
    refine run_many_cons (hp.ok hs t) (by simpa using hlt) ?_
    exact ih.trans (by rw [hmany]; rfl)
  | case3 s a s' hs hlt s'' hmany ih =>
    rw [Scan.many, show p (s ++ '\n' :: t) = _ from hp.ok hs t]
    simp only [List.length_append, Nat.add_lt_add_iff_right, if_pos hlt]
    rw [ih, hmany]
    rfl
  | case4 s a s' hs hlt =>
    rw [Scan.many, show p (s ++ '\n' :: t) = _ from hp.ok hs t]
    simp only [List.length_append, Nat.add_lt_add_iff_right, if_neg hlt]
    rfl

/-- A list of steady entries with a steady separator is steady. -/
theorem Steady.separated1 {sep : Scan Unit} (hp : Steady p) (hsep : Steady sep) : Steady (separated1 p sep) :=
  hp.bind fun _ => (hsep.bind fun _ => hp).many.bind fun _ => .pure

/-! ## Tokens -/

/-- A class without the line break is left at the end of the first text at the latest. -/
theorem takeWhile_append_break (hcls : cls '\n' = false) (s t : List Char) :
    (s ++ '\n' :: t).takeWhile cls = s.takeWhile cls ∧
      (s ++ '\n' :: t).dropWhile cls = s.dropWhile cls ++ '\n' :: t := by
  induction s with
  | nil => simp [hcls]
  | cons c s ih =>
    rw [List.cons_append, List.takeWhile_cons, List.takeWhile_cons, List.dropWhile_cons, List.dropWhile_cons]
    split
    · exact ⟨congrArg (c :: ·) ih.1, ih.2⟩
    · exact ⟨rfl, rfl⟩

/-- Characters of a class without the line break are taken from the first text only. -/
theorem steady_takeWhile (hcls : cls '\n' = false) : Steady (takeWhile cls) := by
  refine ⟨fun s t => ?_, rfl⟩
  obtain ⟨htake, hdrop⟩ := takeWhile_append_break hcls s t
  show Scanned.ok _ _ = Scanned.ok _ _
  rw [htake, hdrop]

/-- So are characters of such a class where at least one is asked for. -/
theorem steady_takeWhile1 (hcls : cls '\n' = false) : Steady (takeWhile1 cls) := by
  refine ⟨fun s t => ?_, rfl⟩
  obtain ⟨htake, hdrop⟩ := takeWhile_append_break hcls s t
  show takeWhile1 cls (s ++ '\n' :: t) = (takeWhile1 cls s).followedBy ('\n' :: t)
  unfold takeWhile1
  rw [htake, hdrop]
  split <;> rfl

/-- One character of a class without the line break is read from the first text or not at all. -/
theorem steady_satisfy (hcls : cls '\n' = false) : Steady (satisfy cls) := by
  refine ⟨fun s t => ?_, rfl⟩
  cases s with
  | nil => exact run_satisfy_failed (stops_cons.2 hcls)
  | cons c s =>
    show satisfy cls (c :: (s ++ '\n' :: t)) = (satisfy cls (c :: s)).followedBy ('\n' :: t)
    rw [satisfy, satisfy]
    split <;> rfl

/-- A character other than the line break is read from the first text or not at all. -/
theorem steady_char (hc : c ≠ '\n') : Steady (char c) :=
  (steady_satisfy (by simpa using hc.symm)).bind fun _ => .pure

/-- A word without a line break does not run over the end of a line. -/
theorem isPrefixOf_append_break (hw : '\n' ∉ w) (s t : List Char) :
    w.isPrefixOf (s ++ '\n' :: t) = w.isPrefixOf s := by
  induction w generalizing s with
  | nil => rfl
  | cons c w ih =>
    rw [List.mem_cons, not_or] at hw
    cases s with
    | nil =>
      have hc : (c == '\n') = false := by simpa using Ne.symm hw.1
      simp [List.isPrefixOf, hc]
    | cons d s => rw [List.cons_append, List.isPrefixOf, List.isPrefixOf, ih hw.2]

/-- Such a word is read from the first text or not at all. -/
theorem steady_word (hw : '\n' ∉ w) : Steady (word w) := by
  refine ⟨fun s t => ?_, ?_⟩
  · show word w (s ++ '\n' :: t) = (word w s).followedBy ('\n' :: t)
    unfold word
    rw [isPrefixOf_append_break hw]
    split
    · next hpre =>
      have hle := (List.isPrefixOf_iff_prefix.1 hpre).length_le
      rw [List.drop_append_of_le_length hle]
      rfl
    · rfl
  · show (word w []).rest = []
    unfold word
    split
    · exact List.drop_nil
    · rfl

/-- A list whose first entry cannot be read is empty. -/
theorem run_separated_of_failed {sep : Scan Unit} (hp : run p s = .failed s') :
    run (separated p sep) s = .ok [] s := by
  show separated p sep s = _
  unfold separated
  rw [show p s = _ from hp]

/-! ## Parts that are accepted the same way -/

/-- What a scanner accepts with a rest in `E`, it accepts the same way when a line break and more text follow.
-/
structure Stable (E : List Char → Prop) (p : Scan α) : Prop where
  append : ∀ {s a rest}, run p s = .ok a rest → E rest → ∀ t, run p (s ++ '\n' :: t) = .ok a (rest ++ '\n' :: t)
  atEnd : ∀ {a rest}, run p [] = .ok a rest → rest = []

/-- Any text. -/
def Anything (_ : List Char) : Prop := True

/-- Text that is not at its end. -/
def Something (s : List Char) : Prop := s ≠ []

/-- Fewer rests ask for less. -/
theorem Stable.mono (hp : Stable E p) (h : ∀ s, E' s → E s) : Stable E' p :=
  ⟨fun hs hrest => hp.append hs (h _ hrest), hp.atEnd⟩

/-- A steady scanner is stable whatever is left over. -/
theorem Steady.stable (hp : Steady p) : Stable E p :=
  ⟨fun hs _ => hp.ok hs, fun hs => (congrArg Scanned.rest hs).symm.trans hp.atEnd⟩

/-- A local scanner is stable where something is left over. -/
theorem Local.stable (hp : Local p) : Stable Something p :=
  ⟨fun hs hrest => hp.ok hs hrest, fun hs => (congrArg Scanned.rest hs).symm.trans hp.atEnd⟩

/-- What the second part stops before decides what the first one stopped before. -/
theorem Stable.bind (hp : Stable E p) (hf : ∀ a, Stable E' (f a))
    (h : ∀ {a s b rest}, run (f a) s = .ok b rest → E' rest → E s) : Stable E' (p >>= f) := by
  refine ⟨fun hs hrest t => ?_, fun hs => ?_⟩
  · obtain ⟨a, s', ha, hb⟩ := bind_inv hs
    exact run_bind_ok (hp.append ha (h hb hrest) t) ((hf a).append hb hrest t)
  · obtain ⟨a, s', ha, hb⟩ := bind_inv hs
    rw [hp.atEnd ha] at hb
    exact (hf a).atEnd hb

/-- A sequence of parts that are stable where something is left over is stable there. -/
theorem Stable.andThen (hp : Stable Something p) (hf : ∀ a, Stable Something (f a)) :
    Stable Something (p >>= f) := by
  refine hp.bind hf fun hs hrest => ?_
  rintro rfl
  exact hrest ((hf _).atEnd hs)

/-- What is made of the result does not matter to how the text is read. -/
theorem Stable.map {g : α → β} (hp : Stable E p) : Stable E (p >>= fun a => Pure.pure (g a)) := by
  refine hp.bind (fun _ => Steady.pure.stable) fun hs hrest => ?_
  cases hs
  exact hrest

/-- A scanner that does not accept the empty text, and accepts what it accepts whatever follows. -/
structure Firm (p : Scan α) : Prop where
  stable : Stable Anything p
  needs : ∀ {a rest}, run p [] ≠ .ok a rest

/-- A firm scanner after a stable one is firm: it leaves something for the first part to stop before. -/
theorem Firm.after (hp : Stable Something p) (hf : ∀ a, Firm (f a)) : Firm (p >>= f) := by
  refine ⟨hp.bind (fun a => (hf a).stable) fun {a s b rest} hs _ => ?_, fun {b rest} hs => ?_⟩
  · rintro rfl
    exact (hf a).needs hs
  · obtain ⟨a, s', ha, hb⟩ := bind_inv hs
    rw [hp.atEnd ha] at hb
    exact (hf a).needs hb

/-- A firm scanner is stable where something is left over. -/
theorem Firm.stable_something (hp : Firm p) : Stable Something p := hp.stable.mono fun _ _ => trivial

/-- A repetition under a condition is accepted the same way if each part is, in places where the next part
follows or the condition ends the repetition. -/
theorem stable_manyWhile {more : List Char → Bool} (hmore : ∀ s t, s ≠ [] → more (s ++ '\n' :: t) = more s)
    (hp : ∀ {s a rest}, run p s = .ok a rest → rest ≠ [] →
      more rest = false ∨ (∃ a' rest', run p rest = .ok a' rest') →
      ∀ t, run p (s ++ '\n' :: t) = .ok a (rest ++ '\n' :: t)) : Stable Something (manyWhile more p) := by
  have hnil : ∀ {as rest}, run (manyWhile more p) [] = .ok as rest → rest = [] := by
    intro as rest h
    change manyWhile more p [] = _ at h
    rw [manyWhile] at h
    split at h
    · split at h
      · cases h
      · rw [if_neg (by simp)] at h
        cases h
    · cases h
      rfl
  refine ⟨fun {s as rest} hs hrest t => ?_, hnil⟩
  change manyWhile more p s = _ at hs
  fun_induction manyWhile more p s generalizing as rest with
  | case1 => cases hs
  | case2 s hmore' a s' hp' hlt as' s'' hmany ih =>
    cases hs
    have hs' : s' ≠ [] := by
      rintro rfl
      exact hrest (hnil hmany)
    -- that the repetition was accepted tells what stands after this part
    have hnext : more s' = false ∨ ∃ a' rest', run p s' = .ok a' rest' := by
      rw [manyWhile] at hmany
      split at hmany
      · split at hmany
        · cases hmany
        · next a' rest' ha' => exact .inr ⟨a', rest', ha'⟩
      · next hmore' => exact .inl (by simpa using hmore')
    have hs : s ≠ [] := by
      rintro rfl
      simp at hlt
    refine run_manyWhile_cons ((hmore s t hs).trans hmore') (hp hp' hs' hnext t) (by simpa using hlt) ?_
    exact ih hrest hmany
  | case3 => cases hs
  | case4 => cases hs
  | case5 s hmore' =>
    cases hs
    exact run_manyWhile_nil ((hmore s t hrest).trans (by simpa using hmore'))

/-- A repetition under a condition that looks at no more than the text in front of it is stable. -/
theorem Stable.manyWhile {more : List Char → Bool} (hmore : ∀ s t, s ≠ [] → more (s ++ '\n' :: t) = more s)
    (hp : Stable Something p) : Stable Something (manyWhile more p) :=
  stable_manyWhile hmore fun hs hrest _ => hp.append hs hrest

end Scan

namespace Source

open Scan

variable {α β : Type} {p : Scan α} {s s' rest t : List Char} {c : Char}

/-! ## Blanks -/

/-- Blanks run on over the end of the first text if nothing else is left of it; a comment ends with its
line. -/
theorem skipBlank_append (inComment : Bool) (s t : List Char) :
    skipBlank inComment (s ++ '\n' :: t) = if skipBlank inComment s = [] then skipBlank false t
      else skipBlank inComment s ++ '\n' :: t := by
  induction s generalizing inComment with
  | nil => cases inComment <;> rfl
  | cons c s ih =>
    rw [List.cons_append, skipBlank, skipBlank]
    split
    · exact ih _
    · split
      · exact ih _
      · -- A slash before the end of the first text starts no comment: the next character is a line break.
        have hhead : ((s ++ '\n' :: t).head? = some '/') ↔ (s.head? = some '/') := by
          cases s <;> simp
        simp only [hhead]
        split
        · exact ih _
        · rfl

/-- Blanks that stop within the first text stop there when more follows. -/
theorem skipBlank_append_of_ne (h : skipBlank false s ≠ []) (t : List Char) :
    skipBlank false (s ++ '\n' :: t) = skipBlank false s ++ '\n' :: t := by
  rw [skipBlank_append, if_neg h]

/-- Blanks are local: they see what follows only at the end of the text. -/
theorem local_blank : Local blank :=
  ⟨fun _ t hrest => congrArg (Scanned.ok ()) (skipBlank_append_of_ne hrest t), rfl⟩

/-- Spaces and tabs do not run over the end of a line. -/
theorem steady_space : Steady space := (steady_takeWhile rfl).bind fun _ => .pure

/-- Dropping spaces and tabs stops within the first text. -/
theorem dropSpace_append (s t : List Char) : dropSpace (s ++ '\n' :: t) = dropSpace s ++ '\n' :: t :=
  (takeWhile_append_break rfl s t).2

/-! ## Words, names and numbers -/

/-- A word is read from the first text or not at all. -/
theorem steady_ident : Steady ident :=
  (steady_satisfy rfl).bind fun _ => (steady_takeWhile rfl).bind fun _ => .pure

/-- A sign and a name after it are read from the first text or not at all. -/
theorem steady_named {cls : Char → Bool} (hc : c ≠ '\n') (hcls : cls '\n' = false) :
    Steady (do char c; return String.ofList (← takeWhile1 cls)) :=
  (steady_char hc).bind fun _ => (steady_takeWhile1 hcls).bind fun _ => .pure

/-- The name of a value does not run over the end of a line. -/
theorem steady_valueName : Steady valueName := steady_named (by decide) rfl

/-- A symbol does not run over the end of a line. -/
theorem steady_symbol : Steady symbol := steady_named (by decide) rfl

/-- A label does not run over the end of a line. -/
theorem steady_label : Steady label := steady_named (by decide) rfl

/-- The sign in front of a number, and the text after it. -/
def splitSign : List Char → Bool × List Char
  | '-' :: rest => (true, rest)
  | '+' :: rest => (false, rest)
  | rest => (false, rest)

/-- The sign of a number is found in the first text. -/
theorem splitSign_append (s t : List Char) :
    splitSign (s ++ '\n' :: t) = ((splitSign s).1, (splitSign s).2 ++ '\n' :: t) := by
  cases s with
  | nil => rfl
  | cons c s =>
    by_cases hminus : c = '-'
    · subst hminus
      rfl
    · by_cases hplus : c = '+'
      · subst hplus
        rfl
      · simp [splitSign, hminus, hplus]

/-- A zero alone. -/
def zero : Scan Int := fun s =>
  match s with
  | '0' :: rest => .ok 0 rest
  | _ => .failed s

/-- A zero is told from a longer number by the first text. -/
theorem zero_append (s t : List Char) : zero (s ++ '\n' :: t) = (zero s).followedBy ('\n' :: t) := by
  cases s with
  | nil => rfl
  | cons c s =>
    by_cases hc : c = '0'
    · subst hc
      rfl
    · simp [zero, hc, Scanned.followedBy]

/-- How a number is read, by its sign and its digits. -/
theorem integer_eq (s : List Char) :
    integer s =
      match (splitSign s).2.takeWhile isDigit with
      | [] => .failed s
      | c :: _ =>
        if c = '0' then zero s
        else
          let magnitude : Int := digitsToNat ((splitSign s).2.takeWhile isDigit)
          let value := if (splitSign s).1 then -magnitude else magnitude
          if Int64.minValue.toInt ≤ value && value ≤ Int64.maxValue.toInt then
            .ok value ((splitSign s).2.dropWhile isDigit)
          else .failed s := rfl

/-- A number does not run over the end of a line. -/
theorem steady_integer : Steady integer := by
  refine ⟨fun s t => ?_, rfl⟩
  obtain ⟨htake, hdrop⟩ := takeWhile_append_break (show isDigit '\n' = false from rfl) (splitSign s).2 t
  show integer (s ++ '\n' :: t) = (integer s).followedBy ('\n' :: t)
  rw [integer_eq, integer_eq, splitSign_append, htake, hdrop, zero_append]
  split
  · rfl
  · split
    · rfl
    · rw [apply_ite (Scanned.followedBy ('\n' :: t))]
      rfl

/-- The value of an attribute does not run over the end of a line. -/
theorem steady_attrValue : Steady attrValue := by
  refine .orElse ((steady_word (by decide)).bind fun _ => .pure) ?_
  refine .orElse ((steady_word (by decide)).bind fun _ => .pure) ?_
  refine .orElse (steady_symbol.bind fun _ => .pure) ?_
  exact .orElse (steady_integer.bind fun _ => .pure) (steady_ident.bind fun _ => .pure)

/-! ## Lists in brackets -/

/-- Text that goes on, after blanks, with a given character. -/
def Before (c : Char) (s : List Char) : Prop := (skipBlank false s).head? = some c

/-- Text that goes on with a character is not at its end. -/
theorem Before.ne_nil (h : Before c s) : s ≠ [] := by
  rintro rfl
  cases h

/-- Where a character is read after blanks, the text went on with it. -/
theorem before_of_run_char (h : run (char c) (skipBlank false s) = .ok () rest) : Before c s := by
  by_contra hne
  rw [run_char_failed hne] at h
  cases h

/-- A repetition up to a given character, which no attempt runs past. -/
theorem stable_many (hp : Local p) (hstop : ∀ {s}, Before c s → run p s ≠ .failed []) :
    Stable (Before c) (many p) := by
  refine ⟨fun {s as rest} hs hrest t => ?_, fun hs => (congrArg Scanned.rest hs).symm.trans rest_many_nil⟩
  change many p s = _ at hs
  fun_induction many p s generalizing as rest with
  | case1 s s' hp' =>
    cases hs
    refine run_many_nil (hp.failed hp' ?_ t)
    rintro rfl
    exact hstop hrest hp'
  | case2 s a s' hp' hlt as' s'' hmany ih =>
    cases hs
    have hs' : s' ≠ [] := by
      rintro rfl
      exact hrest.ne_nil ((congrArg Scanned.rest hmany).symm.trans rest_many_nil)
    exact run_many_cons (hp.ok hp' hs' t) (by simpa using hlt) (ih hrest hmany)
  | case3 => cases hs
  | case4 s a s' hp' hlt =>
    cases hs
    have hs' : s' ≠ [] := by
      rintro rfl
      exact hlt (List.length_pos_iff.2 hrest.ne_nil)
    show many p (s ++ '\n' :: t) = _
    rw [many, show p (s ++ '\n' :: t) = _ from hp.ok hp' hs' t]
    simp only [List.length_append, Nat.add_lt_add_iff_right, if_neg hlt]

section Lists

variable (hp : Local p) (hc : c ≠ ',')
include hp hc

/-- Entries after commas are stable in front of the character that closes the list. -/
theorem stable_many_comma : Stable (Before c) (many (do char ','; p)) := by
  refine stable_many ((steady_char (by decide)).isLocal.bind fun _ => hp) fun {s} hs h => ?_
  by_cases hcomma : s.head? = some ','
  · obtain ⟨s', rfl⟩ := List.head?_eq_some_iff.1 hcomma
    rw [Before, skipBlank_solid (by decide) (by decide)] at hs
    exact hc (Option.some.inj hs).symm
  · rw [run_bind_failed (run_char_failed hcomma)] at h
    exact hs.ne_nil (Scanned.failed.inj h)

/-- A list that is not empty is stable in front of the character that closes it. -/
theorem stable_separated1 : Stable (Before c) (separated1 p (char ',')) := by
  refine hp.stable.bind (fun a => (stable_many_comma hp hc).map) fun {a s b rest} hs hrest => ?_
  rintro rfl
  exact hrest.ne_nil ((stable_many_comma hp hc).map.atEnd hs)

/-- So is a list that may be empty, if a missing first entry is noticed before the end of the text. -/
theorem stable_separated (hstop : ∀ {s}, Before c s → run p s ≠ .failed []) :
    Stable (Before c) (separated p (char ',')) := by
  refine ⟨fun {s as rest} hs hrest t => ?_, fun {as rest} hs => ?_⟩
  · cases h : run p s with
    | ok a s' =>
      -- one entry is there, with and without more text, and then the list is one of at least one entry
      rw [run_separated_of_ok h] at hs
      have happend := (stable_separated1 hp hc).append hs hrest t
      obtain ⟨a', s'', h', -⟩ := bind_inv happend
      rw [run_separated_of_ok h', happend]
    | failed s' =>
      rw [run_separated_of_failed h] at hs
      cases hs
      apply run_separated_of_failed (hp.failed h ?_ t)
      rintro rfl
      exact hstop hrest h
  · cases h : run p [] with
    | ok a s' =>
      rw [run_separated_of_ok h] at hs
      exact (stable_separated1 hp hc).atEnd hs
    | failed s' =>
      rw [run_separated_of_failed h] at hs
      cases hs
      rfl

end Lists

/-- The character that ends a part settles how the part is read. -/
theorem firm_until {list : Scan α} {k : α → Scan β} (hlist : Stable (Before c) list) (hc : c ≠ '\n')
    (hk : ∀ a, Stable Anything (k a)) : Firm (do let a ← list; blank; char c; k a) := by
  have hclose : ∀ a, Firm (do char c; k a) := by
    refine fun a => ⟨(steady_char hc).stable.bind (fun _ => hk a) fun _ _ => trivial, fun h => ?_⟩
    rw [run_bind_failed (run_char_failed (by simp))] at h
    cases h
  have hblank : ∀ a, Firm (do blank; char c; k a) := fun a => .after local_blank.stable fun _ => hclose a
  have hbefore : ∀ {a s b rest}, run (do blank; char c; k a) s = .ok b rest → Before c s := by
    intro a s b rest hs
    obtain ⟨⟨⟩, s', hs', hrest⟩ := bind_inv hs
    obtain ⟨⟨⟩, s'', hchar, -⟩ := bind_inv hrest
    cases hs'
    exact before_of_run_char hchar
  refine ⟨hlist.bind (fun a => (hblank a).stable) fun hs _ => hbefore hs, fun h => ?_⟩
  obtain ⟨a, s', ha, hb⟩ := bind_inv h
  rw [hlist.atEnd ha] at hb
  exact (hblank a).needs hb

/-- A list in brackets is firm: the closing bracket has to be there. -/
theorem firm_enclosed {list : Scan (List α)} {opening : Char} (hlist : Stable (Before c) list)
    (ho : opening ≠ '\n') (hc : c ≠ '\n') :
    Firm (do char opening; blank; let as ← list; blank; char c; return as) := by
  refine .after (steady_char ho).stable fun _ => .after local_blank.stable fun _ => ?_
  exact firm_until hlist hc fun _ => Steady.pure.stable

/-- After blanks, an entry gives up at once where it finds a character that it cannot start with. -/
theorem run_blank_bind_ne (hp : ∀ s, run p (c :: s) = .failed (c :: s)) (hs : Before c s) {k : α → Scan β} :
    run (do blank; let a ← p; k a) s ≠ .failed [] := by
  obtain ⟨s', hs'⟩ := List.head?_eq_some_iff.1 hs
  rw [run_bind, run_blank, hs']
  show run (p >>= k) (c :: s') ≠ _
  rw [run_bind_failed (hp s')]
  exact fun h => by cases h

/-- An entry of a key and a value, with blanks around both, is local. -/
theorem local_entry {key : Scan α} {value : Scan β} (hkey : Steady key) (hc : c ≠ '\n')
    (hvalue : Steady value) :
    Local (do blank; let k ← key; blank; char c; blank; let v ← value; blank; return (k, v)) := by
  refine local_blank.bind fun _ => hkey.isLocal.bind fun _ => local_blank.bind fun _ => ?_
  refine (steady_char hc).isLocal.bind fun _ => local_blank.bind fun _ => ?_
  exact hvalue.isLocal.bind fun _ => local_blank.bind fun _ => Steady.pure.isLocal

/-- An attribute is local. -/
theorem local_attrEntry : Local attrEntry := local_entry steady_ident (by decide) steady_attrValue

/-- An entry of a phi is local. -/
theorem local_phiEntry : Local phiEntry := local_entry steady_label (by decide) steady_valueName

/-- The declaration of a parameter is local. -/
theorem local_paramDecl : Local paramDecl := local_entry steady_valueName (by decide) steady_ident

/-- Attributes in braces are firm. -/
theorem firm_attrDict : Firm attrDict := by
  refine firm_enclosed (stable_separated local_attrEntry (by decide) fun hs => ?_) (by decide) (by decide)
  exact run_blank_bind_ne (fun s => run_bind_failed (run_satisfy_failed (stops_cons.2 (by decide)))) hs

/-- The entries of a phi are firm. -/
theorem firm_phiEntryList : Firm phiEntryList := by
  refine firm_enclosed (stable_separated local_phiEntry (by decide) fun hs => ?_) (by decide) (by decide)
  exact run_blank_bind_ne (fun s => run_bind_failed (run_char_failed (by simp))) hs

/-- The parameters of a method are firm. -/
theorem firm_paramList : Firm paramList := by
  refine firm_enclosed (stable_separated local_paramDecl (by decide) fun hs => ?_) (by decide) (by decide)
  exact run_blank_bind_ne (fun s => run_bind_failed (run_char_failed (by simp))) hs

/-- The successors of an instruction are firm. -/
theorem firm_successorList : Firm successorList := by
  refine firm_enclosed (stable_separated1 ?_ (by decide)) (by decide) (by decide)
  exact local_blank.bind fun _ => steady_label.isLocal.bind fun _ => local_blank.bind fun _ =>
    Steady.pure.isLocal

/-! ## Instructions -/

/-- Operands stand on one line. -/
theorem steady_operandList : Steady operandList := by
  refine .separated1 ?_ (steady_char (by decide))
  exact steady_space.bind fun _ => steady_valueName.bind fun _ => steady_space.bind fun _ => .pure

/-- The type of a result stands on the line of the instruction. -/
theorem steady_typeAnnotation : Steady typeAnnotation :=
  steady_space.bind fun _ => (steady_char (by decide)).bind fun _ => steady_space.bind fun _ => steady_ident

/-- The name of a result is local, blanks before the sign of equality included. -/
theorem local_resultName : Local resultName := by
  refine steady_valueName.isLocal.bind fun _ => local_blank.bind fun _ => ?_
  exact (steady_char (by decide)).isLocal.bind fun _ => local_blank.bind fun _ => Steady.pure.isLocal

/-- The arguments of an instruction are stable: operands on one line, or entries in brackets. -/
theorem stable_arguments (op : String) : Stable Anything (arguments op) := by
  unfold arguments
  split
  · exact firm_phiEntryList.stable.map
  · refine Steady.stable ⟨fun s t => ?_, rfl⟩
    have hhead : (s ++ '\n' :: t).head? = some '%' ↔ s.head? = some '%' := by cases s <;> simp
    show run (if (s ++ '\n' :: t).head? = some '%' then _ else _) (s ++ '\n' :: t) =
      (run (if s.head? = some '%' then _ else _) s).followedBy ('\n' :: t)
    simp only [hhead]
    split
    · exact (steady_operandList.bind fun _ => .pure).append s t
    · rfl

/-- What is asked for after spaces is given up at once where its first character is missing. -/
theorem run_space_bind_failed {q : Scan α} (hopen : ∀ s, s.head? ≠ some c → run q s = .failed s)
    (hs : (dropSpace s).head? ≠ some c) : run (do space; q) s = .failed (dropSpace s) := by
  rw [run_bind, run_space]
  exact hopen _ hs

/-- Text at which no instruction has an unfinished bracket: it does not go on with an opening one. -/
def NotOpening (s : List Char) : Prop := ¬ Before '[' s ∧ ¬ Before '\x7b' s

/-- An optional bracket is given up for good: if there was an opening bracket, it would be left over. -/
theorem stable_optional_bracket {q : Scan α} {k : Option α → Scan β} (hq : Firm q)
    (hopen : ∀ s, s.head? ≠ some c → run q s = .failed s)
    (hc : isBlank c = false ∧ c ≠ '/' ∧ ∀ s, NotOpening s → ¬ Before c s)
    (hk : ∀ o, Stable NotOpening (k o))
    (hnone : ∀ {s b rest}, (dropSpace s).head? = some c → run (k none) s = .ok b rest → rest = s) :
    Stable NotOpening (do let o ← optional (do space; q); k o) := by
  have hfirm : Firm (do space; q) := .after steady_space.stable fun _ => hq
  refine ⟨fun {s b rest} hs hrest t => ?_, fun {b rest} hs => ?_⟩
  · obtain ⟨o, s', ho, hb⟩ := bind_inv hs
    cases h : run (do space; q) s with
    | ok a s'' =>
      rw [run_optional h] at ho
      cases ho
      exact run_bind_ok (run_optional (hfirm.stable.append h trivial t)) ((hk _).append hb hrest t)
    | failed s'' =>
      rw [run_optional_none h] at ho
      cases ho
      -- the attempt failed, but not within a bracket, and a line break opens none
      have hhead : (dropSpace s).head? ≠ some c := by
        intro hhead
        rw [hnone hhead hb] at hrest
        apply hc.2.2 s hrest
        obtain ⟨s', hs'⟩ := List.head?_eq_some_iff.1 hhead
        rw [Before, ← skipBlank_dropSpace, hs', skipBlank_solid hc.1 hc.2.1]
        rfl
      have hhead' : (dropSpace (s ++ '\n' :: t)).head? ≠ some c := by
        rw [dropSpace_append]
        cases hs' : dropSpace s with
        | nil =>
          rintro ⟨⟩
          exact absurd hc.1 (by decide)
        | cons d s' => rwa [hs'] at hhead
      exact run_bind_ok (run_optional_none (run_space_bind_failed hopen hhead')) ((hk _).append hb hrest t)
  · obtain ⟨o, s', ho, hb⟩ := bind_inv hs
    cases h : run (do space; q) [] with
    | ok a s'' => exact absurd h hfirm.needs
    | failed s'' =>
      rw [run_optional_none h] at ho
      cases ho
      exact (hk _).atEnd hb

/-- Attributes are given up at once without an opening brace. -/
theorem run_attrDict_failed (s : List Char) (hs : s.head? ≠ some '\x7b') : run attrDict s = .failed s :=
  run_bind_failed (run_char_failed hs)

/-- Successors are given up at once without an opening bracket. -/
theorem run_successorList_failed (s : List Char) (hs : s.head? ≠ some '[') : run successorList s = .failed s :=
  run_bind_failed (run_char_failed hs)

/-- A type is given up at once without a colon. -/
theorem run_typeAnnotation_failed (hs : (dropSpace s).head? ≠ some ':') :
    run typeAnnotation s = .failed (dropSpace s) :=
  run_space_bind_failed (fun _ hs => run_bind_failed (run_char_failed hs)) hs

/-- A word that was read starts with a letter or an underscore. -/
theorem head?_of_run_ident {v : String} (h : run ident s = .ok v rest) :
    ∃ c, s.head? = some c ∧ startsWord c = true := by
  by_contra hne
  have hstops : Stops startsWord s := by
    intro c hc
    rw [Bool.eq_false_iff]
    exact fun hword => hne ⟨c, hc, hword⟩
  rw [show run ident s = .failed s from run_bind_failed (run_satisfy_failed hstops)] at h
  cases h

/-- The name of a result is given up at once without its sign. -/
theorem run_resultName_failed (hs : s.head? ≠ some '%') : run resultName s = .failed s :=
  run_bind_failed (run_bind_failed (run_char_failed hs))

/-- An instruction starts with its result or its word. -/
theorem head?_of_run_line {l : Line} (h : run line s = .ok l rest) :
    ∃ c, s.head? = some c ∧ (c = '%' ∨ startsWord c = true) := by
  by_cases hs : s.head? = some '%'
  · exact ⟨'%', hs, .inl rfl⟩
  · obtain ⟨o, s', ho, hrest⟩ := bind_inv h
    rw [run_optional_none (run_resultName_failed hs)] at ho
    cases ho
    obtain ⟨op, s'', hop, -⟩ := bind_inv hrest
    obtain ⟨c, hc, hword⟩ := head?_of_run_ident hop
    exact ⟨c, hc, .inr hword⟩

/-- The word after it settles whether there is a result. -/
theorem stable_optional_resultName {E : List Char → Prop} {k : Option String → String → Scan β}
    (hk : ∀ result op, Stable E (k result op)) :
    Stable E (do let result ← optional resultName; let op ← ident; k result op) := by
  refine ⟨fun {s b rest} hs hrest t => ?_, fun hs => by cases hs⟩
  obtain ⟨result, s', hresult, hs'⟩ := bind_inv hs
  obtain ⟨op, s'', hop, hs''⟩ := bind_inv hs'
  obtain ⟨c, hc, hword⟩ := head?_of_run_ident hop
  obtain ⟨cs, rfl⟩ := List.head?_eq_some_iff.1 hc
  refine run_bind_ok ?_ (run_bind_ok (steady_ident.ok hop t) ((hk result op).append hs'' hrest t))
  cases h : run resultName s with
  | ok v r =>
    rw [run_optional h] at hresult
    cases hresult
    exact run_optional (local_resultName.ok h (by simp) t)
  | failed r =>
    rw [run_optional_none h] at hresult
    cases hresult
    -- a word stands here, and none starts with the sign of a result
    refine run_optional_none (run_resultName_failed ?_)
    rintro ⟨⟩
    exact absurd hword (by decide)

/-- An instruction is stable where no bracket of its own may follow. -/
theorem stable_line : Stable NotOpening line := by
  have hty : ∀ mk : Option String → Line, Stable NotOpening
      (do let ty ← optional typeAnnotation; return mk ty) :=
    fun mk => (Steady.bind (.optional steady_typeAnnotation) fun _ => .pure).stable
  have hty_none : ∀ {mk : Option String → Line} {c s l rest}, c ≠ ':' → (dropSpace s).head? = some c →
      run (do let ty ← optional typeAnnotation; return mk ty) s = .ok l rest → rest = s := by
    intro mk c s l rest hc hs hl
    have hne : (dropSpace s).head? ≠ some ':' := by
      rw [hs]
      exact fun h => hc (Option.some.inj h)
    rw [run_bind, run_optional_none (run_typeAnnotation_failed hne)] at hl
    cases hl
    rfl
  refine stable_optional_resultName fun result op => ?_
  refine steady_space.stable.bind (E := Anything) (fun _ => ?_) fun _ _ => trivial
  refine (stable_arguments op).bind (fun args => ?_) fun _ _ => trivial
  obtain ⟨operands, phiEntries⟩ := args
  refine stable_optional_bracket firm_successorList run_successorList_failed ⟨rfl, by decide, fun s hs => hs.1⟩
    (fun succs => ?_) ?_
  · exact stable_optional_bracket firm_attrDict run_attrDict_failed ⟨rfl, by decide, fun s hs => hs.2⟩
      (fun attrs => hty _) (hty_none (by decide))
  · intro s l rest hs hl
    have hne : (dropSpace s).head? ≠ some '\x7b' := by
      rw [hs]
      decide
    rw [run_bind, run_optional_none (run_space_bind_failed run_attrDict_failed hne)] at hl
    exact hty_none (by decide) hs hl

/-! ## Blocks and methods -/

/-- The instructions of a block are stable where something is left over. -/
theorem stable_lines : Stable Something (manyWhile atLine do let i ← line; blank; return i) := by
  refine stable_manyWhile (fun s t hs => ?_) fun {s l rest} hs hrest hnext t => ?_
  · cases s with
    | nil => exact absurd rfl hs
    | cons c s => rfl
  · obtain ⟨l', s', hl, hblank⟩ := bind_inv hs
    cases hblank
    have hnot : ∀ c, c = '[' ∨ c = '\x7b' → ¬ Before c s' := by
      intro c hc hbefore
      obtain ⟨cs, hcs⟩ := List.head?_eq_some_iff.1 hbefore
      rw [hcs] at hnext
      rcases hnext with hend | ⟨l', rest', hl'⟩
      · rcases hc with rfl | rfl <;> simp [atLine] at hend
      · obtain ⟨l'', s'', hl'', -⟩ := bind_inv hl'
        obtain ⟨d, hd, hstart⟩ := head?_of_run_line hl''
        cases hd
        rcases hc with rfl | rfl <;> revert hstart <;> decide
    refine run_bind_ok (stable_line.append hl ⟨hnot _ (.inl rfl), hnot _ (.inr rfl)⟩ t) ?_
    exact run_bind_ok (local_blank.ok run_blank hrest t) rfl

/-- A block is stable where something is left over. -/
theorem stable_blockText : Stable Something blockText := by
  refine steady_label.stable.andThen fun _ => local_blank.stable.andThen fun _ => ?_
  refine (steady_char (by decide)).stable.andThen fun _ => local_blank.stable.andThen fun _ => ?_
  exact stable_lines.map

/-- The declaration of a field is stable where something is left over. -/
theorem stable_fieldDecl : Stable Something fieldDecl := by
  refine (steady_word (by decide)).stable.andThen fun _ => local_blank.stable.andThen fun _ => ?_
  refine steady_symbol.stable.andThen fun _ => local_blank.stable.andThen fun _ => ?_
  refine (steady_char (by decide)).stable.andThen fun _ => local_blank.stable.andThen fun _ => ?_
  refine steady_ident.stable.andThen fun _ => local_blank.stable.andThen fun _ => ?_
  exact firm_attrDict.stable_something.map

/-- A flag of a method is local. -/
theorem local_methodFlag : Local methodFlag := by
  refine local_blank.bind fun _ => Steady.isLocal ?_
  exact .orElse ((steady_word (by decide)).bind fun _ => .pure) ((steady_word (by decide)).bind fun _ => .pure)

/-- In front of the body of a method, a missing flag is noticed before the end of the text. -/
theorem run_methodFlag_ne (hs : Before '\x7b' s) : run methodFlag s ≠ .failed [] := by
  obtain ⟨s', hs'⟩ := List.head?_eq_some_iff.1 hs
  have hword : ∀ (w : List Char) (b : Bool), w.head? = some 's' →
      run (do word w; return b) ('\x7b' :: s') = .failed ('\x7b' :: s') := by
    intro w b hw
    obtain ⟨cs, rfl⟩ := List.head?_eq_some_iff.1 hw
    apply run_bind_failed
    apply run_word_failed
    rw [List.cons_prefix_cons]
    exact fun h => absurd h.1 (by decide)
  unfold methodFlag
  rw [run_bind, run_blank, hs']
  show run (orElse _ _) ('\x7b' :: s') ≠ _
  rw [run_orElse_right (hword _ true (by decide)), hword _ false (by decide)]
  exact fun h => by cases h

/-- Text that goes on with a character is something. -/
theorem Before.something (h : Before c s) : Something s := h.ne_nil

/-- A method is firm: its closing brace has to be there. -/
theorem firm_method : Firm method := by
  refine .after (steady_word (by decide)).stable fun _ => .after local_blank.stable fun _ => ?_
  refine .after steady_symbol.stable fun _ => .after local_blank.stable fun _ => ?_
  refine .after firm_paramList.stable_something fun _ => ?_
  refine firm_until (stable_many local_methodFlag run_methodFlag_ne) (by decide) fun _ => Firm.stable ?_
  · refine .after local_blank.stable fun _ => ?_
    refine .after (Stable.manyWhile ?_ ?_) fun _ => ?_
    · exact fun s t _ => isPrefixOf_append_break (by decide) s t
    · exact stable_fieldDecl.andThen fun _ => local_blank.stable.map
    · refine firm_until (Stable.mono (Stable.manyWhile ?_ ?_) fun _ => Before.something) (by decide) fun _ =>
        Steady.pure.stable
      · intro s t hs
        cases s with
        | nil => exact absurd rfl hs
        | cons c s => rfl
      · exact stable_blockText.andThen fun _ => local_blank.stable.map

/-- Where the methods of the first text end, the methods of the second one begin. -/
theorem run_methods_append {ms ms' : List Method} {rest' : List Char} (hs : run methods s = .ok ms rest)
    (ht : run methods t = .ok ms' rest') : run methods (s ++ '\n' :: t) = .ok (ms ++ ms') rest' := by
  change manyWhile _ _ (skipBlank false s) = _ at hs
  change manyWhile _ _ (skipBlank false t) = _ at ht
  show manyWhile _ _ (skipBlank false (s ++ '\n' :: t)) = _
  rw [skipBlank_append]
  generalize skipBlank false s = x at hs ⊢
  -- over the methods of the first text; the blanks after the last one run on into the second text
  fun_induction manyWhile _ _ x generalizing ms rest with
  | case1 => cases hs
  | case2 x hx m x' hm hlt ms₁ rest₁ hmany ih =>
    cases hs
    obtain ⟨m, r, hmethod, hblank⟩ := bind_inv hm
    cases hblank
    have hne : x ≠ [] := by simpa using hx
    rw [if_neg hne]
    refine run_manyWhile_cons (by simp) (run_bind_ok (firm_method.stable.append hmethod trivial t) rfl) ?_ ?_
    · rw [skipBlank_append, List.length_append, List.length_cons]
      split
      · have hle := length_skipBlank_le false t
        omega
      · rw [List.length_append, List.length_cons]
        omega
    · rw [skipBlank_append]
      exact ih hmany
  | case3 => cases hs
  | case4 => cases hs
  | case5 x hx =>
    cases hs
    rw [if_pos (by simpa using hx)]
    exact ht

end Source

/-- The methods of a text are what the scanner for methods accepts, whatever is left over. -/
theorem scanMethods_eq_ok {text : String} {ms : List Source.Method} :
    scanMethods text = .ok ms ↔ ∃ rest, Scan.run Source.methods text.toList = .ok ms rest := by
  unfold scanMethods
  split
  · next ms' rest hrun =>
    rw [hrun]
    constructor
    · rintro ⟨⟩
      exact ⟨rest, rfl⟩
    · rintro ⟨rest', ⟨⟩⟩
      rfl
  · next rest hrun =>
    rw [hrun]
    constructor
    · rintro ⟨⟩
    · rintro ⟨rest', ⟨⟩⟩

/-- Two texts on lines of their own hold the methods of the first and then the methods of the second. -/
theorem readMethods_append {a b : String} {gs gs' : List Graph} (ha : readMethods a = .ok gs)
    (hb : readMethods b = .ok gs') : readMethods (a ++ "\n" ++ b) = .ok (gs ++ gs') := by
  obtain ⟨ms, hms, hgs⟩ := Checked.bind_eq_ok.1 ha
  obtain ⟨ms', hms', hgs'⟩ := Checked.bind_eq_ok.1 hb
  obtain ⟨rest, hrun⟩ := scanMethods_eq_ok.1 hms
  obtain ⟨rest', hrun'⟩ := scanMethods_eq_ok.1 hms'
  have hchars : (a ++ "\n" ++ b).toList = a.toList ++ '\n' :: b.toList := by
    rw [String.toList_append, String.toList_append, List.append_assoc]
    rfl
  have hscan : scanMethods (a ++ "\n" ++ b) = .ok (ms ++ ms') := by
    apply scanMethods_eq_ok.2
    rw [hchars]
    exact ⟨rest', Source.run_methods_append hrun hrun'⟩
  refine Checked.bind_eq_ok.2 ⟨ms ++ ms', hscan, Checked.mapM_eq_ok.2 ?_⟩
  exact List.rel_append (Checked.mapM_eq_ok.1 hgs) (Checked.mapM_eq_ok.1 hgs')

/-- The lines of a text that ends within a comment. -/
def endsInCommentLines : List String :=
  ["method @first(%p: ref) static \x7b",
   "  field @A.x : int \x7boffset = 8\x7d",
   "^in:",
   "  %v = instance_get %p \x7bfield = @A.x\x7d : int",
   "  return %v",
   "\x7d // ["]

/-- The lines of a text that starts with a comment and has two methods. -/
def startsWithCommentLines : List String :=
  ["// ]",
   "method @second() static \x7b",
   "^in:",
   "  return",
   "\x7d",
   "method @third(%q: int) static synchronized \x7b",
   "^in:",
   "  return %q",
   "\x7d"]

/-- Lines with a line break between them, and none at the end. -/
def joined (lines : List String) : List Char := ['\n'].intercalate (lines.map String.toList)

/-- A method in outline: its name, what stands in its blocks, and the kinds of its instructions. -/
def Graph.outline (g : Graph) : String × List (List InstId) × List Kind :=
  (g.name, g.blockIds.map g.bodyOf, g.insts.toList.map (·.kind))

/-- The comment at the end of the first text does not reach into the second. -/
theorem readMethods_append_comments : ∃ gs gs',
    readMethods (String.ofList (joined endsInCommentLines)) = .ok gs ∧
    gs.map Graph.outline = [("first", [[⟨0⟩, ⟨1⟩, ⟨2⟩]], [.param 0, .instanceGet ⟨0⟩, .ret])] ∧
    readMethods (String.ofList (joined startsWithCommentLines)) = .ok gs' ∧
    gs'.map Graph.outline =
      [("second", [[⟨0⟩]], [.retVoid]), ("third", [[⟨0⟩, ⟨1⟩]], [.param 0, .ret])] ∧
    readMethods (String.ofList (joined endsInCommentLines) ++ "\n" ++
      String.ofList (joined startsWithCommentLines)) = .ok (gs ++ gs') := by
  obtain ⟨gs, hread, houtline⟩ := Graph.exists_of_allOf? (joined endsInCommentLines)
    (fun gs => gs.map Graph.outline = [("first", [[⟨0⟩, ⟨1⟩, ⟨2⟩]], [.param 0, .instanceGet ⟨0⟩, .ret])])
    (by decide +kernel)
  obtain ⟨gs', hread', houtline'⟩ := Graph.exists_of_allOf? (joined startsWithCommentLines)
    (fun gs => gs.map Graph.outline =
      [("second", [[⟨0⟩]], [.retVoid]), ("third", [[⟨0⟩, ⟨1⟩]], [.param 0, .ret])]) (by decide +kernel)
  exact ⟨gs, gs', hread, houtline, hread', houtline', readMethods_append hread hread'⟩

end Midend
