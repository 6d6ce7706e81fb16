import Mathlib.Data.List.TakeWhile
import Midend.Text.Source

/-!
# Scanners, forwards and backwards

How scanners run on texts that are known piece by piece, and what the values are like that they yield.

## Shape of the argument

Forwards, a scanner runs on a piece of text with some rest after it.  A token ends where its class of
characters ends, so the rest has to stop the class (`Stops`); a repetition ends where its next value cannot
start.  Backwards, `Gives` says that all values of a scanner have a property, with one rule for each way of
putting scanners together.
-/

namespace Midend

namespace Scan

variable {α β : Type} {p q : Scan α} {f : α → Scan β} {P Q : α → Prop} {R : β → Prop}
  {s s' rest : List Char} {a : α} {b : β} {c : Char} {cls : Char → Bool}

/-! ## Running pieces in sequence -/

/-- A sequence accepts what its parts accept one after the other. -/
theorem run_bind_ok (hp : run p s = .ok a s') (hf : run (f a) s' = .ok b rest) :
    run (p >>= f) s = .ok b rest := by
  rw [run_bind, hp]
  exact hf

/-- A sequence gives up where its first part does. -/
theorem run_bind_failed (hp : run p s = .failed s') : run (p >>= f) s = .failed s' := by
  rw [run_bind, hp]

/-- An optional part that is there is read. -/
theorem run_optional (hp : run p s = .ok a rest) : run (optional p) s = .ok (some a) rest := by
  show optional p s = _
  unfold optional
  rw [show p s = _ from hp]

/-- An optional part that is missing leaves the text as it was. -/
theorem run_optional_none (hp : run p s = .failed rest) : run (optional p) s = .ok none s := by
  show optional p s = _
  unfold optional
  rw [show p s = _ from hp]

/-- A choice takes what its first part accepts. -/
theorem run_orElse (hp : run p s = .ok a rest) : run (orElse p q) s = .ok a rest := by
  show orElse p q s = _
  unfold orElse
  rw [show p s = _ from hp]

/-- Where the first part of a choice gives up, the second one starts over. -/
theorem run_orElse_right (hp : run p s = .failed s') : run (orElse p q) s = run q s := by
  show orElse p q s = _
  unfold orElse
  rw [show p s = _ from hp]
  rfl

/-! ## Tokens -/

/-- A text does not start with a character of a class. -/
def Stops (cls : Char → Bool) (s : List Char) : Prop := ∀ c, s.head? = some c → cls c = false

/-- Nothing goes on at the end of the text. -/
@[simp] theorem stops_nil : Stops cls [] := fun c hc => by cases hc

/-- A text goes on in a class with its first character. -/
@[simp] theorem stops_cons : Stops cls (c :: s) ↔ cls c = false := by
  simp [Stops]

/-- What stops a class stops a smaller one. -/
theorem Stops.mono {cls' : Char → Bool} (hs : Stops cls s) (h : ∀ c, cls' c = true → cls c = true) :
    Stops cls' s := by
  intro c hc
  rw [Bool.eq_false_iff]
  intro hcls
  exact absurd (h c hcls) (by rw [hs c hc]; decide)

/-- The characters of a class end where the class stops. -/
theorem takeWhile_eq (hs : ∀ c ∈ s, cls c = true) (hrest : Stops cls rest) :
    (s ++ rest).takeWhile cls = s ∧ (s ++ rest).dropWhile cls = rest := by
  rw [List.takeWhile_append_of_pos hs, List.dropWhile_append_of_pos hs]
  cases rest with
  | nil => simp
  | cons c rest =>
    rw [stops_cons] at hrest
    simp [hrest]

/-- The characters of a class are read up to where the class stops. -/
theorem run_takeWhile (hs : ∀ c ∈ s, cls c = true) (hrest : Stops cls rest) :
    run (takeWhile cls) (s ++ rest) = .ok s rest := by
  obtain ⟨htake, hdrop⟩ := takeWhile_eq hs hrest
  show Scanned.ok _ _ = _
  rw [htake, hdrop]

/-- At least one character of a class is read where one is there. -/
theorem run_takeWhile1 (hne : s ≠ []) (hs : ∀ c ∈ s, cls c = true) (hrest : Stops cls rest) :
    run (takeWhile1 cls) (s ++ rest) = .ok s rest := by
  obtain ⟨htake, hdrop⟩ := takeWhile_eq hs hrest
  show takeWhile1 cls (s ++ rest) = _
  unfold takeWhile1
  rw [htake, hdrop]
  cases s with
  | nil => exact absurd rfl hne
  | cons c s => rfl

/-- A character of a class is read. -/
theorem run_satisfy (hc : cls c = true) : run (satisfy cls) (c :: rest) = .ok c rest := by
  show satisfy cls (c :: rest) = _
  rw [satisfy, if_pos hc]

/-- No character is read where the class stops. -/
theorem run_satisfy_failed (hs : Stops cls s) : run (satisfy cls) s = .failed s := by
  cases s with
  | nil => rfl
  | cons c s =>
    rw [stops_cons] at hs
    show satisfy cls (c :: s) = _
    rw [satisfy, hs]
    rfl

/-- A given character is read. -/
theorem run_char (rest : List Char) : run (char c) (c :: rest) = .ok () rest :=
  run_bind_ok (run_satisfy (by simp)) rfl

/-- A given character that does not come next is not read. -/
theorem run_char_failed (hs : s.head? ≠ some c) : run (char c) s = .failed s := by
  apply run_bind_failed
  apply run_satisfy_failed
  intro d hd
  rw [decide_eq_false_iff_not]
  rintro rfl
  exact hs hd

/-- A given word is read. -/
theorem run_word : run (word s) (s ++ rest) = .ok () rest := by
  show word s (s ++ rest) = _
  unfold word
  rw [if_pos (List.isPrefixOf_iff_prefix.2 (List.prefix_append s rest)), List.drop_left]

/-- A given word that does not come next is not read. -/
theorem run_word_failed (h : ¬ s <+: rest) : run (word s) rest = .failed rest := by
  show word s rest = _
  unfold word
  rw [if_neg (fun hpre => h (List.isPrefixOf_iff_prefix.1 hpre))]

/-! ## Repetition -/

/-- A repetition ends where its part gives up, and takes that attempt back. -/
theorem run_many_nil (hp : run p s = .failed s') : run (many p) s = .ok [] s := by
  show many p s = _
  rw [many, show p s = _ from hp]

/-- A repetition goes on after a part that has read something. -/
theorem run_many_cons {as : List α} (hp : run p s = .ok a s') (hlt : s'.length < s.length)
    (hmany : run (many p) s' = .ok as rest) : run (many p) s = .ok (a :: as) rest := by
  show many p s = _
  rw [many, show p s = _ from hp]
  simp only [if_pos hlt]
  rw [show many p s' = _ from hmany]

/-- A repetition under a condition ends where the condition fails. -/
theorem run_manyWhile_nil {more : List Char → Bool} (hs : more s = false) :
    run (manyWhile more p) s = .ok [] s := by
  show manyWhile more p s = _
  rw [manyWhile, hs]
  rfl

/-- A repetition under a condition goes on where it holds, after a part that has read something. -/
theorem run_manyWhile_cons {more : List Char → Bool} {as : List α} (hs : more s = true)
    (hp : run p s = .ok a s') (hlt : s'.length < s.length)
    (hmany : run (manyWhile more p) s' = .ok as rest) :
    run (manyWhile more p) s = .ok (a :: as) rest := by
  show manyWhile more p s = _
  rw [manyWhile, if_pos hs, show p s = _ from hp]
  simp only [if_pos hlt]
  rw [show manyWhile more p s' = _ from hmany]

/-- A list with separators, from its first entry on. -/
theorem intercalate_map_cons {text : α → List Char} {a : α} {as : List α} {sep : List Char} :
    sep.intercalate ((a :: as).map text) = text a ++ as.flatMap fun a => sep ++ text a := by
  induction as generalizing a with
  | nil => simp [List.intercalate_singleton]
  | cons b as ih =>
    rw [List.map_cons, List.map_cons, List.intercalate_cons_cons, ← List.map_cons, ih, List.flatMap_cons,
      List.append_assoc, List.append_assoc]

section Separated

variable {text : α → List Char} {as : List α}
  (hmid : ∀ a ∈ as, ∀ s, run p (text a ++ ',' :: s) = .ok a (',' :: s))
  (hlast : ∀ a ∈ as, run p (text a ++ rest) = .ok a s')
  (hspace : ∀ s, run p (' ' :: s) = run p s) (hend : s'.head? ≠ some ',') (hle : s'.length ≤ rest.length)
include hmid hlast hspace hend hle

/-- The values after the first one, each with a comma and a space before it. -/
theorem run_many_separated {tail : List α} (htail : ∀ a ∈ tail, a ∈ as) (hne : tail ≠ []) :
    run (many (do char ','; p)) (tail.flatMap (fun a => ", ".toList ++ text a) ++ rest) = .ok tail s' := by
  induction tail with
  | nil => exact absurd rfl hne
  | cons a tail ih =>
    have hstop : run (many (do char ','; p)) s' = .ok [] s' := by
      apply run_many_nil
      apply run_bind_failed
      exact run_char_failed hend
    have ha := htail a List.mem_cons_self
    have hstep : ∀ s, run (do char ','; p) (", ".toList ++ s) = run p s := by
      intro s
      show run (do char ','; p) (',' :: ' ' :: s) = _
      rw [run_bind, run_char]
      exact hspace s
    rw [List.flatMap_cons, List.append_assoc, List.append_assoc]
    cases tail with
    | nil =>
      refine run_many_cons (?_ : _ = Scanned.ok a s') ?_ hstop
      · rw [hstep]
        exact hlast a ha
      · have hlen : (", ".toList ++ (text a ++ rest)).length = 2 + (text a).length + rest.length := by
          simp only [List.length_append, List.length_cons, List.length_nil, String.reduceToList]
          omega
        show s'.length < (", ".toList ++ (text a ++ rest)).length
        omega
    | cons b tail =>
      have hrest := ih (fun x hx => htail x (List.mem_cons_of_mem _ hx)) (by simp)
      refine run_many_cons ?_ ?_ hrest
      · rw [hstep]
        exact hmid a ha _
      · simp only [List.length_append, List.length_cons, String.reduceToList]
        omega

/-- One or more values with a comma and a space between them. -/
theorem run_separated1 (hne : as ≠ []) :
    run (separated1 p (char ',')) (", ".toList.intercalate (as.map text) ++ rest) = .ok as s' := by
  obtain ⟨a, tail, rfl⟩ := List.exists_cons_of_ne_nil hne
  rw [intercalate_map_cons, List.append_assoc]
  by_cases htail : tail = []
  · subst htail
    have hmany := run_many_nil (run_bind_failed (f := fun _ => p) (run_char_failed hend))
    exact run_bind_ok (hlast a List.mem_cons_self) (run_bind_ok hmany rfl)
  · have hmany := run_many_separated hmid hlast hspace hend hle (fun x => List.mem_cons_of_mem a) htail
    refine run_bind_ok ?_ (run_bind_ok hmany rfl)
    obtain ⟨b, tail, rfl⟩ := List.exists_cons_of_ne_nil htail
    exact hmid a List.mem_cons_self _

end Separated

/-- A list with a first entry is not empty. -/
theorem run_separated_of_ok {sep : Scan Unit} (hp : run p s = .ok a s') :
    run (separated p sep) s = run (separated1 p sep) s := by
  unfold separated1
  rw [run_bind, hp]
  show separated p sep s = _
  unfold separated
  rw [show p s = _ from hp]

/-- Values with a comma and a space between them, up to where no value can start. -/
theorem run_separated {text : α → List Char} {as : List α}
    (hmid : ∀ a ∈ as, ∀ s, run p (text a ++ ',' :: s) = .ok a (',' :: s))
    (hlast : ∀ a ∈ as, run p (text a ++ rest) = .ok a rest)
    (hspace : ∀ s, run p (' ' :: s) = run p s) (hend : rest.head? ≠ some ',')
    (hfail : run p rest = .failed s') :
    run (separated p (char ',')) (", ".toList.intercalate (as.map text) ++ rest) = .ok as rest := by
  cases as with
  | nil =>
    show separated p (char ',') rest = _
    unfold separated
    rw [show p rest = _ from hfail]
  | cons a tail =>
    have hne : a :: tail ≠ [] := List.cons_ne_nil a tail
    rw [← run_separated1 hmid hlast hspace hend (Nat.le_refl _) hne, intercalate_map_cons]
    by_cases htail : tail = []
    · subst htail
      rw [List.flatMap_nil, List.append_nil]
      apply run_separated_of_ok
      exact hlast a List.mem_cons_self
    · obtain ⟨b, tail, rfl⟩ := List.exists_cons_of_ne_nil htail
      rw [List.append_assoc]
      apply run_separated_of_ok
      exact hmid a List.mem_cons_self _

/-! ## What scanners yield -/

/-- All values of a scanner have a property. -/
def Gives (p : Scan α) (P : α → Prop) : Prop := ∀ ⦃s a rest⦄, run p s = .ok a rest → P a

/-- Nothing is said of what a scanner gives. -/
theorem gives_true : Gives p fun _ => True := fun _ _ _ _ => trivial

/-- What is given without reading. -/
theorem Gives.pure (h : P a) : Gives (pure a) P := by
  intro s b rest hb
  cases hb
  exact h

/-- What a sequence gives, from what its first part gives. -/
theorem Gives.bind (hp : Gives p P) (hf : ∀ a, P a → Gives (f a) R) : Gives (p >>= f) R := by
  intro s b rest hb
  rw [run_bind] at hb
  split at hb
  · next a s' ha => exact hf a (hp ha) hb
  · cases hb

/-- What an optional part gives, if it gives anything. -/
theorem Gives.optional (hp : Gives p P) : Gives (optional p) fun o => ∀ a, o = some a → P a := by
  intro s o rest ho a hoa
  subst hoa
  change Scan.optional p s = _ at ho
  unfold Scan.optional at ho
  split at ho
  · next a' s' ha =>
    cases ho
    exact hp ha
  · cases ho

/-- What a repetition gives, entry by entry. -/
theorem Gives.many (hp : Gives p P) : Gives (many p) fun as => ∀ a ∈ as, P a := by
  intro s as rest has
  change Scan.many p s = _ at has
  fun_induction Scan.many p s generalizing as rest with
  | case1 s s' hs =>
    cases has
    exact fun a ha => nomatch ha
  | case2 s a s' hs hlt as' s'' hmany ih =>
    cases has
    exact List.forall_mem_cons.2 ⟨hp hs, ih hmany⟩
  | case3 => cases has
  | case4 s a s' hs hlt =>
    cases has
    exact fun a ha => nomatch ha

/-- What a repetition under a condition gives, entry by entry. -/
theorem Gives.manyWhile {more : List Char → Bool} (hp : Gives p P) :
    Gives (manyWhile more p) fun as => ∀ a ∈ as, P a := by
  intro s as rest has
  change Scan.manyWhile more p s = _ at has
  fun_induction Scan.manyWhile more p s generalizing as rest with
  | case1 => cases has
  | case2 s hmore a s' hs hlt as' s'' hmany ih =>
    cases has
    exact List.forall_mem_cons.2 ⟨hp hs, ih hmany⟩
  | case3 => cases has
  | case4 => cases has
  | case5 s hmore =>
    cases has
    exact fun a ha => nomatch ha

/-- What a list that is not empty gives, entry by entry. -/
theorem Gives.separated1 {sep : Scan Unit} (hp : Gives p P) :
    Gives (separated1 p sep) fun as => ∀ a ∈ as, P a := by
  refine hp.bind fun a ha => ?_
  refine Gives.bind (gives_true.bind fun _ _ => hp).many fun as has => ?_
  exact .pure (List.forall_mem_cons.2 ⟨ha, has⟩)

/-- What a list gives, entry by entry. -/
theorem Gives.separated {sep : Scan Unit} (hp : Gives p P) :
    Gives (separated p sep) fun as => ∀ a ∈ as, P a := by
  intro s as rest has
  cases hs : run p s with
  | ok a s' =>
    rw [run_separated_of_ok hs] at has
    exact hp.separated1 has
  | failed s' =>
    change Scan.separated p sep s = _ at has
    unfold Scan.separated at has
    rw [show p s = _ from hs] at has
    cases has
    exact fun a ha => nomatch ha

/-- Characters of a class are in the class. -/
theorem gives_takeWhile : Gives (takeWhile cls) fun s => ∀ c ∈ s, cls c = true := by
  intro s taken rest h
  cases h
  exact fun c hc => List.mem_takeWhile_imp hc

/-- At least one character of a class is given, and all are in the class. -/
theorem gives_takeWhile1 : Gives (takeWhile1 cls) fun s => s ≠ [] ∧ ∀ c ∈ s, cls c = true := by
  intro s taken rest h
  change takeWhile1 cls s = _ at h
  unfold takeWhile1 at h
  split at h
  · cases h
  · next hne =>
    cases h
    exact ⟨hne, fun c hc => List.mem_takeWhile_imp hc⟩

/-- A character of a class is in the class. -/
theorem gives_satisfy : Gives (satisfy cls) fun c => cls c = true := by
  intro s c rest h
  cases s with
  | nil => cases h
  | cons d s =>
    change satisfy cls (d :: s) = _ at h
    rw [satisfy] at h
    split at h
    · next hd =>
      cases h
      exact hd
    · cases h

end Scan

end Midend
