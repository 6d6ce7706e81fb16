/-!
# Scanning text

A small grammar layer over lists of characters.  A scanner takes the text that is left and either
yields a value and the text after it, or fails and says what was left where it gave up.  The place of
a failure is part of the answer, so the rules that decide it are part of the layer:

* a sequence does not go back when a later part fails: what the earlier parts took stays taken;
* a single token takes nothing when it fails;
* `optional`, `many` and `separated` go back to before the attempt that failed, and succeed;
* an alternative starts where the first one started, and when the last one fails too, the failure is
  where that last one gave up.

Repetition ends because an attempt that takes nothing ends it.
-/

namespace Midend

/-- What a scanner answers: a value and the text after it, or the text left at the failure. -/
inductive Scanned (α : Type) where
  | ok (value : α) (rest : List Char)
  | failed (rest : List Char)
deriving Repr

/-- A reader of the front of a text. -/
def Scan (α : Type) := List Char → Scanned α

namespace Scan

variable {α β : Type}

/-- Run a scanner on a text. -/
def run (p : Scan α) (s : List Char) : Scanned α := p s

instance : Monad Scan where
  pure a := fun s => .ok a s
  bind p f := fun s =>
    match p s with
    | .ok a rest => f a rest
    | .failed rest => .failed rest

theorem run_pure (a : α) (s : List Char) : run (pure a) s = .ok a s := rfl

theorem run_bind (p : Scan α) (f : α → Scan β) (s : List Char) :
    run (p >>= f) s =
      match run p s with
      | .ok a rest => run (f a) rest
      | .failed rest => .failed rest := rfl

/-! ## Tokens -/

/-- Give up here. -/
def fail : Scan α := fun s => .failed s

/-- The text that is left. -/
def remaining : Scan (List Char) := fun s => .ok s s

/-- The characters at the front that satisfy a condition, possibly none. -/
def takeWhile (p : Char → Bool) : Scan (List Char) := fun s => .ok (s.takeWhile p) (s.dropWhile p)

/-- The characters at the front that satisfy a condition, at least one. -/
def takeWhile1 (p : Char → Bool) : Scan (List Char) := fun s =>
  match s.takeWhile p with
  | [] => .failed s
  | taken => .ok taken (s.dropWhile p)

/-- One character that satisfies a condition. -/
def satisfy (p : Char → Bool) : Scan Char
  | [] => .failed []
  | c :: rest => if p c then .ok c rest else .failed (c :: rest)

/-- One given character. -/
def char (c : Char) : Scan Unit := do
  let _ ← satisfy (· = c)

/-- One given word. -/
def word (w : List Char) : Scan Unit := fun s =>
  if w.isPrefixOf s then .ok () (s.drop w.length) else .failed s

/-! ## Choice and repetition -/

/-- The scanner's value, or nothing and the text untouched. -/
def optional (p : Scan α) : Scan (Option α) := fun s =>
  match p s with
  | .ok a rest => .ok (some a) rest
  | .failed _ => .ok none s

/-- The first scanner that succeeds on this text, else the last one's failure. -/
def orElse (p q : Scan α) : Scan α := fun s =>
  match p s with
  | .ok a rest => .ok a rest
  | .failed _ => q s

/-- As many values as there are, possibly none. -/
def many (p : Scan α) (s : List Char) : Scanned (List α) :=
  match p s with
  | .failed _ => .ok [] s
  | .ok a rest =>
    if rest.length < s.length then
      match many p rest with
      | .ok as rest => .ok (a :: as) rest
      | .failed rest => .failed rest
    else
      .ok [] s
termination_by s.length

/-- Values for as long as a condition on the text before each of them holds.  Unlike `many`, a value
that fails is a failure. -/
def manyWhile (more : List Char → Bool) (p : Scan α) (s : List Char) : Scanned (List α) :=
  if more s then
    match p s with
    | .failed rest => .failed rest
    | .ok a rest =>
      if rest.length < s.length then
        match manyWhile more p rest with
        | .ok as rest => .ok (a :: as) rest
        | .failed rest => .failed rest
      else
        .failed s
  else
    .ok [] s
termination_by s.length

/-- At least one value, with a separator before each later one. -/
def separated1 (p : Scan α) (sep : Scan Unit) : Scan (List α) := do
  let first ← p
  let others ← many (do sep; p)
  return first :: others

/-- Any number of values with a separator between them. -/
def separated (p : Scan α) (sep : Scan Unit) : Scan (List α) := fun s =>
  match p s with
  | .failed _ => .ok [] s
  | .ok first rest => run (do return first :: (← many (do sep; p))) rest

end Scan

end Midend
