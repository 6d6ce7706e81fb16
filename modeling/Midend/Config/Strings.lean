import Midend.Text.Scan

/-!
# Strings in settings

A string stands in double quotes, where a backslash starts an escape, or in single quotes, where it is a
character like any other.  In three quotes of either kind it may go over several lines: a line end right
after the opening quotes is left out, a line end counts as a line feed, one or two quotes in the text or
before the closing quotes belong to the text, and, in double quotes, a backslash at the end of a line
leaves out everything up to the next character that is no blank.
-/

namespace Midend

namespace Toml

open Scan

/-- Tab, and everything from the space on except delete. -/
def isPrintable (c : Char) : Bool := c = '\t' || (' ' ≤ c && c ≠ '\x7f')

def isBlank (c : Char) : Bool := c = ' ' || c = '\t'

/-- A line feed, perhaps after a carriage return. -/
def newline : Scan Unit := orElse (char '\n') (word ['\r', '\n'])

def isDigit (c : Char) : Bool := '0' ≤ c && c ≤ '9'

/-- The value of a hexadecimal digit. -/
def hexDigit? (c : Char) : Option Nat :=
  if isDigit c then some (c.toNat - '0'.toNat)
  else if 'a' ≤ c && c ≤ 'f' then some (c.toNat - 'a'.toNat + 10)
  else if 'A' ≤ c && c ≤ 'F' then some (c.toNat - 'A'.toNat + 10)
  else none

/-- The character with a number written in hexadecimal digits, if there is one. -/
def charOfHex? (digits : List Char) : Option Char := do
  let ds ← digits.mapM hexDigit?
  let n := ds.foldl (fun n d => 16 * n + d) 0
  if n.isValidChar then some (Char.ofNat n) else none

/-- The character a one-letter escape stands for. -/
def escaped? (c : Char) : Option Char :=
  match c with
  | 'b' => some '\x08'
  | 't' => some '\t'
  | 'n' => some '\n'
  | 'f' => some '\x0c'
  | 'r' => some '\r'
  | '"' => some '"'
  | '\\' => some '\\'
  | _ => none

/-- A text read up to its closing quotes, and what follows them. -/
abbrev Body := Option (List Char × List Char)

/-- Put a character in front of a text. -/
def Body.cons (c : Option Char) (body : Body) : Body := do
  let (chars, rest) ← body
  return ((← c) :: chars, rest)

/-! ## One line -/

/-- The characters up to a double quote, with escapes. -/
def basicBody : List Char → Body
  | [] => none
  | '"' :: rest => some ([], rest)
  | '\\' :: 'u' :: a :: b :: c :: d :: rest => Body.cons (charOfHex? [a, b, c, d]) (basicBody rest)
  | '\\' :: 'U' :: a :: b :: c :: d :: e :: f :: g :: h :: rest =>
    Body.cons (charOfHex? [a, b, c, d, e, f, g, h]) (basicBody rest)
  | '\\' :: c :: rest => Body.cons (escaped? c) (basicBody rest)
  | c :: rest => if isPrintable c then Body.cons (some c) (basicBody rest) else none

/-- The characters up to a single quote. -/
def literalBody : List Char → Body
  | [] => none
  | '\'' :: rest => some ([], rest)
  | c :: rest => if isPrintable c then Body.cons (some c) (literalBody rest) else none

/-! ## Several lines -/

/-- Does a line end here, blanks aside? -/
def endsLine (s : List Char) : Bool :=
  match s.dropWhile isBlank with
  | '\n' :: _ => true
  | '\r' :: '\n' :: _ => true
  | _ => false

/-- The characters up to three double quotes, with escapes; blanks and line ends are left out first if
asked for. -/
def longBasicBody : Bool → List Char → Body
  | _, [] => none
  | true, '\n' :: rest => longBasicBody true rest
  | true, '\r' :: '\n' :: rest => longBasicBody true rest
  | true, ' ' :: rest => longBasicBody true rest
  | true, '\t' :: rest => longBasicBody true rest
  | _, '"' :: '"' :: '"' :: '"' :: '"' :: rest => some (['"', '"'], rest)
  | _, '"' :: '"' :: '"' :: '"' :: rest => some (['"'], rest)
  | _, '"' :: '"' :: '"' :: rest => some ([], rest)
  | _, '\r' :: '\n' :: rest => Body.cons (some '\n') (longBasicBody false rest)
  | _, '\n' :: rest => Body.cons (some '\n') (longBasicBody false rest)
  | _, '\\' :: 'u' :: a :: b :: c :: d :: rest =>
    Body.cons (charOfHex? [a, b, c, d]) (longBasicBody false rest)
  | _, '\\' :: 'U' :: a :: b :: c :: d :: e :: f :: g :: h :: rest =>
    Body.cons (charOfHex? [a, b, c, d, e, f, g, h]) (longBasicBody false rest)
  | _, '\\' :: c :: rest =>
    if endsLine (c :: rest) then longBasicBody true (c :: rest)
    else Body.cons (escaped? c) (longBasicBody false rest)
  | _, c :: rest => if isPrintable c then Body.cons (some c) (longBasicBody false rest) else none

/-- The characters up to three single quotes. -/
def longLiteralBody : List Char → Body
  | [] => none
  | '\'' :: '\'' :: '\'' :: '\'' :: '\'' :: rest => some (['\'', '\''], rest)
  | '\'' :: '\'' :: '\'' :: '\'' :: rest => some (['\''], rest)
  | '\'' :: '\'' :: '\'' :: rest => some ([], rest)
  | '\r' :: '\n' :: rest => Body.cons (some '\n') (longLiteralBody rest)
  | '\n' :: rest => Body.cons (some '\n') (longLiteralBody rest)
  | c :: rest => if isPrintable c then Body.cons (some c) (longLiteralBody rest) else none

/-! ## Strings -/

/-- Opening quotes, and a text that a function reads up to the closing ones. -/
def quoted (opening : List Char) (skipLineEnd : Bool) (body : List Char → Body) : Scan String := do
  word opening
  if skipLineEnd then
    let _ ← optional newline
  match body (← remaining) with
  | some (chars, rest) => fun _ => .ok (String.ofList chars) rest
  | none => fail

/-- A string on one line, as keys use it too. -/
def shortString : Scan String :=
  orElse (quoted ['"'] false basicBody) (quoted ['\''] false literalBody)

def string : Scan String :=
  orElse (quoted ['"', '"', '"'] true (longBasicBody false))
    (orElse (quoted ['\'', '\'', '\''] true longLiteralBody) shortString)

end Toml

end Midend
