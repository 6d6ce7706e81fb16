import Midend.Config.Strings

/-!
# Numbers, dates and times in settings

Integers have 64 bits.  A number with a fraction or an exponent is refused if it is beyond the largest
double.  Dates have to exist; times go from 00:00:00 to 23:59:60, the last second being a leap second.
-/

namespace Midend

namespace Toml

open Scan

/-! ## Integers -/

/-- Digits of a base, with single underscores between them. -/
def digitsOf (isBaseDigit : Char → Bool) : Scan (List Char) := do
  let groups ← separated1 (takeWhile1 isBaseDigit) (char '_')
  return groups.flatten

/-- The number that digits of a base write. -/
def numberOf (base : Nat) (digits : List Char) : Nat :=
  digits.foldl (fun n c => base * n + (hexDigit? c).getD 0) 0

/-- A number with a base mark in front. -/
def based (mark : Char) (base : Nat) : Scan Int := do
  char '0'
  char mark
  let digits ← digitsOf fun c => (hexDigit? c).any (· < base)
  return numberOf base digits

/-- A sign, if there is one: is it a minus? -/
def sign : Scan Bool := do
  return (← optional (satisfy fun c => c = '+' || c = '-')) = some '-'

/-- A sign and decimal digits, of which a zero is the first only if it is the only one. -/
def decimalDigits : Scan (Bool × List Char) := do
  let minus ← sign
  let digits ← digitsOf isDigit
  if digits.head? = some '0' && digits.length > 1 then fail else return (minus, digits)

def decimal : Scan Int := do
  let (minus, digits) ← decimalDigits
  let n : Int := numberOf 10 digits
  return if minus then -n else n

def integer : Scan Int := do
  let n ← orElse (based 'x' 16) (orElse (based 'o' 8) (orElse (based 'b' 2) decimal))
  if Int64.minValue.toInt ≤ n && n ≤ Int64.maxValue.toInt then return n else fail

/-! ## Numbers with a fraction or an exponent -/

/-- The least number that rounds to no double: half a unit beyond the largest one. -/
def doubleBound : Nat := (1 <<< 1024) - (1 <<< 970)

/-- Is the number with these digits, times a power of ten, beyond every double?  Exponents far from the
bound are decided by the number of digits alone. -/
def isBeyondDouble (digits : List Char) (exponent : Int) : Bool :=
  let m := numberOf 10 digits
  if 0 ≤ exponent then
    m ≠ 0 && (400 < exponent || doubleBound ≤ m * Nat.pow 10 exponent.toNat)
  else
    let shift := (-exponent).toNat
    shift < digits.length && doubleBound * Nat.pow 10 shift ≤ m

/-- The exponent of a number. -/
def exponent : Scan Int := do
  let _ ← satisfy fun c => c = 'e' || c = 'E'
  let minus ← sign
  let n : Int := numberOf 10 (← digitsOf isDigit)
  return if minus then -n else n

/-- The digits of a fraction. -/
def fraction : Scan (List Char) := do
  char '.'
  digitsOf isDigit

/-- A number with a fraction, an exponent or both. -/
def fractional : Scan Unit := do
  let (minus, whole) ← decimalDigits
  let part ← optional fraction
  let e ← if part.isSome then optional exponent else (do return some (← exponent))
  let part := part.getD []
  if !minus && isBeyondDouble (whole ++ part) (e.getD 0 - part.length) then fail else return ()

/-- Infinity, or what is no number. -/
def special : Scan Unit := do
  let _ ← sign
  orElse (word "inf".toList) (word "nan".toList)

/-! ## Dates and times -/

/-- As many digits as asked for. -/
def digits : Nat → Scan (List Char)
  | 0 => return []
  | n + 1 => do
    let c ← satisfy isDigit
    return c :: (← digits n)

/-- A number of two digits in a range. -/
def twoDigits (lo hi : Nat) : Scan Nat := do
  let n := numberOf 10 (← digits 2)
  if lo ≤ n && n ≤ hi then return n else fail

def isLeapYear (year : Nat) : Bool := year % 4 = 0 && (year % 100 ≠ 0 || year % 400 = 0)

def daysIn (year month : Nat) : Nat :=
  if month = 2 then (if isLeapYear year then 29 else 28)
  else if month = 4 || month = 6 || month = 9 || month = 11 then 30
  else 31

def date : Scan Unit := do
  let year := numberOf 10 (← digits 4)
  char '-'
  let month ← twoDigits 1 12
  char '-'
  let day ← twoDigits 1 31
  if day ≤ daysIn year month then return () else fail

def time : Scan Unit := do
  let _ ← twoDigits 0 23
  char ':'
  let _ ← twoDigits 0 59
  char ':'
  let _ ← twoDigits 0 60
  let _ ← optional (do char '.'; takeWhile1 isDigit)

/-- How far a time is from the zero meridian's. -/
def zone : Scan Unit :=
  orElse (do let _ ← satisfy fun c => c = 'Z' || c = 'z') do
    let _ ← satisfy fun c => c = '+' || c = '-'
    let _ ← twoDigits 0 23
    char ':'
    let _ ← twoDigits 0 59

/-- A date, a time, or both with or without a zone. -/
def dateTime : Scan Unit :=
  orElse (do
    date
    let _ ← optional do
      let _ ← satisfy fun c => c = 'T' || c = 't' || c = ' '
      time
      optional zone) time

end Toml

end Midend
