import NamedExports.Text.Digits

/-!
# Integers in text

An integer is written with decimal digits of any script, with a sign in front perhaps. A single bar
can stand between two digits, and blanks can stand around the whole.
-/

namespace NamedExports.Text

/-- Whether a character is a blank. -/
def isSpace (c : Char) : Bool :=
  ('\t' ≤ c && c ≤ '\r') || ('\x1c' ≤ c && c ≤ ' ') || c = '\u0085' || c = '\u00a0' ||
    c = '\u1680' || ('\u2000' ≤ c && c ≤ '\u200a') || c = '\u2028' || c = '\u2029' ||
    c = '\u202f' || c = '\u205f' || c = '\u3000'

/-- A list of characters without the blanks around it. -/
def trimmed (cs : List Char) : List Char :=
  ((cs.dropWhile isSpace).reverse.dropWhile isSpace).reverse

/-- The digits of a number with single bars between some of them; `afterDigit` says that a digit has
come last. -/
def digitsWithBars? : (afterDigit : Bool) → List Char → Option (List Char)
  | afterDigit, [] => if afterDigit then some [] else none
  | afterDigit, c :: cs =>
    if c = '_' then if afterDigit then digitsWithBars? false cs else none
    else if (decimalValue? c).isSome then (digitsWithBars? true cs).map (c :: ·)
    else none

/-- Reads a number without a sign. -/
def readNatural (cs : List Char) : Option Nat := do
  let digits ← digitsWithBars? false cs
  if maxDigits < digits.length then none else decimalNumber? digits

/-- Reads a text as an integer. -/
def readInteger (text : String) : Option Int :=
  match trimmed text.toList with
  | '-' :: cs => (readNatural cs).map fun n => -(n : Int)
  | '+' :: cs => (readNatural cs).map Int.ofNat
  | cs => (readNatural cs).map Int.ofNat

end NamedExports.Text
