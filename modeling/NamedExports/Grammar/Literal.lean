import NamedExports.Grammar.Goal

/-!
# Literals

Texts in quotes, templates, numbers and regular expressions. The places in a template are read by
the scan for what may stand there: expressions in a template, types in a template type.
-/

namespace NamedExports.Literal

open Scan

/-- The position after the quote that ends a text, `steps` characters later at most. A character
after a backslash ends nothing. -/
def closingQuote? (s : Source) (quote : Char) : (steps position : Nat) → Option Nat
  | 0, _ => none
  | steps + 1, position =>
    match s.char? position with
    | none => none
    | some c =>
      if c = quote then some (position + 1)
      else if c = '\\' then closingQuote? s quote steps (position + 2)
      else if c = '\n' then none
      else closingQuote? s quote steps (position + 1)

/-- Reads a text in quotes. -/
def string : Scan Syntax := do
  let start ← tokenStart
  let quote ← charOf fun c => c = '\x22' || c = '\x27'
  let s ← source
  match closingQuote? s quote s.size (← position) with
  | some p =>
    goTo p
    leafFrom "string" start
  | none => failure

/-- The first position from the given one on that ends a template or begins a place in it, `steps`
characters later at most. -/
def templateStop? (s : Source) : (steps position : Nat) → Option Nat
  | 0, _ => none
  | steps + 1, position =>
    match s.char? position with
    | none => none
    | some c =>
      if c = '\x60' then some position
      else if c = '\\' then templateStop? s steps (position + 2)
      else if c = '$' && s.char? (position + 1) == some '\x7b' then some position
      else templateStop? s steps (position + 1)

/-- Skips the text of a template up to its end or the next place. -/
def templateText : Scan Unit := do
  let s ← source
  match templateStop? s (s.size + 1) (← position) with
  | some p => goTo p
  | none => failure

/-- Reads a template. -/
def template (place : Scan Unit) (kind : String) : Scan Syntax := do
  let start ← tokenStart
  char '\x60'
  templateText
  skipMany (do exactly "$\x7b"; place; mark '\x7d'; templateText)
  char '\x60'
  leafFrom kind start

/-- Whether a character can stand among the digits of a number. -/
def isDigitOrBar (c : Char) : Bool :=
  c.isDigit || c = '_'

/-- Reads the digits of a number, one at least. -/
def digits : Scan Unit := do
  let _ ← charOf Char.isDigit
  skipClass isDigitOrBar

/-- Reads the power of ten of a number. -/
def exponent : Scan Unit := do
  let _ ← charOf fun c => c = 'e' || c = 'E'
  let _ ← optional (charOf fun c => c = '+' || c = '-')
  digits

/-- Reads a number in a base other than ten. -/
def basedNumber : Scan Unit := do
  char '0'
  let _ ← charOf fun c => ['x', 'X', 'o', 'O', 'b', 'B'].contains c
  let _ ← charOf isHexDigit
  skipClass fun c => isHexDigit c || c = '_'

/-- Reads a number in base ten. -/
def decimalNumber : Scan Unit := do
  (do
    digits
    let _ ← optional (do char '.'; let _ ← optional digits)) <|>
  (do char '.'; digits)
  let _ ← optional exponent

/-- Reads a number. -/
def number : Scan Syntax := do
  let start ← tokenStart
  basedNumber <|> decimalNumber
  let _ ← optional (char 'n')
  leafFrom "number" start

/-- The position after the slash that ends a regular expression, `steps` characters later at most. A
slash within a class of characters ends nothing. -/
def closingSlash? (s : Source) (inClass : Bool) : (steps position : Nat) → Option Nat
  | 0, _ => none
  | steps + 1, position =>
    match s.char? position with
    | none => none
    | some c =>
      if c = '\n' then none
      else if c = '\\' then closingSlash? s inClass steps (position + 2)
      else if c = '/' && !inClass then some (position + 1)
      else if c = '[' then closingSlash? s true steps (position + 1)
      else if c = ']' then closingSlash? s false steps (position + 1)
      else closingSlash? s inClass steps (position + 1)

/-- Reads a regular expression. -/
def regex : Scan Syntax := do
  let start ← tokenStart
  char '/'
  let s ← source
  match closingSlash? s false s.size (← position) with
  | some p =>
    goTo p
    skipClass Char.isAlpha
    leafFrom "regex" start
  | none => failure

end NamedExports.Literal
