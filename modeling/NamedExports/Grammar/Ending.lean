import NamedExports.Grammar.Scan

/-!
# Where statements end

A statement ends at a semicolon, but the semicolon can be left out at the end of the text, before a
closing brace, and at the end of a line if the next line could not go on with the statement. Whether
it could is decided by the first character or word of the next line alone. A comment at the end of
the line belongs to the statement, and the question is asked again after it.
-/

namespace NamedExports

/-- What could go on at the place where a statement may end. -/
structure Ending where
  /-- A binary operator could follow. -/
  operator : Bool
  /-- The body of a function could follow. -/
  body : Bool
  deriving DecidableEq, Repr

namespace Ending

/-- The end of an expression. -/
def ofValue : Ending := ⟨true, false⟩

/-- The end of a type, or of anything else that no operator can go on with. -/
def ofType : Ending := ⟨false, false⟩

/-- The end of the head of a function. -/
def ofHead : Ending := ⟨false, true⟩

/-- Whether a character counts as a letter when a word is compared with a keyword. -/
def isLetter (c : Option Char) : Bool :=
  (c.map fun c => c.isAlpha || '\x7f' < c).getD false

/-- Whether a word that begins with the letter i at a position is no operator. -/
def noOperatorWord (s : Source) (p : Nat) : Bool :=
  if s.char? (p + 1) != some 'n' then true
  else if !isLetter (s.char? (p + 2)) then false
  else if s.standsAt (p + 2) "stanceof".toList then isLetter (s.char? (p + 10))
  else true

/-- Whether a line that begins at a position cannot go on with the statement before it. -/
def beginsAnew (e : Ending) (s : Source) (p : Nat) : Bool :=
  match s.char? p with
  | none => true
  | some c =>
    if ['\x60', ',', '.', ';', '*', '%', '>', '<', '=', '?', '^', '|', '&', '/', ':'].contains c
    then false
    else if c = '\x7b' then !e.body
    else if c = '(' || c = '[' then !e.operator
    else if c = '+' || c = '-' then s.char? (p + 1) == some c
    else if c = '!' then s.char? (p + 1) != some '='
    else if c = 'i' then noOperatorWord s p
    else true

/-- Whether a semicolon can be left out right here. -/
def inserts (e : Ending) : Scan Bool := do
  Scan.skipClass fun c => Scan.isBlank c && c != '\n'
  match ← Scan.peek with
  | none => return true
  | some c =>
    if c = '\n' then
      Scan.gap
      return e.beginsAnew (← Scan.source) (← Scan.position)
    else if c = '\x7d' then
      Scan.char c
      Scan.blanks
      return e.operator || (← Scan.peek) != some ':'
    else return false

/-- The position at which a semicolon is left out before the next token, behind `comments` comments
at most. -/
def insertionWithin (e : Ending) : (comments : Nat) → Scan (Option Nat)
  | 0 => return none
  | comments + 1 => do
    let p ← Scan.position
    if ← e.inserts then return some p
    Scan.goTo p
    match ← optional (do Scan.blanks; Scan.comment) with
    | some _ => insertionWithin e comments
    | none => return none

/-- The position at which a semicolon is left out before the next token, if that is so. -/
def insertion? (e : Ending) : Scan (Option Nat) := do
  let p ← Scan.position
  let found ← e.insertionWithin ((← Scan.source).size + 1)
  Scan.goTo p
  return found

/-- Ends a statement, with a semicolon or without one. -/
def finish (e : Ending) : Scan Unit := do
  match ← e.insertion? with
  | some p => Scan.goTo p
  | none => Scan.mark ';'

/-- Ends a statement that needs no semicolon. -/
def finishOptionally (e : Ending) : Scan Unit := do
  match ← e.insertion? with
  | some p => Scan.goTo p
  | none => return

/-- Fails where the statement would end here. -/
def goesOn (e : Ending) (mayEnd : Bool) : Scan Unit := do
  if mayEnd then
    match ← e.insertion? with
    | some _ => failure
    | none => return

end Ending

end NamedExports
