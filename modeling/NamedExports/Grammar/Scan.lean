import NamedExports.Grammar.Source

/-!
# Scanning

A scan reads a piece of a module text from a position on: it either fails, or gives what it has read
and the position after it. Where two scans are alternatives the first that does not fail wins, and
the second starts where the first had started.

Blanks and comments can stand between any two tokens. A comment is no token, but some rules depend
on whether one is there, so scans of tokens skip both and scans of characters skip neither.
-/

namespace NamedExports

/-- A reading of a piece of a text from a position on. -/
abbrev Scan := ReaderT Source (StateT Nat Option)

namespace Scan

/-- The text that is read. -/
def source : Scan Source :=
  read

/-- The position that has been reached. -/
def position : Scan Nat :=
  get

/-- Goes to a position. -/
def goTo (p : Nat) : Scan Unit :=
  set p

/-- The character at the position, if the text goes on. -/
def peek : Scan (Option Char) :=
  return (← source).char? (← position)

/-- The character at a distance after the position. -/
def peekAt (distance : Nat) : Scan (Option Char) :=
  return (← source).char? ((← position) + distance)

/-- Whether the position is the end of the text. -/
def atEnd : Scan Bool :=
  return (← peek).isNone

/-- Reads one character of a class. -/
def charOf (p : Char → Bool) : Scan Char := do
  match ← peek with
  | some c =>
    if p c then
      modify (· + 1)
      return c
    else failure
  | none => failure

/-- Reads the given character. -/
def char (c : Char) : Scan Unit := do
  let _ ← charOf (· == c)

/-- Reads the given characters. -/
def exactly (text : String) : Scan Unit := do
  if (← source).standsAt (← position) text.toList then modify (· + text.length) else failure

/-- Whether a scan would succeed here; the position stays. -/
def looksAt {α : Type} (scan : Scan α) : Scan Bool := do
  let p ← position
  match ← optional scan with
  | some _ =>
    goTo p
    return true
  | none => return false

/-- Fails if a scan would succeed here. -/
def notAt {α : Type} (scan : Scan α) : Scan Unit := do
  if ← looksAt scan then failure

/-- Fails unless a condition holds. -/
def require (condition : Bool) : Scan Unit :=
  if condition then return else failure

/-! ### Repetition -/

/-- Reads a piece again and again until it fails or takes nothing, `times` times at most. -/
def manyUpTo {α : Type} (scan : Scan α) : (times : Nat) → Scan (List α)
  | 0 => return []
  | times + 1 => do
    let start ← position
    match ← optional scan with
    | none => return []
    | some a =>
      if (← position) = start then return [a]
      else return a :: (← manyUpTo scan times)

/-- Reads a piece as often as it can be read. -/
def many {α : Type} (scan : Scan α) : Scan (List α) := do
  manyUpTo scan ((← source).size + 1)

/-- Skips a piece as often as it can be read. -/
def skipMany {α : Type} (scan : Scan α) : Scan Unit := do
  let _ ← many scan

/-- The first position from the given one on whose character is not of a class, `steps` positions
later at most. -/
def pastClass (s : Source) (p : Char → Bool) : (steps position : Nat) → Nat
  | 0, position => position
  | steps + 1, position =>
    match s.char? position with
    | some c => if p c then pastClass s p steps (position + 1) else position
    | none => position

/-- Skips all characters of a class. -/
def skipClass (p : Char → Bool) : Scan Unit := do
  let s ← source
  goTo (pastClass s p s.size (← position))

/-! ### Blanks and comments -/

/-- The blanks of the basic character set. -/
def isPlainBlank (c : Char) : Bool :=
  c = ' ' || ('\t' ≤ c && c ≤ '\r')

/-- The spaces of other scripts, which stand between tokens too. -/
def isWideBlank (c : Char) : Bool :=
  c = '\u00a0' || c = '\u1680' || ('\u2000' ≤ c && c ≤ '\u200b') || c = '\u2028' ||
    c = '\u2029' || c = '\u202f' || c = '\u205f' || c = '\u2060' || c = '\u3000' || c = '\ufeff'

/-- Whether a character is a blank. -/
def isBlank (c : Char) : Bool :=
  isPlainBlank c || isWideBlank c

/-- The characters at which a comment to the end of the line ends. -/
def endsLine (c : Char) : Bool :=
  c = '\n' || c = '\r' || c = '\u2028' || c = '\u2029'

/-- The first position from the given one on where the characters stand, `steps` positions later at
most. -/
def positionOf? (s : Source) (chars : List Char) : (steps position : Nat) → Option Nat
  | 0, _ => none
  | steps + 1, position =>
    if s.standsAt position chars then some position
    else positionOf? s chars steps (position + 1)

/-- Skips everything up to the given characters, and these too. -/
def through (text : String) : Scan Unit := do
  let s ← source
  match positionOf? s text.toList (s.size + 1) (← position) with
  | some p => goTo (p + text.length)
  | none => failure

/-- Reads a comment. -/
def comment : Scan Unit :=
  (do exactly "//"; skipClass (!endsLine ·)) <|>
  (do exactly "/*"; through "*/")

/-- Skips blanks. -/
def blanks : Scan Unit :=
  skipClass isBlank

/-- Skips blanks and comments. -/
def gap : Scan Unit := do
  blanks
  skipMany (do comment; blanks)

/-- The position of the next token. -/
def tokenStart : Scan Nat := do
  gap
  position

/-! ### Words -/

/-- The characters that no name can hold, those of the basic character set. -/
def wordBreakers : List Char :=
  [':', ';', '\x60', '\x22', '\x27', '@', '#', '.', ',', '|', '^', '&', '<', '=', '>', '+', '-',
    '*', '/', '\\', '%', '?', '!', '~', '(', ')', '[', ']', '\x7b', '\x7d']

/-- Whether a character can stand inside a name. -/
def isWordChar (c : Char) : Bool :=
  '\x1f' < c && !isBlank c && !wordBreakers.contains c

/-- Whether a character can begin a name. -/
def isWordStart (c : Char) : Bool :=
  isWordChar c && !c.isDigit

/-- Whether a character is a hexadecimal digit. -/
def isHexDigit (c : Char) : Bool :=
  c.isDigit || ('a' ≤ c && c ≤ 'f') || ('A' ≤ c && c ≤ 'F')

/-- Reads a character of a name that is written by its code point. -/
def codeEscape : Scan Unit := do
  exactly "\\u"
  (do char '\x7b'; let _ ← charOf isHexDigit; skipClass isHexDigit; char '\x7d') <|>
  (do
    let _ ← charOf isHexDigit
    let _ ← charOf isHexDigit
    let _ ← charOf isHexDigit
    let _ ← charOf isHexDigit)

/-- Reads a name of any sort, keywords included, which starts right here. -/
def nameHere : Scan Unit := do
  (do let _ ← charOf isWordStart) <|> codeEscape
  skipMany ((do let _ ← charOf isWordChar; skipClass isWordChar) <|> codeEscape)

/-- Reads a name of any sort; the result is where it starts and how it is written. A name that is
no text throughout is written as nothing. -/
def anyName : Scan (Nat × String) := do
  let start ← tokenStart
  nameHere
  return (start, ((← source).slice start (← position)).getD "")

/-- Reads the given word. -/
def word (w : String) : Scan Unit := do
  let (_, name) ← anyName
  require (name == w)

/-- Reads one of some words. -/
def wordOf (ws : List String) : Scan String := do
  let (_, name) ← anyName
  require (ws.contains name)
  return name

/-! ### Signs -/

/-- The signs of more than one character, longer ones before their beginnings. -/
def longSigns : List String :=
  [">>>=", "...", "===", "!==", "**=", "<<=", ">>=", ">>>", "&&=", "||=", "??=", "=>", "==", "!=",
    "<=", ">=", "&&", "||", "??", "?.", "++", "--", "+=", "-=", "*=", "/=", "%=", "&=", "|=", "^=",
    "<<", ">>", "**"]

/-- Whether a sign stands at a position. An optional link is not read before a digit, where it is a
question mark and a number. -/
def signStands (s : Source) (position : Nat) (sign : String) : Bool :=
  s.standsAt position sign.toList &&
    !(sign == "?." && ((s.char? (position + 2)).map Char.isDigit).getD false)

/-- The longest sign at the position of the next token. -/
def longestSign : Scan String := do
  gap
  let s ← source
  let p ← position
  match longSigns.find? (signStands s p) with
  | some sign => return sign
  | none =>
    match ← peek with
    | some c => return String.singleton c
    | none => failure

/-- Reads the given sign, which is the longest one that stands here. -/
def sign (text : String) : Scan Unit := do
  require ((← longestSign) == text)
  modify (· + text.length)

/-- Reads one of some signs. -/
def signOf (texts : List String) : Scan String := do
  let text ← longestSign
  require (texts.contains text)
  modify (· + text.length)
  return text

/-- Reads a character as a token, though a longer sign may begin with it. -/
def mark (c : Char) : Scan Unit := do
  gap
  char c

/-- Reads pieces with commas between them. -/
def separated {α : Type} (scan : Scan α) : Scan (List α) := do
  match ← optional scan with
  | none => return []
  | some first => return first :: (← many (do mark ','; scan))

/-- Reads pieces with commas between them; pieces can be left out. -/
def sparse {α : Type} (scan : Scan α) : Scan (List α) := do
  let first ← optional scan
  let others ← many (do mark ','; optional scan)
  return (first :: others).filterMap id

/-! ### Nodes -/

/-- A node with nothing below it that ends at the position. -/
def leafFrom (kind : String) (start : Nat) : Scan Syntax := do
  let s ← source
  let stop ← position
  return .node kind ⟨s.row start, s.row stop⟩ true none (s.slice start stop) []

/-- A node that ends at the position, with the nodes below it. -/
def nodeFrom (kind : String) (start : Nat) (children : List Syntax) : Scan Syntax := do
  let s ← source
  let stop ← position
  return .node kind ⟨s.row start, s.row stop⟩ true none (s.slice start stop) children

end Scan

namespace Syntax

/-- A node as it hangs by a field. -/
def as (n : Syntax) (field : String) : Syntax :=
  match n with
  | node kind rows named _ text children => node kind rows named (some field) text children

/-- A word or sign of the grammar. -/
def token (kind : String) (row : Nat) : Syntax :=
  node kind ⟨row, row⟩ false none (some kind) []

end Syntax

end NamedExports
