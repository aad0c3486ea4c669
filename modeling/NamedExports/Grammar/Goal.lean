import NamedExports.Grammar.Ending

/-!
# Constructs within constructs

The constructs of the grammar contain each other. The scan of a construct is given a scan of all
constructs that it may contain, so each part of the grammar can stand on its own; the parts are tied
together where a module is read, with a bound on the depth.
-/

namespace NamedExports

/-- A construct that occurs within others. -/
inductive Goal where
  /-- An expression without commas at its top: whether a statement may end with it, and whether an
  arrow function at its top may say what it returns. -/
  | value (mayEnd annotated : Bool)
  /-- A type, and whether a statement may end with it. -/
  | type (mayEnd : Bool)
  /-- A pattern without a default. -/
  | pattern
  /-- A statement. -/
  | statement
  /-- A markup element. -/
  | element
  deriving DecidableEq, Repr

/-- The scans of the constructs within a construct. -/
abbrev Deeper := Goal → Scan Syntax

namespace Deeper

/-- An expression inside of brackets or another construct that goes on after it. -/
def inner (deeper : Deeper) : Scan Syntax :=
  deeper (.value false true)

/-- Expressions with commas between them inside of brackets. -/
def inners (deeper : Deeper) : Scan Unit := do
  let _ ← deeper.inner
  Scan.skipMany (do Scan.mark ','; deeper.inner)

/-- A type inside of brackets or another construct that goes on after it. -/
def innerType (deeper : Deeper) : Scan Unit := do
  let _ ← deeper (.type false)

/-- A type that is stated after a colon, with which a statement may end. -/
def annotation (deeper : Deeper) (mayEnd : Bool) : Scan Unit := do
  Scan.sign ":"
  let _ ← deeper (.type mayEnd)

/-- A block of statements, with which a statement may end. -/
def block (deeper : Deeper) : Scan Syntax := do
  let start ← Scan.tokenStart
  Scan.mark '\x7b'
  Scan.skipMany (deeper .statement)
  Scan.mark '\x7d'
  Ending.ofValue.finishOptionally
  Scan.leafFrom "statement_block" start

end Deeper

end NamedExports
