import NamedExports.Grammar.Statement

/-!
# Reading a module

A module is a sequence of statements up to the end of its text, with a line for the system in front
perhaps. The scans of the grammar are tied together with a bound on the depth of constructs. Every
construct that lies within others takes at least one character more than what it holds, so the
length of the text bounds the depth.

A text that is no module is damaged. Its syntax has one statement, which holds all of the text.
-/

namespace NamedExports

namespace Grammar

open Scan

/-- Reads a construct with a given reading of the constructs within it. -/
def construct (deeper : Deeper) : Goal → Scan Syntax
  | .value mayEnd annotated => Expression.value deeper mayEnd annotated
  | .type mayEnd => TypeForm.type deeper mayEnd
  | .pattern => Binding.pattern deeper
  | .statement => Statement.statement deeper
  | .element => Markup.element deeper

/-- Reads a construct with others within it, down to the given depth. -/
def within : (depth : Nat) → Goal → Scan Syntax
  | 0, _ => failure
  | depth + 1, goal => construct (within depth) goal

/-- The steps of depth that one character can open. -/
def depthPerCharacter : Nat := 4

/-- Reads the line for the system at the beginning of a text. -/
def systemLine : Scan Syntax := do
  let start ← position
  exactly "#!"
  skipClass (· != '\n')
  leafFrom "hash_bang_line" start

/-- Reads all statements of a module. -/
def statements : Scan (List Syntax) := do
  let first ← optional systemLine
  let depth := depthPerCharacter * ((← source).size + 2)
  let others ← many (within depth .statement)
  gap
  require (← atEnd)
  return first.toList ++ others

end Grammar

namespace Source

/-- The position of the first token or comment, the end of the text if there is none. -/
def firstPosition (s : Source) : Nat :=
  Scan.pastClass s Scan.isBlank s.size 0

/-- The syntax of a text with the given statements. -/
def program (s : Source) (statements : List Syntax) : Syntax :=
  .node "program" ⟨s.row s.firstPosition, s.row s.size⟩ true none (s.slice 0 s.size) statements

/-- All of a text as one statement. -/
def unread (s : Source) : Syntax :=
  .node "ERROR" ⟨s.row s.firstPosition, s.row s.size⟩ true none (s.slice 0 s.size) []

/-- Reads a text as a module. -/
def module (s : Source) : Module :=
  match (Grammar.statements.run s).run 0 with
  | some (statements, _) => ⟨s.program statements, false⟩
  | none => ⟨s.program [s.unread], true⟩

end Source

end NamedExports
