import NamedExports.Export.Label
import NamedExports.Export.Match
import NamedExports.Export.Pattern
import NamedExports.Export.Strip
import NamedExports.Program.Stored

/-!
# Stripping a program

A program is stripped export by export. How many properties went is told by counting the entries of
all object patterns before and after. What remains is reported by the labels of the entries, one
list for each pattern, outermost first.
-/

namespace NamedExports

variable {σ : Type}

namespace Edit

/-- The number of entries in the object patterns at or below a value. -/
def countProperties (node : Atom) : Edit σ Nat := do
  ofExcept ((← store).tree node).countProperties

/-- Strips the statement at a path if it is a named export; the result is the number of properties
that went. -/
def stripStatement (names : List String) (p : PathId) : Edit σ Nat := do
  let node := (← path p).node
  if (← typeOf node).isText Tree.namedExportType then
    let before ← countProperties node
    stripBelow names p
    return before - (← countProperties node)
  else return 0

/-- Strips the statements at some paths one after the other, and adds up what went. -/
def stripStatements (names : List String) : List PathId → Edit σ Nat
  | [] => return 0
  | p :: ps => do
    let removed ← stripStatement names p
    return removed + (← stripStatements names ps)

/-- Strips the named exports of a program; the result is the number of properties that went. -/
def stripProgram (names : List String) (program : Atom) : Edit σ Nat := do
  let p ← newPath (.start program)
  match ← get p "body" with
  | .many statements => stripStatements names statements
  | .one _ => return 0

end Edit

/-- Some names as a set: each once, in increasing order. -/
def distinctNames (names : List String) : List String :=
  names.eraseDups.mergeSort fun a b => decide (a ≤ b)

/-- What is reported when a program has been stripped of some names. -/
def Log.Entry.ofStrip (removed : Nat) (names : List String) : Log.Entry :=
  .stripped removed (distinctNames names)

namespace Program

/-- A program stripped of some names, with the number of properties that went. A fault leaves the
program as it was changed up to then. -/
def strip (p : Program) (names : List String) : Except Fault Nat × Program :=
  match (Edit.stripProgram names p.root).run (Workspace.ofStore p.store ()) with
  | .ok removed w => (.ok removed, { p with store := w.store })
  | .error fault w => (.error fault, { p with store := w.store })

end Program

/-- What remains of a named export that has object patterns. -/
structure Remainder where
  first : Tree
  last : Tree
  /-- The first line and the labels of each pattern, outermost first. -/
  patterns : List (Tree × List Tree)

namespace Tree

/-- The first line and the labels of a pattern. -/
def patternLabels (pattern : Tree) : Except Fault (Tree × List Tree) := do
  return (pattern.get "start_line", ← pattern.labels)

/-- The labels of all patterns of a statement. -/
def statementLabels (statement : Tree) : Except Fault (List (Tree × List Tree)) := do
  (← statement.collectPatterns).mapM patternLabels

/-- What remains of a statement. -/
def remainder (statement : Tree) : Except Fault Remainder := do
  return ⟨statement.get "start_line", statement.get "end_line", ← statement.statementLabels⟩

/-- What remains of the named exports of a program, those without patterns left out. -/
def remainders (program : Tree) : Except Fault (List Remainder) := do
  return (← program.namedExports.mapM remainder).filter fun r => !r.patterns.isEmpty

end Tree

end NamedExports
