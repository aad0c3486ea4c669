import NamedExports.Export.Form
import NamedExports.Program.Statement

/-!
# Matches in a program

A program exports a name wherever one of its statements is a named export of it. A well-formed
module has one match at most; all of them are listed, so that a repeated export shows.
-/

namespace NamedExports

/-- A named export of a name: its form and the lines of the statement. -/
structure Match where
  name : String
  form : Form
  first : Tree
  last : Tree

namespace Tree

/-- The type of statements that export names of their own. -/
def namedExportType : String := "ExportNamedDeclaration"

/-- The statements of a program. -/
def statements (program : Tree) : List Tree :=
  match program.get "body" with
  | list items => items
  | _ => []

/-- The statements of a program that are named exports. -/
def namedExports (program : Tree) : List Tree :=
  program.statements.filter (·.hasType namedExportType)

/-- The match of a name in one statement, if there is one. -/
def matchIn? (name : String) (statement : Tree) : Except Fault (Option Match) := do
  match ← statement.exportForm? name with
  | some form =>
    return some ⟨name, form, statement.get "start_line", statement.get "end_line"⟩
  | none => return none

/-- All matches of a name in a program, in the order of the statements. -/
def matchesOf (program : Tree) (name : String) : Except Fault (List Match) := do
  return (← program.namedExports.mapM (matchIn? name)).filterMap id

end Tree

end NamedExports
