import NamedExports.Command.Argument

/-!
# Manuals

The manual of a command says how it is called and what its operands and switches are for. The
explanations stand in one column, which is as far to the left as the longest title allows.
-/

namespace NamedExports.Command

/-- An entry of a manual; an entry without an explanation is a title of the entries below it. -/
structure ManualEntry where
  indent : Nat
  title : String
  explanation : Option String
  deriving DecidableEq, Repr

/-- The manual of a command. -/
structure Manual where
  usage : String
  purpose : Option String
  sections : List (String × List ManualEntry)
  deriving DecidableEq, Repr

namespace Manual

/-- The rightmost column in which explanations begin. -/
def lastColumn : Nat := 24

/-- The column in which the explanations begin. -/
def column (m : Manual) : Nat :=
  let titles := m.sections.flatMap fun s => s.2.map fun e => e.title.length
  min (titles.foldl max 0 + 4) lastColumn

/-- As many spaces as given. -/
def spaces (n : Nat) : String :=
  String.ofList (List.replicate n ' ')

/-- The line of an entry. -/
def entryLine (column : Nat) (e : ManualEntry) : String :=
  let start := spaces e.indent ++ e.title
  match e.explanation with
  | some text => start ++ spaces (column - start.length) ++ text ++ "\n"
  | none => start ++ "\n"

/-- The text of a section. -/
def sectionText (column : Nat) (s : String × List ManualEntry) : String :=
  "\n" ++ s.1 ++ ":\n" ++ String.join (s.2.map (entryLine column))

/-- The line that says how a command is called. -/
def usageLine (m : Manual) : String :=
  s!"usage: {m.usage}\n"

/-- The text of a manual. -/
def text (m : Manual) : String :=
  m.usageLine ++
    (match m.purpose with
      | some purpose => "\n" ++ purpose ++ "\n"
      | none => "") ++
    String.join (m.sections.map (sectionText m.column))

end Manual

end NamedExports.Command
