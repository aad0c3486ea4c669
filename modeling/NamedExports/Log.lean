import NamedExports.Text.Quoted

/-!
# Log

What the analysis reports besides its results. An entry is an event with its data; `Log.Entry.line`
is the line that is written for it, which names the severity and the part of the program.
-/

namespace NamedExports.Log

/-- The severities of entries, in increasing order. -/
inductive Level where
  | debug
  | warning
  | error
  deriving DecidableEq, Repr

/-- The word for a severity. -/
def Level.word : Level → String
  | debug => "DEBUG"
  | warning => "WARNING"
  | error => "ERROR"

/-- The events that are reported. -/
inductive Entry where
  /-- A module had parts that could not be read. -/
  | partialModule
  /-- Properties that bind some names were stripped from the exports of a module. -/
  | stripped (removed : Nat) (names : List String)
  /-- A file could not be read. -/
  | unreadable (path reason : String)
  deriving DecidableEq, Repr

namespace Entry

/-- The severity of an event. -/
def level : Entry → Level
  | partialModule => .warning
  | stripped _ _ => .debug
  | unreadable _ _ => .error

/-- The part of the program that reports an event. -/
def reporter : Entry → String
  | partialModule => "export_lens.services.tree_builder"
  | stripped _ _ => "export_lens.services.export_analysis"
  | unreadable _ _ => "export_lens.routers.exports"

/-- The text of an event. -/
def text : Entry → String
  | partialModule => "Parse errors in module source (continuing with partial tree)"
  | stripped removed names =>
    s!"Removed {removed} destructured export properties for {Text.quotedList names}"
  | unreadable path reason => s!"Failed to read {path}: {reason}"

/-- The line that is written for an event. -/
def line (e : Entry) : String :=
  s!"{e.level.word} {e.reporter}: {e.text}"

end Entry

end NamedExports.Log
