import NamedExports.Command.Invocation
import NamedExports.Export.Remaining
import NamedExports.Failure

/-!
# Running commands

What an invocation writes and how it ends. The file of a command is given by what its path leads to,
so running a command is a function of the arguments, the directory it is run in and that state. A
command does not run the service itself: the addresses to serve at are part of the outcome.
-/

namespace NamedExports

namespace Command

/-- How an invocation ends. -/
inductive Exit where
  /-- The command has been run to its end, with a code. -/
  | finished (code : Nat)
  /-- The arguments have ended the invocation, with a code. -/
  | halted (code : Nat)
  /-- The file could not be used, with a message. -/
  | refused (message : String)
  deriving DecidableEq, Repr

/-- An address to serve at. -/
structure Address where
  host : String
  port : Int
  deriving DecidableEq, Repr

/-- What an invocation leads to: what it writes, what it reports, the addresses to serve at and how
it ends. -/
structure Outcome where
  exit : Exit
  output : String
  errors : String
  served : List Address
  deriving DecidableEq, Repr

/-! ### Reports -/

/-- The lines of a log that are shown. -/
def logText (verbose : Bool) (log : List Log.Entry) : String :=
  String.join ((log.filter fun e => verbose || e.level != .debug).map fun e => e.line ++ "\n")

/-- The line of a match. -/
def matchLine (m : Match) : String :=
  s!"✅ '{m.name}' exported as {m.form.name} " ++
    s!"(lines {m.first.display}-{m.last.display})\n"

/-- What a check writes. -/
def checkText (file name : String) (found : List Match) : String :=
  if found.isEmpty then s!"❌ '{name}' is not a named export of {file}\n"
  else String.join (found.map matchLine)

/-- The line of a pattern that remains. -/
def patternLine (pattern : Tree × List Tree) : String :=
  s!"   line {pattern.1.display}: " ++ "\x7b " ++
    ", ".intercalate (pattern.2.map Tree.display) ++ " \x7d\n"

/-- What a strip writes. -/
def stripText (removed : Nat) (remaining : List Remainder) : String :=
  s!"🧹 Removed {removed} destructured " ++ (if removed = 1 then "property" else "properties") ++
    "\n" ++ String.join (remaining.map fun r => String.join (r.patterns.map patternLine))

/-! ### Running -/

/-- An outcome that only a message for the file comes of. -/
def refusal (message : String) : Outcome :=
  ⟨.refused message, "", "", []⟩

/-- The module in a file, or the outcome that its absence leads to. -/
def moduleAt (path : FilePath) (state : FileState) : Except Failure (Module ⊕ Outcome) :=
  if !state.isFile then .ok (.inr (refusal s!"File does not exist: {path.text}"))
  else match path.module state with
    | .ok m => .ok (.inl m)
    | .error (.unsupported name) =>
      .ok (.inr (refusal (FileFault.unsupported name).message))
    | .error fault => .error (.file fault)

/-- Runs a check of a module. -/
def check (verbose : Bool) (file name : String) (m : Module) : Except Failure Outcome := do
  let program ← Failure.ofBuilt m.program
  let found ← Failure.ofTree (program.tree.matchesOf name)
  return ⟨.finished (if found.isEmpty then 1 else 0), checkText file name found,
    logText verbose m.log, []⟩

/-- Runs a strip of a module. -/
def strip (verbose : Bool) (names : List String) (m : Module) : Except Failure Outcome := do
  let program ← Failure.ofBuilt m.program
  let (removed, program) := program.strip names
  let removed ← Failure.ofTree removed
  let remaining ← Failure.ofTree program.tree.remainders
  return ⟨.finished 0, stripText removed remaining,
    logText verbose (m.log ++ [.ofStrip removed names]), []⟩

/-- Starts the service. -/
def serve (host : String) (port : Int) : Outcome where
  exit := .finished 0
  output := s!"🚀 Starting server at http://{host}:{port}\n   Press Ctrl+C to stop.\n"
  errors := ""
  served := [⟨host, port⟩]

/-- The file of a task, if it has one. -/
def Task.file? : Task → Option String
  | .check file _ | .strip file _ => some file
  | .serve _ _ => none

/-- The outcome of arguments that end an invocation early. -/
def Halt.outcome (h : Halt) : Outcome :=
  match h.stop with
  | .help => ⟨.halted 0, h.usage.manual.text, "", []⟩
  | .fault fault =>
    ⟨.halted 2, "", h.usage.manual.usageLine ++
      s!"{h.usage.program}: error: {fault.message}\n", []⟩

/-- Runs a task in a directory, where `state` says what a path leads to. -/
def Invocation.run (i : Invocation) (directory : FilePath) (state : FilePath → FileState) :
    Except Failure Outcome :=
  let withModule (file : String) (use : Module → Except Failure Outcome) :
      Except Failure Outcome := do
    let path := FilePath.absolute directory file
    match ← moduleAt path (state path) with
    | .inl m => use m
    | .inr outcome => return outcome
  match i.task with
  | .check file name => withModule file (check i.verbose file name)
  | .strip file names => withModule file (strip i.verbose names)
  | .serve host port => .ok (serve host port)

/-- Runs the program with some arguments in a directory, where `state` says what a path leads to. -/
def run (arguments : List String) (directory : FilePath) (state : FilePath → FileState) :
    Except Failure Outcome :=
  match Invocation.read arguments with
  | .ok i => i.run directory state
  | .error h => .ok h.outcome

end Command

end NamedExports
