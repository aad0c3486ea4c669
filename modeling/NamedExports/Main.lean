import NamedExports.Command.Run

/-!
# The command line

What the program does with the arguments it is called with: it finds out what the path of the file
leads to, runs the command, writes what the command writes and ends with its code. Addresses to
serve at are announced; it is left to a server to answer at them.
-/

namespace NamedExports.Command

/-- What a path leads to when its file cannot be read, by the number that the system gives. -/
def stateOfError : IO.Error → FileState
  | .noFileOrDirectory .. => .missing
  | .inappropriateType _ number _ => if number = 20 then .throughFile else .directory
  | .illegalOperation number words =>
    if number = 21 then .directory else .unreadable ⟨number.toNat, words⟩
  | .resourceExhausted _ number words | .invalidArgument _ number words =>
    if number = 36 then .tooLong else .unreadable ⟨number.toNat, words⟩
  | .permissionDenied _ number words => .unopenable ⟨number.toNat, words⟩
  | _ => .unreadable .inputOutput

/-- What a path leads to at the moment. -/
def stateNow (path : String) : IO FileState := do
  try
    return .content (← IO.FS.readBinFile path)
  catch error =>
    return stateOfError error

/-- What the file that some arguments name leads to at the moment. -/
def stateOfArguments (arguments : List String) (directory : FilePath) : IO FileState := do
  match Invocation.read arguments with
  | .ok i =>
    match i.task.file? with
    | some file => stateNow (FilePath.absolute directory file).text
    | none => return .missing
  | .error _ => return .missing

/-- The message of a failure. -/
def failureMessage : Failure → String
  | .file fault => fault.message
  | .notText => "the module is not valid UTF-8"
  | .tree fault => fault.message

/-- Writes an outcome; the result is the code to end with. -/
def write (o : Outcome) : IO UInt32 := do
  IO.print o.output
  IO.eprint o.errors
  match o.exit with
  | .finished code | .halted code => return code.toUInt32
  | .refused message =>
    IO.eprintln message
    return 1

/-- Runs the program in the directory it is called from; the result is the code to end with. -/
def execute (arguments : List String) : IO UInt32 := do
  let directory := FilePath.ofString (← IO.currentDir).toString
  let state ← stateOfArguments arguments directory
  match run arguments directory fun _ => state with
  | .ok outcome => write outcome
  | .error failure =>
    IO.eprintln (failureMessage failure)
    return 1

end NamedExports.Command

/-- Runs the program with the given arguments. -/
def main (arguments : List String) : IO UInt32 :=
  NamedExports.Command.execute arguments
