import NamedExports.Command.Manual

/-!
# Invocations

The program has three commands: one tells whether a module exports a name, one drops destructured
properties and shows what is left, and one runs the service. An invocation is what the arguments of
the program ask for.
-/

namespace NamedExports.Command

/-- What the program is asked to do. -/
inductive Task where
  /-- Tells whether the module in a file exports a name. -/
  | check (file name : String)
  /-- Drops the properties that bind some names from the module in a file. -/
  | strip (file : String) (names : List String)
  /-- Runs the service. -/
  | serve (host : String) (port : Int)
  deriving DecidableEq, Repr

/-- What the arguments of the program ask for. -/
structure Invocation where
  verbose : Bool
  task : Task
  deriving DecidableEq, Repr

/-- A command: how it is called, what it takes and what its manual says. -/
structure Usage where
  program : String
  signature : Signature
  manual : Manual
  deriving DecidableEq, Repr

/-- An invocation that ends early, at the command with the given usage. -/
structure Halt where
  usage : Usage
  stop : Stop
  deriving DecidableEq, Repr

/-! ### The commands -/

/-- The name of the program. -/
def programName : String := "export-lens"

/-- The host that the service listens at unless another one is given. -/
def defaultHost : String := "127.0.0.1"

/-- The port that the service listens at unless another one is given. -/
def defaultPort : Int := 8000

/-- The switch for the manual. -/
def helpSwitch : Switch := ⟨["-h", "--help"], .help⟩

/-- The entry of the switch for the manual. -/
def helpEntry : ManualEntry := ⟨2, "-h, --help", some "show this help message and exit"⟩

/-- The program as a whole. -/
def mainUsage : Usage where
  program := programName
  signature :=
    { switches := [helpSwitch, ⟨["--verbose"], .flag⟩]
      operands := [⟨"command", .command⟩] }
  manual :=
    { usage := programName ++ " [-h] [--verbose] \x7bcheck,strip,serve\x7d ..."
      purpose := some "Locate and rewrite named exports in JavaScript/TypeScript modules."
      sections :=
        [("positional arguments",
          [⟨2, "\x7bcheck,strip,serve\x7d", none⟩,
            ⟨4, "check", some "Check whether a module exports a name."⟩,
            ⟨4, "strip", some "Remove destructured export properties."⟩,
            ⟨4, "serve", some "Run the HTTP API."⟩]),
        ("options", [helpEntry, ⟨2, "--verbose", some "Enable debug logging."⟩])] }

/-- The command that tells whether a module exports a name. -/
def checkUsage : Usage where
  program := programName ++ " check"
  signature :=
    { switches := [helpSwitch]
      operands := [⟨"file", .one⟩, ⟨"name", .one⟩] }
  manual :=
    { usage := programName ++ " check [-h] file name"
      purpose := none
      sections :=
        [("positional arguments",
          [⟨2, "file", some "Path to the module."⟩,
            ⟨2, "name", some "Exported name to look for."⟩]),
        ("options", [helpEntry])] }

/-- The command that drops destructured properties. -/
def stripUsage : Usage where
  program := programName ++ " strip"
  signature :=
    { switches := [helpSwitch]
      operands := [⟨"file", .one⟩, ⟨"names", .several⟩] }
  manual :=
    { usage := programName ++ " strip [-h] file names [names ...]"
      purpose := none
      sections :=
        [("positional arguments",
          [⟨2, "file", some "Path to the module."⟩,
            ⟨2, "names", some "Local names to remove."⟩]),
        ("options", [helpEntry])] }

/-- The command that runs the service. -/
def serveUsage : Usage where
  program := programName ++ " serve"
  signature :=
    { switches := [helpSwitch, ⟨["--host"], .text⟩, ⟨["--port"], .integer⟩]
      operands := [] }
  manual :=
    { usage := programName ++ " serve [-h] [--host HOST] [--port PORT]"
      purpose := none
      sections :=
        [("options",
          [helpEntry,
            ⟨2, "--host HOST",
              some s!"Host interface to bind the server to (default: {defaultHost})."⟩,
            ⟨2, "--port PORT",
              some s!"Port to run the server on (default: {defaultPort})."⟩])] }

/-! ### Reading the arguments -/

/-- The first value of a name, if there is one. -/
def Reading.first? (r : Reading) (name : String) : Option String :=
  (r.get? name).bind List.head?

/-- What a check is asked for. -/
def checkTask (r : Reading) : Task :=
  .check ((r.first? "file").getD "") ((r.first? "name").getD "")

/-- What a strip is asked for. -/
def stripTask (r : Reading) : Task :=
  .strip ((r.first? "file").getD "") ((r.get? "names").getD [])

/-- What a start of the service is asked for. -/
def serveTask (r : Reading) : Task :=
  .serve ((r.first? "--host").getD defaultHost)
    (((r.first? "--port").bind Text.readInteger).getD defaultPort)

/-- The commands by name, with how the task of each is made from its arguments. -/
def commands : List (String × Usage × (Reading → Task)) :=
  [("check", checkUsage, checkTask), ("strip", stripUsage, stripTask),
    ("serve", serveUsage, serveTask)]

/-- Reads the arguments of a command of the given usage. -/
def Usage.read (u : Usage) (arguments : List String) : Except Halt Reading :=
  (u.signature.read arguments).mapError fun stop => ⟨u, stop⟩

/-- Reads the arguments of the program. What a command has set aside is complained about by the
program, after what has been set aside before the command. -/
def Invocation.read (arguments : List String) : Except Halt Invocation := do
  let main ← mainUsage.read arguments
  let words := (main.get? "command").getD []
  match words with
  | [] => .error ⟨mainUsage, .fault (.missing ["command"])⟩
  | name :: rest =>
    match commands.lookup name with
    | none =>
      .error ⟨mainUsage, .fault (.noCommand "command" name (commands.map (·.1)))⟩
    | some (usage, task) =>
      let r ← usage.read rest
      let aside := main.aside ++ r.aside
      if aside.isEmpty then return ⟨(main.get? "--verbose").isSome, task r⟩
      else .error ⟨mainUsage, .fault (.unrecognized aside)⟩

end NamedExports.Command
