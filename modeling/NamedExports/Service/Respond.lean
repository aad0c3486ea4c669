import NamedExports.Export.Remaining
import NamedExports.Failure
import NamedExports.Service.Request

/-!
# The service

The service answers three questions: whether a text exports a name, whether the module in a file
does, and what is left of a text when some properties have been dropped. A fourth address tells that
the service is running. An address that is asked in the wrong way is told apart from an address that
is not there.
-/

namespace NamedExports.Service

/-- A request as it comes in. An empty content is none. -/
structure Request where
  method : String
  path : String
  query : List (String × String)
  content : Payload.Trouble ⊕ Option Payload

/-- The addresses of the service. -/
inductive Address where
  | matching
  | stripping
  | file
  | status
  deriving DecidableEq, Repr

namespace Address

/-- All addresses. -/
def all : List Address :=
  [matching, stripping, file, status]

/-- The path of an address. -/
def path : Address → String
  | matching => "/api/exports/match"
  | stripping => "/api/exports/strip-properties"
  | file => "/api/exports/file"
  | status => "/api-status"

/-- The method by which an address is asked. -/
def method : Address → String
  | matching | stripping => "POST"
  | file | status => "GET"

/-- A path without the slashes at its end. -/
def withoutSlashes (path : String) : String :=
  String.ofList (path.toList.reverse.dropWhile (· = '/')).reverse

/-- The address of a path. A path that is none, but is one with a slash more or less at its end,
stands for that one. -/
def ofPath? (path : String) : Option Address :=
  (all.find? fun a => a.path == path).or
    (if path.endsWith "/" then all.find? fun a => a.path == withoutSlashes path else none)

end Address

/-- What the service answers. -/
inductive Answer where
  /-- The matches of a name. -/
  | matching (name : String) (found : List Match)
  /-- What is left after some properties have been dropped. -/
  | stripping (removed : Nat) (remaining : List Remainder)
  /-- The service is running. -/
  | running
  /-- The request has problems. -/
  | problems (problems : List Problem)
  /-- Something else is wrong, with the number and the words for it. -/
  | refused (status : Nat) (detail : String)

namespace Answer

/-- The number that says how a request has ended. -/
def status : Answer → Nat
  | matching .. | stripping .. | running => 200
  | problems _ => 422
  | refused status _ => status

/-- The words that tell that the service is running. -/
def runningText : String :=
  "Export Lens Server is running. Visit /docs for API documentation."

end Answer

/-- What the service answers and reports. -/
structure Response where
  answer : Answer
  log : List Log.Entry

/-- A response without anything to report. -/
def Response.plain (answer : Answer) : Response := ⟨answer, []⟩

/-! ### Answers -/

/-- The matches of a name in a module. -/
def matchIn (m : Module) (name : String) : Except Failure Response := do
  let program ← Failure.ofBuilt m.program
  return ⟨.matching name (← Failure.ofTree (program.tree.matchesOf name)), m.log⟩

/-- Answers whether a text exports a name. -/
def answerMatch (r : MatchRequest) : Except Failure Response :=
  matchIn (Source.ofString r.source r.markup).module r.name

/-- Answers what is left of a text when some properties have been dropped. -/
def answerStrip (r : StripRequest) : Except Failure Response := do
  let m := (Source.ofString r.source r.markup).module
  let program ← Failure.ofBuilt m.program
  let (removed, program) := program.strip r.names
  let removed ← Failure.ofTree removed
  return ⟨.stripping removed (← Failure.ofTree program.tree.remainders),
    m.log ++ [.ofStrip removed r.names]⟩

/-- Answers whether the module in a file exports a name, where `state` says what a path leads
to. -/
def answerFile (state : FilePath → FileState) (r : FileRequest) : Except Failure Response :=
  let path := FilePath.ofString r.path
  match state path with
  | .tooLong => .error (.file (.tooLong path.text))
  | found =>
    if !found.isPresent then .ok (.plain (.refused 404 "File not found"))
    else if !found.isFile then .ok (.plain (.refused 400 "Path is not a file"))
    else match path.module found with
      | .ok m => matchIn m r.name
      | .error (.unsupported name) =>
        .ok (.plain (.refused 400 (FileFault.unsupported name).message))
      | .error fault =>
        .ok ⟨.refused 500 s!"Failed to read file: {fault.message}",
          [.unreadable path.text fault.message]⟩

/-- Answers a checked request, or tells its problems. -/
def answerChecked {α : Type} (answer : α → Except Failure Response) :
    Checked α → Except Failure Response
  | .ok r => answer r
  | .error problems => .ok (.plain (.problems problems))

/-- Answers a request by its content. -/
def answerContent {α : Type} (check : Payload → Checked α) (answer : α → Except Failure Response)
    (content : Payload.Trouble ⊕ Option Payload) : Except Failure Response :=
  match content with
  | .inl (.at position) =>
    .ok (.plain (.problems [⟨bodyPlace ++ [.index position], .unreadable⟩]))
  | .inl .tooManyDigits => .ok (.plain (.refused 400 "There was an error parsing the body"))
  | .inr none => answerChecked answer (wrong bodyPlace .missing)
  | .inr (some p) => answerChecked answer (check p)

/-- Answers a request, where `state` says what a path leads to. -/
def respond (state : FilePath → FileState) (r : Request) : Except Failure Response :=
  match Address.ofPath? r.path with
  | none => .ok (.plain (.refused 404 "Not Found"))
  | some address =>
    if r.method != address.method then .ok (.plain (.refused 405 "Method Not Allowed"))
    else match address with
      | .matching => answerContent MatchRequest.check answerMatch r.content
      | .stripping => answerContent StripRequest.check answerStrip r.content
      | .file => answerChecked (answerFile state) (FileRequest.check r.query)
      | .status => .ok (.plain .running)

/-- The content of a request that is sent as text. -/
def contentOf (text : String) : Payload.Trouble ⊕ Option Payload :=
  if text.isEmpty then .inr none
  else match Payload.ofText text with
    | .ok p => .inr (some p)
    | .error trouble => .inl trouble

end NamedExports.Service
