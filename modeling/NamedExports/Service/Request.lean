import NamedExports.Service.Payload

/-!
# Requests

A request is checked field by field. Each field that is not as it has to be is a problem of its own,
with the place of the field; a request is accepted if there are no problems. A truth value can also
be given by one of a few words or by the numbers zero and one.
-/

namespace NamedExports.Service

/-- A step of the way to the place of a problem. -/
inductive Step where
  | name (text : String)
  | index (n : Nat)
  deriving DecidableEq, Repr

/-- What is wrong with a field. -/
inductive Trouble where
  /-- It is not there. -/
  | missing
  /-- It is no text. -/
  | noText
  /-- It holds half of a pair of surrogates. -/
  | brokenText
  /-- It is an empty text. -/
  | emptyText
  /-- It is nothing that could be a truth value. -/
  | noTruth
  /-- It is none of the words or numbers for truth values. -/
  | unclearTruth
  /-- It is no list. -/
  | noList
  /-- It is an empty list. -/
  | emptyList
  /-- It is no object. -/
  | noObject
  /-- It is not readable at all. -/
  | unreadable
  deriving DecidableEq, Repr

namespace Trouble

/-- The name of what is wrong. -/
def kind : Trouble → String
  | missing => "missing"
  | noText => "string_type"
  | brokenText => "string_unicode"
  | emptyText => "string_too_short"
  | noTruth => "bool_type"
  | unclearTruth => "bool_parsing"
  | noList => "list_type"
  | emptyList => "too_short"
  | noObject => "model_attributes_type"
  | unreadable => "json_invalid"

/-- The message for what is wrong. -/
def message : Trouble → String
  | missing => "Field required"
  | noText => "Input should be a valid string"
  | brokenText =>
    "Input should be a valid string, unable to parse raw data as a unicode string"
  | emptyText => "String should have at least 1 character"
  | noTruth => "Input should be a valid boolean"
  | unclearTruth => "Input should be a valid boolean, unable to interpret input"
  | noList => "Input should be a valid list"
  | emptyList => "List should have at least 1 item after validation, not 0"
  | noObject => "Input should be a valid dictionary or object to extract fields from"
  | unreadable => "JSON decode error"

end Trouble

/-- Something that is wrong with a request. -/
structure Problem where
  place : List Step
  trouble : Trouble
  deriving DecidableEq, Repr

/-- A value, or everything that is wrong with it. -/
abbrev Checked (α : Type) := Except (List Problem) α

/-- Two values, or everything that is wrong with either. -/
def Checked.both {α β : Type} : Checked α → Checked β → Checked (α × β)
  | .ok a, .ok b => .ok (a, b)
  | .ok _, .error problems => .error problems
  | .error problems, .ok _ => .error problems
  | .error first, .error second => .error (first ++ second)

/-- Something that is wrong at a place. -/
def wrong {α : Type} (place : List Step) (trouble : Trouble) : Checked α :=
  .error [⟨place, trouble⟩]

/-! ### Values -/

/-- Checks a text. -/
def checkText (place : List Step) : Payload → Checked String
  | .text (some value) => .ok value
  | .text none => wrong place .brokenText
  | _ => wrong place .noText

/-- Checks a text that cannot be empty. -/
def checkName (place : List Step) (p : Payload) : Checked String :=
  match checkText place p with
  | .ok "" => wrong place .emptyText
  | checked => checked

/-- The words for truth values. -/
def truthWords : List (String × Bool) :=
  [("0", false), ("off", false), ("f", false), ("false", false), ("n", false), ("no", false),
    ("1", true), ("on", true), ("t", true), ("true", true), ("y", true), ("yes", true)]

/-- The bound of the integers that are looked at as truth values. -/
def integerBound : Int := 9223372036854775808

/-- What an integer says as a truth value. -/
def truthOfInteger (place : List Step) (n : Int) : Checked Bool :=
  if n = 0 then .ok false
  else if n = 1 then .ok true
  else if -integerBound ≤ n ∧ n < integerBound then wrong place .unclearTruth
  else wrong place .noTruth

/-- The decimal number as the nearest one of double precision. -/
def nearest (digits exponent : Int) : Float :=
  let size := Float.ofScientific digits.natAbs (exponent < 0) exponent.natAbs
  if digits < 0 then -size else size

/-- What a number of double precision says as a truth value. -/
def truthOfDecimal (place : List Step) (x : Float) : Checked Bool :=
  if x.floor != x || x.abs ≥ 9223372036854775808.0 then wrong place .noTruth
  else if x == 0.0 then .ok false
  else if x == 1.0 then .ok true
  else wrong place .unclearTruth

/-- Checks a truth value. -/
def checkTruth (place : List Step) : Payload → Checked Bool
  | .bool value => .ok value
  | .text (some value) =>
    match truthWords.lookup (value.map Char.toLower) with
    | some truth => .ok truth
    | none => wrong place .unclearTruth
  | .number (.integer n) => truthOfInteger place n
  | .number (.decimal digits exponent) => truthOfDecimal place (nearest digits exponent)
  | _ => wrong place .noTruth

/-- Checks the items of a list from an index on. -/
def checkTexts (place : List Step) : (index : Nat) → List Payload → Checked (List String)
  | _, [] => .ok []
  | index, p :: ps =>
    (Checked.both (checkText (place ++ [.index index]) p) (checkTexts place (index + 1) ps)).map
      fun (text, texts) => text :: texts

/-- Checks a list of texts that cannot be empty. -/
def checkNames (place : List Step) : Payload → Checked (List String)
  | .list [] => wrong place .emptyList
  | .list items => checkTexts place 0 items
  | _ => wrong place .noList

/-! ### Requests -/

/-- The place of the content of a request. -/
def bodyPlace : List Step := [.name "body"]

/-- Checks a field that has to be there. -/
def required {α : Type} (check : List Step → Payload → Checked α) (p : Payload) (name : String) :
    Checked α :=
  let place := bodyPlace ++ [.name name]
  match p.field? name with
  | some value => check place value
  | none => wrong place .missing

/-- Checks a field that can be left out. -/
def optionally {α : Type} (check : List Step → Payload → Checked α) (absent : α) (p : Payload)
    (name : String) : Checked α :=
  match p.field? name with
  | some value => check (bodyPlace ++ [.name name]) value
  | none => .ok absent

/-- Checks that a content is an object. -/
def checkObject : Payload → Checked Payload
  | .object fields => .ok (.object fields)
  | .null => wrong bodyPlace .missing
  | _ => wrong bodyPlace .noObject

/-- A question whether a module exports a name. -/
structure MatchRequest where
  source : String
  name : String
  markup : Bool
  deriving DecidableEq, Repr

/-- A request to drop the properties that bind some names. -/
structure StripRequest where
  source : String
  names : List String
  markup : Bool
  deriving DecidableEq, Repr

/-- Checks a question whether a module exports a name. -/
def MatchRequest.check (p : Payload) : Checked MatchRequest := do
  let p ← checkObject p
  let (source, name, markup) ← Checked.both (required checkText p "source")
    (Checked.both (required checkName p "name") (optionally checkTruth false p "tsx"))
  return ⟨source, name, markup⟩

/-- Checks a request to drop properties. -/
def StripRequest.check (p : Payload) : Checked StripRequest := do
  let p ← checkObject p
  let (source, names, markup) ← Checked.both (required checkText p "source")
    (Checked.both (required checkNames p "names") (optionally checkTruth false p "tsx"))
  return ⟨source, names, markup⟩

/-- A question whether the module in a file exports a name. -/
structure FileRequest where
  path : String
  name : String
  deriving DecidableEq, Repr

/-- The value of a name in a query; of several values the last one counts. -/
def queryValue? (query : List (String × String)) (name : String) : Option String :=
  query.reverse.lookup name

/-- Checks a value of a query. -/
def checkQuery (check : List Step → Payload → Checked String) (query : List (String × String))
    (name : String) : Checked String :=
  let place := [.name "query", .name name]
  match queryValue? query name with
  | some value => check place (.text (some value))
  | none => wrong place .missing

/-- Checks a question about a file. -/
def FileRequest.check (query : List (String × String)) : Checked FileRequest := do
  let (path, name) ← Checked.both (checkQuery checkText query "path")
    (checkQuery checkName query "name")
  return ⟨path, name⟩

end NamedExports.Service
