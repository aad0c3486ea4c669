import NamedExports.Grammar.Literal

/-!
# Binding patterns

What declarations, parameters and assignments bind: names, object patterns and array patterns,
nested in any way, with defaults and rest elements. In the place of a name there can also be a part
of something that exists already, such as a member of an object.
-/

namespace NamedExports.Binding

open Scan

/-- Words that are never names. -/
def reservedWords : List String :=
  ["break", "case", "catch", "class", "const", "continue", "debugger", "default", "delete", "do",
    "else", "enum", "extends", "false", "finally", "for", "function", "if", "import", "in",
    "instanceof", "new", "null", "return", "super", "switch", "this", "throw", "true", "try",
    "typeof", "var", "void", "while", "with"]

/-- Reads a name that is not a reserved word; the result is how it is written. -/
def name : Scan String := do
  let (_, written) ← anyName
  require (!reservedWords.contains written)
  return written

/-- Reads a name as a node. -/
def identifier : Scan Syntax := do
  let start ← tokenStart
  let _ ← name
  leafFrom "identifier" start

/-- Reads any word as a node. -/
def wordNode (kind : String) : Scan Syntax := do
  let (start, _) ← anyName
  leafFrom kind start

/-- Reads a private name. -/
def privateName : Scan Syntax := do
  let start ← tokenStart
  char '#'
  nameHere
  leafFrom "private_property_identifier" start

/-- Reads a key that is computed. -/
def computedKey (deeper : Deeper) : Scan Syntax := do
  let start ← tokenStart
  mark '['
  let _ ← deeper.inner
  mark ']'
  leafFrom "computed_property_name" start

/-- Reads the key of a property. -/
def key (deeper : Deeper) : Scan Syntax :=
  wordNode "property_identifier" <|> Literal.string <|> Literal.number <|> privateName <|>
    computedKey deeper

/-! ### Patterns -/

/-- Reads a pattern that can have a default, with which it makes a construct of the given kind. -/
def defaulted (deeper : Deeper) (kind : String) (left : Scan Syntax) : Scan Syntax := do
  let start ← tokenStart
  let left ← left
  match ← optional (do sign "="; deeper.inner) with
  | some right => nodeFrom kind start [left.as "left", right.as "right"]
  | none => return left

/-- Reads a pattern, with a default or without. -/
def element (deeper : Deeper) : Scan Syntax :=
  defaulted deeper "assignment_pattern" (deeper .pattern)

/-- Reads a rest element. -/
def rest (deeper : Deeper) : Scan Syntax := do
  let start ← tokenStart
  sign "..."
  let argument ← deeper .pattern
  nodeFrom "rest_pattern" start [argument]

/-- Reads an entry of an object pattern that has a key and a value. -/
def pair (deeper : Deeper) : Scan Syntax := do
  let start ← tokenStart
  let k ← key deeper
  sign ":"
  let v ← element deeper
  nodeFrom "pair_pattern" start [k.as "key", v.as "value"]

/-- Reads an entry of an object pattern that is a name alone. -/
def shorthand : Scan Syntax :=
  wordNode "shorthand_property_identifier_pattern"

/-- Reads an entry of an object pattern. -/
def member (deeper : Deeper) : Scan Syntax :=
  rest deeper <|> pair deeper <|>
    defaulted deeper "object_assignment_pattern" (shorthand <|> deeper .pattern)

/-- Reads an object pattern. -/
def objectPattern (deeper : Deeper) : Scan Syntax := do
  let start ← tokenStart
  mark '\x7b'
  let members ← sparse (member deeper)
  mark '\x7d'
  nodeFrom "object_pattern" start members

/-- Reads an array pattern. -/
def arrayPattern (deeper : Deeper) : Scan Syntax := do
  let start ← tokenStart
  mark '['
  let elements ← sparse (rest deeper <|> element deeper)
  mark ']'
  nodeFrom "array_pattern" start elements

/-- Reads an object pattern or an array pattern. -/
def destructuring (deeper : Deeper) : Scan Syntax :=
  objectPattern deeper <|> arrayPattern deeper

/-- Reads a step from a value to a part of it; the result is the construct that it makes. -/
def part (deeper : Deeper) : Scan String :=
  (do
    sign "."
    let _ ← wordNode "property_identifier" <|> privateName
    return "member_expression") <|>
  (do mark '['; deeper.inners; mark ']'; return "subscript_expression") <|>
  (do sign "!"; return "non_null_expression")

/-- Reads a name in the place of a pattern, or a part of what it stands for. -/
def namedPlace (deeper : Deeper) : Scan Syntax := do
  let start ← tokenStart
  let (_, written) ← anyName
  require (written == "this" || !reservedWords.contains written)
  match (← many (part deeper)).getLast? with
  | some kind => leafFrom kind start
  | none =>
    leafFrom (if written == "undefined" || written == "this" then written else "identifier") start

/-- Reads a pattern without a default. -/
def pattern (deeper : Deeper) : Scan Syntax :=
  destructuring deeper <|> namedPlace deeper

/-! ### Parameters -/

/-- Reads the arguments of a call. -/
def arguments (deeper : Deeper) : Scan Unit := do
  mark '('
  let _ ← sparse (do
    let _ ← optional (sign "...")
    deeper.inner)
  mark ')'

/-- Reads a decorator. -/
def decorator (deeper : Deeper) : Scan Syntax := do
  let start ← tokenStart
  mark '@'
  (do mark '('; deeper.inners; mark ')') <|> (do
    let _ ← anyName
    skipMany (do sign "."; let _ ← anyName; return ()))
  skipMany (arguments deeper)
  leafFrom "decorator" start

/-- Reads a word that says how a parameter becomes a member of its class. -/
def accessibility : Scan Unit := do
  let _ ← wordOf ["public", "private", "protected", "override", "readonly"]
  notAt (signOf [",", ")", ":", "=", "?"])

/-- Reads a parameter: a pattern with whatever is said about it. -/
def parameter (deeper : Deeper) : Scan Syntax := do
  let start ← tokenStart
  skipMany (decorator deeper)
  skipMany accessibility
  let p ← rest deeper <|> deeper .pattern
  let optionalSign ← optional (sign "?")
  let _ ← optional (deeper.annotation false)
  let value ← optional (do sign "="; deeper.inner)
  let kind := if optionalSign.isSome then "optional_parameter" else "required_parameter"
  nodeFrom kind start (p.as "pattern" :: (value.map (·.as "value")).toList)

/-- Reads the parameters of a function. -/
def parameters (deeper : Deeper) : Scan Syntax := do
  let start ← tokenStart
  mark '('
  let ps ← sparse (parameter deeper)
  mark ')'
  nodeFrom "formal_parameters" start ps

end NamedExports.Binding
