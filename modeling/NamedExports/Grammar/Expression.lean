import NamedExports.Grammar.Callable
import NamedExports.Grammar.Markup

/-!
# Expressions

Of an expression the construct at its top and its extent are kept. The construct is that of the part
which holds all others: the loosest operator, the last step to a member or call, or the literal.

Some beginnings fit several constructs: a parenthesis can begin the parameters of an arrow function,
an angle bracket the arguments of a generic call, its parameters, a type that is asserted or a markup
element. The constructs are tried in turn and the first one that can be read to its end is taken.
-/

namespace NamedExports.Expression

open Scan

/-! ### Objects and arrays -/

/-- Reads an entry of an object. -/
def property (deeper : Deeper) : Scan Unit :=
  (do sign "..."; let _ ← deeper.inner) <|>
  Callable.method deeper <|>
  (do let _ ← Binding.key deeper; sign ":"; let _ ← deeper.inner) <|>
  (do
    let _ ← Binding.name
    let _ ← optional (do sign "="; deeper.inner))

/-- Reads an object. -/
def object (deeper : Deeper) : Scan Syntax := do
  let start ← tokenStart
  mark '\x7b'
  let _ ← sparse (property deeper)
  mark '\x7d'
  leafFrom "object" start

/-- Reads an array. -/
def array (deeper : Deeper) : Scan Syntax := do
  let start ← tokenStart
  mark '['
  let _ ← sparse (do
    let _ ← optional (sign "...")
    deeper.inner)
  mark ']'
  leafFrom "array" start

/-! ### Parts that no operator joins -/

/-- Reads an expression in parentheses. -/
def parenthesized (deeper : Deeper) : Scan Syntax := do
  let start ← tokenStart
  mark '('
  deeper.inners
  let _ ← optional (deeper.annotation false)
  mark ')'
  leafFrom "parenthesized_expression" start

/-- The words that are constructs of their own. -/
def wordKinds : List (String × String) :=
  [("this", "this"), ("super", "super"), ("true", "true"), ("false", "false"), ("null", "null"),
    ("undefined", "undefined"), ("import", "import")]

/-- Reads a name or one of the words that are constructs of their own. -/
def named : Scan Syntax := do
  let (start, written) ← anyName
  match wordKinds.lookup written with
  | some kind => leafFrom kind start
  | none =>
    require (!Binding.reservedWords.contains written)
    leafFrom "identifier" start

/-- Reads a word that is asked for a property of the running code. -/
def metaProperty : Scan Syntax := do
  let start ← tokenStart
  (do word "import"; sign "."; word "meta") <|> (do word "new"; sign "."; word "target")
  leafFrom "meta_property" start

/-- Reads a namespace in the place of an expression. -/
def namespaceBlock (deeper : Deeper) : Scan Syntax := do
  let start ← tokenStart
  word "namespace"
  Ending.ofValue.goesOn true
  let _ ← Binding.identifier
  skipMany (do sign "."; let _ ← anyName; return ())
  let _ ← deeper.block
  leafFrom "internal_module" start

/-- Reads a template. -/
def template (deeper : Deeper) : Scan Syntax :=
  Literal.template deeper.inners "template_string"

/-- Reads a step from a value to a part of it that is not called. -/
def memberStep (deeper : Deeper) : Scan String :=
  (do
    let _ ← signOf [".", "?."]
    let _ ← Binding.wordNode "property_identifier" <|> Binding.privateName
    return "member_expression") <|>
  (do
    let _ ← optional (sign "?.")
    mark '['
    deeper.inners
    mark ']'
    return "subscript_expression") <|>
  (do sign "!"; return "non_null_expression")

/-- Reads a new object, of a class that `callee` reads. -/
def newObject (deeper : Deeper) (callee : Scan Unit) : Scan Syntax := do
  let start ← tokenStart
  word "new"
  callee
  let _ ← optional (TypeForm.arguments deeper)
  let _ ← optional (Binding.arguments deeper)
  leafFrom "new_expression" start

/-- Reads a class expression; `parent` reads what it extends. -/
def classExpression (deeper : Deeper) (parent : Scan Unit) : Scan Syntax := do
  let start ← tokenStart
  skipMany (Binding.decorator deeper)
  word "class"
  let _ ← optional Callable.className
  Callable.classRest deeper parent
  leafFrom "class" start

/-- Reads a part that no operator joins and no step leads to; `parent` reads what a class
extends. -/
def simple (deeper : Deeper) (parent : Scan Unit) : Scan Syntax := do
  let markup := (← source).markup
  Callable.functionExpression deeper <|> classExpression deeper parent <|> metaProperty <|>
    namespaceBlock deeper <|> named <|> Literal.string <|> Literal.number <|> template deeper <|>
    Literal.regex <|> parenthesized deeper <|> array deeper <|> object deeper <|>
    Binding.privateName <|> (if markup then Markup.element deeper else failure)

/-- Reads the class of a new object, which can be a new object itself, `depth` times at most. -/
def newCallee (deeper : Deeper) (parent : Scan Unit) : (depth : Nat) → Scan Unit
  | 0 => failure
  | depth + 1 => do
    let _ ← (do
      notAt metaProperty
      newObject deeper (newCallee deeper parent depth)) <|> simple deeper parent
    skipMany (memberStep deeper)

/-- Reads the first part of a chain of steps. -/
def primary (deeper : Deeper) (parent : Scan Unit) : Scan Syntax := do
  let s ← source
  metaProperty <|> newObject deeper (newCallee deeper parent s.size) <|> simple deeper parent

/-! ### Chains of steps -/

/-- Whether a character can begin an expression. -/
def beginsValue (c : Char) : Bool :=
  isWordChar c || ['\x22', '\x27', '[', '\x7b', '(', '!', '~', '+', '-', '/', '@', '#', '<'].contains c

/-- Reads the arguments of a generic function that is not called. -/
def instantiation (deeper : Deeper) (mayEnd : Bool) : Scan Unit := do
  TypeForm.arguments deeper
  let ended ← if mayEnd then (do return (← Ending.ofValue.insertion?).isSome) else pure false
  if !ended then
    let next ← looksAt (do gap; charOf beginsValue)
    let operator ← looksAt (wordOf ["in", "instanceof", "as", "satisfies"])
    require (!next || operator)

/-- Reads a step of a chain; the result is the construct that it makes. -/
def step (deeper : Deeper) (mayEnd : Bool) : Scan String := do
  Ending.ofValue.goesOn mayEnd
  memberStep deeper <|>
    (do
      let _ ← optional (sign "?.")
      let _ ← optional (TypeForm.arguments deeper)
      (do Binding.arguments deeper) <|> (do let _ ← template deeper)
      return "call_expression") <|>
    (do instantiation deeper mayEnd; return "instantiation_expression")

/-- Reads the sign after a value that is counted up or down. -/
def countSign (mayEnd : Bool) : Scan Unit := do
  Ending.ofValue.goesOn mayEnd
  let _ ← signOf ["++", "--"]

/-- Reads the value that a class extends, whose own parts extend nothing. -/
def parent (deeper : Deeper) : Scan Unit := do
  let _ ← primary deeper failure
  skipMany (step deeper false)

/-- Reads a chain of steps. -/
def chain (deeper : Deeper) (mayEnd : Bool) : Scan Syntax := do
  let start ← tokenStart
  let first ← primary deeper (parent deeper)
  let steps ← many (step deeper mayEnd)
  let counted ← optional (countSign mayEnd)
  if counted.isSome then leafFrom "update_expression" start
  else match steps.getLast? with
    | some kind => leafFrom kind start
    | none => return first

/-! ### Operators before a value -/

/-- Reads an operator before a value; the result is the construct that it makes. -/
def unaryOperator (deeper : Deeper) : Scan String := do
  let markup := (← source).markup
  (do let _ ← signOf ["!", "~", "+", "-"]; return "unary_expression") <|>
  (do let _ ← signOf ["++", "--"]; return "update_expression") <|>
  (do let _ ← wordOf ["typeof", "void", "delete"]; return "unary_expression") <|>
  (do
    word "await"
    notAt (signOf [")", "]", ",", ";", "=", ".", ":", "?", "\x7d"])
    return "await_expression") <|>
  (do
    require (!markup)
    mark '<'
    deeper.innerType
    mark '>'
    return "type_assertion")

/-- Reads a value with the operators before it. -/
def operand (deeper : Deeper) (mayEnd : Bool) : Scan Syntax := do
  let start ← tokenStart
  let operators ← many (unaryOperator deeper)
  let value ← chain deeper mayEnd
  match operators with
  | [] => return value
  | kind :: _ => leafFrom kind start

/-! ### Operators between values -/

/-- The signs between two values, each with its strength. -/
def binarySigns : List (String × Nat) :=
  [("??", 0), ("||", 1), ("&&", 2), ("|", 3), ("^", 4), ("&", 5), ("==", 6), ("!=", 6), ("===", 6),
    ("!==", 6), ("<", 7), (">", 7), ("<=", 7), (">=", 7), ("<<", 8), (">>", 8), (">>>", 8),
    ("+", 9), ("-", 9), ("*", 10), ("/", 10), ("%", 10), ("**", 11)]

/-- The strength of the words that compare two values. -/
def wordStrength : Nat := 7

/-- The strength that no sign exceeds. -/
def topStrength : Nat := 12

/-- What follows a value in an operation. -/
inductive Operation where
  /-- An operator of some strength with its other value. -/
  | binary (strength : Nat)
  /-- A type that the value is taken to be of, with the construct that this makes. -/
  | typed (kind : String)
  deriving DecidableEq, Repr

/-- Reads an operator with the value or type after it. -/
def operationPart (deeper : Deeper) (mayEnd : Bool) : Scan Operation := do
  Ending.ofValue.goesOn mayEnd
  (do
    let text ← signOf (binarySigns.map (·.1))
    let _ ← operand deeper mayEnd
    return .binary ((binarySigns.lookup text).getD 0)) <|>
  (do
    let _ ← wordOf ["in", "instanceof"]
    let _ ← operand deeper mayEnd
    return .binary wordStrength) <|>
  (do
    let text ← wordOf ["as", "satisfies"]
    let _ ← deeper (.type mayEnd)
    return .typed (if text == "as" then "as_expression" else "satisfies_expression"))

/-- The construct at the top of an operation, with its strength: the loosest operator, and the last
one of these. A type holds everything before it. -/
def top : (strength : Nat) → (kind : String) → List Operation → String
  | _, kind, [] => kind
  | _, _, .typed kind :: parts => top topStrength kind parts
  | strength, kind, .binary s :: parts =>
    if s ≤ strength then top s "binary_expression" parts else top strength kind parts

/-- Reads values with operators between them. -/
def operation (deeper : Deeper) (mayEnd : Bool) : Scan Syntax := do
  let start ← tokenStart
  let first ← operand deeper mayEnd
  match ← many (operationPart deeper mayEnd) with
  | [] => return first
  | parts => leafFrom (top topStrength first.kind parts) start

/-! ### Functions with an arrow -/

/-- Reads the head of an arrow function. -/
def arrowHead (deeper : Deeper) (annotated : Bool) : Scan Unit := do
  let names : Scan Unit := do
    let _ ← Binding.name
  let heads : Scan Unit := names <|> (do
    let _ ← optional (TypeForm.parameters deeper)
    let _ ← Binding.parameters deeper
    if annotated then
      let _ ← optional (deeper.annotation false))
  (do
    word "async"
    Ending.ofValue.goesOn true
    heads
    sign "=>") <|> (do heads; sign "=>")

/-- Reads an arrow function. -/
def arrow (deeper : Deeper) (mayEnd annotated : Bool) : Scan Syntax := do
  let start ← tokenStart
  arrowHead deeper annotated
  let _ ← if ← looksAt (mark '\x7b') then deeper.block else deeper (.value mayEnd annotated)
  leafFrom "arrow_function" start

/-! ### Expressions -/

/-- Reads the yield of a generator. -/
def yielding (deeper : Deeper) (mayEnd : Bool) : Scan Syntax := do
  let start ← tokenStart
  word "yield"
  let _ ← optional (do
    Ending.ofValue.goesOn mayEnd
    let _ ← optional (mark '*')
    deeper (.value mayEnd true))
  leafFrom "yield_expression" start

/-- Reads the two values of a choice; the first one may hold an annotated arrow function only if the
second one can still be read. -/
def choice (deeper : Deeper) (mayEnd annotated : Bool) : Scan Unit := do
  sign "?"
  (do let _ ← deeper.inner; sign ":") <|> (do let _ ← deeper (.value false false); sign ":")
  let _ ← deeper (.value mayEnd annotated)

/-- The signs that assign a value after an operation. -/
def augmentedSigns : List String :=
  ["+=", "-=", "*=", "/=", "%=", "^=", "&=", "|=", ">>=", ">>>=", "<<=", "**=", "&&=", "||=",
    "??="]

/-- Reads what an operation goes on with: a choice or an assignment. -/
def continuation (deeper : Deeper) (mayEnd annotated : Bool) : Scan String :=
  (do choice deeper mayEnd annotated; return "ternary_expression") <|>
  (do
    sign "="
    let _ ← deeper (.value mayEnd annotated)
    return "assignment_expression") <|>
  (do
    let _ ← signOf augmentedSigns
    let _ ← deeper (.value mayEnd annotated)
    return "augmented_assignment_expression")

/-- Reads an expression without commas at its top. -/
def value (deeper : Deeper) (mayEnd annotated : Bool) : Scan Syntax := do
  let start ← tokenStart
  arrow deeper mayEnd annotated <|> yielding deeper mayEnd <|> (do
    let first ← operation deeper mayEnd
    match ← optional (continuation deeper mayEnd annotated) with
    | some kind => leafFrom kind start
    | none => return first)

end NamedExports.Expression
