import NamedExports.Grammar.Binding

/-!
# Types

Of a type only the extent matters: it is read so that what follows it is known. Within a statement
that may end with the type, a new line ends it unless the line can go on with it.
-/

namespace NamedExports.TypeForm

open Scan

/-! ### Parameters and arguments of types -/

/-- Reads the parameters of a generic declaration. -/
def parameters (deeper : Deeper) : Scan Unit := do
  mark '<'
  let _ ← separated (do
    skipMany (do
      let _ ← wordOf ["const", "in", "out"]
      notAt (signOf [",", ">", "="]))
    let _ ← anyName
    let _ ← optional (do word "extends"; deeper.innerType)
    let _ ← optional (do sign "="; deeper.innerType)
    return ())
  let _ ← optional (mark ',')
  mark '>'

/-- Reads the arguments of a generic type. -/
def arguments (deeper : Deeper) : Scan Unit := do
  mark '<'
  let _ ← separated deeper.innerType
  let _ ← optional (mark ',')
  mark '>'

/-- Reads the head of a function: its parameters and what it returns. The parameters are the
result. -/
def signature (deeper : Deeper) (mayEnd : Bool) : Scan Syntax := do
  let _ ← optional (parameters deeper)
  let ps ← Binding.parameters deeper
  let _ ← optional (deeper.annotation mayEnd)
  return ps

/-! ### Object types -/

/-- Ends a member of an object type or of a class. -/
def finishMember (e : Ending) : Scan Unit := do
  match ← e.insertion? with
  | some p => goTo p
  | none => let _ ← signOf [";", ","]

/-- Reads a word before the name of a member. -/
def modifier (words : List String) : Scan Unit := do
  let _ ← wordOf words
  notAt (signOf ["(", "<", "=", ":", ";", ",", "?", "!", "\x7d"])
  Ending.ofType.goesOn true

/-- Reads the index of an index signature, or of a type that is mapped from another one. -/
def index (deeper : Deeper) : Scan Unit := do
  mark '['
  let _ ← anyName
  (do sign ":"; deeper.innerType) <|> (do
    word "in"
    deeper.innerType
    let _ ← optional (do word "as"; deeper.innerType))
  mark ']'

/-- Reads a sign that a member is optional or surely there. -/
def presence : Scan Unit := do
  let _ ← optional (signOf ["+", "-"])
  let _ ← optional (signOf ["?", "!"])

/-- Reads a member of an object type without its end. -/
def memberBody (deeper : Deeper) : Scan Unit := do
  let annotation : Scan Unit := do
    let _ ← optional (deeper.annotation true)
  let _ ← optional (signOf ["+", "-"])
  skipMany (modifier ["readonly", "get", "set", "static", "public", "private", "protected"])
  (do index deeper; presence; annotation) <|>
  (do word "new"; let _ ← signature deeper true) <|>
  (do
    let _ ← Binding.key deeper
    presence
    (do let _ ← signature deeper true) <|> annotation) <|>
  (do let _ ← signature deeper true)

/-- Reads an object type. -/
def object (deeper : Deeper) : Scan Unit := do
  mark '\x7b'
  let _ ← optional (mark '|')
  skipMany (do let _ ← signOf [";", ","])
  skipMany (do
    memberBody deeper
    finishMember .ofType
    skipMany (do let _ ← signOf [";", ","]))
  let _ ← optional (mark '|')
  mark '\x7d'

/-! ### Types -/

/-- Reads a name with the names of what it lies in, and its arguments. -/
def reference (deeper : Deeper) : Scan Unit := do
  let _ ← anyName
  skipMany (do
    let _ ← signOf [".", "?."]
    let _ ← anyName <|> (do let _ ← Binding.privateName; return (0, ""))
    return ())
  let _ ← optional (arguments deeper)

/-- Reads the type of a module or of a value. -/
def query (deeper : Deeper) : Scan Unit := do
  let _ ← optional (word "typeof")
  (do
    word "import"
    Binding.arguments deeper
    skipMany (do sign "."; let _ ← anyName; return ())
    let _ ← optional (arguments deeper)) <|> reference deeper

/-- Reads an entry of a tuple type. -/
def tupleEntry (deeper : Deeper) : Scan Unit := do
  let _ ← optional (sign "...")
  let _ ← optional (do
    let _ ← anyName
    let _ ← optional (sign "?")
    sign ":")
  deeper.innerType
  let _ ← optional (sign "?")

/-- Reads a type that nothing joins to others. -/
def primary (deeper : Deeper) : Scan Unit :=
  (do mark '('; deeper.innerType; mark ')') <|>
  (do mark '['; let _ ← sparse (tupleEntry deeper); mark ']') <|>
  object deeper <|>
  (do let _ ← Literal.string) <|>
  (do let _ ← optional (sign "-"); let _ ← Literal.number) <|>
  (do let _ ← Literal.template deeper.innerType "template_literal_type") <|>
  query deeper

/-- Reads a type with the brackets after it. -/
def bracketed (deeper : Deeper) (mayEnd : Bool) : Scan Unit := do
  primary deeper
  skipMany (do
    Ending.ofType.goesOn mayEnd
    mark '['
    let _ ← optional deeper.innerType
    mark ']')

/-- Reads a word that makes a type of another one. -/
def operator : Scan Unit := do
  let _ ← wordOf ["keyof", "unique", "readonly"]
  notAt (signOf [",", ")", ">", "]", "\x7d", ";", "=", "|", "&", ".", "<", "[", "=>", "?", ":"])
  Ending.ofType.goesOn true

/-- Reads the type that a conditional type finds out. What it has to extend can be followed by a
question mark only where the condition itself is read. -/
def inferred (deeper : Deeper) (inCondition : Bool) : Scan Unit := do
  word "infer"
  let _ ← anyName
  let _ ← optional (do
    word "extends"
    deeper.innerType
    if !inCondition then notAt (sign "?"))

/-- Reads the type of a function. -/
def function (deeper : Deeper) (mayEnd : Bool) : Scan Unit := do
  let _ ← optional (do let _ ← optional (word "abstract"); word "new")
  let _ ← optional (parameters deeper)
  let _ ← Binding.parameters deeper
  sign "=>"
  let _ ← deeper (.type mayEnd)

/-- Reads a type between the signs that join types. -/
def operand (deeper : Deeper) (mayEnd inCondition : Bool) : Scan Unit := do
  function deeper mayEnd <|> inferred deeper inCondition <|>
    (do operator; skipMany operator; bracketed deeper mayEnd) <|> bracketed deeper mayEnd

/-- Reads types that are joined by signs. -/
def joined (deeper : Deeper) (mayEnd inCondition : Bool) : Scan Unit := do
  let _ ← optional (signOf ["|", "&"])
  operand deeper mayEnd inCondition
  skipMany (do
    let _ ← signOf ["|", "&"]
    operand deeper mayEnd inCondition)

/-- Reads what a function finds out about a value. -/
def finding (deeper : Deeper) (mayEnd : Bool) : Scan Unit := do
  let asserted ← optional (do
    word "asserts"
    notAt (word "is"))
  let _ ← anyName
  if asserted.isSome then
    let _ ← optional (do word "is"; deeper (.type mayEnd))
  else
    Ending.ofType.goesOn mayEnd
    word "is"
    let _ ← deeper (.type mayEnd)

/-- Reads the rest of a type that depends on another one. -/
def condition (deeper : Deeper) (mayEnd : Bool) : Scan Unit := do
  Ending.ofType.goesOn mayEnd
  word "extends"
  joined deeper false true
  sign "?"
  deeper.innerType
  sign ":"
  let _ ← deeper (.type mayEnd)

/-- Reads a type. -/
def type (deeper : Deeper) (mayEnd : Bool) : Scan Syntax := do
  let start ← tokenStart
  finding deeper mayEnd <|> (do
    joined deeper mayEnd false
    let _ ← optional (condition deeper mayEnd))
  leafFrom "type" start

end NamedExports.TypeForm
