import NamedExports.Grammar.TypeForm

/-!
# Functions, methods and classes

The parts that function declarations, function expressions, methods and classes are made of. The
name, the parameters and the word for an asynchronous function are kept of a function; of a class
only its extent is.
-/

namespace NamedExports.Callable

open Scan

/-- A word of the grammar that starts at a position, as a node. -/
def tokenFrom (kind : String) (start : Nat) : Scan Syntax := do
  return .token kind ((← source).row start)

/-- Reads the beginning of a function up to its name, which `named` reads. The result is whether it
is a generator, and what is kept. -/
def functionHead (named : Scan (Option Syntax)) (mayEnd : Bool) : Scan (Bool × List Syntax) := do
  let start ← tokenStart
  let asyncWord ← optional (do
    word "async"
    Ending.ofValue.goesOn mayEnd)
  let asyncNode ← tokenFrom "async" start
  word "function"
  let star ← optional (mark '*')
  let name ← named
  return (star.isSome,
    (if asyncWord.isSome then [asyncNode] else []) ++ (name.map (·.as "name")).toList)

/-- Reads a function expression. -/
def functionExpression (deeper : Deeper) : Scan Syntax := do
  let start ← tokenStart
  let (generator, kept) ← functionHead (optional Binding.identifier) true
  let ps ← TypeForm.signature deeper false
  let body ← deeper.block
  nodeFrom (if generator then "generator_function" else "function_expression") start
    (kept ++ [ps.as "parameters", body.as "body"])

/-- Reads a word before the name of a member. -/
def modifiers : Scan Unit :=
  skipMany (TypeForm.modifier ["public", "private", "protected", "static", "override", "readonly",
    "abstract", "declare", "async", "get", "set", "accessor"])

/-- Reads a method with its body. -/
def method (deeper : Deeper) : Scan Unit := do
  modifiers
  let _ ← optional (mark '*')
  let _ ← Binding.key deeper
  TypeForm.presence
  let _ ← TypeForm.signature deeper false
  let _ ← deeper.block

/-- Reads a member of a class that is no method with a body. -/
def field (deeper : Deeper) : Scan Unit := do
  modifiers
  let typed : Scan Unit := do
    let _ ← optional (deeper.annotation true)
  (do
    TypeForm.index deeper
    TypeForm.presence
    typed
    TypeForm.finishMember .ofType) <|>
  (do
    let _ ← optional (mark '*')
    let _ ← Binding.key deeper
    TypeForm.presence
    let _ ← TypeForm.signature deeper true
    TypeForm.finishMember .ofHead) <|>
  (do
    let _ ← Binding.key deeper
    TypeForm.presence
    typed
    sign "="
    let _ ← deeper (.value true true)
    TypeForm.finishMember .ofValue) <|>
  (do
    let _ ← Binding.key deeper
    TypeForm.presence
    typed
    TypeForm.finishMember .ofType)

/-- Reads a member of a class. -/
def classMember (deeper : Deeper) : Scan Unit := do
  skipMany (Binding.decorator deeper)
  (do let _ ← signOf [";", ","]) <|>
  (do word "static"; let _ ← deeper.block) <|>
  method deeper <|> field deeper

/-- Reads the body of a class. -/
def classBody (deeper : Deeper) : Scan Unit := do
  mark '\x7b'
  skipMany (classMember deeper)
  mark '\x7d'

/-- Reads a class from its name on: `parent` reads the value that it extends. -/
def classRest (deeper : Deeper) (parent : Scan Unit) : Scan Unit := do
  let _ ← optional (TypeForm.parameters deeper)
  let _ ← optional (do
    word "extends"
    parent
    let _ ← optional (TypeForm.arguments deeper))
  let _ ← optional (do
    word "implements"
    separated deeper.innerType)
  classBody deeper

/-- Reads the name of a class, which can be missing in an expression. -/
def className : Scan Unit := do
  notAt (wordOf ["extends", "implements"])
  let _ ← Binding.identifier

end NamedExports.Callable
