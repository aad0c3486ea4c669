import NamedExports.Grammar.Expression

/-!
# Declarations

Functions and variables are kept with their parts, all other declarations with their extent. Where
a declaration stands alone, some of its first words can be names as well: a line that ends after
such a word is an expression, and not the beginning of a declaration.
-/

namespace NamedExports.Declaration

open Scan

/-! ### Variables -/

/-- Reads a declarator. The result also says how a statement can end after it: an operator can
follow only a value. -/
def declarator (deeper : Deeper) : Scan (Syntax × Ending) := do
  let start ← tokenStart
  let target ← Binding.destructuring deeper <|> Binding.identifier
  let _ ← optional (sign "!")
  let _ ← optional (deeper.annotation true)
  let value ← optional (do sign "="; deeper (.value true true))
  let node ← nodeFrom "variable_declarator" start
    (target.as "name" :: (value.map (·.as "value")).toList)
  return (node, if value.isSome then .ofValue else .ofType)

/-- Reads the declarators of a variable declaration. -/
def declarators (deeper : Deeper) : Scan (List (Syntax × Ending)) := do
  let first ← declarator deeper
  return first :: (← many (do mark ','; declarator deeper))

/-- Reads a variable declaration up to its end, which is read from how a statement can end. -/
def bindings (deeper : Deeper) (alone : Bool) (finish : Ending → Scan Unit) : Scan Syntax := do
  let (start, first) ← anyName
  require (["var", "let", "const"].contains first)
  if first == "let" then Ending.ofValue.goesOn alone
  let kept := (← Callable.tokenFrom first start).as "kind"
  let targets ← declarators deeper
  finish ((targets.getLast?.map (·.2)).getD .ofType)
  if first == "var" then nodeFrom "variable_declaration" start (targets.map (·.1))
  else nodeFrom "lexical_declaration" start (kept :: targets.map (·.1))

/-! ### Functions and classes -/

/-- Reads a function declaration, which has a body, or else a function signature. -/
def function (deeper : Deeper) (alone : Bool) : Scan Syntax := do
  let start ← tokenStart
  let (generator, kept) ← Callable.functionHead (do return some (← Binding.identifier)) alone
  let ps ← TypeForm.signature deeper true
  (do
    let body ← deeper.block
    Ending.ofType.finishOptionally
    nodeFrom (if generator then "generator_function_declaration" else "function_declaration") start
      (kept ++ [ps.as "parameters", body.as "body"])) <|>
  (do
    Ending.ofHead.finish
    leafFrom "function_signature" start)

/-- Reads a class. -/
def classWithName (deeper : Deeper) : Scan Syntax := do
  let start ← tokenStart
  skipMany (Binding.decorator deeper)
  let isAbstract ← optional (word "abstract")
  word "class"
  Callable.className
  Callable.classRest deeper (Expression.parent deeper)
  if isAbstract.isSome then leafFrom "abstract_class_declaration" start
  else
    Ending.ofType.finishOptionally
    leafFrom "class_declaration" start

/-! ### Types and enumerations -/

/-- Reads an interface. -/
def interface (deeper : Deeper) : Scan Syntax := do
  let start ← tokenStart
  word "interface"
  let _ ← anyName
  let _ ← optional (TypeForm.parameters deeper)
  let _ ← optional (do word "extends"; separated deeper.innerType)
  TypeForm.object deeper
  leafFrom "interface_declaration" start

/-- Reads a name for a type. -/
def typeAlias (deeper : Deeper) (alone : Bool) : Scan Syntax := do
  let start ← tokenStart
  word "type"
  Ending.ofValue.goesOn alone
  let _ ← anyName
  let _ ← optional (TypeForm.parameters deeper)
  sign "="
  let _ ← deeper (.type true)
  Ending.ofType.finish
  leafFrom "type_alias_declaration" start

/-- Reads an enumeration. -/
def enumeration (deeper : Deeper) : Scan Syntax := do
  let start ← tokenStart
  let _ ← optional (word "const")
  word "enum"
  let _ ← anyName
  mark '\x7b'
  let _ ← sparse (do
    let _ ← Binding.key deeper
    let _ ← optional (do sign "="; deeper.inner))
  mark '\x7d'
  leafFrom "enum_declaration" start

/-! ### Modules within modules -/

/-- Reads a name with the names of what it lies in. -/
def qualifiedName : Scan Unit := do
  let _ ← Binding.identifier
  skipMany (do sign "."; let _ ← anyName; return ())

/-- Reads a module that is declared within another one. -/
def innerModule (deeper : Deeper) (alone : Bool) : Scan Syntax := do
  let start ← tokenStart
  word "module"
  Ending.ofValue.goesOn alone
  qualifiedName <|> (do let _ ← Literal.string)
  let _ ← optional deeper.block
  leafFrom "module" start

/-- Reads a namespace. -/
def innerNamespace (deeper : Deeper) : Scan Syntax := do
  let start ← tokenStart
  word "namespace"
  qualifiedName
  let _ ← optional deeper.block
  leafFrom "internal_module" start

/-- Reads another name for a part of a namespace. -/
def importAlias : Scan Syntax := do
  let start ← tokenStart
  word "import"
  let _ ← Binding.identifier
  sign "="
  notAt (do word "require"; mark '(')
  qualifiedName
  Ending.ofType.finish
  leafFrom "import_alias" start

/-! ### Declarations of any sort -/

/-- Reads a declaration that describes no code of its own. -/
def plain (deeper : Deeper) (alone : Bool) : Scan Syntax :=
  enumeration deeper <|> bindings deeper alone Ending.finish <|> function deeper alone <|>
    classWithName deeper <|> interface deeper <|> typeAlias deeper alone <|>
    innerModule deeper alone <|> importAlias

/-- Reads a declaration of something that exists elsewhere. -/
def ambient (deeper : Deeper) (alone : Bool) : Scan Syntax := do
  let start ← tokenStart
  word "declare"
  Ending.ofValue.goesOn alone
  (do let _ ← plain deeper false) <|> (do let _ ← innerNamespace deeper) <|>
    (do word "global"; let _ ← deeper.block) <|>
    (do
      word "module"
      sign "."
      let _ ← anyName
      deeper.annotation true
      Ending.ofType.finish)
  leafFrom "ambient_declaration" start

/-- Reads a declaration within an export. -/
def exported (deeper : Deeper) : Scan Syntax :=
  plain deeper false <|> innerNamespace deeper <|> ambient deeper false

end NamedExports.Declaration
