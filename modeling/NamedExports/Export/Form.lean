import NamedExports.Fault

/-!
# Forms of named exports

A named export statement can export a name in four forms:

* a function: `export function name() ...`;
* a variable: `export const name = ...`, where only the first declarator counts;
* a destructured variable: `export const { key: name } = ...`, where only the first property of the
  first declarator counts, by the variable it binds;
* a specifier: `export { local as name }`, where all specifiers count.

The statement may be any value. What does not look like one of the forms exports nothing; only a
value that stands where a list is expected and has no entries to look at is a fault.
-/

namespace NamedExports

/-- The forms of a named export, in the order in which they are tried. -/
inductive Form where
  /-- A function declaration. -/
  | function
  /-- A variable that is declared by its name. -/
  | declared
  /-- A variable that is taken out of a value by a pattern. -/
  | destructured
  /-- An entry of an export clause. -/
  | specifier
  deriving DecidableEq, Repr

namespace Form

/-- The name of a form. -/
def name : Form → String
  | function => "function"
  | declared => "variable"
  | destructured => "destructured"
  | specifier => "specifier"

/-- All forms, in the order in which they are tried. -/
def all : List Form :=
  [function, declared, destructured, specifier]

end Form

namespace Tree

/-- Whether a value is an identifier with the given name. -/
def isIdentifierNamed (t : Tree) (name : String) : Bool :=
  t.hasType "Identifier" && (t.get "name").isText name

/-- What the first declarator of an exported variable declaration binds, null when the statement
is no such export. -/
def firstBinding (statement : Tree) : Except Fault Tree := do
  let declaration := statement.get "declaration"
  if declaration.hasType "VariableDeclaration" then
    let declarator ← (declaration.get "declarations").firstEntry
    return if declarator.hasType "VariableDeclarator" then declarator.get "id" else null
  else return null

/-- Whether a statement exports a function of the given name. -/
def exportsFunction (statement : Tree) (name : String) : Bool :=
  let declaration := statement.get "declaration"
  declaration.hasType "FunctionDeclaration" && ((declaration.get "id").get "name").isText name

/-- Whether a statement exports a variable of the given name, first of its declaration. -/
def exportsVariable (statement : Tree) (name : String) : Except Fault Bool := do
  return (← statement.firstBinding).isIdentifierNamed name

/-- Whether a statement exports a variable of the given name that the first property of its first
declarator binds. -/
def exportsDestructured (statement : Tree) (name : String) : Except Fault Bool := do
  let pattern ← statement.firstBinding
  if pattern.hasType "ObjectPattern" then
    let property ← (pattern.get "properties").firstEntry
    return property.hasType "ObjectProperty" && (property.get "value").isIdentifierNamed name
  else return false

/-- Whether a statement has a specifier that exports the given name. -/
def exportsSpecifier (statement : Tree) (name : String) : Except Fault Bool := do
  let specifiers ← (statement.get "specifiers").entries
  return specifiers.any fun specifier =>
    specifier.hasType "ExportSpecifier" && (specifier.get "exported").isIdentifierNamed name

/-- Whether a statement exports a name in the given form. -/
def exportsAs (statement : Tree) (name : String) : Form → Except Fault Bool
  | .function => .ok (statement.exportsFunction name)
  | .declared => statement.exportsVariable name
  | .destructured => statement.exportsDestructured name
  | .specifier => statement.exportsSpecifier name

/-- The first of some forms in which a statement exports a name. -/
def formAmong? (statement : Tree) (name : String) : List Form → Except Fault (Option Form)
  | [] => .ok none
  | form :: forms => do
    if ← statement.exportsAs name form then return some form
    else statement.formAmong? name forms

/-- The form in which a statement exports a name. -/
def exportForm? (statement : Tree) (name : String) : Except Fault (Option Form) :=
  statement.formAmong? name Form.all

/-- Whether a statement exports a name in any form, asked form by form. -/
def exportsName (statement : Tree) (name : String) : Except Fault Bool := do
  if statement.exportsFunction name then return true
  if ← statement.exportsVariable name then return true
  if ← statement.exportsDestructured name then return true
  statement.exportsSpecifier name

end Tree

end NamedExports
