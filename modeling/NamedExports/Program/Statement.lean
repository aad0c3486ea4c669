import NamedExports.Program.Pattern

/-!
# Statements of a module

The top level of a module is modelled statement by statement. Of a statement that is no export only
the construct and the lines are kept, and likewise of the exports that export no names of their own:
default exports, re-exports of everything, export assignments and namespace declarations. All other
exports are modelled with the declaration, the specifiers and the module they come from.
-/

namespace NamedExports.Syntax

/-- A name in an export clause, which may be written as a text. -/
def toExportName (n : Syntax) : Built Tree :=
  if n.kind = "string" then n.toStringLiteral else n.toIdentifier

/-- A name in an export clause that may be missing. -/
def toExportName? : Option Syntax → Built Tree
  | some n => n.toExportName
  | none => return .null

/-- An entry of an export clause; without another name it exports the one it has. -/
def toSpecifier (n : Syntax) : Built Tree := do
  let name := n.child? "name"
  let exported := (n.child? "alias").or name
  return .modelled .exportSpecifier n.lines [← toExportName? name, ← toExportName? exported]

/-- A part of an export statement as specifiers: a clause gives its entries, a namespace export
itself, and any other part nothing. -/
def toSpecifiers (n : Syntax) : Built (List Tree) :=
  match n.kind with
  | "export_clause" =>
    (n.parts.filter fun c => c.kind == "export_specifier").mapM toSpecifier
  | "namespace_export" => do
    return [.modelled .exportNamespaceSpecifier n.lines [← toExportName? n.parts.head?]]
  | _ => return []

/-- A parameter: its pattern, with a default if it has one. -/
def toParameter (n : Syntax) : Built Tree :=
  if n.kind = "required_parameter" ∨ n.kind = "optional_parameter" then do
    let pattern ← toPattern? (n.child? "pattern")
    match n.child? "value" with
    | some value => return defaulted n.lines pattern (some value)
    | none => return pattern
  else n.toPattern

/-- The parameters of a function. -/
def toParameters (n : Syntax) : Built (List Tree) :=
  n.parts.mapM toParameter

/-- The parameters of a function that may have no parameter list. -/
def toParameters? : Option Syntax → Built (List Tree)
  | some n => n.toParameters
  | none => return []

/-- An identifier that may be missing. -/
def toIdentifier? : Option Syntax → Built Tree
  | some n => n.toIdentifier
  | none => return .null

/-- A function declaration. -/
def toFunction (n : Syntax) : Built Tree := do
  return .modelled .functionDeclaration n.lines
    [← toIdentifier? (n.child? "name"),
      .list (← toParameters? (n.child? "parameters")),
      .bool (n.children.any fun c => c.kind == "async"),
      .bool (n.kind == "generator_function_declaration")]

/-- A declarator: what it binds, and the construct that it is initialised with. -/
def toDeclarator (n : Syntax) : Built Tree := do
  return .modelled .variableDeclarator n.lines
    [← toPattern? (n.child? "name"), toPlain? (n.child? "value")]

/-- The word that a variable declaration begins with. -/
def toDeclarationWord : Option Syntax → Built String
  | some n => n.readText
  | none => return "var"

/-- A variable declaration with all its declarators. -/
def toVariables (n : Syntax) : Built Tree := do
  return .modelled .variableDeclaration n.lines
    [.str (← toDeclarationWord (n.child? "kind")),
      .list (← (n.parts.filter fun c => c.kind == "variable_declarator").mapM toDeclarator)]

/-- An exported declaration. Functions and variables are modelled; of classes, types and all others
the construct and the lines are kept. -/
def toDeclaration (n : Syntax) : Built Tree :=
  match n.kind with
  | "function_declaration" | "generator_function_declaration" => n.toFunction
  | "lexical_declaration" | "variable_declaration" => n.toVariables
  | _ => return n.toPlain

/-- A declaration that may be missing. -/
def toDeclaration? : Option Syntax → Built Tree
  | some n => n.toDeclaration
  | none => return .null

/-- The module that an export statement takes its names from, if it says so. -/
def toSource? : Option Syntax → Built Tree
  | some n => n.toStringLiteral
  | none => return .null

/-- Whether a declaration declares a type and nothing else. -/
def isTypeOnly : Option Syntax → Bool
  | some n => n.kind == "type_alias_declaration" || n.kind == "interface_declaration"
  | none => false

/-- The type of an export statement that exports no names of its own, by the word or sign in it. -/
def namelessExport? (n : Syntax) : Option String :=
  if n.hasToken "default" then some "ExportDefaultDeclaration"
  else if n.hasToken "*" then some "ExportAllDeclaration"
  else if n.hasToken "=" then some "TSExportAssignment"
  else if n.hasToken "namespace" then some "TSNamespaceExportDeclaration"
  else none

/-- An export statement with the names it exports. -/
def toNamedExport (n : Syntax) : Built Tree := do
  let declaration := n.child? "declaration"
  let specifiers ← n.parts.mapM toSpecifiers
  let kind := if n.hasToken "type" || isTypeOnly declaration then "type" else "value"
  return .modelled .exportNamedDeclaration n.lines
    [← toDeclaration? declaration, .list specifiers.flatten, ← toSource? (n.child? "source"),
      .str kind]

/-- A statement. -/
def toStatement (n : Syntax) : Built Tree :=
  if n.kind = "export_statement" then
    match n.namelessExport? with
    | some type => return .plain type n.lines
    | none => n.toNamedExport
  else return n.toPlain

/-- The program of a module. -/
def toProgram (n : Syntax) : Built Tree := do
  return .modelled .program n.lines [.list (← n.parts.mapM toStatement)]

end NamedExports.Syntax
