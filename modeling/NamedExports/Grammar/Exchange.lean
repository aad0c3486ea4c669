import NamedExports.Grammar.Declaration

/-!
# Imports and exports

What a module takes from others and what it gives to them. Export statements are kept with all their
parts: the declaration or the clause, the module that names are taken from, and the words and signs
that say what sort of export it is.
-/

namespace NamedExports.Exchange

open Scan

/-- Reads a name that is exported or imported, which can be any word or a text. -/
def exchangedName : Scan Syntax :=
  Literal.string <|> Binding.wordNode "identifier"

/-- Reads the attributes of a module that is imported. -/
def attributes (deeper : Deeper) : Scan Unit := do
  let _ ← wordOf ["with", "assert"]
  let _ ← Expression.object deeper

/-- Reads the module that names come from. -/
def origin (deeper : Deeper) : Scan Syntax := do
  word "from"
  let text ← Literal.string
  let _ ← optional (attributes deeper)
  return text.as "source"

/-! ### Clauses -/

/-- Reads a name with another name for it. -/
def specifierFrom (start : Nat) : Scan Syntax := do
  let name ← exchangedName
  let other ← optional (do word "as"; exchangedName)
  let node ← nodeFrom "export_specifier" start
    (name.as "name" :: (other.map (·.as "alias")).toList)
  let closed ← looksAt (signOf [",", "\x7d"])
  require closed
  return node

/-- Reads an entry of a clause, which can be marked as a type. -/
def specifier : Scan Syntax := do
  let start ← tokenStart
  specifierFrom start <|> (do
    let _ ← wordOf ["type", "typeof"]
    specifierFrom start)

/-- Reads a clause. -/
def clause : Scan Syntax := do
  let start ← tokenStart
  mark '\x7b'
  let entries ← separated specifier
  let _ ← optional (mark ',')
  mark '\x7d'
  nodeFrom "export_clause" start entries

/-- Reads everything that a module exports, under one name. -/
def everythingAs : Scan Syntax := do
  let start ← tokenStart
  mark '*'
  word "as"
  let name ← exchangedName
  nodeFrom "namespace_export" start [name]

/-! ### Imports -/

/-- Reads what an import statement imports. -/
def imported : Scan Unit := do
  let several : Scan Unit := (do let _ ← everythingAs) <|> (do let _ ← clause)
  several <|> (do
    let _ ← Binding.identifier
    let _ ← optional (do mark ','; several))

/-- Reads an import statement. -/
def importStatement (deeper : Deeper) : Scan Syntax := do
  let start ← tokenStart
  word "import"
  let required : Scan Unit := do
    let _ ← Binding.identifier
    sign "="
    word "require"
    Binding.arguments deeper
  let taken : Scan Unit := required <|> (do imported; let _ ← origin deeper)
  (do
    let _ ← Literal.string
    let _ ← optional (attributes deeper)) <|>
    taken <|> (do let _ ← wordOf ["type", "typeof"]; taken)
  Ending.ofType.finish
  leafFrom "import_statement" start

/-! ### Exports -/

/-- A word or sign, read by `scan`, as a node. -/
def token {α : Type} (kind : String) (scan : Scan α) : Scan Syntax := do
  let start ← tokenStart
  let _ ← scan
  Callable.tokenFrom kind start

/-- Reads a clause with the module that its names come from, if it says so. -/
def clauseFrom (deeper : Deeper) : Scan (List Syntax) := do
  let names ← clause
  let source ← match ← Ending.ofType.insertion? with
    | some _ => pure none
    | none => optional (origin deeper)
  Ending.ofType.finish
  return names :: source.toList

/-- Reads an export of names that are declared elsewhere. -/
def names (deeper : Deeper) : Scan (List Syntax) :=
  (do
    let everything ← everythingAs <|> token "*" (mark '*')
    let source ← origin deeper
    Ending.ofType.finish
    return [everything, source]) <|>
  clauseFrom deeper <|>
  (do
    let typeWord ← token "type" (word "type")
    return typeWord :: (← clauseFrom deeper))

/-- Reads the export of one value as the whole module, or of the module as a namespace. -/
def whole (deeper : Deeper) : Scan (List Syntax) :=
  (do
    let equals ← token "=" (sign "=")
    let _ ← deeper (.value true true)
    Ending.ofValue.finish
    return [equals]) <|>
  (do
    word "as"
    let namespaceWord ← token "namespace" (word "namespace")
    let _ ← anyName
    Ending.ofType.finish
    return [namespaceWord])

/-- Reads the default export of a declaration or a value. -/
def asDefault (deeper : Deeper) : Scan (List Syntax) := do
  let defaultWord ← token "default" (word "default")
  (do let _ ← Declaration.exported deeper) <|> (do
    let _ ← deeper (.value true true)
    Ending.ofValue.finish)
  return [defaultWord]

/-- Reads an export statement. -/
def exportStatement (deeper : Deeper) : Scan Syntax := do
  let start ← tokenStart
  let decorators ← many (Binding.decorator deeper)
  word "export"
  Ending.ofValue.goesOn decorators.isEmpty
  let parts ← names deeper <|> whole deeper <|> asDefault deeper <|> (do
    let declaration ← Declaration.exported deeper
    return [declaration.as "declaration"])
  nodeFrom "export_statement" start (decorators ++ parts)

end NamedExports.Exchange
