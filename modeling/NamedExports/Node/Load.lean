import NamedExports.Node.Store

/-!
# Putting trees into a store

A written-out tree is put into a store with one new object for every object that is written, so no
two places of it share one. A node that is made field by field takes what it is not given from the
defaults of its kind.
-/

namespace NamedExports

/-- What a field of a node holds when nothing is said about it. -/
def Kind.default : Kind → String → Value
  | .identifier, _ | .stringLiteral, _ => .atom (.str "")
  | .objectProperty, "shorthand" | .objectProperty, "computed"
  | .functionDeclaration, "is_async" | .functionDeclaration, "generator" => .atom (.bool false)
  | .variableDeclaration, "kind" => .atom (.str "const")
  | .exportNamedDeclaration, "export_kind" => .atom (.str "value")
  | .arrayPattern, _ | .objectPattern, _ | .program, _ | .variableDeclaration, _
  | .functionDeclaration, "params" | .exportNamedDeclaration, "specifiers" => .items []
  | _, _ => .atom .null

namespace Store

/-- The attributes that every node has. -/
def header (type : String) (lines : Tree.Lines) : List (String × Value) :=
  [("type", .atom (.str type)), ("start_line", .atom (.int lines.first)),
    ("end_line", .atom (.int lines.last))]

/-- Adds a node of a modelled kind, with the defaults in the fields that are not given. -/
def addModelled (s : Store) (kind : Kind) (lines : Tree.Lines) (given : List (String × Value)) :
    Store × Ref :=
  s.add (.record (.modelled kind) (header kind.name lines ++
    kind.fields.map fun name => (name, (given.lookup name).getD (kind.default name))))

/-- Adds a node that is not modelled. -/
def addPlain (s : Store) (type : String) (lines : Tree.Lines) : Store × Ref :=
  s.add (.record .plain (header type lines))

mutual

/-- Adds a tree; what is no object is its own value. -/
def addTree (s : Store) : Tree → Store × Atom
  | .null => (s, .null)
  | .bool value => (s, .bool value)
  | .int value => (s, .int value)
  | .str value => (s, .str value)
  | .list items =>
    let (s, values) := addItems s items
    let (s, r) := s.add (.sequence values)
    (s, .ref r)
  | .node shape attributes =>
    let (s, attributes) := addAttributes s attributes
    let (s, r) := s.add (.record shape attributes)
    (s, .ref r)

/-- Adds the items of a list one after the other. -/
def addItems (s : Store) : List Tree → Store × List Atom
  | [] => (s, [])
  | t :: ts =>
    let (s, value) := addTree s t
    let (s, values) := addItems s ts
    (s, value :: values)

/-- Adds the attributes of an object one after the other. -/
def addAttributes (s : Store) : List (String × Tree) → Store × List (String × Value)
  | [] => (s, [])
  | (name, .list items) :: rest =>
    let (s, values) := addItems s items
    let (s, attributes) := addAttributes s rest
    (s, (name, .items values) :: attributes)
  | (name, t) :: rest =>
    let (s, value) := addTree s t
    let (s, attributes) := addAttributes s rest
    (s, (name, .atom value) :: attributes)

end

/-- A store that holds one tree, and the value that stands for it. -/
def ofTree (t : Tree) : Store × Atom :=
  empty.addTree t

end Store

end NamedExports
