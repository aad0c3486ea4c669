/-!
# Kinds of nodes

A module is modelled down to its export statements. Every construct that takes part has a kind of
its own; all others are plain nodes that carry the name of their construct and nothing more.
Objects that are no nodes at all can hang in a tree too; they have whatever attributes they were
given.
-/

namespace NamedExports

/-- The constructs that are modelled. -/
inductive Kind where
  | identifier
  | stringLiteral
  | restElement
  | assignmentPattern
  | arrayPattern
  | objectProperty
  | objectPattern
  | variableDeclarator
  | variableDeclaration
  | functionDeclaration
  | exportSpecifier
  | exportNamespaceSpecifier
  | exportNamedDeclaration
  | program
  deriving DecidableEq, Repr

namespace Kind

/-- The name of a kind, which the nodes of the kind carry as their type. -/
def name : Kind → String
  | identifier => "Identifier"
  | stringLiteral => "StringLiteral"
  | restElement => "RestElement"
  | assignmentPattern => "AssignmentPattern"
  | arrayPattern => "ArrayPattern"
  | objectProperty => "ObjectProperty"
  | objectPattern => "ObjectPattern"
  | variableDeclarator => "VariableDeclarator"
  | variableDeclaration => "VariableDeclaration"
  | functionDeclaration => "FunctionDeclaration"
  | exportSpecifier => "ExportSpecifier"
  | exportNamespaceSpecifier => "ExportNamespaceSpecifier"
  | exportNamedDeclaration => "ExportNamedDeclaration"
  | program => "Program"

/-- All kinds. -/
def all : List Kind :=
  [identifier, stringLiteral, restElement, assignmentPattern, arrayPattern, objectProperty,
    objectPattern, variableDeclarator, variableDeclaration, functionDeclaration, exportSpecifier,
    exportNamespaceSpecifier, exportNamedDeclaration, program]

/-- The kind of a name. -/
def ofName? (name : String) : Option Kind :=
  all.find? fun k => k.name == name

/-- The fields of a kind that may hold other nodes, in the order in which they are visited. -/
def fields : Kind → List String
  | identifier => ["name"]
  | stringLiteral => ["value"]
  | restElement => ["argument"]
  | assignmentPattern => ["left", "right"]
  | arrayPattern => ["elements"]
  | objectProperty => ["key", "value", "shorthand", "computed"]
  | objectPattern => ["properties"]
  | variableDeclarator => ["id", "init"]
  | variableDeclaration => ["kind", "declarations"]
  | functionDeclaration => ["id", "params", "is_async", "generator"]
  | exportSpecifier => ["local", "exported"]
  | exportNamespaceSpecifier => ["exported"]
  | exportNamedDeclaration => ["declaration", "specifiers", "source", "export_kind"]
  | program => ["body"]

end Kind

/-- What an object of a tree is. -/
inductive Shape where
  /-- A node of a modelled kind, which has all fields of the kind. -/
  | modelled (kind : Kind)
  /-- A node of any other construct, which has no fields. -/
  | plain
  /-- An object that is no node, with any attributes. -/
  | loose
  deriving DecidableEq, Repr

namespace Shape

/-- Whether an object of this shape is a node. -/
def isNode : Shape → Bool
  | modelled _ | plain => true
  | loose => false

/-- The fields of a node that are visited; an object that is no node has none to visit. -/
def fields? : Shape → Option (List String)
  | modelled kind => some kind.fields
  | plain => some []
  | loose => none

/-- The name of a shape in messages. -/
def owner : Shape → String
  | modelled kind => kind.name
  | plain => "Node"
  | loose => "types.SimpleNamespace"

end Shape

end NamedExports
