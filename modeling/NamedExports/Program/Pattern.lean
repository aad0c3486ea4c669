import NamedExports.Node.Tree
import NamedExports.Syntax

/-!
# Binding patterns

The patterns of declarations and parameters are modelled throughout: identifiers, object and array
patterns, rest elements and defaults, nested in any way. The keys of properties are modelled where
they are names or texts. What stands for a value (defaults, computed keys) keeps its construct and
lines only, and so does anything else in the place of a pattern. Line numbers count from one.

A syntax tree may have any shape: a part that is not there is null in the model.
-/

namespace NamedExports

/-- Why a syntax tree has no model. -/
inductive BuildFault where
  /-- A text that is needed holds bytes that are no valid UTF-8. -/
  | notText
  deriving DecidableEq, Repr

/-- The outcome of modelling a piece of syntax. -/
abbrev Built (α : Type) := Except BuildFault α

namespace Syntax

/-- The text of a node, which is needed. -/
def readText (n : Syntax) : Built String :=
  match n.text with
  | some text => .ok text
  | none => .error .notText

/-- The lines that a node covers, counted from one. -/
def lines (n : Syntax) : Tree.Lines where
  first := n.rows.first + 1
  last := n.rows.last + 1

/-- A node of which only the construct and the lines are kept. -/
def toPlain (n : Syntax) : Tree :=
  .plain n.kind n.lines

/-- What is kept of a node that may be missing. -/
def toPlain? : Option Syntax → Tree
  | some n => n.toPlain
  | none => .null

/-- A node as an identifier, named by its text. -/
def toIdentifier (n : Syntax) : Built Tree :=
  return .modelled .identifier n.lines [.str (← n.readText)]

/-- The content of a text without its first and last character. -/
def unquoted (text : String) : String :=
  String.ofList (text.toList.drop 1).dropLast

/-- A node as a text, its quotes left out. -/
def toStringLiteral (n : Syntax) : Built Tree :=
  return .modelled .stringLiteral n.lines [.str (unquoted (← n.readText))]

/-- The key of a property as it is written. -/
def toKey (n : Syntax) : Built Tree :=
  match n.kind with
  | "property_identifier" => n.toIdentifier
  | "string" => n.toStringLiteral
  | _ => return n.toPlain

/-- The key of a property that may be missing. -/
def toKey? : Option Syntax → Built Tree
  | some n => n.toKey
  | none => return .null

/-- The key of a property with a default, which is the variable that it binds; the lines are those
of the whole property for anything else in its place. -/
def toDefaultedKey (property : Syntax) : Option Syntax → Built Tree
  | some left =>
    if left.kind = "shorthand_property_identifier_pattern" then left.toIdentifier
    else return .plain left.kind property.lines
  | none => return .plain "Unknown" property.lines

/-- Whether a key is computed. -/
def isComputed : Option Syntax → Bool
  | some n => n.kind == "computed_property_name"
  | none => false

/-- A pattern with a default. -/
def defaulted (lines : Tree.Lines) (left : Tree) (right : Option Syntax) : Tree :=
  .modelled .assignmentPattern lines [left, toPlain? right]

mutual

/-- A node in the place of a pattern. -/
def toPattern (n : Syntax) : Built Tree :=
  match n.kind with
  | "identifier" | "shorthand_property_identifier_pattern" => n.toIdentifier
  | "object_pattern" => do
    return .modelled .objectPattern n.lines [.list (← toMembers n.parts)]
  | "array_pattern" => do
    return .modelled .arrayPattern n.lines [.list (← toPatterns n.parts)]
  | "assignment_pattern" => do
    let left ← match h : n.child? "left" with
      | some c =>
        have := sizeOf_lt_of_child? h
        c.toPattern
      | none => pure .null
    return defaulted n.lines left (n.child? "right")
  | "rest_pattern" => do
    let argument ← match h : n.parts with
      | c :: _ =>
        have := sizeOf_lt_of_mem_parts (h ▸ List.mem_cons_self : c ∈ n.parts)
        c.toPattern
      | [] => pure .null
    return .modelled .restElement n.lines [argument]
  | _ => return n.toPlain
termination_by (sizeOf n, 0)
decreasing_by
  all_goals first
    | exact Prod.Lex.left _ _ (sizeOf_parts_lt n)
    | exact Prod.Lex.left _ _ this

/-- A node in the place of an entry of an object pattern. -/
def toMember (n : Syntax) : Built Tree :=
  match n.kind with
  | "pair_pattern" => do
    let key := n.child? "key"
    let value ← match h : n.child? "value" with
      | some c =>
        have := sizeOf_lt_of_child? h
        c.toPattern
      | none => pure .null
    return .modelled .objectProperty n.lines
      [← toKey? key, value, .bool false, .bool (isComputed key)]
  | "shorthand_property_identifier_pattern" => do
    return .modelled .objectProperty n.lines
      [← n.toIdentifier, ← n.toIdentifier, .bool true, .bool false]
  | "object_assignment_pattern" => do
    let key ← toDefaultedKey n (n.child? "left")
    let left ← match h : n.child? "left" with
      | some c =>
        have := sizeOf_lt_of_child? h
        c.toPattern
      | none => pure .null
    return .modelled .objectProperty n.lines
      [key, defaulted n.lines left (n.child? "right"), .bool true, .bool false]
  | "rest_pattern" => n.toPattern
  | _ => return n.toPlain
termination_by (sizeOf n, 1)
decreasing_by
  all_goals first
    | exact Prod.Lex.left _ _ this
    | exact Prod.Lex.right _ Nat.zero_lt_one

/-- Nodes in the places of patterns. -/
def toPatterns : List Syntax → Built (List Tree)
  | [] => return []
  | c :: cs => do return (← c.toPattern) :: (← toPatterns cs)
termination_by cs => (sizeOf cs, 0)
decreasing_by
  all_goals apply Prod.Lex.left; simp only [List.cons.sizeOf_spec]; omega

/-- Nodes in the places of entries of an object pattern. -/
def toMembers : List Syntax → Built (List Tree)
  | [] => return []
  | c :: cs => do return (← c.toMember) :: (← toMembers cs)
termination_by cs => (sizeOf cs, 0)
decreasing_by
  all_goals apply Prod.Lex.left; simp only [List.cons.sizeOf_spec]; omega

end

/-- A node that may be missing in the place of a pattern. -/
def toPattern? : Option Syntax → Built Tree
  | some n => n.toPattern
  | none => return .null

end Syntax

end NamedExports
