/-!
# Concrete syntax

A module of JavaScript or TypeScript is read into a tree of syntax nodes. A node says what construct
it is, which rows of the text it covers and by which field it hangs in the node above; the nodes
that stand for words and signs of the grammar are not named. Comments are named nodes and can stand
between any others.

The rows count from zero. The text of a node is kept where it can be read as text at all: a text
with bytes that are no valid UTF-8 is absent.
-/

namespace NamedExports

/-- The first and the last row of a piece of text. -/
structure Rows where
  first : Nat
  last : Nat
  deriving DecidableEq, Repr, Inhabited

/-- A node of concrete syntax. -/
inductive Syntax where
  | node (kind : String) (rows : Rows) (named : Bool) (field : Option String)
      (text : Option String) (children : List Syntax)
  deriving Inhabited

namespace Syntax

/-- What construct a node is. -/
def kind : Syntax → String
  | node kind _ _ _ _ _ => kind

/-- The rows that a node covers. -/
def rows : Syntax → Rows
  | node _ rows _ _ _ _ => rows

/-- Whether a node is named. -/
def named : Syntax → Bool
  | node _ _ named _ _ _ => named

/-- The field by which a node hangs in the node above. -/
def field : Syntax → Option String
  | node _ _ _ field _ _ => field

/-- The text of a node. -/
def text : Syntax → Option String
  | node _ _ _ _ text _ => text

/-- The nodes directly below a node. -/
def children : Syntax → List Syntax
  | node _ _ _ _ _ children => children

/-- The named nodes directly below a node, comments left out. -/
def parts (n : Syntax) : List Syntax :=
  n.children.filter fun c => c.named && c.kind != "comment"

/-- The first node directly below that hangs there by the given field. -/
def child? (n : Syntax) (field : String) : Option Syntax :=
  n.children.find? fun c => c.field == some field

/-- Whether a node has a word or sign of the given kind directly below it. -/
def hasToken (n : Syntax) (kind : String) : Bool :=
  n.children.any fun c => !c.named && c.kind == kind

/-! ### What lies below is smaller -/

theorem sizeOf_lt_of_mem_children {n c : Syntax} (h : c ∈ n.children) : sizeOf c < sizeOf n := by
  cases n with
  | node kind rows named field text cs =>
    have := List.sizeOf_lt_of_mem (show c ∈ cs from h)
    simp only [node.sizeOf_spec]
    omega

theorem sizeOf_lt_of_child? {n c : Syntax} {field : String} (h : n.child? field = some c) :
    sizeOf c < sizeOf n :=
  sizeOf_lt_of_mem_children (List.mem_of_find?_eq_some h)

theorem sizeOf_lt_of_mem_parts {n c : Syntax} (h : c ∈ n.parts) : sizeOf c < sizeOf n :=
  sizeOf_lt_of_mem_children (List.mem_filter.1 h).1

private theorem sizeOf_filter_le (p : Syntax → Bool) (cs : List Syntax) :
    sizeOf (cs.filter p) ≤ sizeOf cs := by
  induction cs with
  | nil => simp
  | cons c cs ih =>
    by_cases h : p c
    · simp only [List.filter_cons, h, if_true, List.cons.sizeOf_spec]
      omega
    · simp only [List.filter_cons, h, Bool.false_eq_true, if_false, List.cons.sizeOf_spec]
      omega

theorem sizeOf_parts_lt (n : Syntax) : sizeOf n.parts < sizeOf n := by
  cases n with
  | node kind rows named field text cs =>
    have : sizeOf (node kind rows named field text cs).parts ≤ sizeOf cs := sizeOf_filter_le _ cs
    rw [node.sizeOf_spec]
    omega

end Syntax

/-- A module that was read: its syntax, and whether there were parts that could not be read. -/
structure Module where
  root : Syntax
  damaged : Bool

end NamedExports
