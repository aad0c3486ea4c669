import NamedExports.Node.Kind
import NamedExports.Text.Quoted

/-!
# Trees of nodes

A tree is what a node looks like written out in full: every object with all its attributes, and an
object that is reachable twice written twice. Any attribute may hold a value of any sort; what
reads a tree asks for attributes by name and treats an absent one as nothing.
-/

namespace NamedExports

/-- A value written out in full. -/
inductive Tree where
  | null
  | bool (value : Bool)
  | int (value : Int)
  | str (value : String)
  | list (items : List Tree)
  | node (shape : Shape) (attributes : List (String × Tree))

namespace Tree

/-- The attribute of the given name. -/
def attr? : Tree → String → Option Tree
  | node _ attributes, name => attributes.lookup name
  | _, _ => none

/-- The attribute of the given name, null when there is none. -/
def get (t : Tree) (name : String) : Tree :=
  (t.attr? name).getD null

/-- Whether a value is the given text. -/
def isText : Tree → String → Bool
  | str value, text => value == text
  | _, _ => false

/-- Whether an object says that it is of the given type. -/
def hasType (t : Tree) (type : String) : Bool :=
  (t.get "type").isText type

/-- Whether a value is null. -/
def isNull : Tree → Bool
  | null => true
  | _ => false

/-- The sort of a value, as it is named in messages. -/
def owner : Tree → String
  | null => "NoneType"
  | bool _ => "bool"
  | int _ => "int"
  | str _ => "str"
  | list _ => "list"
  | node shape _ => shape.owner

/-- Whether a value counts as no value where a list is expected. -/
def isEmpty : Tree → Bool
  | null => true
  | bool value => !value
  | int value => value == 0
  | str value => value.isEmpty
  | list items => items.isEmpty
  | node _ _ => false

/-! ### Lines -/

/-- The lines that a node covers, from the first to the last. -/
structure Lines where
  first : Int
  last : Int
  deriving DecidableEq, Repr

/-- The attributes that every node has. -/
def header (type : String) (lines : Lines) : List (String × Tree) :=
  [("type", str type), ("start_line", int lines.first), ("end_line", int lines.last)]

/-- A node of a construct that is not modelled. -/
def plain (type : String) (lines : Lines) : Tree :=
  node .plain (header type lines)

/-- A node of a modelled kind with the given values in its fields. -/
def modelled (kind : Kind) (lines : Lines) (values : List Tree) : Tree :=
  node (.modelled kind) (header kind.name lines ++ kind.fields.zip values)

/-! ### Written forms -/

mutual

/-- The text of a value as it stands inside another one, with texts quoted. -/
def written : Tree → String
  | null => "None"
  | bool value => if value then "True" else "False"
  | int value => toString value
  | str value => Text.quoted value
  | list items => "[" ++ ", ".intercalate (writtenItems items) ++ "]"
  | node shape attributes =>
    (match shape with
      | .loose => "namespace"
      | _ => shape.owner) ++
    "(" ++ ", ".intercalate (writtenAttributes attributes) ++ ")"

/-- The texts of the items of a list. -/
def writtenItems : List Tree → List String
  | [] => []
  | t :: ts => written t :: writtenItems ts

/-- The texts of the attributes of an object. -/
def writtenAttributes : List (String × Tree) → List String
  | [] => []
  | (name, t) :: rest => (name ++ "=" ++ written t) :: writtenAttributes rest

end

/-- The text of a value that stands alone: a text is its own. -/
def display : Tree → String
  | str value => value
  | t => t.written

/-! ### Equality

Two values are equal when they are equal by their parts. A truth value equals the number that it
stands for, and two nodes are equal when their shapes and all their attributes are. -/

/-- A truth value or number as a number. -/
def number? : Tree → Option Int
  | bool value => some (if value then 1 else 0)
  | int value => some value
  | _ => none

mutual

/-- Whether two values are equal. -/
def same : Tree → Tree → Bool
  | null, null => true
  | str a, str b => a == b
  | list as, list bs => sameItems as bs
  | node s as, node t bs => s == t && sameAttributes as bs && as.length == bs.length
  | a, b =>
    match a.number?, b.number? with
    | some m, some n => m == n
    | _, _ => false

/-- Whether two lists of values are equal item by item. -/
def sameItems : List Tree → List Tree → Bool
  | [], [] => true
  | a :: as, b :: bs => same a b && sameItems as bs
  | _, _ => false

/-- Whether all attributes of a list have an equal one of their name in another list. -/
def sameAttributes : List (String × Tree) → List (String × Tree) → Bool
  | [], _ => true
  | (name, a) :: as, bs =>
    (match bs.lookup name with
      | some b => same a b
      | none => false) && sameAttributes as bs

end

end Tree

end NamedExports
