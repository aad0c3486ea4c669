import NamedExports.Node.Tree
import NamedExports.Text.Digits

/-!
# Faults

What can go wrong while a tree is read, navigated or changed. Each fault is a cause with the data
that its message needs; `Fault.message` holds the wording of all of them.
-/

namespace NamedExports

/-- Why a node cannot be removed through a path. -/
inductive Refusal where
  /-- The path has removed its node before. -/
  | alreadyRemoved
  /-- The path has no node, or its node no parent. -/
  | notAttached
  /-- The list that held the node does not hold it any longer. -/
  | notInList
  /-- The field that held the node does not hold it any longer. -/
  | notInField
  deriving DecidableEq, Repr

/-- The words for a refusal. -/
def Refusal.words : Refusal → String
  | alreadyRemoved => "has already been removed"
  | notAttached => "is not attached to a parent"
  | notInList => "is no longer in its parent list"
  | notInField => "is no longer attached to its parent"

/-- The causes of a failure. -/
inductive Fault where
  /-- An attribute was read that the object does not have. -/
  | noAttribute (owner name : String)
  /-- The length was asked of something that has none. -/
  | noLength (owner : String)
  /-- The first entry was asked of something that has no entries. -/
  | noEntries (owner : String)
  /-- The entries were asked, one after the other, of something that has none. -/
  | notIterable (owner : String)
  /-- A name was looked up in a set of names, and it cannot be a member of any set. -/
  | notHashable (owner : String)
  /-- The fields were asked of something that is no node. -/
  | notNode
  /-- A neighbour was asked of something that is no entry of a list. -/
  | noPlace
  /-- One path was needed, and there were several. -/
  | severalPaths
  /-- The digits of an index cannot be read as a number. -/
  | badIndex (text : String)
  /-- The digits of an index are more than are read as a number. -/
  | longIndex (digits : Nat)
  /-- A node could not be removed; the path is given as it is written in messages. -/
  | refused (refusal : Refusal) (path : String)
  deriving DecidableEq, Repr

namespace Fault

/-- The most characters of an index that are quoted in a message. -/
def quotedLimit : Nat := 200

/-- The message of a fault. -/
def message : Fault → String
  | noAttribute owner name => s!"'{owner}' object has no attribute '{name}'"
  | noLength owner => s!"object of type '{owner}' has no len()"
  | noEntries owner => s!"'{owner}' object is not subscriptable"
  | notIterable owner => s!"'{owner}' object is not iterable"
  | notHashable owner => s!"unhashable type: '{owner}'"
  | notNode => "must be called with a dataclass type or instance"
  | noPlace => "unsupported operand type(s) for +: 'NoneType' and 'str'"
  | severalPaths => "list.remove() takes exactly one argument (0 given)"
  | badIndex text =>
    "invalid literal for int() with base 10: " ++
      String.ofList ((Text.quoted text).toList.take quotedLimit)
  | longIndex digits =>
    s!"Exceeds the limit ({Text.maxDigits} digits) for integer string conversion: " ++
      s!"value has {digits} digits; use sys.set_int_max_str_digits() to increase the limit"
  | refused refusal path => path ++ " " ++ refusal.words

end Fault

namespace Tree

/-- The attribute of the given name, which the object is required to have. -/
def read (t : Tree) (name : String) : Except Fault Tree :=
  match t.attr? name with
  | some value => .ok value
  | none => .error (.noAttribute t.owner name)

/-- The first entry of a list or text, null when it is empty. -/
def firstEntry (t : Tree) : Except Fault Tree :=
  if t.isEmpty then .ok null
  else match t with
    | list (item :: _) => .ok item
    | str value => .ok (str (String.ofList (value.toList.take 1)))
    | _ => .error (.noEntries t.owner)

/-- The entries of a list or text. -/
def iterate : Tree → Except Fault (List Tree)
  | list items => .ok items
  | str value => .ok (value.toList.map fun c => str (String.singleton c))
  | t => .error (.notIterable t.owner)

/-- The entries of a list or text; whatever is empty has none. -/
def entries (t : Tree) : Except Fault (List Tree) :=
  if t.isEmpty then .ok [] else t.iterate

/-- The number of entries of a list or text. -/
def length : Tree → Except Fault Nat
  | list items => .ok items.length
  | str value => .ok value.length
  | t => .error (.noLength t.owner)

end Tree

end NamedExports
