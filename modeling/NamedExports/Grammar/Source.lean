import NamedExports.Syntax

/-!
# Module text

The text of a module is a sequence of characters with a row for every position. It comes as bytes,
which are read as UTF-8; a byte that is no part of a valid encoding stands as a unit of its own that
is no character. Rows are counted from zero and end at line feeds only.
-/

namespace NamedExports

/-- The text of a module. -/
structure Source where
  /-- The characters, with nothing for a byte that is no part of one. -/
  units : Array (Option Char)
  /-- The row of each position, the end of the text included. -/
  rows : Array Nat
  /-- Whether the text may hold markup elements as expressions. -/
  markup : Bool

namespace Source

/-- Decodes bytes from an index on; `steps` bounds the number of units. -/
def decodeFrom (bytes : ByteArray) : (steps index : Nat) → List (Option Char)
  | 0, _ => []
  | steps + 1, index =>
    if index < bytes.size then
      match bytes.utf8DecodeChar? index with
      | some c => some c :: decodeFrom bytes steps (index + c.utf8Size)
      | none => none :: decodeFrom bytes steps (index + 1)
    else []

/-- The rows of the positions of a text that begins in the given row. -/
def rowsFrom (row : Nat) : List (Option Char) → List Nat
  | [] => [row]
  | u :: us => row :: rowsFrom (if u = some '\n' then row + 1 else row) us

/-- The text of some units. -/
def ofUnits (units : List (Option Char)) (markup : Bool) : Source where
  units := units.toArray
  rows := (rowsFrom 0 units).toArray
  markup := markup

/-- The text that bytes stand for. -/
def ofBytes (bytes : ByteArray) (markup : Bool) : Source :=
  ofUnits (decodeFrom bytes bytes.size 0) markup

/-- A text as the text of a module. -/
def ofString (text : String) (markup : Bool) : Source :=
  ofUnits (text.toList.map some) markup

/-- The number of units. -/
def size (s : Source) : Nat :=
  s.units.size

/-- What stands for a byte that is no part of a character. -/
def replacement : Char := '\ufffd'

/-- The character at a position; the end of the text has none. -/
def char? (s : Source) (position : Nat) : Option Char :=
  s.units[position]?.map (·.getD replacement)

/-- The row of a position. -/
def row (s : Source) (position : Nat) : Nat :=
  s.rows[position]?.getD (s.rows.back?.getD 0)

/-- The text between two positions, if it is text throughout. -/
def slice (s : Source) (start stop : Nat) : Option String :=
  ((s.units.extract start stop).toList.mapM id).map String.ofList

/-- Whether the given characters stand at a position. -/
def standsAt (s : Source) (position : Nat) : List Char → Bool
  | [] => true
  | c :: cs => s.char? position == some c && s.standsAt (position + 1) cs

end Source

end NamedExports
