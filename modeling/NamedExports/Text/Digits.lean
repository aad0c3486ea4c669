/-!
# Digits and indices

A text names an index when it consists of digits. Two classes of characters count as digits: the
decimal digits of all scripts, which stand in runs of ten from zero to nine, and further digit
characters such as superscripts and circled digits, which have no place value and so cannot be
part of a number. The classes are those of Unicode 14.
-/

namespace NamedExports.Text

/-- The zeros of the decimal digit runs, in increasing order. -/
def decimalZeros : List Nat := [
  0x30, 0x660, 0x6f0, 0x7c0, 0x966, 0x9e6, 0xa66, 0xae6, 0xb66, 0xbe6, 0xc66, 0xce6, 0xd66,
  0xde6, 0xe50, 0xed0, 0xf20, 0x1040, 0x1090, 0x17e0, 0x1810, 0x1946, 0x19d0, 0x1a80, 0x1a90,
  0x1b50, 0x1bb0, 0x1c40, 0x1c50, 0xa620, 0xa8d0, 0xa900, 0xa9d0, 0xa9f0, 0xaa50, 0xabf0,
  0xff10, 0x104a0, 0x10d30, 0x11066, 0x110f0, 0x11136, 0x111d0, 0x112f0, 0x11450, 0x114d0,
  0x11650, 0x116c0, 0x11730, 0x118e0, 0x11950, 0x11c50, 0x11d50, 0x11da0, 0x16a60, 0x16ac0,
  0x16b50, 0x1d7ce, 0x1d7d8, 0x1d7e2, 0x1d7ec, 0x1d7f6, 0x1e140, 0x1e2f0, 0x1e950, 0x1fbf0]

/-- The ranges of the digit characters without a place value, each with both ends. -/
def placelessDigits : List (Nat × Nat) := [
  (0xb2, 0xb3), (0xb9, 0xb9), (0x1369, 0x1371), (0x19da, 0x19da), (0x2070, 0x2070),
  (0x2074, 0x2079), (0x2080, 0x2089), (0x2460, 0x2468), (0x2474, 0x247c), (0x2488, 0x2490),
  (0x24ea, 0x24ea), (0x24f5, 0x24fd), (0x24ff, 0x24ff), (0x2776, 0x277e), (0x2780, 0x2788),
  (0x278a, 0x2792), (0x10a40, 0x10a43), (0x10e60, 0x10e68), (0x11052, 0x1105a),
  (0x1f100, 0x1f10a)]

/-- The place value of a decimal digit. -/
def decimalValue? (c : Char) : Option Nat :=
  (decimalZeros.find? fun start => start ≤ c.toNat ∧ c.toNat < start + 10).map (c.toNat - ·)

/-- Whether a character is a digit of either class. -/
def isDigit (c : Char) : Bool :=
  (decimalValue? c).isSome || placelessDigits.any fun r => r.1 ≤ c.toNat && c.toNat ≤ r.2

/-- The number that a list of decimal digits spells; nothing when one of them has no value. -/
def decimalNumber? (cs : List Char) : Option Nat :=
  cs.foldlM (fun n c => (decimalValue? c).map (10 * n + ·)) 0

/-- What a text says as an index. -/
inductive IndexText where
  /-- The text is empty or holds a character that is not a digit. -/
  | none
  /-- All characters are digits, and one of them has no place value. -/
  | unreadable
  /-- It begins with more decimal digits than are read as a number. -/
  | tooLong (digits : Nat)
  /-- An index. -/
  | index (n : Nat)
  deriving DecidableEq, Repr

/-- The most digits that are read as a number. -/
def maxDigits : Nat := 4300

/-- The number of decimal digits that a list of characters begins with. -/
def leadingDigits (cs : List Char) : Nat :=
  (cs.takeWhile fun c => (decimalValue? c).isSome).length

/-- Reads a text as an index. The decimal digits are counted before the number is read. -/
def readIndex (text : String) : IndexText :=
  let cs := text.toList
  if cs.isEmpty || !cs.all isDigit then .none
  else if maxDigits < leadingDigits cs then .tooLong (leadingDigits cs)
  else match decimalNumber? cs with
    | some n => .index n
    | Option.none => .unreadable

end NamedExports.Text
