/-!
# Payloads

The content of a request is a value in the usual notation for data. Reading one either gives the
value or the position at which the text cannot go on. A text in a payload can hold half of a pair of
surrogates, and is then no text. Numbers that are not finite have names of their own.
-/

namespace NamedExports.Service

/-- A number of a payload. -/
inductive Number where
  | integer (value : Int)
  /-- A decimal number: `digits` times ten to the power of `exponent`. -/
  | decimal (digits exponent : Int)
  | notFinite
  deriving DecidableEq, Repr

/-- A value of a payload. -/
inductive Payload where
  | null
  | bool (value : Bool)
  | number (value : Number)
  /-- A text, absent if it holds half of a pair of surrogates. -/
  | text (value : Option String)
  | list (items : List Payload)
  /-- Named values; of two values of one name the last one counts, and stands first. -/
  | object (fields : List (Option String × Payload))
  deriving Inhabited

namespace Payload

/-- Why a text is no payload. -/
inductive Trouble where
  /-- The text cannot go on at a position. -/
  | at (position : Nat)
  /-- An integer has more digits than are read. -/
  | tooManyDigits
  deriving DecidableEq, Repr

/-- The outcome of reading a piece of a text from a position on: the piece and the position after
it. -/
abbrev Piece (α : Type) := Except Trouble (α × Nat)

/-- The most digits of an integer. -/
def digitLimit : Nat := 4300

/-- Whether a character can stand between values. -/
def isBlank (c : Char) : Bool :=
  c = ' ' || c = '\t' || c = '\n' || c = '\r'

/-- The first position from the given one on whose character is not of a class, `steps` positions
later at most. -/
def skip (s : Array Char) (p : Char → Bool) : (steps i : Nat) → Nat
  | 0, i => i
  | steps + 1, i =>
    match s[i]? with
    | some c => if p c then skip s p steps (i + 1) else i
    | none => i

/-- The position of the next character that is no blank. -/
def pastBlanks (s : Array Char) (i : Nat) : Nat :=
  skip s isBlank s.size i

/-- Whether the given characters stand at a position. -/
def standsAt (s : Array Char) (i : Nat) : List Char → Bool
  | [] => true
  | c :: cs => s[i]? == some c && standsAt s (i + 1) cs

/-! ### Texts -/

/-- The value of a hexadecimal digit. -/
def hexValue? (c : Char) : Option Nat :=
  if c.isDigit then some (c.toNat - 48)
  else if 'a' ≤ c && c ≤ 'f' then some (c.toNat - 87)
  else if 'A' ≤ c && c ≤ 'F' then some (c.toNat - 55)
  else none

/-- The number that the four hexadecimal digits at a position spell. -/
def hex? (s : Array Char) (i : Nat) : Option Nat := do
  let mut n := 0
  for d in [0, 1, 2, 3] do
    n := 16 * n + (← hexValue? (← s[i + d]?))
  return n

/-- What the character after a backslash stands for. -/
def escaped? (c : Char) : Option Char :=
  [('\x22', '\x22'), ('\\', '\\'), ('/', '/'), ('b', '\x08'), ('f', '\x0c'), ('n', '\n'),
    ('r', '\r'), ('t', '\t')].lookup c

/-- The character of a pair of surrogates. -/
def paired (high low : Nat) : Char :=
  Char.ofNat (0x10000 + (high - 0xd800) * 0x400 + (low - 0xdc00))

/-- Whether a number is the first half of a pair of surrogates. -/
def isHigh (n : Nat) : Bool := 0xd800 ≤ n && n < 0xdc00

/-- Whether a number is the second half of a pair of surrogates. -/
def isLow (n : Nat) : Bool := 0xdc00 ≤ n && n < 0xe000

/-- Reads the character that is written by its code after a backslash and a letter, the letter being
at the position. Half of a pair is no character. -/
def codePoint (s : Array Char) (i : Nat) : Piece (Option Char) :=
  match hex? s (i + 1) with
  | none => .error (.at i)
  | some n =>
    if s.size ≤ i + 5 then .error (.at i)
    else if isHigh n && i + 11 < s.size && standsAt s (i + 5) ['\\', 'u'] then
      match hex? s (i + 7) with
      | none => .error (.at (i + 6))
      | some m => if isLow m then .ok (some (paired n m), i + 11) else .ok (none, i + 5)
    else .ok (if isHigh n || isLow n then none else some (Char.ofNat n), i + 5)

/-- Reads a text from a position on, the quote that begins it being at `start`; `chars` are the
characters before, the last one first, and `whole` says that all of them are characters. -/
def textFrom (s : Array Char) (start : Nat) :
    (steps i : Nat) → (chars : List Char) → (whole : Bool) → Piece (Option String)
  | 0, _, _, _ => .error (.at start)
  | steps + 1, i, chars, whole =>
    match s[i]? with
    | none => .error (.at start)
    | some '\x22' =>
      .ok (if whole then some (String.ofList chars.reverse) else none, i + 1)
    | some '\\' =>
      match s[i + 1]? with
      | none => .error (.at start)
      | some 'u' =>
        match codePoint s (i + 1) with
        | .error trouble => .error trouble
        | .ok (some c, j) => textFrom s start steps j (c :: chars) whole
        | .ok (none, j) => textFrom s start steps j chars false
      | some c =>
        match escaped? c with
        | some e => textFrom s start steps (i + 2) (e :: chars) whole
        | none => .error (.at i)
    | some c =>
      if c < ' ' then .error (.at i) else textFrom s start steps (i + 1) (c :: chars) whole

/-- Reads a text whose first quote is at the position. -/
def text? (s : Array Char) (i : Nat) : Piece (Option String) :=
  textFrom s i (s.size + 1) (i + 1) [] true

/-! ### Numbers and words -/

/-- The number that the digits between two positions spell. -/
def digitsBetween (s : Array Char) (start stop : Nat) : Nat :=
  (s.extract start stop).foldl (fun n c => 10 * n + (c.toNat - 48)) 0

/-- The position after the fraction that begins at a position, if one does. -/
def fractionEnd (s : Array Char) (i : Nat) : Nat :=
  if s[i]? == some '.' && ((s[i + 1]?).map Char.isDigit).getD false then
    skip s Char.isDigit s.size (i + 1)
  else i

/-- The power of ten that begins at a position and the position after it, if one does. -/
def powerAt (s : Array Char) (i : Nat) : Option (Int × Nat) :=
  if s[i]? == some 'e' || s[i]? == some 'E' then
    let negative := s[i + 1]? == some '-'
    let start := if negative || s[i + 1]? == some '+' then i + 2 else i + 1
    let stop := skip s Char.isDigit s.size start
    if start < stop then
      let n : Int := digitsBetween s start stop
      some (if negative then -n else n, stop)
    else none
  else none

/-- Reads a number. -/
def number? (s : Array Char) (i : Nat) : Piece Number :=
  let negative := s[i]? == some '-'
  let start := if negative then i + 1 else i
  match s[start]? with
  | none => .error (.at i)
  | some c =>
    if !c.isDigit then .error (.at i)
    else
      let stop := if c = '0' then start + 1 else skip s Char.isDigit s.size start
      let fraction := fractionEnd s stop
      let signed (n : Nat) : Int := if negative then -(n : Int) else n
      let whole := digitsBetween s start stop
      match powerAt s fraction with
      | some (power, after) =>
        let places := fraction - stop - 1
        let digits := whole * Nat.pow 10 places + digitsBetween s (stop + 1) fraction
        .ok (.decimal (signed digits) (power - places), after)
      | none =>
        if stop < fraction then
          let places := fraction - stop - 1
          let digits := whole * Nat.pow 10 places + digitsBetween s (stop + 1) fraction
          .ok (.decimal (signed digits) (-(places : Int)), fraction)
        else if digitLimit < stop - start then .error .tooManyDigits
        else .ok (.integer (signed whole), stop)

/-- The words that stand for values. -/
def words : List (String × Payload) :=
  [("null", null), ("true", bool true), ("false", bool false), ("NaN", number .notFinite),
    ("Infinity", number .notFinite), ("-Infinity", number .notFinite)]

/-- Reads a word or a number. -/
def simple (s : Array Char) (i : Nat) : Piece Payload :=
  match words.find? fun w => standsAt s i w.1.toList with
  | some w => .ok (w.2, i + w.1.length)
  | none => (number? s i).map fun (n, j) => (number n, j)

/-! ### Lists and objects -/

/-- Reads the items of a list from the position of one, each with the given reading; `steps` bounds
their number. -/
def itemsFrom (s : Array Char) (value : Nat → Piece Payload) :
    (steps i : Nat) → Except Trouble (List Payload × Nat)
  | 0, i => .error (.at i)
  | steps + 1, i => do
    let (first, j) ← value i
    let j := pastBlanks s j
    if s[j]? == some ']' then return ([first], j + 1)
    else if s[j]? == some ',' then
      let (others, k) ← itemsFrom s value steps (pastBlanks s (j + 1))
      return (first :: others, k)
    else .error (.at j)

/-- Reads the fields of an object from the position of a name, each value with the given reading;
`steps` bounds their number. -/
def fieldsFrom (s : Array Char) (value : Nat → Piece Payload) :
    (steps i : Nat) → (before : List (Option String × Payload)) →
      Except Trouble (List (Option String × Payload) × Nat)
  | 0, i, _ => .error (.at i)
  | steps + 1, i, before => do
    if s[i]? != some '\x22' then .error (.at i)
    let (name, j) ← text? s i
    let j := pastBlanks s j
    if s[j]? != some ':' then .error (.at j)
    let (v, j) ← value (pastBlanks s (j + 1))
    let fields := (name, v) :: before
    let j := pastBlanks s j
    if s[j]? == some '\x7d' then return (fields, j + 1)
    else if s[j]? == some ',' then fieldsFrom s value steps (pastBlanks s (j + 1)) fields
    else .error (.at j)

/-- Reads a value at a position, down to the given depth. -/
def value (s : Array Char) : (depth i : Nat) → Piece Payload
  | 0, i => .error (.at i)
  | depth + 1, i =>
    match s[i]? with
    | none => .error (.at i)
    | some '\x22' => (text? s i).map fun (t, j) => (text t, j)
    | some '[' =>
      let j := pastBlanks s (i + 1)
      if s[j]? == some ']' then .ok (list [], j + 1)
      else (itemsFrom s (value s depth) (s.size + 1) j).map fun (items, k) => (list items, k)
    | some '\x7b' =>
      let j := pastBlanks s (i + 1)
      if s[j]? == some '\x7d' then .ok (object [], j + 1)
      else (fieldsFrom s (value s depth) (s.size + 1) j []).map fun (fields, k) =>
        (object fields, k)
    | some _ => simple s i

/-- Reads a whole text; a mark of the byte order in front of it is no part of it. -/
def ofText (content : String) : Except Trouble Payload := do
  let chars := content.toList
  let s := (if chars.head? = some '\ufeff' then chars.drop 1 else chars).toArray
  let (v, i) ← value s (s.size + 1) (pastBlanks s 0)
  let stop := pastBlanks s i
  if stop < s.size then .error (.at stop) else return v

/-- The value of a name in an object. -/
def field? : Payload → String → Option Payload
  | object fields, name => fields.lookup (some name)
  | _, _ => none

end Payload

end NamedExports.Service
