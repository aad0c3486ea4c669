/-!
# File paths

A path is a root and the names below it. Reading a path drops empty names and single dots; double
dots stay, because what they lead to depends on the directories that are there. `FilePath.absolute`
takes a path from a directory on and resolves the double dots by the names alone.
-/

namespace NamedExports

/-- A path of names from a root; the root of a relative path is empty. -/
structure FilePath where
  root : String
  names : List String
  deriving DecidableEq, Repr

namespace FilePath

/-- The texts between the slashes of a list of characters. -/
def pieces : List Char → List (List Char)
  | [] => [[]]
  | c :: cs =>
    if c = '/' then [] :: pieces cs
    else match pieces cs with
      | [] => [[c]]
      | p :: ps => (c :: p) :: ps

/-- The names of a path, empty ones and single dots left out. -/
def namesOf (text : String) : List String :=
  ((pieces text.toList).map String.ofList).filter fun name => name != "" && name != "."

/-- The root of a path: two slashes in front are a root of their own, three or more are one. -/
def rootOf (text : String) : String :=
  match (text.toList.takeWhile (· = '/')).length with
  | 0 => ""
  | 2 => "//"
  | _ => "/"

/-- Reads a path. -/
def ofString (text : String) : FilePath where
  root := rootOf text
  names := namesOf text

/-- The text of a path. -/
def text (p : FilePath) : String :=
  if p.root = "" ∧ p.names = [] then "." else p.root ++ "/".intercalate p.names

/-- Whether a path starts at a root. -/
def isAbsolute (p : FilePath) : Bool :=
  p.root != ""

/-- The last name of a path. -/
def name (p : FilePath) : String :=
  (p.names.getLast?).getD ""

/-- What a name ends with from its last dot on. A dot at either end of the name begins nothing. -/
def suffixOf (name : String) : String :=
  let tail := (name.toList.reverse.takeWhile (· ≠ '.')).reverse
  let head := name.toList.length - tail.length
  if tail.isEmpty ∨ head ≤ 1 then "" else String.ofList ('.' :: tail)

/-- The suffix of the last name. -/
def suffix (p : FilePath) : String :=
  suffixOf p.name

/-- The names that are left, the innermost first, when double dots take back the name before
them; those that have nothing to take back are dropped. -/
def resolved : List String → (above : List String) → List String
  | [], above => above
  | name :: names, above =>
    if name = ".." then resolved names above.tail else resolved names (name :: above)

/-- A path taken from a directory on, without double dots. -/
def absolute (directory : FilePath) (text : String) : FilePath :=
  let p := ofString text
  let start := if p.isAbsolute then p else ⟨directory.root, directory.names ++ p.names⟩
  ⟨start.root, (resolved start.names []).reverse⟩

end FilePath

end NamedExports
