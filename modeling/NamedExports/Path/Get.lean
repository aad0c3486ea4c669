import NamedExports.Path.Basic
import NamedExports.Text.Digits
import NamedExports.Text.Dotted

/-!
# Navigating by dotted paths

A dotted path is followed part by part. From a value a part is the name of an attribute; a list
attribute leads to the paths of all its entries, and the next part chooses one of them by its
index. A part that leads nowhere gives a path to nothing, and so do all parts after it. Names that
begin with an underscore lead nowhere.
-/

namespace NamedExports

variable {σ : Type}

/-- What a dotted path leads to: one path, or the paths of the entries of a list. -/
inductive Found where
  | one (path : PathId)
  | many (paths : List PathId)
  deriving DecidableEq, Repr

namespace Edit

/-- Takes the paths of the entries of a list, of which the first has the given index. -/
def entryPaths (above : PathId) (list : String) : (index : Nat) → List Atom → Edit σ (List PathId)
  | _, [] => return []
  | index, value :: values => do
    let p ← newPath (.ofEntry value above list index)
    return p :: (← entryPaths above list (index + 1) values)

/-- Follows a part from one path. -/
def step (p : PathId) (part : String) : Edit σ Found := do
  let node := (← path p).node
  let s ← store
  if part.startsWith "_" then
    return .one (← newPath (.missing (some p)))
  else match s.attr? node part with
    | none => return .one (← newPath (.missing (some p)))
    | some (.atom value) => return .one (← newPath (.ofField value p part))
    | some (.items values) => return .many (← entryPaths p part 0 values)

/-- Chooses the entry of a list that a part names; `none` when there is no such entry. -/
def choose (paths : List PathId) (part : String) : Edit σ (Option PathId) :=
  match Text.readIndex part with
  | .none => return none
  | .unreadable => throw (.badIndex part)
  | .tooLong digits => throw (.longIndex digits)
  | .index n => return paths[n]?

/-- Follows parts from what has been reached so far. -/
def follow : Found → List String → Edit σ Found
  | found, [] => return found
  | .one p, part :: parts => do follow (← step p part) parts
  | .many paths, part :: parts => do
    match ← choose paths part with
    | some p => follow (.one p) parts
    | none => return .one (← newPath (.missing none))

/-- Follows a dotted path. -/
def get (p : PathId) (dotted : String) : Edit σ Found :=
  follow (.one p) (Text.dotted dotted)

end Edit

end NamedExports
