import NamedExports.Path.Basic

/-!
# Removing nodes through paths

A node is removed from the place that its path names. An entry of a list is looked for by identity,
because entries before it may have gone since the path was taken: the index of the path is tried
first, then the list from its beginning. A field is set to null if it still holds the node. The
path notes the removal and, for an entry, the index at which the node was found; a path that cannot
remove its node changes nothing.
-/

namespace NamedExports

variable {σ : Type}

namespace Path

/-- The index at which a list holds a value, the hint tried first. -/
def currentIndex? (values : List Atom) (node : Atom) (hint : Nat) : Option Nat :=
  if values[hint]? = some node then some hint else values.findIdx? (· = node)

end Path

namespace Edit

/-- Removes the node of a path from the place that the path names. -/
def remove (p : PathId) : Edit σ Unit := do
  let value ← path p
  let above ← parent p
  let s ← store
  if value.removed then refuse p .alreadyRemoved
  else if value.node = .null ∨ above = .null then refuse p .notAttached
  else match above, value.slot with
    | .ref owner, .entry list hint =>
      match Path.currentIndex? (s.entries above list) value.node hint with
      | none => refuse p .notInList
      | some index =>
        setStore (s.eraseEntry owner list index)
        setPath p { value with slot := .entry list index, removed := true }
    | .ref owner, .field name =>
      if s.attr? above name = some (.atom value.node) then
        setStore (s.clearAttr owner name)
        setPath p { value with removed := true }
      else refuse p .notInField
    | _, _ => refuse p .notAttached

end Edit

end NamedExports
