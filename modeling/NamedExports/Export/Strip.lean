import NamedExports.Path.Get
import NamedExports.Walk.Basic

/-!
# Stripping destructured properties

Stripping drops, from every object pattern that a walk enters, the properties that bind one of some
names. The entries of a pattern are looked at by index: when one is dropped the next one has moved
to its index, so the index stays, and it goes forward otherwise.
-/

namespace NamedExports

variable {σ : Type}

namespace Strip

/-- Whether the name of an identifier is one of some names; a name that is an object or a list
cannot be asked for. -/
def isAmong (names : List String) : Tree → Except Fault Bool
  | .str name => .ok (names.contains name)
  | t@(.list _) | t@(.node _ _) => .error (.notHashable t.owner)
  | _ => .ok false

/-- Whether an entry of an object pattern is a property that binds one of some names. -/
def binds (names : List String) (entry : Tree) : Except Fault Bool :=
  let value := entry.get "value"
  if entry.hasType "ObjectProperty" && value.hasType "Identifier" then
    isAmong names (value.get "name")
  else .ok false

/-- Drops the properties of a pattern that bind one of some names, from an index on; `steps` bounds
the number of entries looked at. -/
def properties (names : List String) (p : PathId) : (steps index : Nat) → Edit σ Unit
  | 0, _ => return
  | steps + 1, index => do
    let pattern := (← Edit.path p).node
    let s ← Edit.store
    match (s.entries pattern "properties")[index]? with
    | none => return
    | some entry =>
      if ← Edit.ofExcept (binds names (s.tree entry)) then
        match ← Edit.get p s!"properties.{index}" with
        | .one q =>
          Edit.remove q
          properties names p steps index
        | .many _ => properties names p steps (index + 1)
      else properties names p steps (index + 1)

/-- Drops the properties of the pattern at a path that bind one of some names. -/
def pattern (names : List String) (p : PathId) : Edit σ Unit := do
  let node := (← Edit.store).tree (← Edit.path p).node
  let count ← Edit.ofExcept (node.read "properties" >>= Tree.length)
  properties names p count 0

/-- The visitor that strips every object pattern it enters. -/
def visitor (names : List String) : Visitor σ := fun type =>
  if type = "ObjectPattern" then .onEnter (pattern names) else .none

end Strip

namespace Edit

/-- Strips the object patterns below the node of a path. -/
def stripBelow (names : List String) (p : PathId) : Edit σ Unit :=
  walkBelow (Strip.visitor names) p

/-- Strips the object patterns at and below a value. -/
def strip (names : List String) (node : Atom) : Edit σ Unit :=
  walk (Strip.visitor names) node

end Edit

end NamedExports
