import NamedExports.Fault
import NamedExports.Node.Store

/-!
# Paths to nodes

A path leads to a value of a tree: it knows the value, the path of the object that the value hung
in when the path was taken, and the place there. Paths are held while the tree changes, and a
removal is noted on the path that it went through, so paths have identities of their own. A store
together with the paths into it is a workspace; what is done to it is an `Edit`, which either
succeeds or stops at a fault with the changes made up to then.
-/

namespace NamedExports

/-- The identity of a path. -/
structure PathId where
  index : Nat
  deriving DecidableEq, Repr

/-- The place of a value in the object above it. -/
inductive Slot where
  /-- No place: the path of a start node, or of a step that leads nowhere. -/
  | nowhere
  /-- The value of a field. -/
  | field (name : String)
  /-- An entry of a list, with its index when the path was taken. -/
  | entry (list : String) (index : Nat)
  deriving DecidableEq, Repr

/-- A path to a value. -/
structure Path where
  node : Atom
  above : Option PathId
  slot : Slot
  removed : Bool
  deriving DecidableEq, Repr

/-- A tree with the paths into it and notes of any kind. -/
structure Workspace (σ : Type) where
  store : Store
  paths : Array Path
  notes : σ

/-- Something done to a workspace, which may stop at a fault. -/
abbrev Edit (σ : Type) := EStateM Fault (Workspace σ)

namespace Path

/-- The path to a value that nothing is known to lie above. -/
def start (node : Atom) : Path where
  node := node
  above := none
  slot := .nowhere
  removed := false

/-- A path that leads to nothing, below the given one if there is one. -/
def missing (above : Option PathId) : Path where
  node := .null
  above := above
  slot := .nowhere
  removed := false

/-- The path to the value of a field. -/
def ofField (node : Atom) (above : PathId) (name : String) : Path where
  node := node
  above := some above
  slot := .field name
  removed := false

/-- The path to an entry of a list. -/
def ofEntry (node : Atom) (above : PathId) (list : String) (index : Nat) : Path where
  node := node
  above := some above
  slot := .entry list index
  removed := false

end Path

namespace Slot

/-- The key of a place as it is written in messages. -/
def written : Slot → String
  | nowhere => "None"
  | field name => Text.quoted name
  | entry _ index => toString index

end Slot

variable {σ : Type}

namespace Workspace

/-- A workspace with a store and no paths. -/
def ofStore (store : Store) (notes : σ) : Workspace σ where
  store := store
  paths := #[]
  notes := notes

/-- The path of an identity; an identity that was never given leads nowhere. -/
def path (w : Workspace σ) (p : PathId) : Path :=
  w.paths[p.index]?.getD (Path.missing none)

/-- The value that lies above a path. -/
def parent (w : Workspace σ) (p : PathId) : Atom :=
  match (w.path p).above with
  | some above => (w.path above).node
  | none => .null

end Workspace

namespace Edit

/-- The tree as it is now. -/
def store : Edit σ Store :=
  return (← get).store

/-- A path as it is now. -/
def path (p : PathId) : Edit σ Path :=
  return (← get).path p

/-- The value above a path. -/
def parent (p : PathId) : Edit σ Atom :=
  return (← get).parent p

/-- Changes the tree. -/
def setStore (s : Store) : Edit σ Unit :=
  modify fun w => { w with store := s }

/-- Changes what is known of a path. -/
def setPath (p : PathId) (value : Path) : Edit σ Unit :=
  modify fun w => { w with paths := w.paths.setIfInBounds p.index value }

/-- Takes a new path. -/
def newPath (value : Path) : Edit σ PathId :=
  modifyGet fun w => (⟨w.paths.size⟩, { w with paths := w.paths.push value })

/-- Changes the notes. -/
def note (f : σ → σ) : Edit σ Unit :=
  modify fun w => { w with notes := f w.notes }

/-- What is done with the outcome of reading a tree. -/
def ofExcept {α : Type} : Except Fault α → Edit σ α
  | .ok value => pure value
  | .error fault => throw fault

/-- The type of the value at a path, which has to say what it is. -/
def typeOf (a : Atom) : Edit σ Tree := do
  let s ← store
  match s.attr? a "type" with
  | some (.atom value) => return s.tree value
  | some (.items values) => return .list (values.map s.tree)
  | none => throw (.noAttribute (s.tree a).owner "type")

/-- A path as it is written in messages: the type of its node and the key of its place. -/
def written (p : PathId) : Edit σ String := do
  let value ← path p
  let type ← match value.node with
    | .null => pure Tree.null
    | node => typeOf node
  return s!"NodePath({type.written}, key={value.slot.written})"

/-- Stops because a node cannot be removed through a path. -/
def refuse (p : PathId) (refusal : Refusal) : Edit σ Unit := do
  throw (.refused refusal (← written p))

end Edit

end NamedExports
