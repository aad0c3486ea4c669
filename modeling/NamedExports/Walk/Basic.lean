import NamedExports.Path.Remove

/-!
# Walking a tree

A walk visits the nodes below a start node in the order of their fields, and of the entries within
a list. A visitor says for each type of node what is done when the node is entered and when it is
left; both may change the tree. A walk goes through the tree as it is at each moment:

* a list is read anew after every visit. The walk goes on to the next index if the entry it has
  just visited is still where it was, and otherwise looks at the same index again;
* nothing below a node is visited, and the node is not left, once the path that the walk took to
  the node has removed it.

Lists only lose entries, so every visit either moves the index forward or finds the list shorter,
and a list is done after at most as many visits as it had entries at the start.
-/

namespace NamedExports

variable {σ : Type}

/-- What a visitor does at the nodes of one type. -/
structure Hooks (σ : Type) where
  enter : Option (PathId → Edit σ Unit)
  exit : Option (PathId → Edit σ Unit)

/-- What a visitor does at the nodes of each type. -/
abbrev Visitor (σ : Type) := String → Hooks σ

namespace Hooks

/-- Nothing is done. -/
def none : Hooks σ where
  enter := Option.none
  exit := Option.none

/-- Something is done when a node is entered. -/
def onEnter (f : PathId → Edit σ Unit) : Hooks σ where
  enter := some f
  exit := Option.none

end Hooks

namespace Walk

/-- What a visitor does at nodes of a type; a type that is no text has nothing done. -/
def hooks (v : Visitor σ) : Tree → Hooks σ
  | .str type => v type
  | _ => .none

/-- Visits the entries of a list from an index on; `visits` bounds the number of entries looked
at. -/
def entries (visit : PathId → Edit σ Unit) (above : PathId) (owner : Atom) (list : String) :
    (visits index : Nat) → Edit σ Unit
  | 0, _ => return
  | visits + 1, index => do
    match ((← Edit.store).entries owner list)[index]? with
    | none => return
    | some value =>
      if (← Edit.store).isNode value then
        visit (← Edit.newPath (.ofEntry value above list index))
        if ((← Edit.store).entries owner list)[index]? = some value then
          entries visit above owner list visits (index + 1)
        else entries visit above owner list visits index
      else entries visit above owner list visits (index + 1)

/-- Visits what a field holds at the moment. -/
def field (visit : PathId → Edit σ Unit) (above : PathId) (owner : Atom) (name : String) :
    Edit σ Unit := do
  match (← Edit.store).attr? owner name with
  | some (.items values) => entries visit above owner name values.length 0
  | some (.atom value) =>
    if (← Edit.store).isNode value then
      visit (← Edit.newPath (.ofField value above name))
  | none => return

/-- Visits the fields of a node one after the other. -/
def fields (visit : PathId → Edit σ Unit) (above : PathId) (owner : Atom) :
    List String → Edit σ Unit
  | [] => return
  | name :: names => do
    field visit above owner name
    fields visit above owner names

/-- Visits what hangs directly below a path, whose value has to be a node. -/
def children (visit : PathId → Edit σ Unit) (p : PathId) : Edit σ Unit := do
  let node := (← Edit.path p).node
  match ((← Edit.store).shape? node).bind Shape.fields? with
  | some names => fields visit p node names
  | none => throw .notNode

/-- Does what a visitor does at a path, if anything. -/
def call (hook : Option (PathId → Edit σ Unit)) (p : PathId) : Edit σ Unit :=
  match hook with
  | some f => f p
  | none => return

/-- Visits a node and what hangs below it, down to the given depth. -/
def visit (v : Visitor σ) : (depth : Nat) → PathId → Edit σ Unit
  | 0, _ => return
  | depth + 1, p => do
    let h := hooks v (← Edit.typeOf (← Edit.path p).node)
    call h.enter p
    if (← Edit.path p).removed then return
    children (visit v depth) p
    if (← Edit.path p).removed then return
    call h.exit p

end Walk

namespace Edit

/-- Walks what lies below the node of a path, but not the node itself. -/
def walkBelow (v : Visitor σ) (p : PathId) : Edit σ Unit := do
  let value ← path p
  if value.node = .null ∨ value.removed then return
  Walk.children (Walk.visit v (← store).size) p

/-- Walks a value and what lies below it, from a new path. -/
def walk (v : Visitor σ) (node : Atom) : Edit σ Unit := do
  let p ← newPath (.start node)
  Walk.visit v ((← store).size + 1) p

end Edit

end NamedExports
