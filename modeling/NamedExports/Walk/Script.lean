import NamedExports.Path.Get
import NamedExports.Walk.Basic

/-!
# Scripts

A script is a visitor given by instructions: for each type of node, what is recorded and what is
removed when a node is entered and when it is left. An instruction can be restricted to the nodes
with a label.
-/

namespace NamedExports.Script

/-- Something that is recorded during a walk. -/
structure Event where
  phase : String
  type : Tree
  label : Tree
  slot : Slot

/-- What an instruction does at a path. -/
inductive Action where
  /-- Records the node. -/
  | log
  /-- Removes the node. -/
  | remove
  /-- Removes the node above. -/
  | removeAbove
  /-- Removes what a dotted path leads to. -/
  | removeAt (dotted : String)
  /-- Removes the entry of the same list that stands at a distance. -/
  | removeNeighbour (distance : Int)
  deriving DecidableEq, Repr

/-- An action, done only at the nodes with the label if there is one. -/
structure Instruction where
  action : Action
  onlyAt : Option Tree

/-- The instructions for the nodes of one type, with the names of the phases they belong to. -/
structure Handler where
  enterPhase : String
  enter : List Instruction
  exit : List Instruction

/-- The label of a node: its name, or else the name of its value. -/
def label (node : Tree) : Tree :=
  match node.get "name" with
  | .null => (node.get "value").get "name"
  | name => name

/-- Removes the node of the one path that was found. -/
def removeFound : Found → Edit (List Event) Unit
  | .one p => Edit.remove p
  | .many _ => throw .severalPaths

/-- Does one action at a path. -/
def act (phase : String) (p : PathId) : Action → Edit (List Event) Unit
  | .log => do
    let value ← Edit.path p
    let node := (← Edit.store).tree value.node
    let type ← Edit.typeOf value.node
    Edit.note (· ++ [⟨phase, type, label node, value.slot⟩])
  | .remove => Edit.remove p
  | .removeAbove => do
    match (← Edit.path p).above with
    | some above => Edit.remove above
    | none => throw (.noAttribute "NoneType" "remove")
  | .removeAt dotted => do removeFound (← Edit.get p dotted)
  | .removeNeighbour distance => do
    let value ← Edit.path p
    match value.above, value.slot with
    | some above, .entry list index =>
      removeFound (← Edit.get above (list ++ "." ++ toString ((index : Int) + distance)))
    | some _, _ => throw .noPlace
    | none, _ => throw (.noAttribute "NoneType" "get")

/-- Does the instructions of one phase at a path, one after the other. -/
def run (phase : String) : List Instruction → PathId → Edit (List Event) Unit
  | [], _ => return
  | i :: is, p => do
    match i.onlyAt with
    | none => act phase p i.action
    | some wanted =>
      let node := (← Edit.store).tree (← Edit.path p).node
      if (label node).same wanted then act phase p i.action
    run phase is p

/-- The visitor of a script. -/
def visitor (handlers : List (String × Handler)) : Visitor (List Event) := fun type =>
  match handlers.lookup type with
  | some h => ⟨some (run h.enterPhase h.enter), some (run "exit" h.exit)⟩
  | none => .none

end NamedExports.Script
