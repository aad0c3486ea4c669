import NamedExports.Log
import NamedExports.Node.Load
import NamedExports.Program.Statement

/-!
# Programs that can be changed

A program is modelled once from the syntax of a module and then changed in place, so it is kept in
a store of its own.
-/

namespace NamedExports

/-- A program with a store of its own. -/
structure Program where
  store : Store
  root : Atom

namespace Program

/-- A program that is given as a tree. -/
def ofTree (t : Tree) : Program where
  store := (Store.ofTree t).1
  root := (Store.ofTree t).2

/-- A program written out. -/
def tree (p : Program) : Tree :=
  p.store.tree p.root

end Program

namespace Module

/-- A program as it is modelled from a module. -/
def program (m : Module) : Built Program :=
  return .ofTree (← m.root.toProgram)

/-- What is reported when a module is read. -/
def log (m : Module) : List Log.Entry :=
  if m.damaged then [.partialModule] else []

end Module

end NamedExports
