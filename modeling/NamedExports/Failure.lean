import NamedExports.Fault
import NamedExports.File.State

/-!
# Failures

The causes for which an analysis of a file or a text stops without an answer of its own.
-/

namespace NamedExports

/-- Why an analysis does not come to an end. -/
inductive Failure where
  /-- The file cannot be read. -/
  | file (fault : FileFault)
  /-- A text that is needed holds bytes that are no valid UTF-8. -/
  | notText
  /-- The tree of the module cannot be read or changed. -/
  | tree (fault : Fault)
  deriving DecidableEq, Repr

/-- What is done with a program that may have no model. -/
def Failure.ofBuilt {α : Type} (b : Built α) : Except Failure α :=
  b.mapError fun _ => .notText

/-- What is done with a tree that may be unreadable. -/
def Failure.ofTree {α : Type} (e : Except Fault α) : Except Failure α :=
  e.mapError .tree

end NamedExports
