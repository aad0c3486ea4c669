import Mathlib.Data.List.Basic
import NamedExports.Command.Invocation

/-!
# Reading operands

Arguments that do not begin with a hyphen are operands.  Where they fill the operands of a command,
the command reads them in one go (`Signature.read_operands`); so a check is asked for by its name,
a file and a name (`Invocation.read_check`).
-/

namespace NamedExports.Command

variable {file name : String}

end NamedExports.Command
