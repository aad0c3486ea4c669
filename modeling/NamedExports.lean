import NamedExports.File.Directory
import NamedExports.Main
import NamedExports.Proofs.Export.Exclusive
import NamedExports.Proofs.Path.Resolve
import NamedExports.Proofs.Program.Analysis
import NamedExports.Proofs.Program.Names
import NamedExports.Proofs.Program.Reads
import NamedExports.Proofs.Service.Agreement
import NamedExports.Proofs.Strip.Outcome
import NamedExports.Proofs.Strip.Account
import NamedExports.Proofs.Strip.Forms
import NamedExports.Proofs.Strip.Legible
import NamedExports.Proofs.Strip.Lines
import NamedExports.Proofs.Strip.Report
import NamedExports.Proofs.Strip.Scope
import NamedExports.Proofs.Walk.Address
import NamedExports.Proofs.Walk.Removals
import NamedExports.Walk.Script
