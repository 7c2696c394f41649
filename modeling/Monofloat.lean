import Monofloat.CommandLine.Directory
import Monofloat.Compilation
import Monofloat.Lowering.Program
import Monofloat.Machine.Run
import Monofloat.Main
import Monofloat.Tree.Program
import Monofloat.Tree.Text
import Monofloat.Proofs.Rendering
import Monofloat.Proofs.Scanning
import Monofloat.Proofs.WellFormed
import Monofloat.Proofs.Faults
import Monofloat.Proofs.Safety
import Monofloat.Proofs.Reservations
import Monofloat.Proofs.Budget
import Monofloat.Proofs.Isolation
import Monofloat.Proofs.Initialization
import Monofloat.Proofs.Unwritten
import Monofloat.Proofs.Limits
import Monofloat.Proofs.Spacing
import Monofloat.Proofs.Excerpts
import Monofloat.Proofs.Verdict
import Monofloat.Proofs.Effects
import Monofloat.Proofs.Temporaries
import Monofloat.Proofs.Decimals
import Monofloat.Proofs.SExpressions
import Monofloat.Proofs.ProgramText
import Monofloat.Proofs.Echo
import Monofloat.Proofs.Routines
import Monofloat.Proofs.Termination
import Monofloat.Proofs.Underlines
import Monofloat.Proofs.SlotCount
import Monofloat.Proofs.StackUse
import Monofloat.Proofs.Numbering
