import RtlFlow.Ast.Construct
import RtlFlow.Grammar.Sample
import RtlFlow.Grammar.Trial
import RtlFlow.Proofs.Control.Comparison
import RtlFlow.Proofs.Control.Cycles
import RtlFlow.Proofs.Design.Destinations
import RtlFlow.Proofs.Design.Feedback
import RtlFlow.Proofs.Design.GuardedAssignment
import RtlFlow.Proofs.Design.NameSearch
import RtlFlow.Proofs.Design.Temporaries
import RtlFlow.Proofs.FlatNames
import RtlFlow.Proofs.Flow.Cutting
import RtlFlow.Proofs.Flow.LogicalTruth
import RtlFlow.Proofs.Flow.Merging
import RtlFlow.Proofs.Flow.Reach
import RtlFlow.Proofs.Flow.Splitting
import RtlFlow.Proofs.Flow.Substitution
import RtlFlow.Proofs.Flow.Termination
import RtlFlow.Proofs.Renaming
import RtlFlow.Proofs.Verilog.RoundTrip
import RtlFlow.Proofs.Verilog.Respacing
import RtlFlow.Proofs.Verilog.Selections
import RtlFlow.Scanner.Trial
import RtlFlow.Text.Words
import RtlFlow.Workbench.Calls
import RtlFlow.Workbench.Sessions
import RtlFlow.Workbench.Tools
import RtlFlow.Proofs.Verilog.Integers
