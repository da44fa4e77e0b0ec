import PatternMachine.Expression.Denotation
import PatternMachine.Main
import PatternMachine.Pattern.Grammar
import PatternMachine.Program.Run
import PatternMachine.Proofs.CommandLine.Filtering
import PatternMachine.Proofs.Completion
import PatternMachine.Proofs.Composition
import PatternMachine.Proofs.Expression.Compilation
import PatternMachine.Proofs.Expression.Coverage
import PatternMachine.Proofs.Expression.Decompilation
import PatternMachine.Proofs.Expression.Emission
import PatternMachine.Proofs.Expression.Normalization
import PatternMachine.Proofs.Expression.OutlineLines
import PatternMachine.Proofs.Expression.Outlines
import PatternMachine.Proofs.Expression.Terms
import PatternMachine.Proofs.Matching
import PatternMachine.Proofs.Pattern.Captures
import PatternMachine.Proofs.Pattern.Comparison
import PatternMachine.Proofs.Pattern.Conservation
import PatternMachine.Proofs.Pattern.Renaming
import PatternMachine.Proofs.Pattern.StackContents
import PatternMachine.Proofs.Program.Guarded
import PatternMachine.Proofs.Program.History
import PatternMachine.Proofs.Program.Listing
import PatternMachine.Proofs.Program.Priority
import PatternMachine.Proofs.Program.Reachability
import PatternMachine.Proofs.Program.Visiting
