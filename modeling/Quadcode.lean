import Quadcode.Builder.Workshop
import Quadcode.Main
import Quadcode.Proofs.Grammar.Completeness
import Quadcode.Scope.Step
import Quadcode.Proofs.Grammar.Recognition
import Quadcode.Proofs.Lowering.Fragment
import Quadcode.Proofs.Scope.Occurrence
import Quadcode.Proofs.Lowering.Correctness
import Quadcode.Proofs.Lowering.Scoping
import Quadcode.Proofs.Flow
import Quadcode.Proofs.Lowering.Initialization
import Quadcode.Proofs.Machine.Doubles
import Quadcode.Proofs.Lowering.Branching
import Quadcode.Proofs.Builder.Pending
import Quadcode.Proofs.Builder.Workshop
import Quadcode.Proofs.Builder.Lowering
import Quadcode.Proofs.Grammar.Completion
import Quadcode.Proofs.Token.Classes
import Quadcode.Proofs.Token.Lexing
import Quadcode.Proofs.Token.Layout
import Quadcode.Proofs.Binary64.Rounding
import Quadcode.Proofs.Binary64.Text
import Quadcode.Proofs.Grammar.Written
import Quadcode.Proofs.Grammar.Rendering
import Quadcode.Proofs.Places
import Quadcode.Proofs.Token.Position
import Quadcode.Proofs.Fault
import Quadcode.Proofs.Lowering.Blocks
import Quadcode.Proofs.Lowering.Temporaries
import Quadcode.Proofs.Lowering.Relocation
import Quadcode.Proofs.Token.Locality
import Quadcode.Proofs.Grammar.Signs
import Quadcode.Proofs.Grammar.Nodes
import Quadcode.Proofs.Grammar.Vocabulary
import Quadcode.Proofs.Lowering.Operands
import Quadcode.Proofs.Listing.Collision
import Quadcode.Proofs.Listing.Text
import Quadcode.Proofs.CommandLine
import Quadcode.Proofs.Builder.Backpatching
import Quadcode.Proofs.Builder.Finish
import Quadcode.Proofs.Scope.Balance
import Quadcode.Proofs.Token.Longest
import Quadcode.Proofs.Token.Boundary
