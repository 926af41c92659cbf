import Monotype.Main
import Monotype.Program.Tree
import Monotype.Proofs.Parsing.Printing
import Monotype.Proofs.Parsing.Viability
import Monotype.Proofs.Token.RoundTrip
import Monotype.Proofs.Typing.Applications
import Monotype.Proofs.Typing.OccursCheck
import Monotype.Proofs.Typing.Operators
import Monotype.Proofs.Typing.Order
import Monotype.Proofs.Typing.Runs
import Monotype.Proofs.Parsing.Concatenation
import Monotype.Proofs.Parsing.Parentheses
import Monotype.Proofs.Parsing.Precedence
import Monotype.Proofs.Parsing.Texts
import Monotype.Proofs.Typing.Matching
import Monotype.Proofs.Bindings.Expansion
import Monotype.Proofs.Typing.Refinement
import Monotype.Proofs.Typing.Genuine
import Monotype.Proofs.Typing.Undefined
import Monotype.Proofs.Typing.Failures
import Monotype.Proofs.Token.Format
import Monotype.Proofs.Typing.Signatures
import Monotype.Proofs.Reading.Reader
import Monotype.Proofs.Reading.Trees
import Monotype.Proofs.Reading.Types
import Monotype.Proofs.Bindings.Occurs
import Monotype.Proofs.Parsing.Locality
import Monotype.Proofs.Parsing.Progress
import Monotype.Proofs.Typing.Moments
