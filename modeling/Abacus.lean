import Abacus.Lowering.Workbench
import Abacus.Main
import Abacus.Proofs.Lowering.Units
import Abacus.Proofs.Lowering.Flags
import Abacus.Tree.Arena
import Abacus.Tree.Printer
import Abacus.Proofs.Flow.Verifying
import Abacus.Proofs.Machine.Nesting
import Abacus.Proofs.Machine.Fuel
import Abacus.Proofs.Meaning.Loops
import Abacus.Proofs.Machine.Definedness
import Abacus.Proofs.Session.Histories
import Abacus.Proofs.Session.UnitNames
import Abacus.Proofs.Naming.Emission
import Abacus.Proofs.Session.Batches
import Abacus.Proofs.Pairing.Locality
import Abacus.Proofs.Source.Comments
import Abacus.Proofs.Grammar.RoundTrip
import Abacus.Proofs.Grammar.Exactness
import Abacus.Proofs.Meaning.Statements
import Abacus.Proofs.Meaning.Functions
import Abacus.Proofs.Meaning.Programs
import Abacus.Proofs.Listing.Determined
import Abacus.Proofs.Checked.Units
import Abacus.Proofs.Variables.Agreement
import Abacus.Proofs.Variables.Stability
import Abacus.Proofs.Variables.Joins
import Abacus.Proofs.Lowering.Drafts
import Abacus.Proofs.Faults.Protocol
import Abacus.Proofs.Lowering.Searching
import Abacus.Proofs.Lowering.CallSites
import Abacus.Proofs.Renaming.Units
import Abacus.Proofs.Source.Bracketing
import Abacus.Proofs.Source.Longest
import Abacus.Proofs.Source.Coverage
import Abacus.Proofs.Tree.PostOrder
import Abacus.Proofs.Tree.Storing
import Abacus.Proofs.Tree.Nesting
import Abacus.Proofs.Tree.Progress
import Abacus.Proofs.Tree.Rounds
import Abacus.Proofs.Tree.Termination
import Abacus.Proofs.Machine.Entering
import Abacus.Proofs.Symbols.Histories
import Abacus.Proofs.Tree.Depth
