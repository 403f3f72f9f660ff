import Reckon.Main
import Reckon.Proofs.Ir.Building
import Reckon.Proofs.Steps
import Reckon.Proofs.Ir.Reachable
import Reckon.Proofs.Compile.Operations
import Reckon.Proofs.Compile.Lowering
import Reckon.Proofs.Compile.Definitions
import Reckon.Proofs.Compile.Rollback
import Reckon.Proofs.Compile.Forward
import Reckon.Proofs.Compile.Integrity
import Reckon.Proofs.Meaning.Interpreter
import Reckon.Proofs.Meaning.Simulation
import Reckon.Proofs.Meaning.Definitions
import Reckon.Proofs.Meaning.Sessions
import Reckon.Proofs.Parsing.Climbing
import Reckon.Proofs.Parsing.Spelled
import Reckon.Proofs.Ir.Numbering
import Reckon.Proofs.Ir.Soundness
import Reckon.Proofs.Parsing.Moves
import Reckon.Proofs.Parsing.Unbounded
import Reckon.Proofs.Parsing.Completeness
import Reckon.Proofs.Parsing.Boundaries
import Reckon.Proofs.Sessions.Rounds
import Reckon.Proofs.Sessions.Resynchronisation
import Reckon.Proofs.Sessions.Endings
import Reckon.Proofs.Reading.Delivery
import Reckon.Proofs.Sessions.History
import Reckon.Proofs.Sessions.Erasure
import Reckon.Proofs.Sessions.Progress
import Reckon.Proofs.Parsing.Keywords
import Reckon.Proofs.Sessions.Announcements
import Reckon.Proofs.Parsing.Continuations
import Reckon.Proofs.Reading.Cutoffs
import Reckon.Proofs.Sessions.Continuations
import Reckon.Proofs.Sessions.Moments
import Reckon.Proofs.Sessions.ReadFailures
import Reckon.Proofs.Sessions.BadLines
import Reckon.Proofs.Sessions.WriteFailures
import Reckon.Proofs.Sessions.Voices
import Reckon.Proofs.Compile.Scoping
import Reckon.Proofs.Ir.CallGraph
import Reckon.Proofs.Ir.Wellformedness
import Reckon.Proofs.Parsing.Precedences
import Reckon.Proofs.Parsing.Viability
import Reckon.Proofs.Reading.Lexemes
import Reckon.Proofs.Reading.Streams
import Reckon.Proofs.Text.Splitting
import Reckon.Proofs.Text.Constants
import Reckon.Proofs.Text.Printing
import Reckon.Proofs.Compile.Legibility
import Reckon.Proofs.Sessions.Printed
import Reckon.Proofs.Compile.Bindings
import Reckon.Proofs.Compile.Commuting
import Reckon.Proofs.Sessions.Independence
import Reckon.Proofs.Ir.Coherence
import Reckon.Proofs.Sessions.Parameters
import Reckon.Proofs.Double.Nearest
import Reckon.Proofs.Double.Digits
import Reckon.Proofs.Text.Decoding
import Reckon.Proofs.Parsing.Progress
