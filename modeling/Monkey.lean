import Monkey.Session
import Monkey.Syntax.Json
import Monkey.Value.Equality
import Monkey.Value.Printer
import Monkey.Proofs.Lexing
import Monkey.Proofs.Lexemes
import Monkey.Proofs.Tolerance
import Monkey.Proofs.Grammar
import Monkey.Proofs.Step
import Monkey.Proofs.ParserRuns
import Monkey.Proofs.ParserSound
import Monkey.Proofs.ParserComplete
import Monkey.Proofs.Parsing
import Monkey.Proofs.Everywhere
import Monkey.Proofs.WellFormed
import Monkey.Proofs.RoundTrip
import Monkey.Proofs.Discipline
import Monkey.Proofs.Quoting
import Monkey.Proofs.Levels
import Monkey.Proofs.Frame
import Monkey.Proofs.Approximation
import Monkey.Proofs.Termination
import Monkey.Proofs.Reachability
import Monkey.Proofs.ReadBack
import Monkey.Proofs.Renaming
import Monkey.Proofs.Simulation
import Monkey.Proofs.Lockstep
import Monkey.Proofs.CallLimit
import Monkey.Proofs.Equivariance
import Monkey.Proofs.Confinement
import Monkey.Proofs.Watching
import Monkey.Proofs.Regime
import Monkey.Proofs.Conformity
import Monkey.Proofs.CallDepth
import Monkey.Proofs.Returns
import Monkey.Proofs.Splitting
import Monkey.Proofs.References
import Monkey.Proofs.Transparency
import Monkey.Proofs.Heap
import Monkey.Proofs.Identity
import Monkey.Proofs.Progress
import Monkey.Proofs.Places
import Monkey.Proofs.SideBySide
import Monkey.Proofs.Recovery
import Monkey.Proofs.Arithmetic
import Monkey.Proofs.Hashes
import Monkey.Proofs.Spans
import Monkey.Proofs.Nodes
import Monkey.Proofs.Relabeling
import Monkey.Proofs.Visiting
import Monkey.Proofs.Collection
import Monkey.Proofs.Hygiene
import Monkey.Proofs.Staging
import Monkey.Proofs.Handles
import Monkey.Proofs.Countdown
import Monkey.Proofs.Arrays
import Monkey.Proofs.Mapping
import Monkey.Proofs.OnDemand
