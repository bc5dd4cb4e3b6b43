import FiniteAutomata.Inquiry
import FiniteAutomata.Proofs.Simulation
import FiniteAutomata.Proofs.Verdict
import FiniteAutomata.Release
import FiniteAutomata.Session.Command
import FiniteAutomata.Proofs.Composition
import FiniteAutomata.Proofs.Discovery
import FiniteAutomata.Proofs.Evaluation
import FiniteAutomata.Proofs.Trace
import FiniteAutomata.Proofs.Shape
import FiniteAutomata.Proofs.Continuation
import FiniteAutomata.Proofs.Listing
import FiniteAutomata.Proofs.Persistence
import FiniteAutomata.Proofs.Independence
import FiniteAutomata.Proofs.Isomorphism
import FiniteAutomata.Proofs.Misfit
import FiniteAutomata.Proofs.FirstReading
import FiniteAutomata.Proofs.OwnSymbols
import FiniteAutomata.Proofs.Isolation
import FiniteAutomata.Proofs.Spelling
import FiniteAutomata.Proofs.Covering
import FiniteAutomata.Proofs.Rearrangement
import FiniteAutomata.Proofs.Rounds
import FiniteAutomata.Proofs.Determinism
import FiniteAutomata.Proofs.Logging
import FiniteAutomata.Proofs.Snapshot
import FiniteAutomata.Proofs.Frontier
import FiniteAutomata.Proofs.OneLoop
