import Abstraction.State.Combine
import Abstraction.State.Transfer
import Abstraction.Version
import Abstraction.Proofs.UpperBounds.Ordered
import Abstraction.Proofs.Pentagon.Soundness
import Abstraction.Proofs.Pentagon.Order
import Abstraction.Proofs.Pentagon.Bounds
import Abstraction.Proofs.Congruence.Members
import Abstraction.Proofs.Congruence.Arithmetic
import Abstraction.Proofs.Interval.Order
import Abstraction.Proofs.Environment.Order
import Abstraction.Proofs.Environment.Expressions
import Abstraction.Proofs.UpperBounds.Lattice
import Abstraction.Proofs.Environment.Lattice
import Abstraction.Proofs.Pentagon.Lattice
import Abstraction.Proofs.Pentagon.Laws
import Abstraction.Proofs.Pentagon.Narrowing
import Abstraction.Proofs.Faults
import Abstraction.Proofs.Reached
import Abstraction.Proofs.Pentagon.Halves
import Abstraction.Proofs.Interval.Verdict
import Abstraction.Proofs.Pentagon.Refuted
import Abstraction.Proofs.Widening.Runs
import Abstraction.Proofs.Widening.States
import Abstraction.Proofs.Environment.Frame
import Abstraction.Proofs.UpperBounds.Frame
import Abstraction.Proofs.Calls
import Abstraction.Proofs.UpperBounds.Models
import Abstraction.Proofs.Environment.Exact
import Abstraction.Proofs.Equalities.Classes
import Abstraction.Proofs.Equalities.Lattice
import Abstraction.Proofs.Equalities.Calls
import Abstraction.Proofs.Number.Limits
import Abstraction.Proofs.Interval.Hull
import Abstraction.Proofs.Congruence.Exact
import Abstraction.Proofs.Congruence.Monotone
import Abstraction.Proofs.Interval.Monotone
import Abstraction.Proofs.Environment.Monotone
import Abstraction.Proofs.Comparison
import Abstraction.Proofs.Interval.Refinement
import Abstraction.Proofs.UpperBounds.Closure
import Abstraction.Proofs.UpperBounds.Queries
import Abstraction.Proofs.Equalities.Transfer
import Abstraction.Proofs.Pentagon.Assignment
import Abstraction.Proofs.Residue.Exact
