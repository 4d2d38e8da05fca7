import Deduction.KnowledgeBase
import Deduction.Proofs.Graph
import Deduction.Proofs.Stratification
import Deduction.Proofs.Matching
import Deduction.Proofs.GroundUnification
import Deduction.Proofs.Model
import Deduction.Proofs.Magic.Equivalence
import Deduction.Proofs.Safety
import Deduction.Proofs.Firing
import Deduction.Proofs.DeltaJoin
import Deduction.Proofs.Guards
import Deduction.Proofs.Magic.Convergence
import Deduction.Proofs.Reordering
import Deduction.Proofs.Termination
import Deduction.Proofs.Stability
import Deduction.Proofs.Completion
import Deduction.Proofs.Wildcards
import Deduction.Proofs.History
import Deduction.Proofs.Unifiers
import Deduction.Proofs.Magic.Restriction
import Deduction.Proofs.Queries
import Deduction.Proofs.Limits
import Deduction.Proofs.Cycles
import Deduction.Proofs.Equations
import Deduction.Proofs.Division
import Deduction.Proofs.Comparisons
import Deduction.Proofs.Lookup
import Deduction.Proofs.FactStore
import Deduction.Proofs.Plans
import Deduction.Proofs.Magic.Order
import Deduction.Proofs.Magic.Flow
import Deduction.Proofs.Magic.Adornment
import Deduction.Proofs.Limitation
import Deduction.Proofs.TermOrder
import Deduction.Proofs.Acyclicity
import Deduction.Proofs.StepwiseUnification
import Deduction.LowLink
import Deduction.Proofs.LowLink
import Deduction.Proofs.Predecessors
