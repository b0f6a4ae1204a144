import LogicTerms.Unifier
import LogicTerms.Unification.Variants
import LogicTerms.Reification.Variants
import LogicTerms.Evaluation.Script
import LogicTerms.Proofs.Term.Structural
import LogicTerms.Proofs.Reification.Structural
import LogicTerms.Proofs.Unification.Soundness
import LogicTerms.Proofs.Unification.Generality
import LogicTerms.Proofs.Unification.Observed
import LogicTerms.Proofs.Unification.Stability
import LogicTerms.Proofs.Unification.Symmetry
import LogicTerms.Proofs.Dispatch.Resolution
import LogicTerms.Proofs.Reification.Remaining
import LogicTerms.Proofs.Unification.Confinement
import LogicTerms.Proofs.Unification.Orientation
import LogicTerms.Proofs.Unification.Relevance
import LogicTerms.Proofs.Reification.Composition
import LogicTerms.Proofs.Unification.Matching
import LogicTerms.Proofs.Reification.Normal
import LogicTerms.Proofs.Unification.Correspondence
import LogicTerms.Proofs.Term.Renaming
import LogicTerms.Proofs.Renaming
import LogicTerms.Proofs.Evaluation.Invariants
import LogicTerms.Proofs.Substitution.Loopless
import LogicTerms.Proofs.Unification.Loopless
import LogicTerms.Proofs.Unification.Permutation
import LogicTerms.Proofs.Evaluation.Settled
import LogicTerms.Proofs.Unification.Sequential
import LogicTerms.Proofs.Scope
import LogicTerms.Proofs.Canonical
import LogicTerms.Proofs.Evaluation.Watched
import LogicTerms.Proofs.Term.Visits
import LogicTerms.Proofs.Reification.Work
import LogicTerms.Proofs.Term.Assembly
