import LogicTerms.Proofs.Evaluation.Limits
import LogicTerms.Reification.Variants
import LogicTerms.Unifier
import Mathlib.Control.Monad.Basic

/-!
# The groundness check and the collection of variables

Two observers look for the variables that reification leaves: one stops at the first variable, and
the other one collects them all. Whatever algorithms a table has, the same frames are resumed with
the same inputs as long as no variable was met, so that the check stops just if the collection is
not empty.
-/

namespace LogicTerms

/-! ## Two observers of one evaluation -/

namespace Reification

variable {φ ε : Type} {registry : Registry} {resume : φ → Option Term → Step φ Term ε} {frame : φ}
  {input : Option Term} {found found' : List Term} {outcome : Outcome Term ε} {event : Event Term}
  {t : Term}

/-- What the check comes to where the collection has an outcome and a list of variables: the same
outcome, unless a variable was found. -/
def checked (outcome : Outcome Term ε) (found : List Term) : Outcome Term ε :=
  if found.isEmpty then outcome else .interrupted .halted

/-- The check stops at a value just if the collection has one more variable after it. -/
theorem observe_value_cases (registry : Registry) (t : Term) (found : List Term) :
    (∃ x xs, (collector registry : Observer φ Term _).observe (.value t) found =
        (.proceed, x :: xs) ∧
      (groundCheck registry : Observer φ Term _).observe (.value t) () = (.halt, ())) ∨
    (collector registry : Observer φ Term _).observe (.value t) found = (.proceed, found) ∧
      (groundCheck registry : Observer φ Term _).observe (.value t) () = (.proceed, ()) := by
  cases hvar : registry.isVariable t with
  | true =>
    have hne : Elements.insert t found ≠ [] := List.ne_nil_of_mem (Elements.mem_insert.2 (.inl rfl))
    obtain ⟨x, xs, hinsert⟩ := List.exists_cons_of_ne_nil hne
    exact .inl ⟨x, xs, by simp [collector, hvar, hinsert], by simp [groundCheck, hvar]⟩
  | false => exact .inr ⟨by simp [collector, hvar], by simp [groundCheck, hvar]⟩

/-- Only the construction of a compound is dropped. -/
theorem eq_construct_of_abandon
    (h : (collector registry : Observer φ Term _).observe event found = (.abandon, found')) :
    event = .construct ∧ found' = found := by
  cases event <;> simp_all [collector]

/-- The observer that collects never stops a run. -/
theorem observe_ne_halt :
    (collector registry : Observer φ Term _).observe event found ≠ (.halt, found') := by
  cases event <;> simp [collector]

/-- Variables that were found stay. -/
theorem subset_of_observe {flow : Flow}
    (h : (collector registry : Observer φ Term _).observe event found = (flow, found')) :
    found ⊆ found' := by
  cases event with
  | construct | nested =>
    cases h
    exact List.Subset.refl found
  | value t =>
    cases h
    split
    · intro x hx
      exact Elements.mem_insert.2 (.inr hx)
    · exact List.Subset.refl found

/-- The collection is never stopped. -/
theorem ne_halted_of_evaluates
    (h : Evaluates resume (collector registry) frame input found outcome found') :
    outcome ≠ .interrupted .halted := by
  induction h with
  | fail | abandon | finish => simp
  | halt _ hflow => exact absurd hflow observe_ne_halt
  | construct _ _ _ ih | ready _ _ _ ih | nested _ _ _ _ _ _ ih | stopped _ _ _ _ ih => exact ih

theorem computation_ne_halted {root : Computation φ Term}
    (h : root.Evaluates resume (collector registry) found outcome found') :
    outcome ≠ .interrupted .halted := by
  cases h with
  | suspended h => exact ne_halted_of_evaluates h
  | proceed | abandon => simp
  | halt hflow => exact absurd hflow observe_ne_halt

/-- No variable that was found is lost again. -/
theorem subset_of_evaluates
    (h : Evaluates resume (collector registry) frame input found outcome found') :
    found ⊆ found' := by
  induction h with
  | fail => exact List.Subset.refl _
  | abandon _ hflow | halt _ hflow | finish _ hflow => exact subset_of_observe hflow
  | construct _ hflow _ ih | ready _ hflow _ ih | stopped _ hflow _ _ ih =>
    exact List.Subset.trans (subset_of_observe hflow) ih
  | nested _ hflow _ _ _ ihchild ihnext =>
    exact List.Subset.trans (List.Subset.trans (subset_of_observe hflow) ihchild) ihnext

theorem checked_of_ne_nil (h : found ≠ []) (outcome : Outcome Term ε) :
    checked outcome found = .interrupted .halted := by
  simp [checked, h]

/-- Up to the first variable the check evaluates a frame as the collection does. -/
theorem evaluates_checked
    (h : Evaluates resume (collector registry) frame input [] outcome found') :
    Evaluates resume (groundCheck registry) frame input () (checked outcome found') () := by
  generalize hfound : ([] : List Term) = found at h
  induction h with
  | fail hstep =>
    subst hfound
    exact .fail hstep
  | abandon hevent hflow =>
    subst hfound
    obtain ⟨rfl, rfl⟩ := eq_construct_of_abandon hflow
    exact .abandon hevent rfl
  | halt _ hflow => exact absurd hflow observe_ne_halt
  | construct _ hflow => cases hflow
  | @finish _ _ _ value _ hstep hflow =>
    subst hfound
    obtain ⟨x, xs, hcollect, hcheck⟩ | ⟨hcollect, hcheck⟩ := observe_value_cases registry value []
    · cases hcollect.symm.trans hflow
      exact .halt (by rw [hstep]; rfl) hcheck
    · cases hcollect.symm.trans hflow
      exact .finish hstep hcheck
  | @ready _ _ _ value _ _ _ _ hstep hflow hnext ih =>
    subst hfound
    obtain ⟨x, xs, hcollect, hcheck⟩ | ⟨hcollect, hcheck⟩ := observe_value_cases registry value []
    · -- The variable stays in the collection, whatever comes after it.
      cases hcollect.symm.trans hflow
      have hmem := subset_of_evaluates hnext List.mem_cons_self
      rw [checked_of_ne_nil (List.ne_nil_of_mem hmem)]
      exact .halt (by rw [hstep]; rfl) hcheck
    · cases hcollect.symm.trans hflow
      exact .ready hstep hcheck (ih rfl)
  | @nested _ _ _ _ _ _ left _ found₂ _ _ hstep hflow hchild hleft hnext ihchild ihnext =>
    subst hfound
    cases hflow
    cases found₂ with
    | nil => exact .nested hstep rfl (ihchild rfl) hleft (ihnext rfl)
    | cons x xs =>
      -- The child met a variable, and the check stopped there.
      have hmem := subset_of_evaluates hnext List.mem_cons_self
      rw [checked_of_ne_nil (List.ne_nil_of_mem hmem)]
      exact .stopped hstep rfl (ihchild rfl) rfl
  | @stopped _ _ _ _ _ _ _ found₂ hstep hflow hchild hleft ih =>
    subst hfound
    cases hflow
    refine .stopped hstep rfl (ih rfl) ?_
    unfold checked
    split
    · exact hleft
    · rfl

theorem computation_evaluates_checked {root : Computation φ Term}
    (h : root.Evaluates resume (collector registry) [] outcome found') :
    root.Evaluates resume (groundCheck registry) () (checked outcome found') () := by
  cases h with
  | suspended h => exact .suspended (evaluates_checked h)
  | @proceed value _ _ hflow =>
    obtain ⟨x, xs, hcollect, hcheck⟩ | ⟨hcollect, hcheck⟩ := observe_value_cases registry value []
    · cases hcollect.symm.trans hflow
      exact .halt hcheck
    · cases hcollect.symm.trans hflow
      exact .proceed hcheck
  | abandon hflow => cases hflow
  | halt hflow => cases hflow

end Reification

/-! ## Unifiers -/

namespace Unifier

open Reification

variable {φ ψ : Type} [Reification.Extension ψ] {unifier : Unifier φ ψ} {registry : Registry}
  {t : Term} {s : Substitution} {limit limit' : Nat} {ground : Bool} {found : List Term}

/-- The check answers unless its run fails, and it denies groundness just if it was stopped. -/
theorem isGround_eq_ok_iff :
    (unifier.isGround registry limit t s).result = .ok ground ↔
      (∀ fault, ((unifier.reification.procedure registry).run (groundCheck registry) limit ⟨t, s⟩
        ()).outcome ≠ .failed fault) ∧
      (ground = false ↔ ((unifier.reification.procedure registry).run (groundCheck registry) limit
        ⟨t, s⟩ ()).outcome = .interrupted .halted) := by
  unfold isGround
  dsimp only
  split <;> simp_all

/-- The collection has an answer unless its run fails; also an abandoned run has one. -/
theorem freeVariables_eq_ok_iff :
    (unifier.freeVariables registry limit t s).result = .ok found ↔
      (∀ fault, ((unifier.reification.procedure registry).run (collector registry) limit ⟨t, s⟩
        []).outcome ≠ .failed fault) ∧
      ((unifier.reification.procedure registry).run (collector registry) limit ⟨t, s⟩
        []).observed = found := by
  unfold freeVariables
  dsimp only
  split <;> simp_all

/-- An answer of the check comes from an evaluation under its observer, which is stopped just if the
term is not ground. -/
theorem exists_yields_of_isGround
    (h : (unifier.isGround registry limit t s).result = .ok ground) :
    ∃ outcome, (unifier.reification.procedure registry).Yields (groundCheck registry) ⟨t, s⟩ ()
      outcome () ∧ (∀ fault, outcome ≠ .failed fault) ∧
      (ground = false ↔ outcome = .interrupted .halted) := by
  obtain ⟨hok, hground⟩ := isGround_eq_ok_iff.1 h
  exact ⟨_, Procedure.yields_of_run rfl hok, hok, hground⟩

theorem returns_isGround_of_yields {outcome : Outcome Term Fault}
    (h : (unifier.reification.procedure registry).Yields (groundCheck registry) ⟨t, s⟩ () outcome
      ())
    (hok : ∀ fault, outcome ≠ .failed fault)
    (hground : ground = false ↔ outcome = .interrupted .halted) :
    Returns (fun limit => unifier.isGround registry limit t s) ground := by
  obtain ⟨enough, henough⟩ := Procedure.run_of_yields h (hok _)
  refine ⟨enough, fun limit hle => isGround_eq_ok_iff.2 ?_⟩
  rw [(henough limit hle).1]
  exact ⟨hok, hground⟩

theorem exists_yields_of_freeVariables
    (h : (unifier.freeVariables registry limit t s).result = .ok found) :
    ∃ outcome, (unifier.reification.procedure registry).Yields (collector registry) ⟨t, s⟩ []
      outcome found ∧ ∀ fault, outcome ≠ .failed fault := by
  obtain ⟨hok, rfl⟩ := freeVariables_eq_ok_iff.1 h
  exact ⟨_, Procedure.yields_of_run rfl hok, hok⟩

theorem returns_freeVariables_of_yields {outcome : Outcome Term Fault}
    (h : (unifier.reification.procedure registry).Yields (collector registry) ⟨t, s⟩ [] outcome
      found)
    (hok : ∀ fault, outcome ≠ .failed fault) :
    Returns (fun limit => unifier.freeVariables registry limit t s) found := by
  obtain ⟨enough, henough⟩ := Procedure.run_of_yields h (hok _)
  refine ⟨enough, fun limit hle => freeVariables_eq_ok_iff.2 ?_⟩
  rw [(henough limit hle).1]
  exact ⟨hok, (henough limit hle).2⟩

/-- What is answered within one limit is answered within every limit that is high enough. -/
theorem returns_isGround_of_result (limit : Nat)
    (h : (unifier.isGround registry limit t s).result = .ok ground) :
    Returns (fun limit => unifier.isGround registry limit t s) ground := by
  obtain ⟨outcome, hyields, hok, hground⟩ := exists_yields_of_isGround h
  exact returns_isGround_of_yields hyields hok hground

theorem returns_freeVariables_of_result (limit : Nat)
    (h : (unifier.freeVariables registry limit t s).result = .ok found) :
    Returns (fun limit => unifier.freeVariables registry limit t s) found := by
  obtain ⟨outcome, hyields, hok⟩ := exists_yields_of_freeVariables h
  exact returns_freeVariables_of_yields hyields hok

/-- If the collection comes to an end, the check does, and it comes to the right answer. -/
theorem returns_isGround_of_freeVariables
    (h : (unifier.freeVariables registry limit t s).result = .ok found) :
    Returns (fun limit => unifier.isGround registry limit t s) found.isEmpty := by
  obtain ⟨outcome, ⟨limit, root, hroot, heval⟩, hok⟩ := exists_yields_of_freeVariables h
  have hchecked := computation_evaluates_checked heval
  refine returns_isGround_of_yields ⟨limit, root, hroot, hchecked⟩ ?_ ?_
  · cases found with
    | nil => exact hok
    | cons => simp [checked]
  · cases found with
    | nil => simpa [checked] using computation_ne_halted heval
    | cons => simp [checked]

/-- The early exit makes no difference. For every table, whatever frames its algorithms have, a term
is ground if and only if no variable is collected, where both runs come to an end. -/
theorem isGround_iff_freeVariables
    (hground : (unifier.isGround registry limit t s).result = .ok ground)
    (hfound : (unifier.freeVariables registry limit' t s).result = .ok found) :
    ground = true ↔ found = [] := by
  have hreturns := returns_isGround_of_result _ hground
  rw [hreturns.unique (returns_isGround_of_freeVariables hfound), List.isEmpty_iff]

/-- An algorithm that reifies the first part of a tuple in its place hides a variable that comes
second, and it shows one that comes first. -/
theorem isGround_iff_freeVariables_example :
    let unifier : Unifier Empty Empty :=
      ⟨.standard, Table.standard.register (.exact .tuple) firstPart, defaultCapacity⟩
    let hidden := Term.tuple [.atom (.int 1), .var (.fresh 0)]
    let shown := Term.tuple [.var (.fresh 0), .atom (.int 1)]
    (unifier.isGround .empty 9 hidden .empty).result = .ok true ∧
      (unifier.freeVariables .empty 9 hidden .empty).result = .ok [] ∧
      (unifier.isGround .empty 9 shown .empty).result = .ok false ∧
      (unifier.freeVariables .empty 9 shown .empty).result = .ok [.var (.fresh 0)] ∧
      (true = true ↔ ([] : List Term) = []) ∧ (false = true ↔ [Term.var (.fresh 0)] = []) := by
  intro unifier hidden shown
  have hhidden : (unifier.isGround .empty 9 hidden .empty).result = .ok true := by decide +kernel
  have hnone : (unifier.freeVariables .empty 9 hidden .empty).result = .ok [] := by decide +kernel
  have hshown : (unifier.isGround .empty 9 shown .empty).result = .ok false := by decide +kernel
  have hone : (unifier.freeVariables .empty 9 shown .empty).result = .ok [.var (.fresh 0)] := by
    decide +kernel
  exact ⟨hhidden, hnone, hshown, hone, isGround_iff_freeVariables hhidden hnone,
    isGround_iff_freeVariables hshown hone⟩

end Unifier

end LogicTerms
