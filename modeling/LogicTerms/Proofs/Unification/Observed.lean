import LogicTerms.Proofs.Unification.Runs

/-!
# Observed unification

A frame hands its substitution over to the pair that it waits for, and keeps none. If an observer
drops that pair, the frame goes on from nothing: all bindings made so far are lost, those of the
start among them.
-/

namespace LogicTerms

deriving instance DecidableEq for Outcome

/-! ## Dropped frames -/

section

variable {φ α ε ω : Type}

/-- The frames that waited below the frame that the observer dropped last, if it dropped any. -/
def Running.remaining (resume : φ → Option α → Step φ α ε) (observer : Observer φ α ω) :
    Nat → Running φ α → ω → Option (List φ)
  | 0, _, _ => none
  | limit + 1, run, seen =>
    match run.stack with
    | [] => none
    | top :: below =>
      let seen := observer.resumed top run.input seen
      match run.after below (resume top run.input) with
      | .error _ => none
      | .ok (event, onward) =>
        match observer.observe event seen with
        | (.proceed, seen) => remaining resume observer limit onward seen
        | (.abandon, seen) =>
          some ((remaining resume observer limit (run.pop below none) seen).getD below)
        | (.halt, _) => none

def Procedure.remaining {κ : Type} (procedure : Procedure κ φ α) (observer : Observer φ α ω)
    (limit : Nat) (question : κ) (seen : ω) : Option (List φ) :=
  match procedure.resolve limit question with
  | .ok (.suspended frame) =>
    Running.remaining (procedure.step limit) observer limit (.start frame) seen
  | _ => none

/-- Nothing is left over by an observer that never drops a frame. -/
theorem Running.remaining_eq_none {resume : φ → Option α → Step φ α ε} {observer : Observer φ α ω}
    (hnever : ∀ event seen, (observer.observe event seen).1 ≠ .abandon) (limit : Nat)
    (run : Running φ α) (seen : ω) : remaining resume observer limit run seen = none := by
  induction limit generalizing run seen with
  | zero => rfl
  | succ limit ih =>
    rw [remaining]
    cases run.stack with
    | nil => rfl
    | cons top below =>
      dsimp only
      cases run.after below (resume top run.input) with
      | error error => rfl
      | ok next =>
        obtain ⟨event, onward⟩ := next
        have hflow := hnever event (observer.resumed top run.input seen)
        rcases hobserve : observer.observe event (observer.resumed top run.input seen) with
          ⟨_ | _ | _, seen'⟩
        all_goals simp only [hobserve]
        case proceed => exact ih onward seen'
        case abandon => exact absurd (by rw [hobserve]) hflow

/-- Where the observer never drops a frame, no frame was dropped last. -/
theorem Procedure.remaining_eq_none {κ : Type} {procedure : Procedure κ φ α}
    {observer : Observer φ α ω}
    (hnever : ∀ event seen, (observer.observe event seen).1 ≠ .abandon) (limit : Nat)
    (question : κ) (seen : ω) : procedure.remaining observer limit question seen = none := by
  unfold Procedure.remaining
  split
  · exact Running.remaining_eq_none hnever _ _ _
  · rfl

end

namespace Unification

open Substitution

variable {φ ω : Type} {registry : Registry} {t : Substitution}

/-! ## What a run carries -/

/-- The pairs that waiting frames still have to unify, innermost frame first. -/
def pendingPairs (frames : List (Frame φ)) : List (Term × Term) :=
  frames.flatMap fun
    | .inl frame => frame.pending
    | .inr _ => []

@[simp] theorem pendingPairs_nil : pendingPairs ([] : List (Frame φ)) = [] := rfl

@[simp] theorem pendingPairs_cons (frame : Pairs) (below : List (Frame φ)) :
    pendingPairs (.inl frame :: below) = frame.pending ++ pendingPairs below := rfl

def HandedOver (frames : List (Frame φ)) : Prop :=
  ∀ frame ∈ frames, ∃ pending, frame = .inl ⟨pending, Substitution.empty⟩

/-- The topmost frame may have a substitution, and all frames below have handed theirs over. -/
def Stacked (frames : List (Frame φ)) : Prop :=
  frames = [] ∨ ∃ frame below, frames = .inl frame :: below ∧ HandedOver below

def topUnder : List (Frame φ) → Substitution
  | .inl frame :: _ => frame.under
  | _ => Substitution.empty

/-- From what the run hands to its topmost frame, the pairs that wait in the stack come to `t`. -/
def Carries (registry : Registry) (run : Running (Frame φ) Result) (t : Substitution) : Prop :=
  SolvesFrom registry (pendingPairs run.stack) (run.input.getD (.ok (topUnder run.stack))) (.ok t)

/-- Where `t` comes from: from the start of the run, or else from nothing and with the pairs that
were left when the last frame was dropped. -/
def ComesFrom (registry : Registry) (start : Prop) (t : Substitution) :
    Option (List (Frame φ)) → Prop
  | none => start
  | some frames => Solves registry (.pairs (pendingPairs frames) Substitution.empty) (.ok t)

theorem ComesFrom.imp {start start' : Prop} {remaining : Option (List (Frame φ))}
    (h : ComesFrom registry start t remaining) (himp : start → start') :
    ComesFrom registry start' t remaining := by
  cases remaining with
  | none => exact himp h
  | some frames => exact h

theorem HandedOver.stacked {frames : List (Frame φ)} (h : HandedOver frames) :
    Stacked frames ∧ topUnder frames = Substitution.empty := by
  cases frames with
  | nil => exact ⟨.inl rfl, rfl⟩
  | cons frame below =>
    obtain ⟨hframe, hbelow⟩ := List.forall_mem_cons.1 h
    obtain ⟨pending, rfl⟩ := hframe
    exact ⟨.inr ⟨_, below, rfl, hbelow⟩, rfl⟩

/-! ## Rounds -/

variable [Extension φ] {limit rounds : Nat} {run onward : Running (Frame φ) Result} {frame : Pairs}
  {below : List (Frame φ)} {event : Event Result}

/-- A round that the observer lets go on follows the rules. -/
theorem carries_of_after (hstack : run.stack = .inl frame :: below) (hbelow : HandedOver below)
    (h : run.after below (((Table.standard : Table φ).procedure registry).step limit (.inl frame)
      run.input) = .ok (event, onward)) :
    Stacked onward.stack ∧ (Carries registry onward t → Carries registry run t) := by
  have hstart : run.input.getD (.ok (topUnder run.stack)) = frame.start run.input := by
    rw [hstack]
    rfl
  unfold Carries
  rw [hstart, hstack, pendingPairs_cons]
  obtain ⟨clash, hstart, hstep⟩ | ⟨s, hstart, hpending, hstep⟩ |
    ⟨s, u, v, rest, hstart, hpending, ⟨fault, hstep⟩ | ⟨child, hchild, hstep⟩⟩ :=
      step_cases (φ := φ) registry limit frame run.input
  all_goals rw [hstep] at h
  · cases h
    refine ⟨hbelow.stacked.1, fun hcarries => ?_⟩
    cases hcarries
  · cases h
    refine ⟨hbelow.stacked.1, fun hcarries => ?_⟩
    rw [hstart, hpending]
    exact hcarries
  · cases h
  · cases child with
    | done first =>
      cases h
      refine ⟨.inr ⟨_, below, rfl, hbelow⟩, fun hcarries => ?_⟩
      rw [hstart, hpending]
      exact .cons hchild hcarries
    | suspended child =>
      cases h
      cases child with
      | inr child => exact hchild.elim
      | inl child =>
        have hnext : HandedOver (.inl ⟨rest, Substitution.empty⟩ :: below) :=
          List.forall_mem_cons.2 ⟨⟨rest, rfl⟩, hbelow⟩
        refine ⟨.inr ⟨child, _, rfl, hnext⟩, fun hcarries => ?_⟩
        -- The pairs of the child come first, and what they come to goes to the frame below.
        obtain ⟨r, hfirst, hothers⟩ := solves_append_iff.1 hcarries
        rw [hstart, hpending]
        exact .cons (hchild.2 _ hfirst) hothers

/-- A run comes to what it carried at its start, or right after the last frame was dropped. -/
theorem carries_of_drive {observer : Observer (Frame φ) Result ω} {seen : ω}
    {report : Report Result Fault ω} (hstack : Stacked run.stack)
    (h : Running.drive (((Table.standard : Table φ).procedure registry).step limit) observer rounds
      run seen = some report)
    (hvalue : report.outcome = .value (.ok t)) :
    ComesFrom registry (Carries registry run t) t
      (Running.remaining (((Table.standard : Table φ).procedure registry).step limit) observer
        rounds run seen) := by
  induction rounds generalizing run seen with
  | zero => simp [Running.drive] at h
  | succ rounds ih =>
    obtain hnil | ⟨frame, below, hcons, hbelow⟩ := hstack
    · simp only [Running.drive, hnil] at h
      cases h
      simp only [Running.remaining, hnil]
      unfold Running.report at hvalue
      cases hinput : run.input with
      | none => simp [hinput] at hvalue
      | some result =>
        obtain rfl : result = .ok t := by simpa [hinput] using hvalue
        unfold Carries
        rw [hinput, hnil]
        exact .nil
    · cases hafter : run.after below (((Table.standard : Table φ).procedure registry).step limit
          (.inl frame) run.input) with
      | error error =>
        simp only [Running.drive, hcons, hafter] at h
        cases h
        cases hvalue
      | ok next =>
        obtain ⟨event, onward⟩ := next
        obtain ⟨hstacked, hcarries⟩ := carries_of_after (t := t) hcons hbelow hafter
        rcases hflow : observer.observe event (observer.resumed (.inl frame) run.input seen) with
          ⟨_ | _ | _, seen'⟩
        all_goals simp only [Running.drive, hcons, hafter, hflow] at h
        all_goals simp only [Running.remaining, hcons, hafter, hflow]
        case proceed => exact (ih hstacked h).imp hcarries
        case abandon =>
          obtain ⟨hstacked, hunder⟩ := hbelow.stacked
          have hrest := ih hstacked h
          -- The frame below has nothing to go on from, unless another one is dropped later.
          cases hremaining : Running.remaining (((Table.standard : Table φ).procedure
              registry).step limit) observer rounds (run.pop below none) seen' with
          | none =>
            rw [hremaining] at hrest
            unfold ComesFrom Carries at hrest
            rw [Running.pop, Option.getD_none, hunder] at hrest
            exact hrest
          | some frames =>
            rw [hremaining] at hrest
            exact hrest
        case halt =>
          cases h
          cases hvalue

/-! ## Runs of tasks -/

variable {observer : Observer (Frame φ) Result ω} {task : Task} {seen : ω}

/-- A run that ends with a substitution comes to it from its own start, or, if the observer dropped
a frame, from nothing and with the pairs that were left then. -/
theorem solves_of_run
    (h : (((Table.standard : Table φ).procedure registry).run observer limit task seen).outcome =
      .value (.ok t)) :
    ComesFrom registry (Solves registry task (.ok t)) t
      (((Table.standard : Table φ).procedure registry).remaining observer limit task seen) := by
  unfold Procedure.run at h
  unfold Procedure.remaining
  cases hroot : ((Table.standard : Table φ).procedure registry).resolve limit task with
  | error fault =>
    rw [hroot] at h
    cases h
  | ok root =>
    have hsolves := rootSolves_of_resolve hroot
    rw [hroot] at h
    cases root with
    | done value =>
      obtain rfl : value = .ok t := by
        unfold Computation.run at h
        rcases hflow : observer.observe (.value value) seen with ⟨_ | _ | _, seen'⟩ <;>
          simp [hflow] at h
        exact h
      exact hsolves
    | suspended frame =>
      cases frame with
      | inr frame => exact hsolves.elim
      | inl frame =>
        have hstacked : Stacked [(.inl frame : Frame φ)] :=
          .inr ⟨frame, [], rfl, fun _ hmem => by simp at hmem⟩
        dsimp only at h ⊢
        cases hreport : Computation.run (((Table.standard : Table φ).procedure registry).step limit)
            observer limit (.suspended (.inl frame)) seen with
        | none => simp [hreport] at h
        | some report =>
          rw [hreport] at h
          refine (carries_of_drive hstacked hreport h).imp ?_
          intro hcarries
          refine hsolves.2 _ ?_
          simpa [Carries, Running.start, topUnder, SolvesFrom] using hcarries

/-- An observer that never drops a frame loses no binding. -/
theorem extends_of_run (hnever : ∀ event seen, (observer.observe event seen).1 ≠ .abandon)
    (h : (((Table.standard : Table φ).procedure registry).run observer limit task seen).outcome =
      .value (.ok t)) : t.Extends task.under := by
  have hsolves := solves_of_run h
  rw [Procedure.remaining_eq_none hnever] at hsolves
  exact Solves.extends hsolves

/-- A run keeps the bindings that it started from just if the observer drops no frame, or if the
pairs that are left when the last one is dropped happen to bring all of them back. -/
theorem extends_iff_of_run {ψ : Type}
    (h : (((Table.standard : Table φ).procedure registry).run observer limit task seen).outcome =
      .value (.ok t)) :
    t.Extends task.under ↔
      ∀ frames, ((Table.standard : Table φ).procedure registry).remaining observer limit task seen =
          some frames →
        ∃ t', Returns (fun limit => (Unifier.standard : Unifier φ ψ).unifyAll registry limit
            (pendingPairs frames) Substitution.empty) (.ok t') ∧
          t'.Extends task.under := by
  have hsolves := solves_of_run h
  constructor
  · intro hext frames hframes
    rw [hframes] at hsolves
    exact ⟨t, Unifier.returns_unifyAll hsolves, hext⟩
  · intro hframes
    cases hremaining : ((Table.standard : Table φ).procedure registry).remaining observer limit task
        seen with
    | none =>
      rw [hremaining] at hsolves
      exact Solves.extends hsolves
    | some frames =>
      obtain ⟨t', hreturns, hext⟩ := hframes frames hremaining
      rw [hremaining] at hsolves
      cases Returns.unique (Unifier.returns_unifyAll (ψ := ψ) hsolves) hreturns
      exact hext

def dropping (number : Nat) : Observer (Frame φ) Result Nat where
  resumed _ _ seen := seen
  observe _ seen := (if seen = number then .abandon else .proceed, seen + 1)

/-- The first pair is dropped, and the second one brings the lost binding back. -/
theorem extends_iff_of_run_example :
    (Substitution.empty.bind (.var (.fresh 1)) (.atom (.int 0))).Extends
      (Substitution.empty.bind (.var (.fresh 1)) (.atom (.int 0))) ↔
    ∀ frames, ((Table.standard : Table Empty).procedure .empty).remaining (dropping 1) 20
        (.pairs [(.list [.var (.fresh 0)], .list [.atom (.int 1)]),
          (.var (.fresh 1), .atom (.int 0))]
          (Substitution.empty.bind (.var (.fresh 1)) (.atom (.int 0)))) 0 = some frames →
      ∃ t', Returns (fun limit => (Unifier.standard : Unifier Empty Empty).unifyAll .empty limit
          (pendingPairs frames) Substitution.empty) (.ok t') ∧
        t'.Extends (Substitution.empty.bind (.var (.fresh 1)) (.atom (.int 0))) := by
  have hrun : (((Table.standard : Table Empty).procedure .empty).run (dropping 1) 20
      (.pairs [(.list [.var (.fresh 0)], .list [.atom (.int 1)]),
        (.var (.fresh 1), .atom (.int 0))]
        (Substitution.empty.bind (.var (.fresh 1)) (.atom (.int 0)))) 0).outcome =
      .value (.ok (Substitution.empty.bind (.var (.fresh 1)) (.atom (.int 0)))) := by
    decide +kernel
  exact extends_iff_of_run hrun

/-- A frame that goes on after its child was dropped has lost the binding that it started from. -/
theorem not_extends_of_dropped :
    (Substitution.empty.bind (.var (.fresh 1)) (.atom (.int 0))).Acyclic .empty ∧
    (((Table.standard : Table Empty).procedure .empty).run (dropping 1) 20
      (.pairs [(.list [.var (.fresh 0)], .list [.atom (.int 1)]), (.atom (.int 2), .atom (.int 2))]
        (Substitution.empty.bind (.var (.fresh 1)) (.atom (.int 0)))) 0).outcome =
      .value (.ok Substitution.empty) ∧
    ¬ Substitution.empty.Extends
      (Substitution.empty.bind (.var (.fresh 1)) (.atom (.int 0))) := by
  refine ⟨(acyclic_empty _).bind_of_subterms (by decide +kernel), by decide +kernel, fun h => ?_⟩
  have hlost := h (.var (.fresh 1)) (.atom (.int 0)) (by simp)
  simp at hlost

end Unification

end LogicTerms
