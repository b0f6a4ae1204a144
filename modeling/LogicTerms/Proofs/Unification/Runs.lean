import LogicTerms.Proofs.Evaluation.Unobserved
import LogicTerms.Proofs.Unification.Rules
import LogicTerms.Unifier

/-!
# Runs of the standard table

A run of the standard table that nobody interrupts comes to a result just if the rules do. A frame
of pairs goes on with the substitution of the pair before, so it follows the rules pair by pair.
-/

namespace LogicTerms

namespace Unification

open Substitution

variable {φ : Type} {registry : Registry} {task task' : Task} {result : Result}

/-! ## Computations of tasks -/

/-- A computation has the result of a task already, or its frame has the result by the rules. The
frame starts from the substitution of the task. -/
def RootSolves (registry : Registry) (task : Task) : Computation (Frame φ) Result → Prop
  | .done result => Solves registry task result
  | .suspended (.inl frame) => frame.under = task.under ∧
      ∀ result, Solves registry (.pairs frame.pending frame.under) result →
        Solves registry task result
  | .suspended (.inr _) => False

theorem RootSolves.imp {root : Computation (Frame φ) Result} (h : RootSolves registry task root)
    (hunder : task.under = task'.under)
    (hsolves : ∀ result, Solves registry task result → Solves registry task' result) :
    RootSolves registry task' root := by
  cases root with
  | done result => exact hsolves result h
  | suspended frame =>
    cases frame with
    | inl frame => exact ⟨h.1.trans hunder, fun result hframe => hsolves result (h.2 result hframe)⟩
    | inr frame => exact h

variable [Extension φ]

/-- The computation of a task follows the rules, by induction on the limit of its calls. -/
theorem rootSolves_of_resolve {limit : Nat} {root : Computation (Frame φ) Result}
    (h : ((Table.standard : Table φ).procedure registry).resolve limit task = .ok root) :
    RootSolves registry task root := by
  induction limit generalizing task with
  | zero => simp [Procedure.resolve] at h
  | succ limit ih =>
    rw [Procedure.resolve] at h
    change ((Table.standard : Table φ).reply registry task).run _ = _ at h
    have left {u v s} (hu : registry.isVariable u = true)
        (h : ((Table.standard : Table φ).reply registry (.pair u v s)).run
          (((Table.standard : Table φ).procedure registry).resolve limit) = .ok root) :
        RootSolves registry (.pair u v s) root := by
      rw [Table.standard_reply_of_isVariable hu, variableLeft] at h
      split at h
      next u' v' hu' hv =>
        split at h
        next heq =>
          subst heq
          cases h
          exact .unbound hu (resolved_of_walk hu' hu) hv
        next hne =>
          rw [Query.run_delegate] at h
          exact (ih h).imp rfl fun result hsolves => .bound hu hu' hne hv hsolves
      next => cases h
    cases task with
    | pairs list s =>
      cases h
      exact ⟨rfl, fun _ hsolves => hsolves⟩
    | pair u v s =>
      cases hu : registry.isVariable u with
      | true => exact left hu h
      | false =>
        cases hv : registry.isVariable v with
        | true =>
          rw [Table.standard_reply_swap hu hv] at h
          exact (left hv h).imp rfl fun result hsolves => .swapped hu hv hsolves
        | false =>
          rw [Table.standard_reply_of_confront hu hv] at h
          cases hpairs : confront u v with
          | error clash =>
            rw [hpairs] at h
            cases h
            exact .apart hu hv hpairs
          | ok pairs =>
            rw [hpairs] at h
            dsimp only at h
            split at h
            next =>
              cases h
              exact ⟨rfl, fun result hsolves => .together hu hv hpairs hsolves⟩
            next hatom =>
              cases h
              obtain rfl := eq_nil_of_confront (by simpa using hatom) hpairs
              exact .together hu hv hpairs .nil

/-! ## Frames -/

def Pairs.start (frame : Pairs) (input : Option Result) : Result :=
  input.getD (.ok frame.under)

def SolvesFrom (registry : Registry) (pairs : List (Term × Term)) : Result → Result → Prop
  | .ok s, result => Solves registry (.pairs pairs s) result
  | .error clash, result => result = .error clash

theorem SolvesFrom.cons {u v : Term} {pairs : List (Term × Term)} {s : Substitution}
    {first : Result} (h : Solves registry (.pair u v s) first)
    (hrest : SolvesFrom registry pairs first result) :
    Solves registry (.pairs ((u, v) :: pairs) s) result := by
  cases first with
  | ok s' => exact .cons h hrest
  | error clash =>
    obtain rfl : result = .error clash := hrest
    exact .clash h

omit [Extension φ] in
theorem Pairs.resume_eq (frame : Pairs) (input : Option Result) :
    (frame.resume input : Query Task (Frame φ) Result (Step (Frame φ) Result Fault)) =
      match frame.start input, frame.pending with
      | .error clash, _ => .done (.finish (.error clash))
      | .ok s, [] => .done (.finish (.ok s))
      | .ok s, (u, v) :: rest => .await (.pair u v s) (.inl ⟨rest, Substitution.empty⟩) := by
  obtain ⟨pending, under⟩ := frame
  obtain _ | _ | _ := input <;> cases pending <;> rfl

variable {limit : Nat} {frame : Pairs} {input : Option Result}

/-- A frame passes a clash on, or is through with all pairs, or asks for the next pair and keeps
nothing but the pairs after it. -/
theorem step_cases (registry : Registry) (limit : Nat) (frame : Pairs) (input : Option Result) :
    let step := ((Table.standard : Table φ).procedure registry).step limit (.inl frame) input
    (∃ clash, frame.start input = .error clash ∧ step = .finish (.error clash)) ∨
    (∃ s, frame.start input = .ok s ∧ frame.pending = [] ∧ step = .finish (.ok s)) ∨
    ∃ s u v rest, frame.start input = .ok s ∧ frame.pending = (u, v) :: rest ∧
      ((∃ fault, step = .fail fault) ∨ ∃ child, RootSolves registry (.pair u v s) child ∧
        step = .await child (.inl ⟨rest, Substitution.empty⟩)) := by
  intro step
  have hresume : ((Table.standard : Table φ).procedure registry).resume (.inl frame) input = _ :=
    frame.resume_eq input
  cases hstart : frame.start input with
  | error clash =>
    rw [hstart] at hresume
    exact .inl ⟨clash, rfl, Procedure.step_of_done hresume⟩
  | ok s =>
    refine .inr ?_
    cases hpending : frame.pending with
    | nil =>
      rw [hstart, hpending] at hresume
      exact .inl ⟨s, rfl, rfl, Procedure.step_of_done hresume⟩
    | cons pair rest =>
      obtain ⟨u, v⟩ := pair
      rw [hstart, hpending] at hresume
      refine .inr ⟨s, u, v, rest, rfl, rfl, ?_⟩
      cases hchild : ((Table.standard : Table φ).procedure registry).resolve limit (.pair u v s) with
      | error fault => exact .inl ⟨fault, Procedure.step_of_await_error hresume hchild⟩
      | ok child =>
        exact .inr ⟨child, rootSolves_of_resolve hchild, Procedure.step_of_await hresume hchild⟩

theorem solvesFrom_of_step_eq_finish
    (h : ((Table.standard : Table φ).procedure registry).step limit (.inl frame) input =
      .finish result) :
    SolvesFrom registry frame.pending (frame.start input) result := by
  obtain ⟨clash, hstart, hstep⟩ | ⟨s, hstart, hpending, hstep⟩ |
    ⟨s, u, v, rest, -, -, ⟨fault, hstep⟩ | ⟨child, -, hstep⟩⟩ :=
      step_cases (φ := φ) registry limit frame input
  all_goals
    rw [h] at hstep
    cases hstep
  · rw [hstart]
    rfl
  · rw [hstart, hpending]
    exact .nil

theorem exists_of_step_eq_await {child : Computation (Frame φ) Result} {next : Frame φ}
    (h : ((Table.standard : Table φ).procedure registry).step limit (.inl frame) input =
      .await child next) :
    ∃ s u v rest, frame.start input = .ok s ∧ frame.pending = (u, v) :: rest ∧
      next = .inl ⟨rest, Substitution.empty⟩ ∧ RootSolves registry (.pair u v s) child := by
  obtain ⟨clash, -, hstep⟩ | ⟨s, -, -, hstep⟩ |
    ⟨s, u, v, rest, hstart, hpending, ⟨fault, hstep⟩ | ⟨child, hchild, hstep⟩⟩ :=
      step_cases (φ := φ) registry limit frame input
  all_goals
    rw [h] at hstep
    cases hstep
  exact ⟨s, u, v, rest, hstart, hpending, rfl, hchild⟩

theorem step_ne_construct {next : Frame φ} :
    ((Table.standard : Table φ).procedure registry).step limit (.inl frame) input ≠
      .construct next := by
  intro h
  obtain ⟨clash, -, hstep⟩ | ⟨s, -, -, hstep⟩ |
    ⟨s, u, v, rest, -, -, ⟨fault, hstep⟩ | ⟨child, -, hstep⟩⟩ :=
      step_cases (φ := φ) registry limit frame input
  all_goals
    rw [h] at hstep
    cases hstep

/-! ## From runs to rules -/

/-- A frame of pairs follows the rules pair by pair, by induction on its evaluation. -/
theorem solvesFrom_of_evaluates {limit : Nat} {frame : Frame φ} {input : Option Result}
    {outcome : Outcome Result Fault} {seen seen' : Unit}
    (h : Evaluates (((Table.standard : Table φ).procedure registry).step limit) .idle frame input
      seen outcome seen') {pairs : Pairs} (hframe : frame = .inl pairs)
    (hvalue : outcome = .value result) :
    SolvesFrom registry pairs.pending (pairs.start input) result := by
  induction h generalizing pairs result with
  | fail | abandon | halt => cases hvalue
  | finish hstep =>
    subst hframe
    cases hvalue
    exact solvesFrom_of_step_eq_finish hstep
  | construct hstep =>
    subst hframe
    exact absurd hstep step_ne_construct
  | ready hstep _ _ ih =>
    subst hframe
    obtain ⟨s, u, v, rest, hstart, hpending, rfl, hchild⟩ := exists_of_step_eq_await hstep
    rw [hstart, hpending]
    exact .cons hchild (ih rfl hvalue)
  | @nested _ _ _ child _ _ left _ _ _ _ hstep _ heval hleft _ ihchild ihnext =>
    subst hframe
    obtain ⟨s, u, v, rest, hstart, hpending, rfl, hchild⟩ := exists_of_step_eq_await hstep
    rw [hstart, hpending]
    obtain ⟨mid, rfl⟩ | ⟨fault, rfl⟩ := heval.value_or_failed
    · cases hleft
      cases child with
      | inl frame => exact .cons (hchild.2 _ (ihchild rfl rfl)) (ihnext rfl hvalue)
      | inr frame => exact hchild.elim
    · cases hleft
  | stopped _ _ _ hleft =>
    subst hvalue
    cases hleft

/-- A run that comes to a result follows the rules. -/
theorem solves_of_answers
    (h : ((Table.standard : Table φ).procedure registry).Answers task result) :
    Solves registry task result := by
  obtain ⟨limit, root, hroot, heval⟩ := h
  have hsolves := rootSolves_of_resolve hroot
  cases heval with
  | proceed => exact hsolves
  | @suspended frame _ _ _ heval =>
    cases frame with
    | inl frame => exact hsolves.2 _ (solvesFrom_of_evaluates heval rfl rfl)
    | inr frame => exact hsolves.elim

/-! ## From rules to runs -/

theorem answers_pairs {pairs : List (Term × Term)} {s : Substitution}
    (h : ((Table.standard : Table φ).procedure registry).Finishes (.inl ⟨pairs, s⟩) none result) :
    ((Table.standard : Table φ).procedure registry).Answers (.pairs pairs s) result :=
  Procedure.answers_of_suspended rfl h

/-- The rules for a list of pairs are what its frame does. -/
theorem finishes_of_answers_pairs {pairs : List (Term × Term)} {s : Substitution}
    (h : ((Table.standard : Table φ).procedure registry).Answers (.pairs pairs s) result) :
    ((Table.standard : Table φ).procedure registry).Finishes (.inl ⟨pairs, s⟩) none result := by
  obtain ⟨limit, root, hroot, heval⟩ := h
  cases limit with
  | zero => simp [Procedure.resolve] at hroot
  | succ limit =>
    cases hroot
    cases heval with
    | suspended heval => exact ⟨_, heval⟩

/-- Runs come to every result of the rules, by induction on the rules. -/
theorem answers_of_solves (h : Solves registry task result) :
    ((Table.standard : Table φ).procedure registry).Answers task result := by
  have answer (task : Task) : ((Table.standard : Table φ).procedure registry).answer task =
      (Table.standard : Table φ).reply registry task := rfl
  induction h with
  | @unbound u v v' s hu hfree hv =>
    have hself : s.walk registry u = some u := walk_of_resolved fun _ => hfree
    refine Procedure.answers_of_done ?_
    rw [answer, Table.standard_reply_of_isVariable hu]
    simp only [variableLeft, hself, hv, if_true]
    rfl
  | bound hu hu' hne hv _ ih =>
    refine Procedure.answers_of_delegate ?_ ih
    rw [answer, Table.standard_reply_of_isVariable hu]
    simp only [variableLeft, hu', hv, if_neg hne]
  | swapped hu hv _ ih =>
    refine Procedure.answers_of_answer_eq ?_ ih
    rw [answer, answer, Table.standard_reply_swap hu hv]
  | apart hu hv hclash =>
    refine Procedure.answers_of_done ?_
    rw [answer, Table.standard_reply_of_confront hu hv, hclash]
    rfl
  | @together u v s pairs result hu hv hpairs h ih =>
    have hanswer := Table.standard_reply_of_confront (φ := φ) (s := s) hu hv
    rw [hpairs, ← answer] at hanswer
    dsimp only at hanswer
    split at hanswer
    next => exact Procedure.answers_of_suspended hanswer (finishes_of_answers_pairs ih)
    next hatom =>
      obtain rfl := eq_nil_of_confront (by simpa using hatom) hpairs
      cases h
      exact Procedure.answers_of_done hanswer
  | nil => exact answers_pairs (Procedure.finishes_of_finish rfl)
  | clash h ih =>
    exact answers_pairs (Procedure.finishes_of_await rfl ih (Procedure.finishes_of_finish rfl))
  | @cons u v pairs s s' result _ _ ih ihrest =>
    refine answers_pairs (Procedure.finishes_of_await rfl ih ?_)
    -- The frame is handed the substitution from which the other pairs start by the rules.
    refine Procedure.finishes_of_resume_eq ?_ (finishes_of_answers_pairs ihrest)
    change Pairs.resume ⟨pairs, Substitution.empty⟩ (some (.ok s')) = Pairs.resume ⟨pairs, s'⟩ none
    rw [Pairs.resume_eq, Pairs.resume_eq]
    rfl

omit [Extension φ] in
/-- The rules come to one result at most, because a run does. -/
theorem Solves.unique {result' : Result} (h : Solves registry task result)
    (h' : Solves registry task result') : result = result' :=
  Returns.unique (Procedure.returns_of_yields (answers_of_solves (φ := Empty) h))
    (Procedure.returns_of_yields (answers_of_solves h'))

end Unification

/-! ## Unifiers -/

namespace Unifier

variable {φ ψ : Type} [Unification.Extension φ] {registry : Registry} {u v : Term}
  {pairs : List (Term × Term)} {s : Substitution} {result : Unification.Result} {limit : Nat}

/-- What a run returns is a result of the rules. -/
theorem solves_of_unify
    (h : ((standard : Unifier φ ψ).unify registry limit u v s).result = .ok result) :
    Unification.Solves registry (.pair u v s) result :=
  Unification.solves_of_answers (Procedure.yields_of_answered h)

theorem solves_of_unifyAll
    (h : ((standard : Unifier φ ψ).unifyAll registry limit pairs s).result = .ok result) :
    Unification.Solves registry (.pairs pairs s) result :=
  Unification.solves_of_answers (Procedure.yields_of_answered h)

theorem returns_unify (h : Unification.Solves registry (.pair u v s) result) :
    Returns (fun limit => (standard : Unifier φ ψ).unify registry limit u v s) result :=
  Procedure.returns_of_yields (Unification.answers_of_solves h)

/-- A run returns the result of the rules and nothing else. -/
theorem returns_unify_iff :
    Returns (fun limit => (standard : Unifier φ ψ).unify registry limit u v s) result ↔
      Unification.Solves registry (.pair u v s) result := by
  refine ⟨?_, returns_unify⟩
  rintro ⟨enough, h⟩
  exact solves_of_unify (h enough le_rfl)

theorem returns_unifyAll (h : Unification.Solves registry (.pairs pairs s) result) :
    Returns (fun limit => (standard : Unifier φ ψ).unifyAll registry limit pairs s) result :=
  Procedure.returns_of_yields (Unification.answers_of_solves h)

end Unifier

end LogicTerms
