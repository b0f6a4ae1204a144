import LogicTerms.Evaluation.Delegation
import LogicTerms.Proofs.Evaluation.Recursive

/-!
# Limits of runs

A limit that is high enough has no influence: a call that is answered within some limit is answered
alike within every higher one.
-/

namespace LogicTerms

variable {φ α ε ω : Type}

/-- Evaluation does not depend on failures that it did not end with. -/
theorem Evaluates.mono {resume resume' : φ → Option α → Step φ α ε} {observer : Observer φ α ω}
    {frame : φ} {input : Option α} {seen seen' : ω} {outcome : Outcome α ε} {error : ε}
    (hresume : ∀ frame input, resume' frame input = resume frame input ∨
      resume frame input = .fail error)
    (hne : outcome ≠ .failed error)
    (h : Evaluates resume observer frame input seen outcome seen') :
    Evaluates resume' observer frame input seen outcome seen' := by
  have same {frame input event} (hevent : (resume frame input).event? = some event) :
      resume' frame input = resume frame input := by
    obtain hsame | hfail := hresume frame input
    · exact hsame
    · simp [hfail, Step.event?] at hevent
  induction h with
  | fail hstep =>
    refine .fail ?_
    obtain hsame | hfail := hresume _ _
    · rw [hsame, hstep]
    · rw [hfail] at hstep
      cases hstep
      exact absurd rfl hne
  | abandon hevent hflow => exact .abandon (by rw [same hevent, hevent]) hflow
  | halt hevent hflow => exact .halt (by rw [same hevent, hevent]) hflow
  | finish hstep hflow => exact .finish (by rw [same (by rw [hstep]; rfl), hstep]) hflow
  | construct hstep hflow _ ih =>
    exact .construct (by rw [same (by rw [hstep]; rfl), hstep]) hflow (ih hne)
  | ready hstep hflow _ ih =>
    exact .ready (by rw [same (by rw [hstep]; rfl), hstep]) hflow (ih hne)
  | nested hstep hflow _ hleft _ ihchild ihnext =>
    refine .nested (by rw [same (by rw [hstep]; rfl), hstep]) hflow (ihchild ?_) hleft (ihnext hne)
    rintro rfl
    simp [Outcome.handed] at hleft
  | stopped hstep hflow _ hleft ih =>
    exact .stopped (by rw [same (by rw [hstep]; rfl), hstep]) hflow (ih hne) hleft

theorem Computation.Evaluates.mono {resume resume' : φ → Option α → Step φ α ε}
    {observer : Observer φ α ω} {root : Computation φ α} {seen seen' : ω} {outcome : Outcome α ε}
    {error : ε} (hresume : ∀ frame input, resume' frame input = resume frame input ∨
      resume frame input = .fail error)
    (hne : outcome ≠ .failed error)
    (h : root.Evaluates resume observer seen outcome seen') :
    root.Evaluates resume' observer seen outcome seen' := by
  cases h with
  | suspended h => exact .suspended (h.mono hresume hne)
  | proceed hflow => exact .proceed hflow
  | abandon hflow => exact .abandon hflow
  | halt hflow => exact .halt hflow

/-! ## Calls -/

/-- A query has the same result in a table that answers more calls. -/
theorem Query.run_mono {κ β : Type} {table table' : κ → Except Fault (Computation φ α)}
    (htable : ∀ question, table question ≠ .error .unfinished →
      table' question = table question)
    {query : Query κ φ α β} (hne : query.run table ≠ .error .unfinished) :
    query.run table' = query.run table := by
  induction query with
  | done result => rfl
  | fail fault => rfl
  | call question next ih =>
    have hquestion : table question ≠ .error .unfinished := by
      intro h
      simp [run, h] at hne
    rw [run, run, htable question hquestion]
    cases hanswer : table question with
    | error fault => rfl
    | ok answer =>
      refine ih answer ?_
      simpa [run, hanswer] using hne

namespace Query

variable {κ : Type} (table : κ → Except Fault (Computation φ α)) (question : κ)

@[simp] theorem run_delegate : (delegate question).run table = table question := by
  rw [delegate, run]
  cases table question <;> rfl

@[simp] theorem run_await (next : φ) :
    (await question next).run table = (table question).map fun child => .await child next := by
  rw [await, run]
  cases table question <;> rfl

end Query

namespace Procedure

variable {κ : Type} {procedure : Procedure κ φ α} {observer : Observer φ α ω} {question : κ}
  {limit limit' : Nat} {seen seen' : ω}

/-- A higher limit changes nothing about a call, unless the lower one was reached. -/
theorem resolve_mono (hle : limit ≤ limit')
    (hne : procedure.resolve limit question ≠ .error .unfinished) :
    procedure.resolve limit' question = procedure.resolve limit question := by
  induction limit generalizing limit' question with
  | zero => exact absurd rfl hne
  | succ limit ih =>
    obtain ⟨limit', rfl⟩ : ∃ n, limit' = n + 1 := ⟨limit' - 1, by omega⟩
    exact Query.run_mono (fun question h => ih (by omega) h) hne

theorem resolve_of_le {root : Computation φ α} (h : procedure.resolve limit question = .ok root)
    (hle : limit ≤ limit') : procedure.resolve limit' question = .ok root := by
  rw [resolve_mono hle (by simp [h]), h]

theorem step_mono (hle : limit ≤ limit') (frame : φ) (input : Option α) :
    procedure.step limit' frame input = procedure.step limit frame input ∨
      procedure.step limit frame input = .fail .unfinished := by
  by_cases h : (procedure.resume frame input).run (procedure.resolve limit) = .error .unfinished
  · exact .inr (by rw [step, h])
  · refine .inl ?_
    rw [step, step, Query.run_mono (fun question h => resolve_mono hle h) h]

/-- A run that did not break off ends alike within every higher limit. -/
theorem run_mono (hle : limit ≤ limit')
    (hne : (procedure.run observer limit question seen).outcome ≠ .failed .unfinished) :
    procedure.run observer limit' question seen = procedure.run observer limit question seen := by
  unfold run at hne ⊢
  cases hroot : procedure.resolve limit question with
  | error fault =>
    rw [hroot] at hne
    rw [resolve_mono hle (by rintro h; simp_all), hroot]
  | ok root =>
    rw [hroot] at hne
    rw [resolve_of_le hroot hle]
    dsimp only at hne ⊢
    cases hreport : root.run (procedure.step limit) observer limit seen with
    | none => simp [hreport] at hne
    | some report =>
      rw [hreport] at hne
      rw [Computation.run_mono hle (fun frame input => ?_) hreport]
      exact (step_mono hle frame input).imp_right fun h => ⟨_, h, hne⟩

/-! ## Steps of frames -/

variable {frame next : φ} {input : Option α}

theorem step_of_done {limit : Nat} {step : Step φ α Fault}
    (h : procedure.resume frame input = .done step) : procedure.step limit frame input = step := by
  rw [Procedure.step, h, Query.run]

theorem step_of_await {limit : Nat} {child : Computation φ α}
    (h : procedure.resume frame input = .await question next)
    (hchild : procedure.resolve limit question = .ok child) :
    procedure.step limit frame input = .await child next := by
  rw [Procedure.step, h, Query.run_await, hchild]
  rfl

theorem step_of_await_error {limit : Nat} {fault : Fault}
    (h : procedure.resume frame input = .await question next)
    (hchild : procedure.resolve limit question = .error fault) :
    procedure.step limit frame input = .fail fault := by
  rw [Procedure.step, h, Query.run_await, hchild]
  rfl

/-! ## Calls by recursive evaluation -/

theorem evaluates_of_le {outcome : Outcome α Fault}
    (h : Evaluates (procedure.step limit) observer frame input seen outcome seen')
    (hle : limit ≤ limit') (hne : outcome ≠ .failed .unfinished) :
    Evaluates (procedure.step limit') observer frame input seen outcome seen' :=
  h.mono (step_mono hle) hne

/-- A call comes to an outcome by recursive evaluation, within some limit of its calls. -/
def Yields (procedure : Procedure κ φ α) (observer : Observer φ α ω) (question : κ) (seen : ω)
    (outcome : Outcome α Fault) (seen' : ω) : Prop :=
  ∃ limit root, procedure.resolve limit question = .ok root ∧
    root.Evaluates (procedure.step limit) observer seen outcome seen'

variable {outcome : Outcome α Fault}

/-- A call comes to what the computation that answers it comes to. -/
theorem yields_of_root {root : Computation φ α} (h : procedure.answer question = .done root)
    (heval : root.Evaluates (procedure.step limit) observer seen outcome seen')
    (hne : outcome ≠ .failed .unfinished) :
    procedure.Yields observer question seen outcome seen' := by
  refine ⟨limit + 1, root, ?_, heval.mono (step_mono (Nat.le_succ limit)) hne⟩
  rw [resolve, h, Query.run]

theorem yields_of_delegate {question' : κ} (h : procedure.answer question = .delegate question')
    (hyields : procedure.Yields observer question' seen outcome seen')
    (hne : outcome ≠ .failed .unfinished) :
    procedure.Yields observer question seen outcome seen' := by
  obtain ⟨limit, root, hroot, heval⟩ := hyields
  refine ⟨limit + 1, root, ?_, heval.mono (step_mono (Nat.le_succ limit)) hne⟩
  rw [resolve, h, Query.run_delegate, hroot]

/-- Runs with high limits come to the outcome of the evaluation. -/
theorem run_of_yields (h : procedure.Yields observer question seen outcome seen')
    (hne : outcome ≠ .failed .unfinished) :
    ∃ enough, ∀ limit ≥ enough, (procedure.run observer limit question seen).outcome = outcome ∧
      (procedure.run observer limit question seen).observed = seen' := by
  obtain ⟨limit, root, hroot, heval⟩ := h
  obtain ⟨rounds, report, hrun, rfl, rfl⟩ := Computation.run_of_evaluates heval
  refine ⟨max limit rounds, fun limit' hle => ?_⟩
  have hlimit : limit ≤ limit' := by omega
  have hrun' : root.run (procedure.step limit') observer limit' seen = some report := by
    refine Computation.run_mono (by omega) (fun frame input => ?_) hrun
    exact (step_mono hlimit frame input).imp_right fun h => ⟨_, h, hne⟩
  rw [run, resolve_of_le hroot hlimit]
  dsimp only
  rw [hrun']
  exact ⟨rfl, rfl⟩

/-- The evaluation comes to the outcome of any run that did not fail. -/
theorem yields_of_run (h : (procedure.run observer limit question seen).outcome = outcome)
    (hne : ∀ fault, outcome ≠ .failed fault) :
    procedure.Yields observer question seen outcome
      (procedure.run observer limit question seen).observed := by
  unfold run at h ⊢
  cases hroot : procedure.resolve limit question with
  | error fault =>
    rw [hroot] at h
    exact absurd h.symm (hne fault)
  | ok root =>
    rw [hroot] at h
    dsimp only at h ⊢
    cases hreport : root.run (procedure.step limit) observer limit seen with
    | none =>
      rw [hreport] at h
      exact absurd h.symm (hne _)
    | some report =>
      rw [hreport] at h
      subst h
      exact ⟨limit, root, hroot, Computation.evaluates_of_run hreport⟩

end Procedure

/-! ## Answers -/

/-- An answer that may depend on a limit is given within every limit that is high enough. -/
def Returns (answer : Nat → Answered α) (value : α) : Prop :=
  ∃ enough, ∀ limit ≥ enough, (answer limit).result = .ok value

theorem Returns.unique {answer : Nat → Answered α} {value value' : α} (h : Returns answer value)
    (h' : Returns answer value') : value = value' := by
  obtain ⟨enough, h⟩ := h
  obtain ⟨enough', h'⟩ := h'
  have hvalue := h (max enough enough') (by omega)
  rw [h' (max enough enough') (by omega)] at hvalue
  cases hvalue
  rfl

theorem Report.answered_eq_ok_iff {report : Report α Fault ω} {value : α} :
    report.answered.result = .ok value ↔ report.outcome = .value value := by
  unfold answered
  cases report.outcome <;> simp

namespace Procedure

variable {κ : Type} {procedure : Procedure κ φ α} {question : κ} {limit : Nat} {value : α}

/-- What recursive evaluation yields is returned within every limit that is high enough. -/
theorem returns_of_yields (h : procedure.Yields .idle question () (.value value) ()) :
    Returns (fun limit => (procedure.run .idle limit question ()).answered) value := by
  obtain ⟨enough, h⟩ := run_of_yields h (by simp)
  exact ⟨enough, fun limit hle => Report.answered_eq_ok_iff.2 (h limit hle).1⟩

/-- A value that is returned within some limit is yielded by recursive evaluation. -/
theorem yields_of_answered
    (h : (procedure.run .idle limit question ()).answered.result = .ok value) :
    procedure.Yields .idle question () (.value value) () :=
  yields_of_run (Report.answered_eq_ok_iff.1 h) (by simp)

/-- Within any limit a run comes to the value of its call or breaks off. -/
theorem answered_of_yields (h : procedure.Yields .idle question () (.value value) ())
    (limit : Nat) :
    (procedure.run .idle limit question ()).answered.result = .ok value ∨
      (procedure.run .idle limit question ()).answered.result = .error .unfinished := by
  obtain ⟨enough, henough⟩ := run_of_yields h (by simp)
  by_cases hne : (procedure.run .idle limit question ()).outcome = .failed .unfinished
  · refine .inr ?_
    rw [Report.answered, hne]
  · refine .inl (Report.answered_eq_ok_iff.2 ?_)
    rw [← run_mono (Nat.le_max_left limit enough) hne]
    exact (henough _ (Nat.le_max_right limit enough)).1

/-- An answer within one limit is given within every limit that is high enough. -/
theorem returns_of_answered
    (h : (procedure.run .idle limit question ()).answered.result = .ok value) :
    Returns (fun limit => (procedure.run .idle limit question ()).answered) value :=
  returns_of_yields (yields_of_answered h)

end Procedure

end LogicTerms
