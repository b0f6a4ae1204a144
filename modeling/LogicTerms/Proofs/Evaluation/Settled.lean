import LogicTerms.Proofs.Evaluation.Unobserved

/-!
# Runs that settle

A run that nobody interrupts may go on for ever. Otherwise it settles: it returns a value or fails,
and does the same within every limit that is high enough.
-/

namespace LogicTerms

/-! ## Answers within high limits -/

section

variable {β : Type} {answer answer' : Nat → β} {result result' : β}

/-- An answer that may depend on a limit is the same within every limit that is high enough. -/
def Settles (answer : Nat → β) (result : β) : Prop :=
  ∃ enough, ∀ limit ≥ enough, answer limit = result

theorem Settles.unique (h : Settles answer result) (h' : Settles answer result') :
    result = result' := by
  obtain ⟨enough, h⟩ := h
  obtain ⟨enough', h'⟩ := h'
  rw [← h (max enough enough') (by omega), h' (max enough enough') (by omega)]

theorem Settles.settles_iff (h : Settles answer result) :
    Settles answer result' ↔ result' = result := by
  constructor
  · intro h'
    exact h'.unique h
  · rintro rfl
    exact h

/-- Answers that agree within high limits settle alike. -/
theorem settles_congr {enough : Nat} (heq : ∀ limit ≥ enough, answer limit = answer' limit) :
    Settles answer result ↔ Settles answer' result := by
  have himp : ∀ {answer answer' : Nat → β}, (∀ limit ≥ enough, answer limit = answer' limit) →
      Settles answer result → Settles answer' result := by
    rintro answer answer' heq ⟨enough', h⟩
    refine ⟨max enough enough', fun limit hle => ?_⟩
    rw [← heq limit (by omega), h limit (by omega)]
  exact ⟨himp heq, himp fun limit hle => (heq limit hle).symm⟩

end

variable {φ α : Type}

def Outcome.ofResult : Except Fault α → Outcome α Fault
  | .ok answer => .value answer
  | .error fault => .failed fault

@[simp]
theorem Outcome.ofResult_eq_value_iff {result : Except Fault α} {value : α} :
    ofResult result = .value value ↔ result = .ok value := by
  cases result <;> simp [ofResult]

@[simp]
theorem Outcome.ofResult_eq_failed_iff {result : Except Fault α} {fault : Fault} :
    ofResult result = .failed fault ↔ result = .error fault := by
  cases result <;> simp [ofResult]

theorem Report.answered_of_outcome {ω : Type} {report : Report α Fault ω}
    {result : Except Fault α} (h : report.outcome = .ofResult result) :
    report.answered.result = result := by
  rw [answered, h]
  cases result <;> rfl

/-- Nobody interrupts an evaluation under the idle observer. -/
theorem Computation.Evaluates.exists_ofResult {resume : φ → Option α → Step φ α Fault}
    {root : Computation φ α} {seen seen' : Unit} {outcome : Outcome α Fault}
    (h : root.Evaluates resume .idle seen outcome seen') :
    ∃ result, outcome = .ofResult result := by
  cases h with
  | suspended h =>
    obtain ⟨value, rfl⟩ | ⟨fault, rfl⟩ := h.value_or_failed
    · exact ⟨.ok value, rfl⟩
    · exact ⟨.error fault, rfl⟩
  | @proceed value => exact ⟨.ok value, rfl⟩
  | abandon hflow | halt hflow => cases hflow

/-! ## Steps of frames -/

section

variable {resume : φ → Option α → Step φ α Fault} {frame next : φ} {input : Option α}
  {outcome : Outcome α Fault}

theorem evaluates_iff_of_fail {fault : Fault} (hstep : resume frame input = .fail fault) :
    Evaluates resume .idle frame input () outcome () ↔ outcome = .failed fault := by
  constructor
  · intro h
    cases h with
    | fail hstep' =>
      cases hstep.symm.trans hstep'
      rfl
    | abandon _ hflow | halt _ hflow => cases hflow
    | finish hstep' | construct hstep' | ready hstep' | nested hstep' | stopped hstep' =>
      cases hstep.symm.trans hstep'
  · rintro rfl
    exact .fail hstep

theorem evaluates_iff_of_finish {value : α} (hstep : resume frame input = .finish value) :
    Evaluates resume .idle frame input () outcome () ↔ outcome = .value value := by
  constructor
  · intro h
    cases h with
    | finish hstep' =>
      cases hstep.symm.trans hstep'
      rfl
    | abandon _ hflow | halt _ hflow => cases hflow
    | fail hstep' | construct hstep' | ready hstep' | nested hstep' | stopped hstep' =>
      cases hstep.symm.trans hstep'
  · rintro rfl
    exact .finish hstep rfl

/-- A frame that waits goes on with the value of its child, or fails with it. -/
theorem evaluates_iff_of_await {child : Computation φ α}
    (hstep : resume frame input = .await child next) :
    Evaluates resume .idle frame input () outcome () ↔
      (∃ part, child.Evaluates resume .idle () (.value part) () ∧
        Evaluates resume .idle next (some part) () outcome ()) ∨
      ∃ fault, child.Evaluates resume .idle () (.failed fault) () ∧ outcome = .failed fault := by
  constructor
  · intro h
    cases h with
    | abandon _ hflow | halt _ hflow => cases hflow
    | fail hstep' | construct hstep' | finish hstep' => cases hstep.symm.trans hstep'
    | ready hstep' _ hnext =>
      cases hstep.symm.trans hstep'
      exact .inl ⟨_, .proceed rfl, hnext⟩
    | nested hstep' _ hchild hleft hnext =>
      cases hstep.symm.trans hstep'
      obtain ⟨part, rfl⟩ | ⟨fault, rfl⟩ := hchild.value_or_failed
      · cases hleft
        exact .inl ⟨part, .suspended hchild, hnext⟩
      · cases hleft
    | stopped hstep' _ hchild hleft =>
      cases hstep.symm.trans hstep'
      obtain ⟨part, rfl⟩ | ⟨fault, rfl⟩ := hchild.value_or_failed
      · cases hleft
      · exact .inr ⟨fault, .suspended hchild, rfl⟩
  · rintro (⟨part, hchild, hnext⟩ | ⟨fault, hchild, rfl⟩)
    · cases hchild with
      | proceed => exact .ready hstep rfl hnext
      | suspended hchild => exact .nested hstep rfl hchild rfl hnext
    · cases hchild with
      | suspended hchild => exact .stopped hstep rfl hchild rfl

end

namespace Procedure

variable {κ : Type} {procedure : Procedure κ φ α} {question : κ} {limit limit' : Nat}
  {result : Except Fault α}

/-! ## Calls -/

/-- A call comes to a value or to a fault, if calls lead to further calls fewer than `limit` times
in a row: it has no computation, or one that is evaluated to the result. -/
inductive Ends (procedure : Procedure κ φ α) (limit : Nat) (question : κ) : Except Fault α → Prop
  | missed {fault} (h : procedure.resolve limit question = .error fault) :
      Ends procedure limit question (.error fault)
  | evaluated {root result} (hroot : procedure.resolve limit question = .ok root)
      (h : root.Evaluates (procedure.step limit) .idle () (.ofResult result) ()) :
      Ends procedure limit question result

/-- A call that ended before its limit ends alike within every higher one. -/
theorem Ends.of_le (h : procedure.Ends limit question result) (hle : limit ≤ limit')
    (hne : result ≠ .error .unfinished) : procedure.Ends limit' question result := by
  cases h with
  | missed h => exact .missed (by rw [resolve_mono hle (by simpa [h] using hne), h])
  | evaluated hroot h =>
    exact .evaluated (resolve_of_le hroot hle) (h.mono (step_mono hle) (by simpa using hne))

theorem Ends.eq_error_of_resolve {fault : Fault} (h : procedure.Ends limit question result)
    (hroot : procedure.resolve limit question = .error fault) : result = .error fault := by
  cases h with
  | missed h =>
    cases hroot.symm.trans h
    rfl
  | evaluated hroot' => cases hroot.symm.trans hroot'

theorem Ends.evaluates {root : Computation φ α} (h : procedure.Ends limit question result)
    (hroot : procedure.resolve limit question = .ok root) :
    root.Evaluates (procedure.step limit) .idle () (.ofResult result) () := by
  cases h with
  | missed h => cases hroot.symm.trans h
  | evaluated hroot' h =>
    cases hroot.symm.trans hroot'
    exact h

/-- What a run reports before it reaches its limit is what the call comes to. -/
theorem ends_of_run
    (h : (procedure.run .idle limit question ()).answered.result = result)
    (hne : result ≠ .error .unfinished) : procedure.Ends limit question result := by
  unfold run at h
  cases hroot : procedure.resolve limit question with
  | error fault =>
    rw [hroot] at h
    subst h
    exact .missed hroot
  | ok root =>
    rw [hroot] at h
    dsimp only at h
    cases hreport : root.run (procedure.step limit) .idle limit () with
    | none =>
      rw [hreport] at h
      exact absurd h.symm hne
    | some report =>
      have heval := Computation.evaluates_of_run hreport
      obtain ⟨result', houtcome⟩ := heval.exists_ofResult
      rw [hreport, Report.answered_of_outcome houtcome] at h
      subst h
      rw [houtcome] at heval
      exact .evaluated hroot heval

/-- What a call comes to is reported within every limit that is high enough. -/
theorem settles_of_ends (h : procedure.Ends limit question result)
    (hne : result ≠ .error .unfinished) :
    Settles (fun limit => (procedure.run .idle limit question ()).answered.result) result := by
  cases h with
  | @missed fault h =>
    refine ⟨limit, fun limit' hle => ?_⟩
    have hmiss : procedure.resolve limit' question = .error fault := by
      rw [resolve_mono hle (by simpa [h] using hne), h]
    simp only [run, hmiss]
    rfl
  | evaluated hroot h =>
    obtain ⟨enough, hrun⟩ := run_of_yields ⟨limit, _, hroot, h⟩ (by simpa using hne)
    exact ⟨enough, fun limit hle => Report.answered_of_outcome (hrun limit hle).1⟩

/-- Runs settle just if recursive evaluation ends. Some call is always possible then. -/
theorem settles_iff_ends (hne : result ≠ .error .unfinished) :
    Settles (fun limit => (procedure.run .idle limit question ()).answered.result) result ↔
      ∃ limit, procedure.Ends (limit + 1) question result := by
  constructor
  · rintro ⟨enough, h⟩
    exact ⟨enough, ends_of_run (h (enough + 1) (by omega)) hne⟩
  · rintro ⟨limit, h⟩
    exact settles_of_ends h hne

/-- A run that did not break off within some limit settles. -/
theorem settles_of_answered
    (h : (procedure.run .idle limit question ()).answered.result = result)
    (hne : result ≠ .error .unfinished) :
    Settles (fun limit => (procedure.run .idle limit question ()).answered.result) result :=
  settles_of_ends (ends_of_run h hne) hne

/-! ## Frames that wait -/

variable {frame next : φ} {input : Option α} {outcome : Outcome α Fault}

/-- A frame that waits for a call goes on with the value of the call, or fails with its fault. -/
theorem evaluates_await_iff (hresume : procedure.resume frame input = .await question next) :
    Evaluates (procedure.step limit) .idle frame input () outcome () ↔
      (∃ part, procedure.Ends limit question (.ok part) ∧
        Evaluates (procedure.step limit) .idle next (some part) () outcome ()) ∨
      ∃ fault, procedure.Ends limit question (.error fault) ∧ outcome = .failed fault := by
  cases hroot : procedure.resolve limit question with
  | error fault =>
    rw [evaluates_iff_of_fail (step_of_await_error hresume hroot)]
    constructor
    · rintro rfl
      exact .inr ⟨fault, .missed hroot, rfl⟩
    · rintro (⟨part, hends, -⟩ | ⟨fault', hends, rfl⟩)
      · cases hends.eq_error_of_resolve hroot
      · cases hends.eq_error_of_resolve hroot
        rfl
  | ok child =>
    rw [evaluates_iff_of_await (step_of_await hresume hroot)]
    constructor
    · rintro (⟨part, hchild, hnext⟩ | ⟨fault, hchild, rfl⟩)
      · exact .inl ⟨part, .evaluated hroot hchild, hnext⟩
      · exact .inr ⟨fault, .evaluated hroot hchild, rfl⟩
    · rintro (⟨part, hends, hnext⟩ | ⟨fault, hends, rfl⟩)
      · exact .inl ⟨part, hends.evaluates hroot, hnext⟩
      · exact .inr ⟨fault, hends.evaluates hroot, rfl⟩

end Procedure

end LogicTerms
