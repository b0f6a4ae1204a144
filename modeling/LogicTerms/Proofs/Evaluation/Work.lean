import LogicTerms.Proofs.Evaluation.Settled

/-!
# The work of runs

A run counts how often it resumes a frame and how many frames wait at most. Recursive evaluation
tells both in advance: a child adds its steps to those of the frame that waits for it, and it lies
one frame higher.
-/

namespace LogicTerms

variable {φ α ε : Type} {resume resume' : φ → Option α → Step φ α ε}

/-- One more step before the work of a frame, and the run of a child after that step if there is
one. -/
def Completion.after (work : Completion) : Option Completion → Completion
  | none => ⟨work.steps + 1, work.peakDepth⟩
  | some child => ⟨child.steps + work.steps + 1, max (child.peakDepth + 1) work.peakDepth⟩

/-! ## Evaluation with work -/

/-- A frame that is resumed with an input comes to a value. The work is that of a run which starts
with this frame alone. -/
inductive Works (resume : φ → Option α → Step φ α ε) : φ → Option α → α → Completion → Prop
  | finish {frame input value} (hstep : resume frame input = .finish value) :
      Works resume frame input value ⟨1, 1⟩
  | construct {frame input next value work} (hstep : resume frame input = .construct next)
      (hnext : Works resume next none value work) : Works resume frame input value (work.after none)
  | ready {frame input part next value work} (hstep : resume frame input = .await (.done part) next)
      (hnext : Works resume next (some part) value work) :
      Works resume frame input value (work.after none)
  | nested {frame input child part next value before work}
      (hstep : resume frame input = .await (.suspended child) next)
      (hchild : Works resume child none part before)
      (hnext : Works resume next (some part) value work) :
      Works resume frame input value (work.after (some before))

inductive Computation.Works (resume : φ → Option α → Step φ α ε) :
    Computation φ α → α → Option Completion → Prop
  | done {value} : Works resume (.done value) value none
  | suspended {frame value work} (h : LogicTerms.Works resume frame none value work) :
      Works resume (.suspended frame) value (some work)

namespace Works

variable {frame frame' next : φ} {input input' : Option α} {value part : α} {work : Completion}

/-- The work of a frame that waits once: a step to ask for the child, the child, and the rest. -/
theorem await {child : Computation φ α} {before : Option Completion}
    (hstep : resume frame input = .await child next) (hchild : child.Works resume part before)
    (hnext : Works resume next (some part) value work) :
    Works resume frame input value (work.after before) := by
  cases hchild with
  | done => exact .ready hstep hnext
  | suspended hchild => exact .nested hstep hchild hnext

/-- What comes of a frame depends on its next step only. -/
theorem of_resume_eq (heq : resume frame input = resume frame' input')
    (h : Works resume frame' input' value work) : Works resume frame input value work := by
  cases h with
  | finish hstep => exact .finish (heq.trans hstep)
  | construct hstep hnext => exact .construct (heq.trans hstep) hnext
  | ready hstep hnext => exact .ready (heq.trans hstep) hnext
  | nested hstep hchild hnext => exact .nested (heq.trans hstep) hchild hnext

/-- Evaluation does not depend on frames that fail. -/
theorem mono (hresume : ∀ frame input, resume' frame input = resume frame input ∨
      ∃ error, resume frame input = .fail error)
    (h : Works resume frame input value work) : Works resume' frame input value work := by
  have same {frame input step} (hstep : resume frame input = step)
      (hne : ∀ error, step ≠ .fail error) : resume' frame input = step := by
    obtain hsame | ⟨error, hfail⟩ := hresume frame input
    · rw [hsame, hstep]
    · exact absurd (hstep.symm.trans hfail) (hne error)
  induction h with
  | finish hstep => exact .finish (same hstep (by simp))
  | construct hstep _ ih => exact .construct (same hstep (by simp)) ih
  | ready hstep _ ih => exact .ready (same hstep (by simp)) ih
  | nested hstep _ _ ihchild ihnext => exact .nested (same hstep (by simp)) ihchild ihnext

/-- The frame itself waits in the stack. -/
theorem peakDepth_pos (h : Works resume frame input value work) : 0 < work.peakDepth := by
  induction h with
  | finish => exact Nat.one_pos
  | construct _ _ ih | ready _ _ ih => exact ih
  | nested _ _ _ _ ih => exact Nat.lt_of_lt_of_le ih (Nat.le_max_right _ _)

end Works

theorem Computation.Works.mono {root : Computation φ α} {value : α} {work : Option Completion}
    (hresume : ∀ frame input, resume' frame input = resume frame input ∨
      ∃ error, resume frame input = .fail error)
    (h : root.Works resume value work) : root.Works resume' value work := by
  cases h with
  | done => exact .done
  | suspended h => exact .suspended (h.mono hresume)

/-! ## Runs count the work -/

namespace Running

def leave (run : Running φ α) (below : List φ) (value : α) (work : Completion) : Running φ α :=
  ⟨below, some value, run.steps + work.steps, run.depth - 1,
    max run.peakDepth (run.depth + work.peakDepth - 1)⟩

variable {run : Running φ α} {frame child next : φ} {below : List φ} {input : Option α}
  {value part : α} {work before : Completion}

/-- A frame that finishes at once has taken one step at its own height. -/
theorem pop_eq_leave (hdepth : run.depth ≤ run.peakDepth) :
    run.pop below (some value) = run.leave below value ⟨1, 1⟩ := by
  simp only [pop, leave, Running.mk.injEq, true_and]
  omega

theorem leave_again : (run.again next below input).leave below value work =
    run.leave below value (work.after none) := by
  simp only [again, leave, Completion.after, Running.mk.injEq, true_and, and_true]
  omega

/-- The child leaves the stack, and then its parent does. -/
theorem leave_push (hpos : 0 < before.peakDepth) :
    ((run.push child next below).leave (next :: below) part before).leave below value work =
      run.leave below value (work.after (some before)) := by
  simp only [push, leave, Completion.after, Running.mk.injEq, true_and]
  omega

/-- After as many rounds as the work has steps, the topmost frame has left the stack. Frames that
come to lie above it are counted from the height that the stack has. -/
theorem drive_of_works (h : Works resume frame input value work) (run : Running φ α)
    (hstack : run.stack = frame :: below) (hinput : run.input = input)
    (hdepth : run.depth ≤ run.peakDepth) (limit : Nat) :
    drive resume .idle (limit + work.steps) run () =
      drive resume .idle limit (run.leave below value work) () := by
  induction h generalizing below run limit with
  | finish hstep =>
    subst hinput
    rw [drive_of_proceed hstack hstep rfl rfl, pop_eq_leave hdepth]
  | @construct _ _ next _ work hstep _ ih =>
    subst hinput
    have hnext := ih (run.again next below none) rfl rfl hdepth limit
    rw [← leave_again, ← hnext]
    exact drive_of_proceed hstack hstep rfl rfl _
  | @ready _ _ part next _ work hstep _ ih =>
    subst hinput
    have hnext := ih (run.again next below (some part)) rfl rfl hdepth limit
    rw [← leave_again, ← hnext]
    exact drive_of_proceed hstack hstep rfl rfl _
  | @nested _ _ child part next _ before work hstep hchild _ ihchild ihnext =>
    subst hinput
    have hpush := ihchild (run.push child next below) rfl rfl (Nat.le_max_right _ _)
      (limit + work.steps)
    have hback := ihnext ((run.push child next below).leave (next :: below) part before)
      rfl rfl (by simp only [push, leave]; omega) limit
    rw [← leave_push hchild.peakDepth_pos, ← hback, ← hpush]
    have hsteps : limit + (work.after (some before)).steps =
        limit + work.steps + before.steps + 1 := by
      simp only [Completion.after]
      omega
    rw [hsteps]
    exact drive_of_proceed hstack hstep rfl rfl _

end Running

/-- The run of a computation reports its value and its work. -/
theorem Computation.exists_run_of_works {root : Computation φ α} {value : α}
    {work : Option Completion} (h : root.Works resume value work) :
    ∃ limit, root.run resume .idle limit () = some ⟨.value value, (), work⟩ := by
  cases h with
  | done => exact ⟨0, rfl⟩
  | @suspended frame _ work h =>
    have hdrive := Running.drive_of_works h (.start frame) rfl rfl (Nat.le_refl 1) 1
    have hpos := h.peakDepth_pos
    have hleave : (Running.start frame : Running φ α).leave [] value work =
        ⟨[], some value, work.steps, 0, work.peakDepth⟩ := by
      simp only [Running.start, Running.leave, Running.mk.injEq, true_and]
      omega
    refine ⟨1 + work.steps, ?_⟩
    rw [run, hdrive, hleave]
    rfl

/-! ## Calls -/

namespace Procedure

variable {κ : Type} {procedure : Procedure κ φ α} {question question' : κ} {frame frame' next : φ}
  {input input' : Option α} {value part : α} {limit limit' : Nat}

/-- A call comes to a value, within some limit of its calls, and its run takes so much work. A call
that is answered at once takes no run. -/
def AnswersIn (procedure : Procedure κ φ α) (question : κ) (value : α)
    (work : Option Completion) : Prop :=
  ∃ limit root, procedure.resolve limit question = .ok root ∧
    root.Works (procedure.step limit) value work

def FinishesIn (procedure : Procedure κ φ α) (frame : φ) (input : Option α) (value : α)
    (work : Completion) : Prop :=
  ∃ limit, Works (procedure.step limit) frame input value work

theorem step_eq_or_fail (procedure : Procedure κ φ α) (hle : limit ≤ limit') (frame : φ)
    (input : Option α) : procedure.step limit' frame input = procedure.step limit frame input ∨
      ∃ fault, procedure.step limit frame input = .fail fault :=
  (step_mono hle frame input).imp_right fun h => ⟨_, h⟩

theorem answersIn_of_root {root : Computation φ α} {work : Option Completion}
    (h : procedure.answer question = .done root)
    (hroot : root.Works (procedure.step limit) value work) :
    procedure.AnswersIn question value work := by
  refine ⟨limit + 1, root, ?_, hroot.mono (procedure.step_eq_or_fail (Nat.le_succ limit))⟩
  rw [resolve, h, Query.run]

theorem answersIn_of_done (h : procedure.answer question = .done (.done value)) :
    procedure.AnswersIn question value none := by
  have hroot : (Computation.done value).Works (procedure.step 0) value none := .done
  exact answersIn_of_root h hroot

/-- A call that suspends takes the work of its frame. -/
theorem answersIn_of_suspended {work : Completion}
    (h : procedure.answer question = .done (.suspended frame))
    (hframe : procedure.FinishesIn frame none value work) :
    procedure.AnswersIn question value (some work) := by
  obtain ⟨limit, hworks⟩ := hframe
  exact answersIn_of_root h (.suspended hworks)

/-- Passing a call on takes no work. -/
theorem answersIn_of_delegate {work : Option Completion}
    (h : procedure.answer question = .delegate question')
    (hanswers : procedure.AnswersIn question' value work) :
    procedure.AnswersIn question value work := by
  obtain ⟨limit, root, hroot, hworks⟩ := hanswers
  refine ⟨limit + 1, root, ?_, hworks.mono (procedure.step_eq_or_fail (Nat.le_succ limit))⟩
  rw [resolve, h, Query.run_delegate, hroot]

/-! ## Frames -/

theorem finishesIn_of_finish (h : procedure.resume frame input = .done (.finish value)) :
    procedure.FinishesIn frame input value ⟨1, 1⟩ :=
  ⟨0, .finish (step_of_done h)⟩

theorem finishesIn_of_construct {work : Completion}
    (h : procedure.resume frame input = .done (.construct next))
    (hnext : procedure.FinishesIn next none value work) :
    procedure.FinishesIn frame input value (work.after none) := by
  obtain ⟨limit, hworks⟩ := hnext
  exact ⟨limit, .construct (step_of_done h) hworks⟩

/-- A frame that waits for a call goes on with its value, after the work of the call. -/
theorem finishesIn_of_await {before : Option Completion} {work : Completion}
    (h : procedure.resume frame input = .await question next)
    (hcall : procedure.AnswersIn question part before)
    (hnext : procedure.FinishesIn next (some part) value work) :
    procedure.FinishesIn frame input value (work.after before) := by
  obtain ⟨limit, root, hroot, hchild⟩ := hcall
  obtain ⟨limit', hworks⟩ := hnext
  -- Within the greater limit both the call and the rest of the frame are evaluated.
  have hle := Nat.le_max_left limit limit'
  have hstep := step_of_await h (resolve_of_le hroot hle)
  exact ⟨max limit limit', .await hstep (hchild.mono (procedure.step_eq_or_fail hle))
    (hworks.mono (procedure.step_eq_or_fail (Nat.le_max_right limit limit')))⟩

theorem finishesIn_of_resume_eq {work : Completion}
    (heq : procedure.resume frame input = procedure.resume frame' input')
    (h : procedure.FinishesIn frame' input' value work) :
    procedure.FinishesIn frame input value work := by
  obtain ⟨limit, hworks⟩ := h
  refine ⟨limit, hworks.of_resume_eq ?_⟩
  rw [Procedure.step, Procedure.step, heq]

/-! ## Runs of calls -/

variable {work : Option Completion}

/-- A run settles on the value and on the work that were told in advance. -/
theorem settles_of_answersIn (h : procedure.AnswersIn question value work) :
    Settles (fun limit => procedure.run .idle limit question ()) ⟨.value value, (), work⟩ := by
  obtain ⟨limit, root, hroot, hworks⟩ := h
  obtain ⟨rounds, hrun⟩ := Computation.exists_run_of_works hworks
  refine ⟨max limit rounds, fun limit' hle => ?_⟩
  have hlimit : limit ≤ limit' := by omega
  have hrun' : root.run (procedure.step limit') .idle limit' () =
      some ⟨.value value, (), work⟩ := by
    refine Computation.run_mono (by omega) (fun frame input => ?_) hrun
    exact (step_mono hlimit frame input).imp_right fun h => ⟨_, h, by simp⟩
  simp only [run, resolve_of_le hroot hlimit, hrun']

/-- Within any limit a run reports the value and the work of its call, or it breaks off. -/
theorem run_eq_or_unfinished (h : procedure.AnswersIn question value work) (limit : Nat) :
    procedure.run .idle limit question () = ⟨.value value, (), work⟩ ∨
      (procedure.run .idle limit question ()).outcome = .failed .unfinished := by
  obtain ⟨enough, henough⟩ := settles_of_answersIn h
  by_cases hne : (procedure.run .idle limit question ()).outcome = .failed .unfinished
  · exact .inr hne
  · refine .inl ?_
    rw [← run_mono (Nat.le_max_left limit enough) hne]
    exact henough _ (Nat.le_max_right limit enough)

end Procedure

end LogicTerms
