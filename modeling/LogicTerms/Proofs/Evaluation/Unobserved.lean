import LogicTerms.Proofs.Evaluation.Limits

/-!
# Evaluation that nobody interrupts

Frames are dropped or stopped by an observer only. Without one, a call comes to a value or fails,
and there is one way to tell the value for each way in which an answer or a frame goes on.
-/

namespace LogicTerms

variable {φ α ε : Type}

namespace Evaluates

variable {resume : φ → Option α → Step φ α ε} {frame frame' : φ} {input input' : Option α}
  {outcome : Outcome α ε}

/-- Frames are dropped or stopped by an observer only. -/
theorem value_or_failed {seen seen' : Unit}
    (h : Evaluates resume .idle frame input seen outcome seen') :
    (∃ value, outcome = .value value) ∨ ∃ error, outcome = .failed error := by
  generalize hobserver : Observer.idle = observer at h
  induction h with
  | fail => exact .inr ⟨_, rfl⟩
  | finish => exact .inl ⟨_, rfl⟩
  | abandon _ hflow | halt _ hflow =>
    subst hobserver
    cases hflow
  | construct _ _ _ ih | ready _ _ _ ih | nested _ _ _ _ _ _ ih | stopped _ _ _ _ ih => exact ih

/-- What comes of a frame depends on its next step only. -/
theorem of_resume_eq (heq : resume frame input = resume frame' input')
    (h : Evaluates resume .idle frame' input' () outcome ()) :
    Evaluates resume .idle frame input () outcome () := by
  cases h with
  | fail hstep => exact .fail (heq.trans hstep)
  | abandon hevent hflow => exact .abandon (by rw [heq, hevent]) hflow
  | halt hevent hflow => exact .halt (by rw [heq, hevent]) hflow
  | finish hstep hflow => exact .finish (heq.trans hstep) hflow
  | construct hstep hflow hnext => exact .construct (heq.trans hstep) hflow hnext
  | ready hstep hflow hnext => exact .ready (heq.trans hstep) hflow hnext
  | nested hstep hflow hchild hleft hnext =>
    exact .nested (heq.trans hstep) hflow hchild hleft hnext
  | stopped hstep hflow hchild hleft => exact .stopped (heq.trans hstep) hflow hchild hleft

end Evaluates

namespace Procedure

variable {κ : Type} {procedure : Procedure κ φ α} {question question' : κ} {frame next : φ}
  {input : Option α} {value part : α}

abbrev Answers (procedure : Procedure κ φ α) (question : κ) (value : α) : Prop :=
  procedure.Yields .idle question () (.value value) ()

def Finishes (procedure : Procedure κ φ α) (frame : φ) (input : Option α) (value : α) : Prop :=
  ∃ limit, Evaluates (procedure.step limit) .idle frame input () (.value value) ()

/-! ## Calls -/

theorem answers_of_done (h : procedure.answer question = .done (.done value)) :
    procedure.Answers question value := by
  have heval : (Computation.done value).Evaluates (procedure.step 0) .idle () (.value value) () :=
    .proceed rfl
  exact yields_of_root h heval (by simp)

/-- A call that is passed on comes to what the other call comes to. -/
theorem answers_of_delegate (h : procedure.answer question = .delegate question')
    (hanswers : procedure.Answers question' value) : procedure.Answers question value :=
  yields_of_delegate h hanswers (by simp)

/-- A call that suspends comes to what its frame comes to. -/
theorem answers_of_suspended (h : procedure.answer question = .done (.suspended frame))
    (hfinishes : procedure.Finishes frame none value) : procedure.Answers question value := by
  obtain ⟨limit, heval⟩ := hfinishes
  exact yields_of_root h (.suspended heval) (by simp)

theorem answers_of_answer_eq (heq : procedure.answer question = procedure.answer question')
    (h : procedure.Answers question' value) : procedure.Answers question value := by
  obtain ⟨limit, root, hroot, heval⟩ := h
  refine ⟨limit, root, ?_, heval⟩
  cases limit with
  | zero => simp [resolve] at hroot
  | succ limit => rwa [resolve, heq]

/-! ## Frames -/

theorem finishes_of_finish (h : procedure.resume frame input = .done (.finish value)) :
    procedure.Finishes frame input value :=
  ⟨0, .finish (step_of_done h) rfl⟩

/-- The announcement of a compound takes a turn of its own and changes nothing. -/
theorem finishes_of_construct (h : procedure.resume frame input = .done (.construct next))
    (hnext : procedure.Finishes next none value) : procedure.Finishes frame input value := by
  obtain ⟨limit, heval⟩ := hnext
  exact ⟨limit, .construct (step_of_done h) rfl heval⟩

/-- A frame that waits for a call goes on with its value. -/
theorem finishes_of_await (h : procedure.resume frame input = .await question next)
    (hcall : procedure.Answers question part)
    (hnext : procedure.Finishes next (some part) value) :
    procedure.Finishes frame input value := by
  obtain ⟨limit, root, hroot, hchild⟩ := hcall
  obtain ⟨limit', heval⟩ := hnext
  -- Within the greater limit both the call and the rest of the frame are evaluated.
  have hle := Nat.le_max_left limit limit'
  have hstep := step_of_await h (resolve_of_le hroot hle)
  have heval' := evaluates_of_le heval (Nat.le_max_right limit limit') (by simp)
  refine ⟨max limit limit', ?_⟩
  cases hchild with
  | proceed hflow => exact .ready hstep rfl heval'
  | suspended hchild => exact .nested hstep rfl (evaluates_of_le hchild hle (by simp)) rfl heval'

theorem finishes_of_resume_eq {frame' : φ} {input' : Option α}
    (heq : procedure.resume frame input = procedure.resume frame' input')
    (h : procedure.Finishes frame' input' value) : procedure.Finishes frame input value := by
  obtain ⟨limit, heval⟩ := h
  refine ⟨limit, heval.of_resume_eq ?_⟩
  rw [Procedure.step, Procedure.step, heq]

end Procedure

end LogicTerms
