import LogicTerms.Evaluation.Run

/-!
# Runs as recursive evaluation

A run keeps the waiting frames in a stack and has one place for the value that is handed over.
Recursive evaluation has neither: the evaluation of a child is part of the evaluation of its parent,
which goes on with what the child came to. Both show an observer the same things in the same order
and end alike.
-/

namespace LogicTerms

variable {φ α ε ω : Type}

def Step.event? : Step φ α ε → Option (Event α)
  | .await (.suspended _) _ => some .nested
  | .await (.done value) _ => some (.value value)
  | .construct _ => some .construct
  | .finish value => some (.value value)
  | .fail _ => none

theorem Step.exists_of_event?_eq_none {step : Step φ α ε} (h : step.event? = none) :
    ∃ error, step = .fail error := by
  unfold event? at h
  split at h <;> simp_all

/-- The input that the outcome of a child leaves for the frame that waits for it. There is no such
frame any more if everything was stopped. -/
def Outcome.handed : Outcome α ε → Option (Option α)
  | .value v => some (some v)
  | .interrupted .abandoned => some none
  | .interrupted .halted => none
  | .failed _ => none

/-! ## Recursive evaluation -/

/-- A frame that is resumed with an input, by an observer in a state `seen`, comes to an outcome and
leaves the observer in a state. Every resumption with its input, and every event, changes the state
of the observer, so that an observer may record them all. -/
inductive Evaluates (resume : φ → Option α → Step φ α ε) (observer : Observer φ α ω) :
    φ → Option α → ω → Outcome α ε → ω → Prop
  /-- A frame that gives up stops everything. -/
  | fail {frame input seen error} (hstep : resume frame input = .fail error) :
      Evaluates resume observer frame input seen (.failed error)
        (observer.resumed frame input seen)
  /-- Any event of the frame may be answered by dropping the frame, -/
  | abandon {frame input seen event seen'} (hevent : (resume frame input).event? = some event)
      (hflow : observer.observe event (observer.resumed frame input seen) = (.abandon, seen')) :
      Evaluates resume observer frame input seen (.interrupted .abandoned) seen'
  /-- or by stopping everything. -/
  | halt {frame input seen event seen'} (hevent : (resume frame input).event? = some event)
      (hflow : observer.observe event (observer.resumed frame input seen) = (.halt, seen')) :
      Evaluates resume observer frame input seen (.interrupted .halted) seen'
  | finish {frame input seen value seen'} (hstep : resume frame input = .finish value)
      (hflow : observer.observe (.value value) (observer.resumed frame input seen) =
        (.proceed, seen')) :
      Evaluates resume observer frame input seen (.value value) seen'
  | construct {frame input seen next seen₁ outcome seen'}
      (hstep : resume frame input = .construct next)
      (hflow : observer.observe .construct (observer.resumed frame input seen) = (.proceed, seen₁))
      (hnext : Evaluates resume observer next none seen₁ outcome seen') :
      Evaluates resume observer frame input seen outcome seen'
  /-- A child that is there already is handed over, -/
  | ready {frame input seen value next seen₁ outcome seen'}
      (hstep : resume frame input = .await (.done value) next)
      (hflow : observer.observe (.value value) (observer.resumed frame input seen) =
        (.proceed, seen₁))
      (hnext : Evaluates resume observer next (some value) seen₁ outcome seen') :
      Evaluates resume observer frame input seen outcome seen'
  /-- and any other child is evaluated first, after which the frame goes on with what it left. -/
  | nested {frame input seen child next seen₁ left handed seen₂ outcome seen'}
      (hstep : resume frame input = .await (.suspended child) next)
      (hflow : observer.observe .nested (observer.resumed frame input seen) = (.proceed, seen₁))
      (hchild : Evaluates resume observer child none seen₁ left seen₂)
      (hleft : left.handed = some handed)
      (hnext : Evaluates resume observer next handed seen₂ outcome seen') :
      Evaluates resume observer frame input seen outcome seen'
  | stopped {frame input seen child next seen₁ outcome seen'}
      (hstep : resume frame input = .await (.suspended child) next)
      (hflow : observer.observe .nested (observer.resumed frame input seen) = (.proceed, seen₁))
      (hchild : Evaluates resume observer child none seen₁ outcome seen')
      (hleft : outcome.handed = none) :
      Evaluates resume observer frame input seen outcome seen'

inductive Computation.Evaluates (resume : φ → Option α → Step φ α ε) (observer : Observer φ α ω) :
    Computation φ α → ω → Outcome α ε → ω → Prop
  | suspended {frame seen outcome seen'}
      (h : LogicTerms.Evaluates resume observer frame none seen outcome seen') :
      Evaluates resume observer (.suspended frame) seen outcome seen'
  | proceed {value seen seen'} (hflow : observer.observe (.value value) seen = (.proceed, seen')) :
      Evaluates resume observer (.done value) seen (.value value) seen'
  | abandon {value seen seen'} (hflow : observer.observe (.value value) seen = (.abandon, seen')) :
      Evaluates resume observer (.done value) seen (.interrupted .abandoned) seen'
  | halt {value seen seen'} (hflow : observer.observe (.value value) seen = (.halt, seen')) :
      Evaluates resume observer (.done value) seen (.interrupted .halted) seen'

variable {resume : φ → Option α → Step φ α ε} {observer : Observer φ α ω}

/-! ## Rounds of a run -/

namespace Running

variable {run onward : Running φ α} {frame : φ} {below : List φ} {event : Event α} {seen seen' : ω}

theorem exists_after (run : Running φ α) (below : List φ) {step : Step φ α ε}
    (h : step.event? = some event) :
    ∃ onward, run.after below step = .ok (event, onward) := by
  unfold Step.event? at h
  split at h <;> simp_all [after]

theorem drive_of_fail {error : ε} (hs : run.stack = frame :: below)
    (hstep : resume frame run.input = .fail error) (limit : Nat) :
    drive resume observer (limit + 1) run seen =
      some ⟨.failed error, observer.resumed frame run.input seen, none⟩ := by
  simp only [drive, hs, hstep, after]

/-- A round in which the observer lets the run go on. -/
theorem drive_of_proceed {step : Step φ α ε} (hs : run.stack = frame :: below)
    (hstep : resume frame run.input = step) (hafter : run.after below step = .ok (event, onward))
    (hflow : observer.observe event (observer.resumed frame run.input seen) = (.proceed, seen'))
    (limit : Nat) :
    drive resume observer (limit + 1) run seen = drive resume observer limit onward seen' := by
  simp only [drive, hs, hstep, hafter, hflow]

/-- A round in which the observer drops the frame of the event. The frame below is resumed without a
value, whatever the step would have done to the stack. -/
theorem drive_of_abandon (hs : run.stack = frame :: below)
    (hevent : (resume frame run.input).event? = some event)
    (hflow : observer.observe event (observer.resumed frame run.input seen) = (.abandon, seen'))
    (limit : Nat) :
    drive resume observer (limit + 1) run seen =
      drive resume observer limit (run.pop below none) seen' := by
  obtain ⟨onward, hafter⟩ := exists_after run below hevent
  simp only [drive, hs, hafter, hflow]

/-- A round in which the observer stops the run. -/
theorem drive_of_halt (hs : run.stack = frame :: below)
    (hevent : (resume frame run.input).event? = some event)
    (hflow : observer.observe event (observer.resumed frame run.input seen) = (.halt, seen'))
    (limit : Nat) :
    drive resume observer (limit + 1) run seen = some ⟨.interrupted .halted, seen', none⟩ := by
  obtain ⟨onward, hafter⟩ := exists_after run below hevent
  simp only [drive, hs, hafter, hflow]

/-- A run that has ended ends alike within any higher limit, also if its frames are resumed
otherwise, as long as they differ only in failures that the run did not end with. -/
theorem drive_mono {resume' : φ → Option α → Step φ α ε} {limit limit' : Nat}
    {report : Report α ε ω} (hle : limit ≤ limit')
    (hresume : ∀ frame input, resume' frame input = resume frame input ∨
      ∃ error, resume frame input = .fail error ∧ report.outcome ≠ .failed error)
    (h : drive resume observer limit run seen = some report) :
    drive resume' observer limit' run seen = some report := by
  induction limit generalizing limit' run seen with
  | zero => simp [drive] at h
  | succ limit ih =>
    obtain ⟨limit', rfl⟩ : ∃ n, limit' = n + 1 := ⟨limit' - 1, by omega⟩
    have hle' : limit ≤ limit' := by omega
    cases hs : run.stack with
    | nil =>
      simp only [drive, hs] at h ⊢
      exact h
    | cons frame below =>
      obtain hsame | ⟨error, hstep, hne⟩ := hresume frame run.input
      · simp only [drive, hs, hsame] at h ⊢
        split at h
        · exact h
        · split at h
          · exact ih hle' h
          · exact ih hle' h
          · exact h
      · rw [drive_of_fail hs hstep] at h
        cases h
        exact absurd rfl hne

/-! ## A run follows the evaluation of its topmost frame -/

/-- The run goes on as the outcome of its topmost frame tells: with the frames below and the input
that is left for them, or not at all if everything was stopped. -/
def Follows (resume : φ → Option α → Step φ α ε) (observer : Observer φ α ω)
    (run : Running φ α) (seen : ω) (below : List φ) (outcome : Outcome α ε) (seen' : ω) : Prop :=
  match outcome.handed with
  | some input => ∃ (onward : Running φ α) (rounds : Nat),
      onward.stack = below ∧ onward.input = input ∧ ∀ limit,
        drive resume observer (limit + rounds) run seen = drive resume observer limit onward seen'
  | none => ∃ rounds, ∀ limit,
      drive resume observer (limit + rounds) run seen = some ⟨outcome, seen', none⟩

variable {outcome : Outcome α ε} {seen₁ : ω}

theorem follows_of_handed {handed : Option α} (hhanded : outcome.handed = some handed)
    (rounds : Nat) (hstack : onward.stack = below) (hinput : onward.input = handed)
    (hdrive : ∀ limit, drive resume observer (limit + rounds) run seen =
      drive resume observer limit onward seen') :
    Follows resume observer run seen below outcome seen' := by
  unfold Follows
  rw [hhanded]
  exact ⟨onward, rounds, hstack, hinput, hdrive⟩

theorem follows_of_stopped (hhanded : outcome.handed = none) (rounds : Nat)
    (hdrive : ∀ limit, drive resume observer (limit + rounds) run seen =
      some ⟨outcome, seen', none⟩) :
    Follows resume observer run seen below outcome seen' := by
  unfold Follows
  rw [hhanded]
  exact ⟨rounds, hdrive⟩

/-- Rounds may be put before. -/
theorem Follows.after {rounds : Nat}
    (hdrive : ∀ limit, drive resume observer (limit + rounds) run seen =
      drive resume observer limit onward seen₁)
    (h : Follows resume observer onward seen₁ below outcome seen') :
    Follows resume observer run seen below outcome seen' := by
  unfold Follows at h
  split at h
  next handed hhanded =>
    obtain ⟨last, more, hstack, hinput, hmore⟩ := h
    refine follows_of_handed hhanded (more + rounds) hstack hinput fun limit => ?_
    rw [← Nat.add_assoc, hdrive, hmore]
  next hhanded =>
    obtain ⟨more, hmore⟩ := h
    refine follows_of_stopped hhanded (more + rounds) fun limit => ?_
    rw [← Nat.add_assoc, hdrive, hmore]

/-- A run follows the evaluation of its topmost frame and then goes on with the frames below, by
induction on the evaluation. -/
theorem follows_of_evaluates {input : Option α}
    (h : Evaluates resume observer frame input seen outcome seen') (run : Running φ α)
    (hs : run.stack = frame :: below) (hi : run.input = input) :
    Follows resume observer run seen below outcome seen' := by
  induction h generalizing below run with
  | fail hstep =>
    subst hi
    exact follows_of_stopped rfl 1 (drive_of_fail hs hstep)
  | abandon hevent hflow =>
    subst hi
    exact follows_of_handed rfl 1 rfl rfl (drive_of_abandon hs hevent hflow)
  | halt hevent hflow =>
    subst hi
    exact follows_of_stopped rfl 1 (drive_of_halt hs hevent hflow)
  | finish hstep hflow =>
    subst hi
    exact follows_of_handed rfl 1 rfl rfl (drive_of_proceed hs hstep rfl hflow)
  | construct hstep hflow _ ih =>
    subst hi
    have hround := drive_of_proceed hs hstep rfl hflow
    exact .after hround (ih _ rfl rfl)
  | ready hstep hflow _ ih =>
    subst hi
    have hround := drive_of_proceed hs hstep rfl hflow
    exact .after hround (ih _ rfl rfl)
  | @nested _ _ _ _ next _ left handed _ _ _ hstep hflow _ hleft _ ihchild ihnext =>
    subst hi
    have hround := drive_of_proceed hs hstep rfl hflow
    have hchild := ihchild (run.push _ next below) rfl rfl
    -- The child leaves the stack, and its parent is on top again.
    unfold Follows at hchild
    rw [hleft] at hchild
    obtain ⟨back, rounds, hstack, hinput, hback⟩ := hchild
    exact .after hround (.after hback (ihnext back hstack hinput))
  | @stopped _ _ _ _ next _ _ _ hstep hflow _ hleft ih =>
    subst hi
    have hround := drive_of_proceed hs hstep rfl hflow
    have hchild := ih (run.push _ next below) rfl rfl
    unfold Follows at hchild
    rw [hleft] at hchild
    obtain ⟨rounds, hstop⟩ := hchild
    refine follows_of_stopped hleft (rounds + 1) fun limit => ?_
    rw [← Nat.add_assoc, hround, hstop]

/-! ## Runs that end -/

/-- A run that ends has gone through its first rounds. -/
theorem exists_drive_of_rounds {limit rounds : Nat} {report : Report α ε ω}
    (hdrive : ∀ limit, drive resume observer (limit + rounds) run seen =
      drive resume observer limit onward seen₁)
    (h : drive resume observer limit run seen = some report) :
    ∃ rest ≤ limit, drive resume observer rest onward seen₁ = some report := by
  by_cases hle : rounds ≤ limit
  · refine ⟨limit - rounds, Nat.sub_le _ _, ?_⟩
    rw [← hdrive, Nat.sub_add_cancel hle]
    exact h
  · have hmore := drive_mono (show limit ≤ 0 + rounds by omega) (fun _ _ => .inl rfl) h
    rw [hdrive] at hmore
    simp [drive] at hmore

/-- If a run ends, so does the evaluation of its topmost frame. The induction is on the limit: a
child takes some of the rounds, and the frame that waits for it has fewer left. -/
theorem evaluates_of_drive {limit : Nat} {report : Report α ε ω} (run : Running φ α)
    (hs : run.stack = frame :: below)
    (h : drive resume observer limit run seen = some report) :
    ∃ outcome seen', Evaluates resume observer frame run.input seen outcome seen' := by
  induction limit using Nat.strongRecOn generalizing frame below seen run with
  | ind limit ih =>
    obtain _ | limit := limit
    · simp [drive] at h
    obtain hnone | ⟨event, hevent⟩ := Option.eq_none_or_eq_some (resume frame run.input).event?
    · obtain ⟨error, hstep⟩ := Step.exists_of_event?_eq_none hnone
      exact ⟨_, _, .fail hstep⟩
    obtain ⟨onward, hafter⟩ := exists_after run below hevent
    rcases hflow : observer.observe event (observer.resumed frame run.input seen) with
      ⟨_ | _ | _, seen₁⟩
    case abandon => exact ⟨_, _, .abandon hevent hflow⟩
    case halt => exact ⟨_, _, .halt hevent hflow⟩
    -- The event is let go on, and what comes of it is known by induction on the rounds left.
    rw [drive_of_proceed hs rfl hafter hflow] at h
    cases hstep : resume frame run.input with
    | fail error => simp [hstep, Step.event?] at hevent
    | finish value =>
      obtain rfl : .value value = event := by simpa [hstep, Step.event?] using hevent
      exact ⟨_, _, .finish hstep hflow⟩
    | construct next =>
      obtain ⟨rfl, rfl⟩ : .construct = event ∧ run.again next below none = onward := by
        simpa [hstep, after] using hafter
      obtain ⟨outcome, seen', hnext⟩ := ih limit (Nat.lt_succ_self _) _ rfl h
      exact ⟨outcome, seen', .construct hstep hflow hnext⟩
    | await child next =>
      cases child with
      | done value =>
        obtain ⟨rfl, rfl⟩ : .value value = event ∧ run.again next below (some value) = onward := by
          simpa [hstep, after] using hafter
        obtain ⟨outcome, seen', hnext⟩ := ih limit (Nat.lt_succ_self _) _ rfl h
        exact ⟨outcome, seen', .ready hstep hflow hnext⟩
      | suspended child =>
        obtain ⟨rfl, rfl⟩ : .nested = event ∧ run.push child next below = onward := by
          simpa [hstep, after] using hafter
        obtain ⟨left, seen₂, hchild⟩ := ih limit (Nat.lt_succ_self _) _ rfl h
        have hfollows := follows_of_evaluates hchild (run.push child next below) rfl rfl
        unfold Follows at hfollows
        split at hfollows
        next handed hleft =>
          obtain ⟨back, rounds, hstack, hinput, hback⟩ := hfollows
          obtain ⟨rest, hle, hrest⟩ := exists_drive_of_rounds hback h
          obtain ⟨outcome, seen', hnext⟩ := ih rest (Nat.lt_succ_of_le hle) back hstack hrest
          rw [hinput] at hnext
          exact ⟨outcome, seen', .nested hstep hflow hchild hleft hnext⟩
        next hleft => exact ⟨left, seen₂, .stopped hstep hflow hchild hleft⟩

end Running

/-! ## Computations -/

theorem Running.report_outcome {run : Running φ α} {outcome : Outcome α ε}
    (h : outcome.handed = some run.input) (seen : ω) :
    (run.report seen : Report α ε ω).outcome = outcome := by
  unfold Outcome.handed at h
  split at h <;> simp_all [report, eq_comm]

namespace Computation

variable {root : Computation φ α} {outcome : Outcome α ε} {seen seen' : ω}

theorem run_mono {resume' : φ → Option α → Step φ α ε} {limit limit' : Nat} {report : Report α ε ω}
    (hle : limit ≤ limit')
    (hresume : ∀ frame input, resume' frame input = resume frame input ∨
      ∃ error, resume frame input = .fail error ∧ report.outcome ≠ .failed error)
    (h : root.run resume observer limit seen = some report) :
    root.run resume' observer limit' seen = some report := by
  cases root with
  | done value => exact h
  | suspended frame => exact Running.drive_mono hle hresume h

/-- A computation that is evaluated to an outcome has a run with this outcome and with the same last
state of the observer. -/
theorem run_of_evaluates (h : root.Evaluates resume observer seen outcome seen') :
    ∃ limit report, root.run resume observer limit seen = some report ∧
      report.outcome = outcome ∧ report.observed = seen' := by
  cases h with
  | proceed hflow | abandon hflow | halt hflow => exact ⟨0, _, by rw [run, hflow], rfl, rfl⟩
  | @suspended frame _ _ _ h =>
    have hfollows := Running.follows_of_evaluates h (.start frame) rfl rfl
    unfold Running.Follows at hfollows
    split at hfollows
    next handed hleft =>
      obtain ⟨onward, rounds, hstack, rfl, hdrive⟩ := hfollows
      refine ⟨1 + rounds, onward.report seen', ?_, Running.report_outcome hleft seen', rfl⟩
      rw [run, hdrive]
      simp only [Running.drive, hstack]
    next hleft =>
      obtain ⟨rounds, hdrive⟩ := hfollows
      exact ⟨0 + rounds, _, hdrive 0, rfl, rfl⟩

theorem evaluates_of_run {limit : Nat} {report : Report α ε ω}
    (h : root.run resume observer limit seen = some report) :
    root.Evaluates resume observer seen report.outcome report.observed := by
  cases root with
  | done value =>
    rcases hflow : observer.observe (.value value) seen with ⟨_ | _ | _, seen'⟩ <;>
      rw [run, hflow] at h <;> cases h
    · exact .proceed hflow
    · exact .abandon hflow
    · exact .halt hflow
  | suspended frame =>
    obtain ⟨outcome, seen', heval⟩ := Running.evaluates_of_drive (.start frame) rfl h
    have hroot := Evaluates.suspended heval
    obtain ⟨limit', report', hrun, rfl, rfl⟩ := run_of_evaluates hroot
    -- Both limits are enough, and so is the greater one.
    have hle := run_mono (Nat.le_max_left limit limit') (fun _ _ => .inl rfl) h
    have hle' := run_mono (Nat.le_max_right limit limit') (fun _ _ => .inl rfl) hrun
    rw [hle] at hle'
    cases hle'
    exact hroot

/-- The run of a computation ends just if recursive evaluation ends, with the same outcome and the
observer in the same state. The observer and its states are arbitrary: one that records what it is
told sees the same frames resumed with the same inputs and the same events, and one that halts at
some event shows that also runs without an end agree up to there. -/
theorem run_iff_evaluates (resume : φ → Option α → Step φ α ε) (observer : Observer φ α ω)
    (root : Computation φ α) (seen : ω) (outcome : Outcome α ε) (seen' : ω) :
    (∃ limit report, root.run resume observer limit seen = some report ∧
      report.outcome = outcome ∧ report.observed = seen') ↔
    root.Evaluates resume observer seen outcome seen' := by
  constructor
  · rintro ⟨limit, report, h, rfl, rfl⟩
    exact evaluates_of_run h
  · exact run_of_evaluates

end Computation

end LogicTerms
