import LogicTerms.Evaluation.Script
import LogicTerms.Proofs.Evaluation.Invariants

/-!
# Runs that are only watched

An observer may drop frames or stop a run, and it may decide differently on every event. One that
lets all events go on that it is shown has no part in the run: within any limit the run ends as it
ends unobserved, with a value unless a frame fails.
-/

namespace LogicTerms

open Relation

variable {φ α ε ω : Type} {resume : φ → Option α → Step φ α ε} {observer : Observer φ α ω}

/-- The events that an observer is shown from some place of a run on. Each comes with the state of
the observer that decides on it, which depends on all that was shown before. -/
inductive Running.Shows (resume : φ → Option α → Step φ α ε) (observer : Observer φ α ω)
    (run : Running φ α) (seen : ω) : Event α → ω → Prop
  | intro {last top below event onward}
      (hrounds : ReflTransGen (Round resume observer) (run, seen) last)
      (hstack : last.1.stack = top :: below)
      (hafter : last.1.after below (resume top last.1.input) = .ok (event, onward)) :
      Shows resume observer run seen event (observer.resumed top last.1.input last.2)

inductive Computation.Shows (resume : φ → Option α → Step φ α ε) (observer : Observer φ α ω)
    (seen : ω) : Computation φ α → Event α → ω → Prop
  | done {value} : Shows resume observer seen (.done value) (.value value) seen
  | suspended {frame event seen'}
      (h : (Running.start frame).Shows resume observer seen event seen') :
      Shows resume observer seen (.suspended frame) event seen'

def Report.unwatched (report : Report α ε ω) : Report α ε Unit :=
  ⟨report.outcome, (), report.completion⟩

namespace Running

/-- The observer lets everything go on that it is shown from here on. -/
def Watched (resume : φ → Option α → Step φ α ε) (observer : Observer φ α ω) (run : Running φ α)
    (seen : ω) : Prop :=
  ∀ event seen', run.Shows resume observer seen event seen' →
    (observer.observe event seen').1 = .proceed

def Pending (run : Running φ α) : Prop := run.stack = [] → ∃ value, run.input = some value

theorem pending_start (frame : φ) : (start frame : Running φ α).Pending := fun h => by
  cases h

/-- The stack gets empty only by a frame that finishes, which hands its value over. -/
theorem pending_of_after {run onward : Running φ α} {below : List φ} {step : Step φ α ε}
    {event : Event α} (h : run.after below step = .ok (event, onward)) : onward.Pending := by
  intro hempty
  cases step with
  | await child next =>
    cases child with
    | done value =>
      cases h
      cases hempty
    | suspended child =>
      cases h
      cases hempty
  | construct next =>
    cases h
    cases hempty
  | finish value =>
    cases h
    exact ⟨value, rfl⟩
  | fail error => cases h

namespace Watched

variable {run onward : Running φ α} {seen : ω} {top : φ} {below : List φ} {event : Event α}

/-- The event of the topmost frame is let go on. -/
theorem exists_flow (h : run.Watched resume observer seen) (hstack : run.stack = top :: below)
    (hafter : run.after below (resume top run.input) = .ok (event, onward)) :
    ∃ seen', observer.observe event (observer.resumed top run.input seen) = (.proceed, seen') := by
  have hproceed : (observer.observe event (observer.resumed top run.input seen)).1 = .proceed :=
    h event _ (.intro .refl hstack hafter)
  exact ⟨_, Prod.ext hproceed rfl⟩

/-- Who lets everything go on from some place of a run still does later. -/
theorem of_rounds (h : run.Watched resume observer seen) {last : Running φ α × ω}
    (hrounds : ReflTransGen (Round resume observer) (run, seen) last) :
    last.1.Watched resume observer last.2 := by
  rintro event seen' ⟨hmore, hstack, hafter⟩
  exact h _ _ (.intro (hrounds.trans hmore) hstack hafter)

/-- A round that is let go on keeps what there is to resume or to return. -/
theorem pending_of_round (h : run.Watched resume observer seen) {last : Running φ α × ω}
    (hround : Round resume observer (run, seen) last) : last.1.Pending := by
  cases hround with
  | proceed hstack hafter hflow => exact pending_of_after hafter
  | abandon hstack hafter hflow =>
    obtain ⟨seen', hproceed⟩ := h.exists_flow hstack hafter
    cases hproceed.symm.trans hflow

/-- When the stack is empty a value is pending. -/
theorem pending (h : run.Watched resume observer seen) (hrun : run.Pending)
    {last : Running φ α × ω}
    (hrounds : ReflTransGen (Round resume observer) (run, seen) last) : last.1.Pending := by
  cases hrounds with
  | refl => exact hrun
  | tail hrounds hround => exact (h.of_rounds hrounds).pending_of_round hround

/-- Within any limit the observed run ends where the unobserved one does. -/
theorem drive_eq (h : run.Watched resume observer seen) (limit : Nat) :
    drive resume .idle limit run () = (drive resume observer limit run seen).map
      Report.unwatched := by
  induction limit generalizing run seen with
  | zero => rfl
  | succ limit ih =>
    cases hstack : run.stack with
    | nil =>
      simp only [drive, hstack]
      rfl
    | cons top below =>
      cases hafter : run.after below (resume top run.input) with
      | error error =>
        simp only [drive, hstack, hafter]
        rfl
      | ok next =>
        obtain ⟨event, onward⟩ := next
        obtain ⟨seen', hflow⟩ := h.exists_flow hstack hafter
        have hround : Round resume observer (run, seen) (onward, seen') :=
          .proceed hstack hafter hflow
        have hidle : Round resume .idle (run, ()) (onward, ()) := .proceed hstack hafter rfl
        rw [drive_of_round hround, drive_of_round hidle]
        exact ih (h.of_rounds (.single hround))

/-- A run that is only watched is never interrupted. -/
theorem value_or_failed (h : run.Watched resume observer seen) (hrun : run.Pending) {limit : Nat}
    {report : Report α ε ω} (hreport : drive resume observer limit run seen = some report) :
    (∃ value, report.outcome = .value value) ∨ ∃ error, report.outcome = .failed error := by
  induction limit generalizing run seen with
  | zero => cases hreport
  | succ limit ih =>
    cases hstack : run.stack with
    | nil =>
      obtain ⟨value, hinput⟩ := hrun hstack
      simp only [drive, hstack] at hreport
      cases hreport
      have hhanded : (Outcome.value value : Outcome α ε).handed = some run.input := by
        rw [hinput]
        rfl
      exact .inl ⟨value, report_outcome hhanded seen⟩
    | cons top below =>
      cases hafter : run.after below (resume top run.input) with
      | error error =>
        simp only [drive, hstack, hafter] at hreport
        cases hreport
        exact .inr ⟨error, rfl⟩
      | ok next =>
        obtain ⟨event, onward⟩ := next
        obtain ⟨seen', hflow⟩ := h.exists_flow hstack hafter
        have hround : Round resume observer (run, seen) (onward, seen') :=
          .proceed hstack hafter hflow
        rw [drive_of_round hround] at hreport
        exact ih (h.of_rounds (.single hround)) (pending_of_after hafter) hreport

end Watched

end Running

namespace Computation

variable {root : Computation φ α} {seen : ω} {limit : Nat} {report : Report α ε ω}

def Watched (resume : φ → Option α → Step φ α ε) (observer : Observer φ α ω)
    (root : Computation φ α) (seen : ω) : Prop :=
  ∀ event seen', root.Shows resume observer seen event seen' →
    (observer.observe event seen').1 = .proceed

theorem watched_idle (root : Computation φ α) : root.Watched resume .idle () :=
  fun _ _ _ => rfl

namespace Watched

theorem running {frame : φ}
    (h : (suspended frame : Computation φ α).Watched resume observer seen) :
    (Running.start frame).Watched resume observer seen :=
  fun event seen' hshows => h event seen' (.suspended hshows)

theorem run_done {value : α} (h : (done value : Computation φ α).Watched resume observer seen)
    (limit : Nat) : ∃ seen', (done value : Computation φ α).run resume observer limit seen =
      some ⟨.value value, seen', none⟩ := by
  have hproceed := h _ _ .done
  rcases hflow : observer.observe (.value value) seen with ⟨flow, seen'⟩
  rw [hflow] at hproceed
  obtain rfl : flow = .proceed := hproceed
  exact ⟨seen', by rw [Computation.run, hflow]⟩

theorem value_or_failed (h : root.Watched resume observer seen)
    (hreport : root.run resume observer limit seen = some report) :
    (∃ value, report.outcome = .value value) ∨ ∃ error, report.outcome = .failed error := by
  cases root with
  | done value =>
    obtain ⟨seen', hrun⟩ := h.run_done limit
    cases hrun.symm.trans hreport
    exact .inl ⟨value, rfl⟩
  | suspended frame => exact h.running.value_or_failed (Running.pending_start frame) hreport

/-- The run of a computation that is only watched reports what the unobserved run reports. -/
theorem run_eq (h : root.Watched resume observer seen) (limit : Nat) :
    root.run resume .idle limit () =
      (root.run resume observer limit seen).map Report.unwatched := by
  cases root with
  | done value =>
    obtain ⟨seen', hrun⟩ := h.run_done limit
    rw [hrun]
    rfl
  | suspended frame => exact h.running.drive_eq limit

end Watched

end Computation

/-! ## Frames of one kind -/

theorem Running.event?_of_after {run onward : Running φ α} {below : List φ} {step : Step φ α ε}
    {event : Event α} (h : run.after below step = .ok (event, onward)) :
    step.event? = some event := by
  unfold after at h
  unfold Step.event?
  split at h <;> simp_all

/-- A run is only watched if all its frames are of a kind whose events are let go on. -/
theorem Computation.watched_of_frames {F : φ → Prop} {frame : φ} {seen : ω}
    (hresume : ∀ frame input, F frame → (resume frame input).All F fun _ => True)
    (hevents : ∀ frame input event seen, F frame → (resume frame input).event? = some event →
      (observer.observe event seen).1 = .proceed)
    (hframe : F frame) :
    (suspended frame : Computation φ α).Watched resume observer seen := by
  intro event seen' hshows
  cases hshows with
  | suspended hshows =>
    obtain ⟨hrounds, hstack, hafter⟩ := hshows
    have hstart : (Running.start frame : Running φ α).All F fun _ => True := by
      simp [Running.All, Running.start, hframe]
    have hall := Running.All.rounds (fun frame input hframe _ => hresume frame input hframe)
      hstart hrounds
    refine hevents _ _ _ _ (hall.1 _ ?_) (Running.event?_of_after hafter)
    rw [hstack]
    exact List.mem_cons_self

namespace Script

def Frame.IsLink : Frame → Prop
  | link .. => True
  | scripted .. => False

/-- A link waits for the rest of its chain or finishes, and announces nothing. -/
theorem Frame.IsLink.resume_cases {frame : Frame} (h : frame.IsLink) (input : Option Int64) :
    (∃ child next, (frame.resume input : Step Frame Int64 ε) = .await child next ∧
      child.All IsLink (fun _ => True) ∧ next.IsLink) ∨
    ∃ value, (frame.resume input : Step Frame Int64 ε) = .finish value := by
  cases frame with
  | scripted => cases h
  | link rest leaf waited =>
    cases waited with
    | true => cases input <;> exact .inr ⟨_, rfl⟩
    | false => cases rest <;> exact .inl ⟨_, _, rfl, trivial, trivial⟩

/-- Stops a run at the first announcement, and counts all other events. -/
def untilConstruct : Observer Frame Int64 Nat where
  resumed _ _ count := count
  observe
    | .construct, count => (.halt, count)
    | _, count => (.proceed, count + 1)

/-- No link of a chain announces a result, so that an observer who waits for one lets the whole run
go on. -/
theorem watched_chain (length : Nat) (leaf : Int64) (count : Nat) :
    (chain (length + 1) leaf).computation.Watched (Frame.resume (ε := ε)) untilConstruct
      count := by
  refine Computation.watched_of_frames (F := Frame.IsLink) (fun frame input h => ?_)
    (fun frame input event count h hevent => ?_) trivial
  · obtain ⟨child, next, hstep, hall⟩ | ⟨value, hstep⟩ := h.resume_cases (ε := ε) input
    · rw [hstep]
      exact hall
    · rw [hstep]
      exact trivial
  · obtain ⟨child, next, hstep, -⟩ | ⟨value, hstep⟩ := h.resume_cases (ε := ε) input
    · rw [hstep] at hevent
      cases child <;> cases hevent <;> rfl
    · rw [hstep] at hevent
      cases hevent
      rfl

end Script

/-! ## Watching changes nothing -/

namespace Computation

variable {root : Computation φ α} {seen : ω}

/-- An observer that lets every event go on that it is shown does not change what a computation
comes to. As long as no frame fails itself, a run that ends has a value: it is not stopped, no frame
is dropped, and a value is pending when the stack is empty. The unobserved run, which is never
interrupted, comes to the same value after as many steps. -/
theorem run_watched (hwatched : ∀ event seen', root.Shows resume observer seen event seen' →
      (observer.observe event seen').1 = .proceed) :
    (∀ frame last, root = .suspended frame →
      ReflTransGen (Running.Round resume observer) (.start frame, seen) last →
      last.1.stack = [] → ∃ value, last.1.input = some value) ∧
    (∀ limit report, root.run resume observer limit seen = some report →
      (∃ value, report.outcome = .value value) ∨ ∃ error, report.outcome = .failed error) ∧
    (∀ limit report, root.run resume .idle limit () = some report →
      (∃ value, report.outcome = .value value) ∨ ∃ error, report.outcome = .failed error) ∧
    ∀ limit, root.run resume .idle limit () =
      (root.run resume observer limit seen).map Report.unwatched := by
  have h : root.Watched resume observer seen := hwatched
  refine ⟨?_, fun _ _ => h.value_or_failed, fun _ _ => (watched_idle root).value_or_failed,
    h.run_eq⟩
  rintro frame last rfl hrounds
  exact h.running.pending (Running.pending_start frame) hrounds

/-- A chain is run to its end by an observer that would stop other scripts. -/
theorem run_watched_example :
    let resume : Script.Frame → Option Int64 → Step Script.Frame Int64 Empty :=
      Script.Frame.resume
    let root := (Script.chain 3 5).computation
    (∀ event count, root.Shows resume Script.untilConstruct 0 event count →
        (Script.untilConstruct.observe event count).1 = .proceed) ∧
      root.run resume Script.untilConstruct 20 0 = some ⟨.value 8, 6, some ⟨6, 3⟩⟩ ∧
      root.run resume .idle 20 () = some ⟨.value 8, (), some ⟨6, 3⟩⟩ := by
  intro resume root
  have hwatched : root.Watched resume Script.untilConstruct 0 := Script.watched_chain 2 5 0
  have hrun : root.run resume Script.untilConstruct 20 0 = some ⟨.value 8, 6, some ⟨6, 3⟩⟩ := by
    rfl
  obtain ⟨-, -, -, heq⟩ := run_watched hwatched
  refine ⟨hwatched, hrun, ?_⟩
  rw [heq, hrun]
  rfl

end Computation

end LogicTerms
