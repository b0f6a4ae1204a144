import LogicTerms.Proofs.Evaluation.Limits
import Mathlib.Logic.Relation

/-!
# Invariants of runs

A run calls for answers all the time: for its first computation, and again for each frame that it
resumes. What answers and frames keep holds of all these calls, of all frames that ever wait and of
all values that are handed over, whatever an observer does and whether the run ends or not.
-/

namespace LogicTerms

open Relation

variable {κ φ α β ε ω : Type}

/-! ## Calls -/

inductive Query.Makes (table : κ → Except Fault (Computation φ α)) : Query κ φ α β → κ → Prop
  | first {question next} : Makes table (.call question next) question
  | later {question next answer question'} (hanswer : table question = .ok answer)
      (hrest : Makes table (next answer) question') : Makes table (.call question next) question'

/-- The calls that are answered on the way to the computation of a call. The call itself is the
first of them. -/
inductive Procedure.Involves (procedure : Procedure κ φ α) : Nat → κ → κ → Prop
  | self {limit question} : Involves procedure (limit + 1) question question
  | further {limit question question' question''}
      (hmakes : (procedure.answer question).Makes (procedure.resolve limit) question')
      (hrest : Involves procedure limit question' question'') :
      Involves procedure (limit + 1) question question''

/-- One round of a run with the state of its observer: the step of the topmost frame goes on, or the
frame is dropped. -/
inductive Running.Round (resume : φ → Option α → Step φ α ε) (observer : Observer φ α ω) :
    Running φ α × ω → Running φ α × ω → Prop
  | proceed {run seen top below event onward seen'} (hstack : run.stack = top :: below)
      (hafter : run.after below (resume top run.input) = .ok (event, onward))
      (hflow : observer.observe event (observer.resumed top run.input seen) = (.proceed, seen')) :
      Round resume observer (run, seen) (onward, seen')
  | abandon {run seen top below event onward seen'} (hstack : run.stack = top :: below)
      (hafter : run.after below (resume top run.input) = .ok (event, onward))
      (hflow : observer.observe event (observer.resumed top run.input seen) = (.abandon, seen')) :
      Round resume observer (run, seen) (run.pop below none, seen')

/-- All calls of a run: those on the way to its first computation, and those of each frame that is
topmost after some rounds. The rounds are not limited, so that runs without an end are included. -/
inductive Procedure.Calls (procedure : Procedure κ φ α) (observer : Observer φ α ω) (limit : Nat)
    (root : κ) (seen : ω) : κ → Prop
  | root {question} (h : procedure.Involves limit root question) :
      Calls procedure observer limit root seen question
  | frame {frame run seen' top below question question'}
      (hroot : procedure.resolve limit root = .ok (.suspended frame))
      (hrounds : ReflTransGen (Running.Round (procedure.step limit) observer)
        (.start frame, seen) (run, seen'))
      (hstack : run.stack = top :: below)
      (hmakes : (procedure.resume top run.input).Makes (procedure.resolve limit) question)
      (h : procedure.Involves limit question question') :
      Calls procedure observer limit root seen question'

/-! ## Invariants -/

section

variable {Q : κ → Prop} {F : φ → Prop} {V : α → Prop} {C : Computation φ α → Prop} {R : β → Prop}

def Computation.All (F : φ → Prop) (V : α → Prop) : Computation φ α → Prop
  | .done value => V value
  | .suspended frame => F frame

def Step.All (F : φ → Prop) (V : α → Prop) : Step φ α ε → Prop
  | .await child next => child.All F V ∧ F next
  | .construct next => F next
  | .finish value => V value
  | .fail _ => True

def Running.All (F : φ → Prop) (V : α → Prop) (run : Running φ α) : Prop :=
  (∀ frame ∈ run.stack, F frame) ∧ ∀ value, run.input = some value → V value

/-- All calls of a query have the property `Q`, and its result has the property `R`, as long as the
calls are answered by computations with the property `C`. -/
inductive Query.All (Q : κ → Prop) (C : Computation φ α → Prop) (R : β → Prop) :
    Query κ φ α β → Prop
  | done {result} (h : R result) : All Q C R (.done result)
  | call {question next} (h : Q question) (hnext : ∀ answer, C answer → All Q C R (next answer)) :
      All Q C R (.call question next)
  | fail {fault} : All Q C R (.fail fault)

structure Procedure.Invariant (procedure : Procedure κ φ α) (Q : κ → Prop) (F : φ → Prop)
    (V : α → Prop) : Prop where
  answer : ∀ question, Q question →
    (procedure.answer question).All Q (Computation.All F V) (Computation.All F V)
  resume : ∀ frame input, F frame → (∀ value, input = some value → V value) →
    (procedure.resume frame input).All Q (Computation.All F V) (Step.All F V)

/-! ## Queries -/

namespace Query

variable {table : κ → Except Fault (Computation φ α)} {query : Query κ φ α β} {question : κ}

/-- Every call of a query has the property of its calls, as long as the table answers by
computations with the property of these. -/
theorem All.of_makes (h : query.All Q C R)
    (htable : ∀ question answer, Q question → table question = .ok answer → C answer)
    (hmakes : query.Makes table question) : Q question := by
  induction hmakes with
  | first =>
    cases h with
    | call hquestion _ => exact hquestion
  | later hanswer _ ih =>
    cases h with
    | call hquestion hnext => exact ih (hnext _ (htable _ _ hquestion hanswer))

theorem All.of_run (h : query.All Q C R)
    (htable : ∀ question answer, Q question → table question = .ok answer → C answer)
    {result : β} (hrun : query.run table = .ok result) : R result := by
  induction h with
  | done h =>
    cases hrun
    exact h
  | @call question next hquestion _ ih =>
    rw [run] at hrun
    cases hanswer : table question with
    | error fault => simp [hanswer] at hrun
    | ok answer =>
      rw [hanswer] at hrun
      exact ih answer (htable question answer hquestion hanswer) hrun
  | fail => cases hrun

end Query

/-! ## Rounds -/

namespace Running

variable {resume : φ → Option α → Step φ α ε} {observer : Observer φ α ω}
  {run onward : Running φ α} {top : φ} {below : List φ} {event : Event α}

theorem All.pop (h : run.All F V) (hstack : run.stack = top :: below) {input : Option α}
    (hinput : ∀ value, input = some value → V value) : (run.pop below input).All F V := by
  refine ⟨fun frame hframe => h.1 frame ?_, hinput⟩
  rw [hstack]
  exact List.mem_cons_of_mem _ hframe

theorem All.again (h : run.All F V) (hstack : run.stack = top :: below) {next : φ}
    (hnext : F next) {input : Option α} (hinput : ∀ value, input = some value → V value) :
    (run.again next below input).All F V :=
  ⟨List.forall_mem_cons.2 ⟨hnext, (h.pop hstack hinput).1⟩, hinput⟩

/-- A step with the property leaves a run with the property. -/
theorem All.after (h : run.All F V) (hstack : run.stack = top :: below) {step : Step φ α ε}
    (hstep : step.All F V) (hafter : run.after below step = .ok (event, onward)) :
    onward.All F V := by
  have hnone (value : α) (hvalue : none = some value) : V value := by cases hvalue
  have hsome {value : α} (hvalue : V value) (value' : α) (heq : some value = some value') :
      V value' := by
    cases heq
    exact hvalue
  cases step with
  | await child next =>
    obtain ⟨hchild, hnext⟩ := hstep
    cases child with
    | done value =>
      cases hafter
      exact h.again hstack hnext (hsome hchild)
    | suspended child =>
      cases hafter
      exact ⟨List.forall_mem_cons.2 ⟨hchild, (h.again hstack hnext hnone).1⟩, hnone⟩
  | construct next =>
    cases hafter
    exact h.again hstack hstep hnone
  | finish value =>
    cases hafter
    exact h.pop hstack (hsome hstep)
  | fail error => cases hafter

/-- A round keeps what the steps of frames keep. -/
theorem All.round
    (hresume : ∀ frame input, F frame → (∀ value, input = some value → V value) →
      (resume frame input).All F V)
    {before after : Running φ α × ω} (h : before.1.All F V)
    (hround : Round resume observer before after) : after.1.All F V := by
  have htop {run : Running φ α} (h : run.All F V) {top : φ} {below : List φ}
      (hstack : run.stack = top :: below) : (resume top run.input).All F V := by
    refine hresume top run.input (h.1 top ?_) h.2
    rw [hstack]
    exact List.mem_cons_self
  cases hround with
  | proceed hstack hafter => exact h.after hstack (htop h hstack) hafter
  | abandon hstack => exact h.pop hstack (by simp)

/-- An invariant holds after any number of rounds. -/
theorem All.rounds
    (hresume : ∀ frame input, F frame → (∀ value, input = some value → V value) →
      (resume frame input).All F V)
    {before after : Running φ α × ω} (h : before.1.All F V)
    (hrounds : ReflTransGen (Round resume observer) before after) : after.1.All F V := by
  induction hrounds with
  | refl => exact h
  | tail _ hround ih => exact ih.round hresume hround

/-- After a round the run goes on from where the round has left it. -/
theorem drive_of_round {after : Running φ α × ω} {seen : ω}
    (hround : Round resume observer (run, seen) after) (limit : Nat) :
    drive resume observer (limit + 1) run seen = drive resume observer limit after.1 after.2 := by
  cases hround with
  | proceed hstack hafter hflow | abandon hstack hafter hflow =>
    simp only [drive, hstack, hafter, hflow]

/-- A run that ends with a value has emptied its stack round by round, and handed the value over
last. -/
theorem exists_rounds_of_drive {limit : Nat} {seen : ω} {report : Report α ε ω} {value : α}
    (h : drive resume observer limit run seen = some report)
    (hvalue : report.outcome = .value value) :
    ∃ last, ReflTransGen (Round resume observer) (run, seen) last ∧
      last.1.stack = [] ∧ last.1.input = some value := by
  induction limit generalizing run seen with
  | zero => simp [drive] at h
  | succ limit ih =>
    cases hstack : run.stack with
    | nil =>
      simp only [drive, hstack] at h
      cases h
      refine ⟨_, .refl, hstack, ?_⟩
      unfold Running.report at hvalue
      cases hinput : run.input <;> simp_all
    | cons top below =>
      cases hafter : run.after below (resume top run.input) with
      | error error =>
        simp only [drive, hstack, hafter] at h
        cases h
        cases hvalue
      | ok next =>
        obtain ⟨event, onward⟩ := next
        rcases hflow : observer.observe event (observer.resumed top run.input seen) with
          ⟨_ | _ | _, seen'⟩
        all_goals simp only [drive, hstack, hafter, hflow] at h
        case proceed =>
          obtain ⟨last, hrounds, hlast⟩ := ih h
          exact ⟨last, .head (.proceed hstack hafter hflow) hrounds, hlast⟩
        case abandon =>
          obtain ⟨last, hrounds, hlast⟩ := ih h
          exact ⟨last, .head (.abandon hstack hafter hflow) hrounds, hlast⟩
        case halt =>
          cases h
          cases hvalue

end Running

/-! ## Runs of calls -/

namespace Procedure.Invariant

variable {procedure : Procedure κ φ α} {observer : Observer φ α ω} {limit : Nat}
  {question question' : κ} {seen : ω}

theorem of_resolve (h : procedure.Invariant Q F V) {root : Computation φ α} (hq : Q question)
    (hroot : procedure.resolve limit question = .ok root) : root.All F V := by
  induction limit generalizing question root with
  | zero => simp [resolve] at hroot
  | succ limit ih =>
    rw [resolve] at hroot
    exact (h.answer question hq).of_run (fun _ _ hq hanswer => ih hq hanswer) hroot

theorem of_involves (h : procedure.Invariant Q F V) (hq : Q question)
    (hinvolves : procedure.Involves limit question question') : Q question' := by
  induction hinvolves with
  | self => exact hq
  | further hmakes _ ih =>
    exact ih ((h.answer _ hq).of_makes (fun _ _ => h.of_resolve) hmakes)

/-- The step of a frame keeps an invariant, whatever its calls come to. -/
theorem of_step (h : procedure.Invariant Q F V) {frame : φ} {input : Option α} (hframe : F frame)
    (hinput : ∀ value, input = some value → V value) :
    (procedure.step limit frame input).All F V := by
  unfold step
  split
  next step hrun =>
    exact (h.resume frame input hframe hinput).of_run (fun _ _ => h.of_resolve) hrun
  next => trivial

/-- From a frame that keeps an invariant, all that a run ever has in its stack does. -/
theorem of_rounds (h : procedure.Invariant Q F V) {frame : φ} (hframe : F frame)
    {last : Running φ α × ω}
    (hrounds : ReflTransGen (Running.Round (procedure.step limit) observer)
      (.start frame, seen) last) : last.1.All F V := by
  have hstart : (Running.start frame : Running φ α).All F V := by
    simp [Running.All, Running.start, hframe]
  exact hstart.rounds (fun _ _ => h.of_step) hrounds

/-- The calls of a run have the property that its first call has. -/
theorem of_calls (h : procedure.Invariant Q F V) (hq : Q question)
    (hcalls : procedure.Calls observer limit question seen question') : Q question' := by
  cases hcalls with
  | root hinvolves => exact h.of_involves hq hinvolves
  | @frame frame run _ top below q _ hroot hrounds hstack hmakes hinvolves =>
    have hrun := h.of_rounds (h.of_resolve hq hroot) hrounds
    have htop : F top := by
      refine hrun.1 top ?_
      rw [hstack]
      exact List.mem_cons_self
    have hcall : Q q :=
      (h.resume top run.input htop hrun.2).of_makes (fun _ _ => h.of_resolve) hmakes
    exact h.of_involves hcall hinvolves

/-- The value of a run has the property of values. -/
theorem of_run (h : procedure.Invariant Q F V) (hq : Q question) {value : α}
    (hvalue : (procedure.run observer limit question seen).outcome = .value value) : V value := by
  unfold run at hvalue
  cases hroot : procedure.resolve limit question with
  | error fault =>
    rw [hroot] at hvalue
    cases hvalue
  | ok root =>
    have hall := h.of_resolve hq hroot
    rw [hroot] at hvalue
    dsimp only at hvalue
    cases hreport : root.run (procedure.step limit) observer limit seen with
    | none => simp [hreport] at hvalue
    | some report =>
      rw [hreport] at hvalue
      cases root with
      | done result =>
        have heval := Computation.evaluates_of_run hreport
        rw [hvalue] at heval
        cases heval
        exact hall
      | suspended frame =>
        obtain ⟨last, hrounds, -, hinput⟩ := Running.exists_rounds_of_drive hreport hvalue
        exact (h.of_rounds hall hrounds).2 value hinput

end Procedure.Invariant

end

end LogicTerms
