/-!
# Runs of suspended computations

Nested problems are solved without recursion: a frame that needs the value of a smaller problem
asks for it, is set aside, and is resumed with the value. A run keeps the frames that wait in a
stack and resumes the topmost one until the stack is empty. An observer sees what happens, and may
drop a frame or stop the run.
-/

namespace LogicTerms

/-- Work with results in `α`: finished, or waiting in a frame of type `φ`. -/
inductive Computation (φ α : Type) where
  | done (value : α)
  | suspended (frame : φ)

/-- What a frame asks for when it is resumed, with the frame as it will wait for its next turn. A
frame may also give up with an error. -/
inductive Step (φ α ε : Type) where
  | await (child : Computation φ α) (next : φ)
  | construct (next : φ)
  | finish (value : α)
  | fail (error : ε)

/-- What an observer sees: a value, a frame about to put its result together, or a frame that waits
for a suspended child. -/
inductive Event (α : Type) where
  | value (value : α)
  | construct
  | nested

/-- What an observer decides: go on, drop the frame of the event, or stop the whole run. -/
inductive Flow where
  | proceed
  | abandon
  | halt
deriving DecidableEq

/-- An observer with a state in `ω`. It is told of every frame that is resumed, and it decides on
every event before the run acts on it. -/
structure Observer (φ α ω : Type) where
  resumed : φ → Option α → ω → ω
  observe : Event α → ω → Flow × ω

def Observer.idle {φ α : Type} : Observer φ α Unit where
  resumed _ _ _ := ()
  observe _ _ := (.proceed, ())

/-! ## Runs -/

/-- Why a run has no value: the observer stopped it, or dropped its first frame. -/
inductive Interrupt where
  | halted
  | abandoned
deriving DecidableEq

def Interrupt.message : Interrupt → String
  | halted => "evaluation halted by observer"
  | abandoned => "root computation was abandoned"

inductive Outcome (α ε : Type) where
  | value (value : α)
  | interrupted (interrupt : Interrupt)
  | failed (error : ε)

/-- The work of a run that emptied its stack: how often a frame was resumed, and how many frames
waited at most. -/
structure Completion where
  steps : Nat
  peakDepth : Nat
deriving DecidableEq

structure Report (α ε ω : Type) where
  outcome : Outcome α ε
  observed : ω
  completion : Option Completion

/-- A run under way: the waiting frames, innermost first, and the value that the innermost one is
resumed with. -/
structure Running (φ α : Type) where
  stack : List φ
  input : Option α
  steps : Nat
  depth : Nat
  peakDepth : Nat

namespace Running

variable {φ α ε ω : Type}

def start (frame : φ) : Running φ α := ⟨[frame], none, 0, 1, 1⟩

def pop (run : Running φ α) (below : List φ) (input : Option α) : Running φ α :=
  ⟨below, input, run.steps + 1, run.depth - 1, run.peakDepth⟩

def again (run : Running φ α) (next : φ) (below : List φ) (input : Option α) : Running φ α :=
  ⟨next :: below, input, run.steps + 1, run.depth, run.peakDepth⟩

def push (run : Running φ α) (child next : φ) (below : List φ) : Running φ α :=
  ⟨child :: next :: below, none, run.steps + 1, run.depth + 1, max run.peakDepth (run.depth + 1)⟩

/-- What a step of the innermost frame shows to the observer, and the run after it if the observer
lets it go on. -/
def after (run : Running φ α) (below : List φ) :
    Step φ α ε → Except ε (Event α × Running φ α)
  | .await (.suspended child) next => .ok (.nested, run.push child next below)
  | .await (.done value) next => .ok (.value value, run.again next below (some value))
  | .construct next => .ok (.construct, run.again next below none)
  | .finish value => .ok (.value value, run.pop below (some value))
  | .fail error => .error error

def report (run : Running φ α) (observed : ω) : Report α ε ω where
  outcome := match run.input with
    | some value => .value value
    | none => .interrupted .abandoned
  observed := observed
  completion := some ⟨run.steps, run.peakDepth⟩

/-- Resumes frames until the stack is empty or the run is stopped. There is no report if that
takes more than `limit` rounds. -/
def drive (resume : φ → Option α → Step φ α ε) (observer : Observer φ α ω) :
    Nat → Running φ α → ω → Option (Report α ε ω)
  | 0, _, _ => none
  | limit + 1, run, seen =>
    match run.stack with
    | [] => some (run.report seen)
    | top :: below =>
      let seen := observer.resumed top run.input seen
      match run.after below (resume top run.input) with
      | .error error => some ⟨.failed error, seen, none⟩
      | .ok (event, onward) =>
        match observer.observe event seen with
        | (.proceed, seen) => drive resume observer limit onward seen
        | (.abandon, seen) => drive resume observer limit (run.pop below none) seen
        | (.halt, seen) => some ⟨.interrupted .halted, seen, none⟩

end Running

/-- Runs a computation. A value that is there from the start is a single event. -/
def Computation.run {φ α ε ω : Type} (resume : φ → Option α → Step φ α ε)
    (observer : Observer φ α ω) (limit : Nat) (root : Computation φ α) (seen : ω) :
    Option (Report α ε ω) :=
  match root with
  | .suspended frame => Running.drive resume observer limit (.start frame) seen
  | .done value =>
    match observer.observe (.value value) seen with
    | (.proceed, seen) => some ⟨.value value, seen, none⟩
    | (.abandon, seen) => some ⟨.interrupted .abandoned, seen, none⟩
    | (.halt, seen) => some ⟨.interrupted .halted, seen, none⟩

end LogicTerms
