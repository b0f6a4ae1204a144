import LogicTerms.DispatchTable
import LogicTerms.Evaluation.Run

/-!
# Algorithms that call on a table

An algorithm and its frames do not know the table that they are registered in. They are written as
queries, which name the calls that the table has to answer.
-/

namespace LogicTerms

/-- Why a call has no answer: no algorithm is registered for it, or the limit was too small, as it
always is for a chain of bindings that comes back to itself. Only an observer interrupts a run. -/
inductive Fault where
  | noAlgorithm (miss : NoAlgorithm)
  | unfinished
  | interrupted (interrupt : Interrupt)
deriving DecidableEq

/-- A result in `β`, possibly after calls in `κ` that are answered by computations. -/
inductive Query (κ φ α β : Type) where
  | done (result : β)
  | call (question : κ) (next : Computation φ α → Query κ φ α β)
  | fail (fault : Fault)

def Query.run {κ φ α β : Type} (table : κ → Except Fault (Computation φ α)) :
    Query κ φ α β → Except Fault β
  | done result => .ok result
  | call question next =>
    match table question with
    | .ok answer => (next answer).run table
    | .error fault => .error fault
  | fail fault => .error fault

def Query.delegate {κ φ α : Type} (question : κ) : Query κ φ α (Computation φ α) :=
  call question done

def Query.await {κ φ α : Type} (question : κ) (next : φ) : Query κ φ α (Step φ α Fault) :=
  call question fun child => done (.await child next)

structure Procedure (κ φ α : Type) where
  answer : κ → Query κ φ α (Computation φ α)
  resume : φ → Option α → Query κ φ α (Step φ α Fault)

namespace Procedure

variable {κ φ α ω : Type}

/-- The computation of a call. Calls lead to further calls fewer than `limit` times in a row. -/
def resolve (procedure : Procedure κ φ α) : Nat → κ → Except Fault (Computation φ α)
  | 0, _ => .error .unfinished
  | limit + 1, question => (procedure.answer question).run (procedure.resolve limit)

def step (procedure : Procedure κ φ α) (limit : Nat) (frame : φ) (input : Option α) :
    Step φ α Fault :=
  match (procedure.resume frame input).run (procedure.resolve limit) with
  | .ok step => step
  | .error fault => .fail fault

def run (procedure : Procedure κ φ α) (observer : Observer φ α ω) (limit : Nat) (question : κ)
    (seen : ω) : Report α Fault ω :=
  match procedure.resolve limit question with
  | .error fault => ⟨.failed fault, seen, none⟩
  | .ok root =>
    match root.run (procedure.step limit) observer limit seen with
    | some report => report
    | none => ⟨.failed .unfinished, seen, none⟩

end Procedure

structure Answered (α : Type) where
  result : Except Fault α
  completion : Option Completion

/-- The value of a run that nobody interrupts. -/
def Report.answered {α ω : Type} (report : Report α Fault ω) : Answered α where
  result := match report.outcome with
    | .value value => .ok value
    | .failed fault => .error fault
    | .interrupted interrupt => .error (.interrupted interrupt)
  completion := report.completion

end LogicTerms
