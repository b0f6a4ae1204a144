import LogicTerms.Reification.Algorithms
import LogicTerms.Unification.Algorithms

/-!
# Unifiers

A unifier holds the tables of algorithms for unification and reification. Every run has a limit. It
bounds the rounds of the run, and how often in a row an algorithm passes a call on; a run that
reaches it is unfinished.
-/

namespace LogicTerms

/-- Tables of algorithms whose frames are in `φ` and `ψ` beside the standard ones, and the number of
frames that a run expects to wait at most. -/
structure Unifier (φ ψ : Type) where
  unification : Unification.Table φ
  reification : Reification.Table ψ
  stackCapacity : Nat

namespace Unifier

variable {φ ψ : Type}

def defaultCapacity : Nat := 32

def standard : Unifier φ ψ := ⟨.standard, .standard, defaultCapacity⟩

variable [Unification.Extension φ] [Reification.Extension ψ]

/-! ## Unification -/

/-- Extends a substitution until two terms are equal under it. -/
def unify (unifier : Unifier φ ψ) (registry : Registry) (limit : Nat) (u v : Term)
    (s : Substitution) : Answered Unification.Result :=
  ((unifier.unification.procedure registry).run .idle limit (.pair u v s) ()).answered

/-- A term unifies with itself, and nothing needs to be run for that. -/
def unifySelf (_ : Unifier φ ψ) (_ : Term) (s : Substitution) : Answered Unification.Result :=
  ⟨.ok (.ok s), none⟩

def solve (unifier : Unifier φ ψ) (registry : Registry) (limit : Nat) (u v : Term) :
    Answered Unification.Result :=
  unifier.unify registry limit u v .empty

def unifyAll (unifier : Unifier φ ψ) (registry : Registry) (limit : Nat)
    (pairs : List (Term × Term)) (s : Substitution) : Answered Unification.Result :=
  ((unifier.unification.procedure registry).run .idle limit (.pairs pairs s) ()).answered

/-! ## Reification -/

def reify (unifier : Unifier φ ψ) (registry : Registry) (limit : Nat) (t : Term)
    (s : Substitution) : Answered Term :=
  ((unifier.reification.procedure registry).run .idle limit ⟨t, s⟩ ()).answered

/-- Whether reification leaves no variable: the check was not stopped at one. -/
def isGround (unifier : Unifier φ ψ) (registry : Registry) (limit : Nat) (t : Term)
    (s : Substitution) : Answered Bool :=
  let report := (unifier.reification.procedure registry).run
    (Reification.groundCheck registry) limit ⟨t, s⟩ ()
  let result := match report.outcome with
    | .failed fault => .error fault
    | .interrupted .halted => .ok false
    | .value _ | .interrupted .abandoned => .ok true
  ⟨result, report.completion⟩

/-- The variables that reification leaves, in order. -/
def freeVariables (unifier : Unifier φ ψ) (registry : Registry) (limit : Nat) (t : Term)
    (s : Substitution) : Answered (List Term) :=
  let report := (unifier.reification.procedure registry).run
    (Reification.collector registry) limit ⟨t, s⟩ []
  let result := match report.outcome with
    | .failed fault => .error fault
    | .value _ | .interrupted _ => .ok report.observed
  ⟨result, report.completion⟩

end Unifier

/-! ## Log entries -/

/-- Something that happened: a scope was entered, with so many terms registered after it, or left;
a run emptied its stack; an algorithm was registered. -/
inductive LogEntry where
  | enteredScope (size : Nat)
  | leftScope
  | finished (work : Completion)
  | registered (patterns : List Pattern)
deriving DecidableEq

def LogEntry.render : LogEntry → String
  | enteredScope size => "TRACE entered variable scope registered=" ++ toString size
  | leftScope => "TRACE left variable scope"
  | finished work => "TRACE evaluation finished steps=" ++ toString work.steps ++
      " peak_depth=" ++ toString work.peakDepth
  | registered patterns => "DEBUG registered algorithm patterns=" ++
      ", ".intercalate (patterns.map Pattern.name)

/-- The log of a run: one entry if it emptied its stack. -/
def Completion.log (completion : Option Completion) : List LogEntry :=
  completion.toList.map .finished

def DispatchTable.log {α : Type} {n : Nat} (table : DispatchTable α n) : List LogEntry :=
  table.entries.toList.map fun (patterns, _) => .registered patterns.toList

end LogicTerms
