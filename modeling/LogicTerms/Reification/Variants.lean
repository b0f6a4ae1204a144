import LogicTerms.Reification.Algorithms

/-!
# Further reification algorithms

Algorithms to be registered beside the standard ones, or instead of them. They replace a term at
once, or pass the question on to a part of it.
-/

namespace LogicTerms.Reification

variable {φ : Type}

def erase : Algorithm φ := fun _ _ _ => answer Term.none

/-- Negates an integer; the least one stays as it is. -/
def negate : Algorithm φ := fun _ t _ =>
  match t with
  | .atom (.int value) => answer (.atom (.int (-value)))
  | _ => answer t

def unname : Algorithm φ := fun _ t _ =>
  match t with
  | .var (.named name) => answer name
  | _ => answer t

def firstPart : Algorithm φ := fun _ t under =>
  match t.parts with
  | part :: _ => .delegate ⟨part, under⟩
  | [] => answer t

end LogicTerms.Reification
