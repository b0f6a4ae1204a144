import LogicTerms.Unification.Algorithms

/-!
# Further unification algorithms

Algorithms to be registered beside the standard ones, or instead of them. They answer without a
look at the terms, bind whatever stands on the left, or pass the question on in another form.
-/

namespace LogicTerms.Unification

variable {φ : Type}

def always : Algorithm φ := fun _ _ _ under => answer (.ok under)

def never : Algorithm φ := fun _ u v _ => answer (.error (.shapeClash u.shape v.shape))

def assign : Algorithm φ := fun _ u v under => answer (.ok (under.bind u v))

def swapped : Algorithm φ := fun _ u v under => .delegate (.pair v u under)

def byParts : Algorithm φ := fun _ u v under =>
  .delegate (.pair (.list u.parts) (.list v.parts) under)

/-- Unifies tuples and lists of equal length item by item. -/
def itemwise : Algorithm φ := fun registry u v under =>
  match u.items?, v.items? with
  | some left, some right =>
    if left.length = right.length then .delegate (.pairs (left.zip right) under)
    else never registry u v under
  | _, _ => never registry u v under

end LogicTerms.Unification
