/-!
# Shapes

The seven kinds of term, on which algorithms are chosen. They are numbered in the order of terms.
-/

namespace LogicTerms

inductive Shape where
  | atom
  | var
  | tuple
  | list
  | set
  | map
  | slice
deriving DecidableEq, Inhabited

namespace Shape

abbrev count : Nat := 7

def all : Vector Shape count := #v[atom, var, tuple, list, set, map, slice]

def index : Shape → Fin count
  | atom => 0
  | var => 1
  | tuple => 2
  | list => 3
  | set => 4
  | map => 5
  | slice => 6

def ofIndex (i : Fin count) : Shape := all.get i

@[simp] theorem ofIndex_index (s : Shape) : ofIndex s.index = s := by cases s <;> rfl

@[simp] theorem index_ofIndex (i : Fin count) : (ofIndex i).index = i := by
  revert i; decide

theorem index_inj {s t : Shape} : s.index = t.index ↔ s = t :=
  ⟨fun h => by rw [← ofIndex_index s, h, ofIndex_index], congrArg index⟩

def name : Shape → String
  | atom => "atom"
  | var => "variable"
  | tuple => "tuple"
  | list => "list"
  | set => "set"
  | map => "map"
  | slice => "slice"

/-- The word for a shape in dumps of values. -/
def label : Shape → String
  | atom => "Atom"
  | var => "Var"
  | tuple => "Tuple"
  | list => "List"
  | set => "Set"
  | map => "Map"
  | slice => "Slice"

end Shape

end LogicTerms
