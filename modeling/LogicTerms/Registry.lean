import LogicTerms.Term.Collection

/-!
# Terms that act as variables

Any term may be registered to count as a logic variable for a while. A scope registers terms when
it is entered and brings back what it found when it is left. The shapes that occur among the
registered terms are kept as bits, which are asked first.
-/

namespace LogicTerms

/-- The terms that count as variables. Most terms are told apart by shape alone, so the shapes of
the registered terms are kept as bits. -/
structure Registry where
  terms : List Term
  shapes : BitVec Shape.count

namespace Registry

def empty : Registry := ⟨[], 0⟩

instance : Inhabited Registry := ⟨empty⟩

def size (registry : Registry) : Nat := registry.terms.length

def shapeBit (shape : Shape) : BitVec Shape.count := BitVec.twoPow Shape.count shape.index

def insert (t : Term) (registry : Registry) : Registry where
  terms := Elements.insert t registry.terms
  shapes := registry.shapes ||| shapeBit t.shape

def extend (registry : Registry) (terms : List Term) : Registry :=
  terms.foldl (fun registry t => registry.insert t) registry

def mayHold (registry : Registry) (shape : Shape) : Bool :=
  registry.shapes &&& shapeBit shape != 0

def contains (registry : Registry) (t : Term) : Bool :=
  registry.mayHold t.shape && registry.terms.contains t

def isVariable (registry : Registry) : Term → Bool
  | .var _ => true
  | t => registry.contains t

/-- The shape on which algorithms are chosen: a registered term counts as a variable. -/
def dispatchShape (registry : Registry) (t : Term) : Shape :=
  if registry.isVariable t then .var else t.shape

@[simp] theorem isVariable_var (registry : Registry) (name : Var) :
    registry.isVariable (.var name) = true := rfl

@[simp] theorem contains_empty (t : Term) : empty.contains t = false := by
  simp [contains, empty]

/-- Algorithms for variables are chosen for all terms that count as variables, and for no others. -/
theorem dispatchShape_eq_var_iff {registry : Registry} {t : Term} :
    registry.dispatchShape t = .var ↔ registry.isVariable t = true := by
  unfold dispatchShape
  split
  next h => simp [h]
  next h =>
    refine iff_of_false (fun hs => ?_) h
    cases t <;> simp_all [Term.shape]

end Registry

/-! ## Scopes -/

/-- An open scope, which remembers the registry as it was at entry. -/
structure Scope where
  outer : Registry

namespace Registry

def enter (registry : Registry) (terms : List Term) : Scope × Registry :=
  (⟨registry⟩, registry.extend terms)

end Registry

/-- The registry after a scope: the one at its entry, whatever came in between. -/
def Scope.leave (scope : Scope) : Registry := scope.outer

/-- Runs a body inside a scope of its own. The scope is left in any case, whatever the body
returns. -/
def Registry.within {α : Type} (registry : Registry) (terms : List Term)
    (body : Registry → α × Registry) : α × Registry :=
  let (scope, inside) := registry.enter terms
  ((body inside).1, scope.leave)

end LogicTerms
