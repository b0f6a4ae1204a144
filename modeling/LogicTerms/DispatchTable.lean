import LogicTerms.Shape

/-!
# Tables of algorithms

An algorithm is registered under one pattern for each argument, and is found by the shapes of the
arguments. Of the registrations that accept the shapes, the one with the least sum of ranks wins,
and of those with equal sums the first. The winner for each combination of shapes is kept in a dense
vector, which the number of the combination indexes.
-/

namespace LogicTerms

/-! ## Patterns -/

inductive Pattern where
  | exact (shape : Shape)
  | sequence
  | any
deriving DecidableEq

namespace Pattern

def accepts : Pattern → Shape → Bool
  | exact expected, shape => expected = shape
  | sequence, shape => shape = .tuple || shape = .list
  | any, _ => true

def rank : Pattern → Nat
  | exact _ => 0
  | sequence => 1
  | any => 2

def name : Pattern → String
  | exact shape => shape.name
  | sequence => "sequence"
  | any => "any"

def dump : Pattern → String
  | exact shape => "Exact(" ++ shape.label ++ ")"
  | sequence => "Sequence"
  | any => "Any"

end Pattern

structure NoAlgorithm where
  shapes : List Shape
deriving DecidableEq

def NoAlgorithm.message (miss : NoAlgorithm) : String :=
  "no algorithm registered for (" ++ ", ".intercalate (miss.shapes.map Shape.name) ++ ")"

namespace DispatchTable

/-! ## Numbers of combinations -/

def slots (n : Nat) : Nat := Nat.pow Shape.count n

/-- The number of a combination, read as digits. -/
def slot {n : Nat} (shapes : Vector Shape n) : Nat :=
  shapes.foldl (fun slot shape => slot * Shape.count + shape.index) 0

/-- The digits of a number, as shapes. -/
def shapesOf : (n : Nat) → Nat → Vector Shape n
  | 0, _ => #v[]
  | n + 1, slot => (shapesOf n (slot / Shape.count)).push (Shape.ofIndex (Fin.ofNat _ slot))

theorem slots_succ (n : Nat) : slots (n + 1) = slots n * Shape.count := rfl

theorem slot_push {n : Nat} (shapes : Vector Shape n) (shape : Shape) :
    slot (shapes.push shape) = slot shapes * Shape.count + shape.index := by
  simp [slot]

/-- No combination has a number outside of the vector of winners. -/
theorem slot_lt {n : Nat} (shapes : Vector Shape n) : slot shapes < slots n := by
  induction n with
  | zero =>
    obtain rfl : shapes = #v[] := by simp
    exact Nat.one_pos
  | succ n ih =>
    obtain ⟨rest, shape, rfl⟩ := @Vector.exists_push _ _ shapes
    have := ih rest
    have := shape.index.isLt
    rw [slot_push, slots_succ]
    grind

end DispatchTable

/-- Algorithms of type `α` for `n` arguments, with the number of the winning registration for each
combination of shapes. -/
structure DispatchTable (α : Type) (n : Nat) where
  entries : Array (Vector Pattern n × α)
  resolved : Vector (Option Nat) (DispatchTable.slots n)

namespace DispatchTable

variable {α : Type} {n : Nat}

/-! ## Registration -/

def acceptsAll (patterns : Vector Pattern n) (shapes : Vector Shape n) : Bool :=
  (patterns.zip shapes).all fun (pattern, shape) => pattern.accepts shape

def rank (patterns : Vector Pattern n) : Nat :=
  patterns.foldl (fun sum pattern => sum + pattern.rank) 0

/-- The better of two registrations, each with its rank and number: the lesser rank, and of equal
ranks the one that came first. -/
def prefer (best : Option (Nat × Nat)) (rank number : Nat) : Option (Nat × Nat) :=
  match best with
  | some (least, first) => if rank < least then some (rank, number) else some (least, first)
  | none => some (rank, number)

/-- The number of the registration that wins for given shapes. -/
def mostSpecific (entries : Array (Vector Pattern n × α)) (shapes : Vector Shape n) : Option Nat :=
  let best := entries.toList.zipIdx.foldl (fun best ((patterns, _), number) =>
    if acceptsAll patterns shapes then prefer best (rank patterns) number else best) none
  best.map Prod.snd

def resolveAll (entries : Array (Vector Pattern n × α)) :
    Vector (Option Nat) (slots n) :=
  Vector.ofFn fun slot => mostSpecific entries (shapesOf n slot)

def empty : DispatchTable α n := ⟨#[], Vector.replicate _ none⟩

def register (table : DispatchTable α n) (patterns : Vector Pattern n) (algorithm : α) :
    DispatchTable α n :=
  let entries := table.entries.push (patterns, algorithm)
  ⟨entries, resolveAll entries⟩

/-! ## Lookup -/

def lookup (table : DispatchTable α n) (shapes : Vector Shape n) : Except NoAlgorithm α :=
  let winner := table.resolved.get ⟨slot shapes, slot_lt shapes⟩
  match winner.bind fun number => table.entries[number]? with
  | some (_, algorithm) => .ok algorithm
  | none => .error ⟨shapes.toList⟩

def size (table : DispatchTable α n) : Nat := table.entries.size

def dump (table : DispatchTable α n) : String :=
  let row (patterns : Vector Pattern n) : String :=
    "[" ++ ", ".intercalate (patterns.toList.map Pattern.dump) ++ "]"
  let rows := table.entries.toList.map fun (patterns, _) => row patterns
  "DispatchTable \x7b entries: [" ++ ", ".intercalate rows ++ "] \x7d"

end DispatchTable

end LogicTerms
