import LogicTerms.Term.Basic

/-!
# Visiting a term

A term is visited in pre-order, each compound between an `enter` and a `leave`, without recursion:
a cursor holds all that is still to be seen. Recursion on the term gives the same visits.
-/

namespace LogicTerms

inductive Visit where
  | leave
  | atom (value : Atom)
  | var (name : Var)
  | enter (shape : Shape)

/-- A place in the visit of a term: the siblings still to be visited here, and those that are left
in each compound around, innermost first. -/
structure Cursor where
  ahead : List Term
  above : List (List Term)

namespace Cursor

def start (t : Term) : Cursor := ⟨[t], []⟩

def next : Cursor → Option (Visit × Cursor)
  | ⟨[], []⟩ => none
  | ⟨[], level :: above⟩ => some (.leave, ⟨level, above⟩)
  | ⟨.atom value :: ahead, above⟩ => some (.atom value, ⟨ahead, above⟩)
  | ⟨.var name :: ahead, above⟩ => some (.var name, ⟨ahead, above⟩)
  | ⟨t :: ahead, above⟩ => some (.enter t.shape, ⟨t.parts, ahead :: above⟩)

theorem next_compound {t : Term} (h : t.isCompound = true) (ahead : List Term)
    (above : List (List Term)) :
    next ⟨t :: ahead, above⟩ = some (.enter t.shape, ⟨t.parts, ahead :: above⟩) := by
  cases t <;> first | rfl | simp [Term.isCompound] at h

def weight (c : Cursor) : Nat :=
  Term.weightAll c.ahead + c.above.foldr (fun level rest => Term.weightAll level + 1 + rest) 0

/-- Each step takes from the weight of what is left, so a visit ends. -/
theorem weight_next {c d : Cursor} {v : Visit} (h : c.next = some (v, d)) :
    d.weight < c.weight := by
  match c, h with
  | ⟨[], level :: above⟩, h =>
    obtain ⟨_, rfl⟩ := Prod.mk.inj (Option.some.inj h)
    simp [weight, Term.weightAll]
  | ⟨t :: ahead, above⟩, h =>
    cases ht : t.isCompound with
    | true =>
      rw [next_compound ht] at h
      obtain ⟨_, rfl⟩ := Prod.mk.inj (Option.some.inj h)
      simp [weight, Term.weightAll, Term.weight_of_isCompound ht]
      omega
    | false =>
      have := t.weight_pos
      cases t <;> simp [Term.isCompound] at ht <;>
        obtain ⟨_, rfl⟩ := Prod.mk.inj (Option.some.inj h) <;>
        simp [weight, Term.weightAll] <;> omega

/-- The name of a variable is lighter than the visit that meets it. -/
theorem weight_name {c d : Cursor} {name : Term} (h : c.next = some (.var (.named name), d)) :
    (start name).weight < c.weight := by
  match c, h with
  | ⟨[], []⟩, h | ⟨[], _ :: _⟩, h => simp [next] at h
  | ⟨t :: ahead, above⟩, h =>
    cases t <;> simp [next] at h
    obtain ⟨rfl, _⟩ := h
    simp [start, weight, Term.weightAll, Term.weight, Var.weight]
    omega

def visits (c : Cursor) : List Visit :=
  match _h : c.next with
  | none => []
  | some (v, d) => v :: d.visits
termination_by c.weight
decreasing_by exact weight_next _h

end Cursor

mutual

/-- The visits of a term: a compound is entered, its parts are visited in turn, and it is left. -/
def Term.visits : Term → List Visit
  | .atom value => [.atom value]
  | .var name => [.var name]
  | .tuple items => .enter .tuple :: (Term.visitsAll items ++ [.leave])
  | .list items => .enter .list :: (Term.visitsAll items ++ [.leave])
  | .set elements => .enter .set :: (Term.visitsAll elements ++ [.leave])
  | .map entries => .enter .map :: (Term.visitsEntries entries ++ [.leave])
  | .slice start stop step =>
    .enter .slice :: (start.visits ++ (stop.visits ++ (step.visits ++ [.leave])))

def Term.visitsAll : List Term → List Visit
  | [] => []
  | t :: ts => t.visits ++ Term.visitsAll ts

def Term.visitsEntries : List (Term × Term) → List Visit
  | [] => []
  | (key, value) :: entries => key.visits ++ (value.visits ++ Term.visitsEntries entries)

end

namespace Term

@[simp] theorem visitsAll_flatten (entries : List (Term × Term)) :
    visitsAll (flatten entries) = visitsEntries entries := by
  induction entries with
  | nil => rfl
  | cons entry entries ih =>
    obtain ⟨key, value⟩ := entry
    simp [visitsAll, visitsEntries, ih]

theorem visits_of_isCompound {t : Term} (h : t.isCompound = true) :
    t.visits = .enter t.shape :: (visitsAll t.parts ++ [.leave]) := by
  cases t <;> simp_all [isCompound, visits, shape, parts, visitsAll]

end Term

namespace Cursor

/-- From a place on one sees the siblings left here, then the end of each compound around and the
siblings left there. -/
theorem visits_eq (c : Cursor) : c.visits =
    Term.visitsAll c.ahead ++ c.above.flatMap fun level => .leave :: Term.visitsAll level := by
  fun_induction visits c with
  | case1 c h =>
    match c, h with
    | ⟨[], []⟩, _ => rfl
    | ⟨t :: ahead, above⟩, h => cases t <;> simp [next] at h
  | case2 c v d h ih =>
    rw [ih]
    match c, h with
    | ⟨[], level :: above⟩, h =>
      obtain ⟨rfl, rfl⟩ := Prod.mk.inj (Option.some.inj h)
      simp [Term.visitsAll]
    | ⟨t :: ahead, above⟩, h =>
      cases ht : t.isCompound with
      | true =>
        rw [next_compound ht] at h
        obtain ⟨rfl, rfl⟩ := Prod.mk.inj (Option.some.inj h)
        simp [Term.visitsAll, Term.visits_of_isCompound ht]
      | false =>
        cases t <;> simp [Term.isCompound] at ht <;>
          obtain ⟨rfl, rfl⟩ := Prod.mk.inj (Option.some.inj h) <;>
          simp [Term.visitsAll, Term.visits]

/-- A cursor that starts at a term sees the visits of the term. -/
@[simp] theorem visits_start (t : Term) : (start t).visits = t.visits := by
  simp [visits_eq, start, Term.visitsAll]

end Cursor

end LogicTerms
