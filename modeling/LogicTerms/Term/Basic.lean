import LogicTerms.Shape

/-!
# Terms

Atoms, logic variables and five kinds of compound. Atoms are opaque values, compared by kind and
then by content. The elements of a set and the keys of a map are kept in increasing order
(`LogicTerms.Term.Collection`).
-/

namespace LogicTerms

/-! ## Atoms -/

inductive Atom where
  | none
  | bool (value : Bool)
  | int (value : Int64)
  | char (value : Char)
  | str (value : String)
deriving DecidableEq, Inhabited

namespace Atom

def rank : Atom → Nat
  | none => 0
  | bool _ => 1
  | int _ => 2
  | char _ => 3
  | str _ => 4

/-- Atoms of one kind compare by content, others by kind. Texts compare by code points. -/
def order : Atom → Atom → Ordering
  | bool a, bool b => compare a b
  | int a, int b => compare a b
  | char a, char b => compare a b
  | str a, str b => compare a b
  | a, b => compare a.rank b.rank

/-- The order tells apart exactly the different atoms. -/
theorem order_eq_iff {a b : Atom} : a.order b = .eq ↔ a = b := by
  cases a <;> cases b <;> simp [order, rank]

instance : Std.LawfulEqCmp order where
  compare_self := order_eq_iff.2 rfl
  eq_of_compare := order_eq_iff.1

theorem order_of_rank_ne {a b : Atom} (h : a.rank ≠ b.rank) :
    a.order b = compare a.rank b.rank := by
  cases a <;> cases b <;> simp_all [order, rank]

theorem order_isLE_rank {a b : Atom} (h : (a.order b).isLE) : a.rank ≤ b.rank := by
  by_cases hr : a.rank = b.rank
  · omega
  · rw [order_of_rank_ne hr] at h
    exact Nat.isLE_compare.1 h

instance : Std.TransCmp order where
  eq_swap {a b} := by
    cases a <;> cases b <;> exact Std.OrientedOrd.eq_swap
  isLE_trans {a b c} hab hbc := by
    by_cases hr : a.rank = c.rank
    · have := order_isLE_rank hab
      have := order_isLE_rank hbc
      cases a <;> cases b <;> cases c <;> simp_all [rank]
      all_goals first | rfl | exact Std.TransOrd.isLE_trans hab hbc
    · rw [order_of_rank_ne hr]
      have := order_isLE_rank hab
      have := order_isLE_rank hbc
      exact Nat.isLE_compare.2 (by omega)

end Atom

/-! ## Terms -/

mutual

inductive Term where
  | atom (value : Atom)
  | var (name : Var)
  | tuple (items : List Term)
  | list (items : List Term)
  | set (elements : List Term)
  | map (entries : List (Term × Term))
  | slice (start stop step : Term)

inductive Var where
  | fresh (number : Nat)
  | named (name : Term)

end

namespace Term

instance : Inhabited Term := ⟨atom .none⟩

abbrev none : Term := atom .none

/-- The kind of a term, whatever is registered as a variable. -/
def shape : Term → Shape
  | atom _ => .atom
  | var _ => .var
  | tuple _ => .tuple
  | list _ => .list
  | set _ => .set
  | map _ => .map
  | slice .. => .slice

def isCompound : Term → Bool
  | atom _ | var _ => false
  | _ => true

def items? : Term → Option (List Term)
  | tuple items | list items => some items
  | _ => Option.none

def flatten (entries : List (Term × Term)) : List Term :=
  entries.flatMap fun (key, value) => [key, value]

@[simp] theorem flatten_nil : flatten [] = [] := rfl

@[simp] theorem flatten_cons (key value : Term) (entries : List (Term × Term)) :
    flatten ((key, value) :: entries) = key :: value :: flatten entries := rfl

/-- The children of a term, from left to right: a map has each key before its value, and a slice
has its start, its stop and its step. -/
def parts : Term → List Term
  | atom _ | var _ => []
  | tuple items | list items | set items => items
  | map entries => flatten entries
  | slice start stop step => [start, stop, step]

end Term

/-! ## Weight -/

mutual

def Term.weight : Term → Nat
  | .atom _ => 1
  | .var v => v.weight
  | .tuple items => Term.weightAll items + 2
  | .list items => Term.weightAll items + 2
  | .set elements => Term.weightAll elements + 2
  | .map entries => Term.weightEntries entries + 2
  | .slice start stop step => start.weight + (stop.weight + step.weight) + 2

def Var.weight : Var → Nat
  | .fresh _ => 1
  | .named name => name.weight + 1

def Term.weightAll : List Term → Nat
  | [] => 0
  | t :: ts => t.weight + Term.weightAll ts

def Term.weightEntries : List (Term × Term) → Nat
  | [] => 0
  | (key, value) :: entries => key.weight + (value.weight + Term.weightEntries entries)

end

namespace Term

@[simp] theorem weightAll_flatten (entries : List (Term × Term)) :
    weightAll (flatten entries) = weightEntries entries := by
  induction entries with
  | nil => rfl
  | cons entry entries ih =>
    obtain ⟨key, value⟩ := entry
    simp [weightAll, weightEntries, ih]

theorem weight_pos (t : Term) : 0 < t.weight := by
  cases t with
  | var v => cases v <;> simp [weight, Var.weight]
  | _ => simp [weight]

/-- A compound outweighs its parts by the two steps that bracket them. -/
theorem weight_of_isCompound {t : Term} (h : t.isCompound = true) :
    t.weight = weightAll t.parts + 2 := by
  cases t <;> simp_all [isCompound, weight, parts, weightAll]

theorem flatten_inj {xs ys : List (Term × Term)} : flatten xs = flatten ys ↔ xs = ys := by
  refine ⟨fun h => ?_, congrArg flatten⟩
  induction xs generalizing ys with
  | nil => cases ys with
    | nil => rfl
    | cons y ys => obtain ⟨key, value⟩ := y; simp at h
  | cons x xs ih => cases ys with
    | nil => obtain ⟨key, value⟩ := x; simp at h
    | cons y ys =>
      obtain ⟨key, value⟩ := x
      obtain ⟨key', value'⟩ := y
      simp only [flatten_cons, List.cons.injEq] at h
      rw [h.1, h.2.1, ih h.2.2]

/-- A compound is known by its shape and its parts. -/
theorem eq_of_parts_eq {s t : Term} (hs : s.isCompound = true) (hshape : s.shape = t.shape)
    (hparts : s.parts = t.parts) : s = t := by
  cases s <;> cases t <;> simp_all [isCompound, shape, parts, flatten_inj]

end Term

end LogicTerms
