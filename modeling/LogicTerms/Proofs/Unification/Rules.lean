import LogicTerms.Proofs.Dispatch
import LogicTerms.Proofs.Substitution.Walk
import LogicTerms.Proofs.Unification.Confront
import LogicTerms.Unification.Algorithms

/-!
# Rules of unification

What the standard algorithms do, told by rules: variables are bound or give way to their values, and
two other terms either clash or leave pairs of parts to be unified from left to right. There is one
rule for each way that a task can go.
-/

namespace LogicTerms.Unification

/-- The rules of unification, for the tasks of the standard table. -/
inductive Solves (registry : Registry) : Task → Result → Prop
  /-- A variable that is not bound gets the end of the chain of the other term, -/
  | unbound {u v v' s} (hu : registry.isVariable u = true) (hfree : s.lookup u = none)
      (hv : s.walk registry v = some v') :
      Solves registry (.pair u v s) (.ok (if u = v' then s else s.bind u v'))
  /-- and one that is bound gives way to the end of its own chain. -/
  | bound {u v u' v' s result} (hu : registry.isVariable u = true)
      (hu' : s.walk registry u = some u') (hne : u' ≠ u) (hv : s.walk registry v = some v')
      (h : Solves registry (.pair u' v' s) result) : Solves registry (.pair u v s) result
  | swapped {u v s result} (hu : registry.isVariable u = false)
      (hv : registry.isVariable v = true) (h : Solves registry (.pair v u s) result) :
      Solves registry (.pair u v s) result
  | apart {u v s clash} (hu : registry.isVariable u = false) (hv : registry.isVariable v = false)
      (hclash : confront u v = .error clash) : Solves registry (.pair u v s) (.error clash)
  | together {u v s pairs result} (hu : registry.isVariable u = false)
      (hv : registry.isVariable v = false) (hpairs : confront u v = .ok pairs)
      (h : Solves registry (.pairs pairs s) result) : Solves registry (.pair u v s) result
  | nil {s} : Solves registry (.pairs [] s) (.ok s)
  /-- The first clash is the result, -/
  | clash {u v pairs s clash} (h : Solves registry (.pair u v s) (.error clash)) :
      Solves registry (.pairs ((u, v) :: pairs) s) (.error clash)
  /-- and otherwise each pair starts from the bindings of the pairs before. -/
  | cons {u v pairs s s' result} (h : Solves registry (.pair u v s) (.ok s'))
      (hrest : Solves registry (.pairs pairs s') result) :
      Solves registry (.pairs ((u, v) :: pairs) s) result

variable {registry : Registry} {s t : Substitution} {u v : Term}

/-! ## Bindings only grow -/

def Task.under : Task → Substitution
  | .pair _ _ under => under
  | .pairs _ under => under

/-- The rules only add bindings. -/
theorem Solves.extends {task : Task} (h : Solves registry task (.ok t)) : t.Extends task.under := by
  generalize hresult : (.ok t : Result) = result at h
  induction h generalizing t with
  | unbound hu hfree hv =>
    cases hresult
    split
    · exact .refl _
    · exact Substitution.extends_bind hfree _
  | bound _ _ _ _ _ ih | swapped _ _ _ ih | together _ _ _ _ ih => exact ih hresult
  | nil =>
    cases hresult
    exact .refl _
  | apart | clash => cases hresult
  | cons _ _ ih ihrest =>
    have hrest := ihrest hresult
    exact hrest.trans (ih rfl)

/-! ## Properties of all terms of a task -/

def Task.All (P : Term → Prop) : Task → Prop
  | .pair u v under => P u ∧ P v ∧ under.AllValues P
  | .pairs list under => (∀ pair ∈ list, P pair.1 ∧ P pair.2) ∧ under.AllValues P

variable {P : Term → Prop} {pairs : List (Term × Term)}

theorem Task.All.symm (h : Task.All P (.pair u v s)) : Task.All P (.pair v u s) :=
  ⟨h.2.1, h.1, h.2.2⟩

theorem Task.All.of_walk {u' v' : Term} (h : Task.All P (.pair u v s))
    (hu : s.walk registry u = some u') (hv : s.walk registry v = some v') :
    Task.All P (.pair u' v' s) :=
  ⟨h.2.2.walk hu h.1, h.2.2.walk hv h.2.1, h.2.2⟩

theorem Task.All.first (h : Task.All P (.pairs ((u, v) :: pairs) s)) :
    Task.All P (.pair u v s) := by
  obtain ⟨hpair, -⟩ := List.forall_mem_cons.1 h.1
  exact ⟨hpair.1, hpair.2, h.2⟩

/-- A property that goes from terms to their parts holds of the pairs that they leave. -/
theorem Task.All.of_confront (hparts : ∀ a, P a → ∀ p ∈ a.parts, P p)
    (h : Task.All P (.pair u v s)) (hpairs : confront u v = .ok pairs) :
    Task.All P (.pairs pairs s) := by
  refine ⟨fun pair hpair => ?_, h.2.2⟩
  obtain ⟨hu, hv⟩ := mem_parts_of_confront hpairs hpair
  exact ⟨hparts u h.1 _ hu, hparts v h.2.1 _ hv⟩

/-- What holds of the parts of a term if it holds of the term holds of all that is bound in the
end. -/
theorem Solves.allValues (hparts : ∀ a, P a → ∀ p ∈ a.parts, P p) {task : Task}
    (h : Solves registry task (.ok t)) (hall : task.All P) : t.AllValues P := by
  generalize hresult : (.ok t : Result) = result at h
  induction h generalizing t with
  | unbound hu hfree hv =>
    cases hresult
    split
    · exact hall.2.2
    · exact hall.2.2.bind (hall.2.2.walk hv hall.2.1) _
  | bound _ hu' _ hv _ ih => exact ih (hall.of_walk hu' hv) hresult
  | swapped _ _ _ ih => exact ih hall.symm hresult
  | together _ _ hpairs _ ih => exact ih (hall.of_confront hparts hpairs) hresult
  | nil =>
    cases hresult
    exact hall.2
  | apart | clash => cases hresult
  | cons _ _ ih ihrest =>
    obtain ⟨-, hrest⟩ := List.forall_mem_cons.1 hall.1
    exact ihrest ⟨hrest, ih hall.first rfl⟩ hresult

/-- The other pairs start from what the first one binds. -/
theorem Task.All.rest (hparts : ∀ a, P a → ∀ p ∈ a.parts, P p)
    (h : Task.All P (.pairs ((u, v) :: pairs) s))
    (hsolves : Solves registry (.pair u v s) (.ok t)) : Task.All P (.pairs pairs t) :=
  ⟨(List.forall_mem_cons.1 h.1).2, hsolves.allValues hparts h.first⟩

/-! ## Lists of pairs -/

/-- A list of pairs is unified as its first pairs and then the others. -/
theorem solves_append_iff {xs ys : List (Term × Term)} :
    Solves registry (.pairs (xs ++ ys) s) (.ok t) ↔
      ∃ r, Solves registry (.pairs xs s) (.ok r) ∧ Solves registry (.pairs ys r) (.ok t) := by
  induction xs generalizing s with
  | nil =>
    constructor
    · intro h
      exact ⟨s, .nil, h⟩
    · rintro ⟨r, ⟨⟩, h⟩
      exact h
  | cons x xs ih =>
    constructor
    · intro h
      cases h with
      | cons h hrest =>
        obtain ⟨r, hxs, hys⟩ := ih.1 hrest
        exact ⟨r, .cons h hxs, hys⟩
    · rintro ⟨r, hxs, hys⟩
      cases hxs with
      | cons h hrest => exact .cons h (ih.2 ⟨r, hrest, hys⟩)

/-! ## The standard table -/

namespace Table

variable {φ : Type}

/-- The numbers of the standard algorithms, found by their patterns. -/
theorem winner_standard (left right : Shape) :
    DispatchTable.winner
      [#v[.exact .var, .any], #v[.any, .exact .var], #v[.exact .tuple, .exact .tuple],
        #v[.exact .list, .exact .list], #v[.exact .set, .exact .set], #v[.exact .map, .exact .map],
        #v[.exact .slice, .exact .slice], #v[.any, .any]] #v[left, right] =
      some (if left = .var then 0 else if right = .var then 1 else match left, right with
        | .tuple, .tuple => 2
        | .list, .list => 3
        | .set, .set => 4
        | .map, .map => 5
        | .slice, .slice => 6
        | _, _ => 7) := by
  cases left <;> cases right <;> rfl

/-- The algorithm for each pair of shapes. Variables come first, and the left one before the right
one. -/
theorem standard_lookup (left right : Shape) :
    (standard : Table φ).dispatch.lookup #v[left, right] = .ok
      (if left = .var then variableLeft
      else if right = .var then variableRight
      else match left, right with
        | .tuple, .tuple | .list, .list => sequences
        | .set, .set => sets
        | .map, .map => maps
        | .slice, .slice => slices
        | _, _ => rigid) := by
  have hwinner := winner_standard left right
  rw [standard, register, DispatchTable.lookup_register, DispatchTable.mostSpecific_eq_winner]
  simp only [register, empty, DispatchTable.register, DispatchTable.empty, List.push_toArray,
    List.nil_append, List.cons_append, List.map_cons, List.map_nil, hwinner]
  cases left <;> cases right <;> rfl

theorem standard_reply_of_isVariable (hu : registry.isVariable u = true) :
    (standard : Table φ).reply registry (.pair u v s) = variableLeft registry u v s := by
  rw [reply, standard_lookup, Registry.dispatchShape, if_pos hu]
  rfl

/-- A variable on the right is unified as if it stood on the left. -/
theorem standard_reply_swap (hu : registry.isVariable u = false)
    (hv : registry.isVariable v = true) :
    (standard : Table φ).reply registry (.pair u v s) =
      (standard : Table φ).reply registry (.pair v u s) := by
  have hshape : registry.dispatchShape u ≠ .var := by
    rw [Ne, Registry.dispatchShape_eq_var_iff, hu]
    simp
  rw [standard_reply_of_isVariable hv, reply, standard_lookup, if_neg hshape,
    if_pos (Registry.dispatchShape_eq_var_iff.2 hv)]
  rfl

/-- Two terms that are no variables clash, or are told to be equal, or leave their pairs. -/
theorem standard_reply_of_confront (hu : registry.isVariable u = false)
    (hv : registry.isVariable v = false) :
    (standard : Table φ).reply registry (.pair u v s) =
      match confront u v with
      | .error clash => answer (.error clash)
      | .ok pairs => if u.isCompound then all pairs s else answer (.ok s) := by
  rw [reply, standard_lookup, Registry.dispatchShape, Registry.dispatchShape, hu, hv]
  cases u <;> cases v <;>
    simp [Registry.isVariable, Term.shape, sequences, sets, maps, slices, rigid, elementwise,
      zipped, confront, Term.items?, Term.isCompound] at hu hv ⊢
  case map.map left right =>
    split
    · cases valuePairs right left <;> rfl
    · rfl
  all_goals
    split <;> rfl

end Table

end LogicTerms.Unification
