import LogicTerms.Proofs.Substitution.Classes
import LogicTerms.Proofs.Unification.Rules

/-!
# The two sides of a pair

Some rules of unification exchange the two terms of a pair, depending on which of them are variables
and which of these are bound. What is left to be unified of two other terms is the same whichever
comes first, up to the order in each pair.
-/

namespace LogicTerms

open Substitution

def Clash.SameKind : Clash → Clash → Prop
  | lengthMismatch .., lengthMismatch .. | missingKey _, missingKey _
  | atomMismatch .., atomMismatch .. | shapeClash .., shapeClash .. => True
  | _, _ => False

theorem Clash.SameKind.refl (clash : Clash) : clash.SameKind clash := by
  cases clash <;> trivial

namespace Unification

variable {registry : Registry} {s : Substitution} {u v u' v' : Term} {clash : Clash}
  {pairs : List (Term × Term)}

/-! ## Lists the other way round -/

section

variable {left right : List Term}

theorem zipped_swap (h : zipped left right = .ok pairs) :
    zipped right left = .ok (pairs.map Prod.swap) := by
  obtain ⟨hlength, rfl⟩ := zipped_eq_ok_iff.1 h
  exact zipped_eq_ok_iff.2 ⟨hlength.symm, List.zip_swap left right⟩

theorem zipped_swap_of_error (h : zipped left right = .error clash) :
    ∃ clash', zipped right left = .error clash' ∧ clash.SameKind clash' := by
  unfold zipped at h ⊢
  split at h
  next => cases h
  next hne =>
    cases h
    rw [if_neg (Ne.symm hne)]
    exact ⟨_, rfl, trivial⟩

theorem zipped_self (list : List Term) : zipped list list = .ok (list.zip list) :=
  zipped_eq_ok_iff.2 ⟨rfl, rfl⟩

end

/-! ## Maps the other way round -/

section

variable {left right : List (Term × Term)}

/-- Under the same keys the values are paired in order. -/
theorem valuePairs_of_keys_eq {rest : List (Term × Term)}
    (hkeys : Entries.keys left = Entries.keys rest) (hsub : rest ⊆ right)
    (hnodup : (Entries.keys right).Nodup) :
    valuePairs right left = .ok ((left.map Prod.snd).zip (rest.map Prod.snd)) := by
  induction left generalizing rest with
  | nil => rfl
  | cons entry left ih =>
    cases rest with
    | nil => simp at hkeys
    | cons other rest =>
      obtain ⟨key, value⟩ := entry
      obtain ⟨key', value'⟩ := other
      obtain ⟨rfl, htail⟩ := List.cons.inj hkeys
      have hlookup := Entries.lookup_of_mem hnodup (hsub List.mem_cons_self)
      have hrest := ih htail fun entry hentry => hsub (List.mem_cons_of_mem _ hentry)
      exact valuePairs_cons_eq_ok_iff.2 ⟨value', _, hlookup, hrest, rfl⟩

/-- Maps with the same keys leave the same pairs of values in either order, because both list their
keys in the same order. -/
theorem valuePairs_swap (h : valuePairs right left = .ok pairs)
    (hlength : left.length = right.length) (hleft : Increasing (Entries.keys left))
    (hright : Increasing (Entries.keys right)) :
    valuePairs left right = .ok (pairs.map Prod.swap) := by
  have hkeys := keys_eq_of_valuePairs h hlength hleft hright
  rw [valuePairs_of_keys_eq hkeys (List.Subset.refl right) hright.nodup] at h
  cases h
  rw [List.zip_swap]
  exact valuePairs_of_keys_eq hkeys.symm (List.Subset.refl left) hleft.nodup

/-- If a key of the one map is missing from the other of the same size, so is one the other way
round. -/
theorem valuePairs_swap_of_error (h : valuePairs right left = .error clash)
    (hlength : left.length = right.length) (hleft : Increasing (Entries.keys left))
    (hright : Increasing (Entries.keys right)) :
    ∃ clash', valuePairs left right = .error clash' ∧ clash.SameKind clash' := by
  cases hswap : valuePairs left right with
  | ok pairs =>
    rw [valuePairs_swap hswap hlength.symm hright hleft] at h
    cases h
  | error clash' =>
    obtain ⟨key, -, -, rfl⟩ := missingKey_of_valuePairs h
    obtain ⟨key', -, -, rfl⟩ := missingKey_of_valuePairs hswap
    exact ⟨_, rfl, trivial⟩

end

/-! ## Terms the other way round -/

/-- Two terms leave the same pairs in either order, with their terms exchanged. -/
theorem confront_swap (hu : u.Canonical) (hv : v.Canonical) (h : confront u v = .ok pairs) :
    confront v u = .ok (pairs.map Prod.swap) := by
  cases u <;> cases v <;> simp only [confront, reduceCtorEq] at h ⊢
  case atom.atom =>
    split at h <;> cases h
    next heq => rw [if_pos heq.symm, List.map_nil]
  case tuple.tuple | list.list | set.set => exact zipped_swap h
  case map.map =>
    split at h
    next hlength =>
      rw [if_pos hlength.symm]
      exact valuePairs_swap h hlength hu.increasing_keys hv.increasing_keys
    next => cases h
  case slice.slice =>
    cases h
    rfl

/-- Two terms that clash do so in either order, with a clash of the same kind. -/
theorem exists_confront_swap_of_error (hu : u.Canonical) (hv : v.Canonical)
    (h : confront u v = .error clash) :
    ∃ clash', confront v u = .error clash' ∧ clash.SameKind clash' := by
  cases u <;> cases v <;> simp only [confront, reduceCtorEq] at h ⊢
  case atom.atom =>
    split at h <;> cases h
    next hne =>
      rw [if_neg (Ne.symm hne)]
      exact ⟨_, rfl, trivial⟩
  case tuple.tuple | list.list | set.set => exact zipped_swap_of_error h
  case map.map =>
    split at h
    next hlength =>
      rw [if_pos hlength.symm]
      exact valuePairs_swap_of_error h hlength hu.increasing_keys hv.increasing_keys
    next hne =>
      cases h
      rw [if_neg (Ne.symm hne)]
      exact ⟨_, rfl, trivial⟩
  all_goals
    cases h
    exact ⟨_, rfl, trivial⟩

theorem eq_of_mem_zip_self {list : List Term} {pair : Term × Term} (h : pair ∈ list.zip list) :
    pair.1 = pair.2 := by
  induction list with
  | nil => simp at h
  | cons t list ih =>
    obtain rfl | h := List.mem_cons.1 h
    · rfl
    · exact ih h

/-- A term that is no variable leaves nothing of itself but pairs of equal terms. -/
theorem confront_self (hu : u.Canonical) (hvar : registry.isVariable u = false) :
    ∃ pairs, confront u u = .ok pairs ∧ ∀ pair ∈ pairs, pair.1 = pair.2 := by
  cases u with
  | atom value => exact ⟨[], by simp [confront], by simp⟩
  | var name => simp at hvar
  | tuple items | list items => exact ⟨_, zipped_self items, fun _ => eq_of_mem_zip_self⟩
  | set elements => exact ⟨_, zipped_self _, fun _ => eq_of_mem_zip_self⟩
  | map entries =>
    have hpairs : valuePairs entries entries =
        .ok ((entries.map Prod.snd).zip (entries.map Prod.snd)) :=
      valuePairs_of_keys_eq rfl (List.Subset.refl entries) hu.increasing_keys.nodup
    exact ⟨_, (if_pos rfl).trans hpairs, fun _ => eq_of_mem_zip_self⟩
  | slice start stop step => exact ⟨_, rfl, by simp⟩

/-! ## Pairs the other way round -/

def Turned : List (Term × Term) → List (Term × Term) → Prop :=
  List.Forall₂ fun pair pair' => pair' = pair ∨ pair' = pair.swap

theorem turned_refl (pairs : List (Term × Term)) : Turned pairs pairs :=
  List.forall₂_same.2 fun _ _ => .inl rfl

theorem turned_swap (pairs : List (Term × Term)) : Turned pairs (pairs.map Prod.swap) := by
  rw [Turned, List.forall₂_map_right_iff]
  exact List.forall₂_same.2 fun _ _ => .inr rfl

/-! ## Ends in either order -/

/-- From the ends of the chains of two terms the rules come to a result with a property, whichever
of them is first. -/
def EitherWay (registry : Registry) (s : Substitution) (P : Result → Prop) (u v : Term) : Prop :=
  ∃ u' v', s.walk registry u = some u' ∧ s.walk registry v = some v' ∧
    (∃ result, Solves registry (.pair u' v' s) result ∧ P result) ∧
    ∃ result, Solves registry (.pair v' u' s) result ∧ P result

/-- A variable that is not bound depends on the end of the other chain only. -/
theorem solves_of_walk_right {result : Result} (hu : registry.isVariable u = true)
    (hfree : s.lookup u = none) (hv : s.walk registry v = some v')
    (h : Solves registry (.pair u v' s) result) : Solves registry (.pair u v s) result := by
  cases h with
  | unbound _ _ hv' =>
    rw [walk_of_walk hv, Option.some.injEq] at hv'
    subst hv'
    exact .unbound hu hfree hv
  | bound _ hu' hne =>
    rw [walk_of_resolved fun _ => hfree, Option.some.injEq] at hu'
    exact absurd hu'.symm hne
  | swapped hu' | apart hu' | together hu' => simp [hu] at hu'

namespace EitherWay

variable {P : Result → Prop}

/-- Chains with one end come to what the end comes to against itself. -/
theorem of_walk_eq {a : Term} {result : Result} (hu : s.walk registry u = some a)
    (hv : s.walk registry v = some a) (h : Solves registry (.pair a a s) result) (hP : P result) :
    EitherWay registry s P u v :=
  ⟨a, a, hu, hv, ⟨result, h, hP⟩, result, h, hP⟩

/-- Terms that are no variables are the ends of their own chains. -/
theorem of_isVariable_eq_false (hu : registry.isVariable u = false)
    (hv : registry.isVariable v = false)
    (hleft : ∃ result, Solves registry (.pair u v s) result ∧ P result)
    (hright : ∃ result, Solves registry (.pair v u s) result ∧ P result) :
    EitherWay registry s P u v :=
  ⟨u, v, walk_of_isVariable_eq_false hu, walk_of_isVariable_eq_false hv, hleft, hright⟩

/-- A variable at the end of one chain is bound to the end of the other. If that is a variable too,
the order decides which of them is bound. -/
theorem of_isVariable {a b : Term} (ha : s.walk registry u = some a)
    (hb : s.walk registry v = some b) (hvar : registry.isVariable a = true) (hne : b ≠ a)
    (hleft : P (.ok (s.bind a b)))
    (hright : registry.isVariable b = true → P (.ok (s.bind b a))) :
    EitherWay registry s P u v := by
  have hsolves := Solves.unbound hvar (resolved_of_walk ha hvar) (walk_of_walk hb)
  rw [if_neg (Ne.symm hne)] at hsolves
  refine ⟨a, b, ha, hb, ⟨_, hsolves, hleft⟩, ?_⟩
  cases hvarb : registry.isVariable b with
  | false => exact ⟨_, .swapped hvarb hvar hsolves, hleft⟩
  | true =>
    have hback := Solves.unbound hvarb (resolved_of_walk hb hvarb) (walk_of_walk ha)
    rw [if_neg hne] at hback
    exact ⟨_, hback, hright hvarb⟩

theorem symm (h : EitherWay registry s P u v) : EitherWay registry s P v u := by
  obtain ⟨u', v', hu, hv, hleft, hright⟩ := h
  exact ⟨v', u', hv, hu, hright, hleft⟩

/-- Only the ends of the two chains matter. -/
theorem congr {a b : Term} (h : EitherWay registry s P u v)
    (hu : s.walk registry a = s.walk registry u) (hv : s.walk registry b = s.walk registry v) :
    EitherWay registry s P a b := by
  obtain ⟨u', v', hu', hv', h⟩ := h
  exact ⟨u', v', hu.trans hu', hv.trans hv', h⟩

/-- The rules come to the same from the terms themselves. Which of the two orders their ends meet in
depends on which terms are variables. -/
theorem exists_solves (h : EitherWay registry s P u v) :
    ∃ result, Solves registry (.pair u v s) result ∧ P result := by
  obtain ⟨u', v', hu', hv', ⟨result, hsolves, hP⟩, hright⟩ := h
  cases hu : registry.isVariable u with
  | true =>
    by_cases hne : u' = u
    · subst hne
      exact ⟨result, solves_of_walk_right hu (resolved_of_walk hu' hu) hv' hsolves, hP⟩
    · exact ⟨result, .bound hu hu' hne hv' hsolves, hP⟩
  | false =>
    rw [walk_of_isVariable_eq_false hu, Option.some.injEq] at hu'
    subst hu'
    cases hv : registry.isVariable v with
    | true =>
      obtain ⟨result, hsolves, hP⟩ := hright
      by_cases hne : v' = v
      · subst hne
        exact ⟨result, .swapped hu hv hsolves, hP⟩
      · have hself := walk_of_isVariable_eq_false (s := s) hu
        exact ⟨result, .swapped hu hv (.bound hv hv' hne hself hsolves), hP⟩
    | false =>
      rw [walk_of_isVariable_eq_false hv, Option.some.injEq] at hv'
      subst hv'
      exact ⟨result, hsolves, hP⟩

/-- The rules come to the same from pairs that are turned round. -/
theorem exists_solves_of_turned {pair : Term × Term} (h : EitherWay registry s P u v)
    (hpair : pair = (u, v) ∨ pair = (v, u)) :
    ∃ result, Solves registry (.pair pair.1 pair.2 s) result ∧ P result := by
  obtain rfl | rfl := hpair
  · exact h.exists_solves
  · exact h.symm.exists_solves

end EitherWay

end Unification

end LogicTerms
