import LogicTerms.Proofs.Reification.Values
import LogicTerms.Proofs.Unification.Runs

/-!
# Unification is sound

Whatever unification returns makes the terms of each pair equal: reification cannot tell them apart
any more. The bindings of a task are all there in the end, so that the end is where the terms of
every task on the way are compared.
-/

namespace LogicTerms

open Substitution

namespace Unification

variable {registry : Registry} {s t : Substitution} {u v : Term}

/-! ## Compounds -/

/-- Elements of both sets have the same image, and each of the others has the image of its
partner. -/
theorem setOf_map_eq_of_zipped {left right : List Term} {pairs : List (Term × Term)}
    {f : Term → Term}
    (h : zipped (Elements.difference left right) (Elements.difference right left) = .ok pairs)
    (hpairs : ∀ pair ∈ pairs, f pair.1 = f pair.2) :
    Term.setOf (left.map f) = Term.setOf (right.map f) := by
  have hrest := map_eq_of_zipped h hpairs
  have sub {xs ys : List Term}
      (hrest : (Elements.difference xs ys).map f = (Elements.difference ys xs).map f) {a : Term}
      (ha : a ∈ xs.map f) : a ∈ ys.map f := by
    obtain ⟨x, hx, rfl⟩ := List.mem_map.1 ha
    by_cases hy : x ∈ ys
    · exact List.mem_map_of_mem hy
    · have hmem : f x ∈ (Elements.difference xs ys).map f :=
        List.mem_map_of_mem (Elements.mem_difference.2 ⟨hx, hy⟩)
      rw [hrest] at hmem
      obtain ⟨y, hy, heq⟩ := List.mem_map.1 hmem
      exact List.mem_map.2 ⟨y, (Elements.mem_difference.1 hy).1, heq⟩
  unfold Term.setOf
  rw [Elements.ofList_congr fun a => ⟨sub hrest, sub hrest.symm⟩]

/-- Two compounds are equal if the pairs that they leave are. -/
theorem image_eq_of_confront (ht : t.Acyclic registry) (hu : registry.isVariable u = false)
    (hv : registry.isVariable v = false) (hcu : u.Canonical) (hcv : v.Canonical)
    {pairs : List (Term × Term)} (h : confront u v = .ok pairs)
    (hpairs : ∀ pair ∈ pairs, ht.image pair.1 = ht.image pair.2) :
    ht.image u = ht.image v := by
  cases u <;> cases v <;> simp only [confront, reduceCtorEq] at h
  case atom.atom =>
    split at h
    next heq => rw [heq]
    next => cases h
  case tuple.tuple => rw [ht.image_tuple hu, ht.image_tuple hv, map_eq_of_zipped h hpairs]
  case list.list => rw [ht.image_list hu, ht.image_list hv, map_eq_of_zipped h hpairs]
  case set.set => rw [ht.image_set hu, ht.image_set hv, setOf_map_eq_of_zipped h hpairs]
  case map.map left right =>
    split at h
    next hlength =>
      have hright := hcv.increasing_keys
      have hkeys := keys_eq_of_valuePairs h hlength hcu.increasing_keys hright
      have hvalues (key value other : Term) (hl : (key, value) ∈ left) (hr : (key, other) ∈ right) :
          ht.image value = ht.image other := by
        obtain ⟨partner, hlookup, hpair⟩ := exists_of_valuePairs h hl
        rw [Entries.lookup_of_mem hright.nodup hr] at hlookup
        cases hlookup
        exact hpairs _ hpair
      rw [ht.image_map hu, ht.image_map hv, Entries.map_eq_of_keys_eq hkeys hvalues]
    next => cases h
  case slice.slice =>
    cases h
    simp only [List.forall_mem_cons] at hpairs
    rw [ht.image_slice hu, ht.image_slice hv, hpairs.1, hpairs.2.1, hpairs.2.2.1]

/-! ## The rules -/

def Task.Agrees (image : Term → Term) : Task → Prop
  | .pair u v _ => image u = image v
  | .pairs list _ => ∀ pair ∈ list, image pair.1 = image pair.2

/-- Under all bindings that there are in the end, each task on the way is solved. -/
theorem Solves.agrees {task : Task} {result : Substitution}
    (h : Solves registry task (.ok result)) (hall : task.All Term.Canonical)
    (ht : t.Acyclic registry) (hext : t.Extends result) : task.Agrees ht.image := by
  generalize hresult : (.ok result : Result) = r at h
  induction h generalizing result with
  | @unbound u v v' s hu hfree hv =>
    cases hresult
    split at hext
    next heq => exact (ht.image_of_walk hext (heq ▸ hv)).symm
    next =>
      have hs : t.Extends s := hext.trans (extends_bind hfree v')
      have hu' : t.lookup u = some v' := hext u v' (by simp)
      exact (ht.image_of_lookup hu hu').trans (ht.image_of_walk hs hv).symm
  | @bound u v u' v' s _ hu hu' _ hv h ih =>
    subst hresult
    have hs : t.Extends s := hext.trans h.extends
    have heq : ht.image u' = ht.image v' := ih (hall.of_walk hu' hv) hext rfl
    exact (ht.image_of_walk hs hu').trans (heq.trans (ht.image_of_walk hs hv).symm)
  | swapped _ _ _ ih => exact (ih hall.symm hext hresult).symm
  | together hu hv hpairs _ ih =>
    exact image_eq_of_confront ht hu hv hall.1 hall.2.1 hpairs
      (ih (hall.of_confront Term.canonical_parts hpairs) hext hresult)
  | nil => exact fun pair hpair => by simp at hpair
  | apart | clash => cases hresult
  | @cons u v pairs s s' _ h hrest ih ihrest =>
    subst hresult
    have hfirst : ht.image u = ht.image v := ih hall.first (hext.trans hrest.extends) rfl
    have hothers := ihrest (hall.rest Term.canonical_parts h) hext rfl
    exact List.forall_mem_cons.2 ⟨hfirst, hothers⟩

end Unification

/-! ## Runs -/

namespace Unifier

variable {φ ψ : Type} [Unification.Extension φ] [Reification.Extension ψ] {registry : Registry}
  {s : Substitution}

/-- Unification is sound: if it returns an acyclic substitution, reification returns the same for
the terms of each pair. That the substitution at the start is acyclic follows from that. -/
theorem reifiesAlike_of_unify (hs : s.AllValues Term.Canonical) :
    (∀ pairs limit t, (∀ pair ∈ pairs, pair.1.Canonical ∧ pair.2.Canonical) →
      ((standard : Unifier φ ψ).unifyAll registry limit pairs s).result = .ok (.ok t) →
      t.Acyclic registry →
      ∀ pair ∈ pairs, (standard : Unifier φ ψ).ReifiesAlike registry pair.1 pair.2 t) ∧
    (∀ u v limit t, u.Canonical → v.Canonical →
      ((standard : Unifier φ ψ).unify registry limit u v s).result = .ok (.ok t) →
      t.Acyclic registry → (standard : Unifier φ ψ).ReifiesAlike registry u v t) ∧
    ∀ u t, ((standard : Unifier φ ψ).unifySelf u s).result = .ok (.ok t) →
      t.Acyclic registry → (standard : Unifier φ ψ).ReifiesAlike registry u u t := by
  refine ⟨?_, ?_, ?_⟩
  · intro pairs limit t hpairs hrun ht pair hpair
    have hagrees := (solves_of_unifyAll hrun).agrees ⟨hpairs, hs⟩ ht (.refl t)
    exact (reifiesAlike_iff ht).2 (hagrees pair hpair)
  · intro u v limit t hu hv hrun ht
    have hagrees := (solves_of_unify hrun).agrees ⟨hu, hv, hs⟩ ht (.refl t)
    exact (reifiesAlike_iff ht).2 hagrees
  · intro u t _ ht
    exact (reifiesAlike_iff ht).2 rfl

/-- A variable that is bound already, two sets with a common element, and two maps. -/
theorem reifiesAlike_of_unify_example :
    (standard : Unifier Empty Empty).ReifiesAlike .empty
      (.list [.var (.fresh 0), .set [.atom (.int 1), .var (.fresh 1)]])
      (.list [.var (.fresh 2), .set [.atom (.int 1), .atom (.int 2)]])
      (((Substitution.empty.bind (.var (.fresh 2)) (.atom (.int 0))).bind
        (.var (.fresh 0)) (.atom (.int 0))).bind (.var (.fresh 1)) (.atom (.int 2))) ∧
    (standard : Unifier Empty Empty).ReifiesAlike .empty
      (.map [(.atom .none, .var (.fresh 1))]) (.map [(.atom .none, .atom (.int 2))])
      (((Substitution.empty.bind (.var (.fresh 2)) (.atom (.int 0))).bind
        (.var (.fresh 0)) (.atom (.int 0))).bind (.var (.fresh 1)) (.atom (.int 2))) := by
  have hzero : (Term.atom (.int 0)).Canonical := by decide
  have hvalues := (allValues_empty Term.Canonical).bind hzero (.var (.fresh 2))
  have hacyclic : (((Substitution.empty.bind (.var (.fresh 2)) (.atom (.int 0))).bind
      (.var (.fresh 0)) (.atom (.int 0))).bind (.var (.fresh 1)) (.atom (.int 2))).Acyclic
        .empty := by
    refine ((acyclic_empty _).bind_of_subterms ?_).bind_of_subterms ?_ |>.bind_of_subterms ?_
    all_goals decide +kernel
  have hboth := (reifiesAlike_of_unify (φ := Empty) (ψ := Empty) hvalues).1
    [(.list [.var (.fresh 0), .set [.atom (.int 1), .var (.fresh 1)]],
      .list [.var (.fresh 2), .set [.atom (.int 1), .atom (.int 2)]]),
    (.map [(.atom .none, .var (.fresh 1))], .map [(.atom .none, .atom (.int 2))])]
    20 _ (by decide +kernel) (by decide +kernel) hacyclic
  exact ⟨hboth _ (.head _), hboth _ (.tail _ (.head _))⟩

end Unifier

end LogicTerms
