import LogicTerms.Proofs.Unification.Runs
import LogicTerms.Proofs.Unification.Sides

/-!
# Solved problems stay solved

Once a problem is solved, its terms unify again under every acyclic extension of the solution, and
nothing is bound for that. Under further bindings more variables give way to their values, so that
terms meet that never met before; but then they are ends of one chain, and a term unifies with
itself.
-/

namespace LogicTerms

open Relation Substitution

namespace Unification

variable {registry : Registry} {s t : Substitution} {u v : Term} {pairs : List (Term × Term)}

/-! ## Without a binding -/

/-- Pairs that unify without a binding do so one after the other. -/
theorem solves_pairs (h : ∀ pair ∈ pairs, Solves registry (.pair pair.1 pair.2 t) (.ok t)) :
    Solves registry (.pairs pairs t) (.ok t) := by
  induction pairs with
  | nil => exact .nil
  | cons pair pairs ih =>
    obtain ⟨hpair, hpairs⟩ := List.forall_mem_cons.1 h
    exact .cons hpair (ih hpairs)

/-- A term unifies with itself. -/
theorem solves_self (ht : t.Acyclic registry) (hvalues : t.AllValues Term.Canonical)
    (hu : u.Canonical) : Solves registry (.pair u u t) (.ok t) := by
  induction u using ht.wellFounded.transGen.induction with
  | _ u ih =>
    cases hvar : registry.isVariable u with
    | true =>
      obtain ⟨u', hwalk⟩ := ht.exists_walk u
      by_cases hne : u' = u
      · subst hne
        have hself := Solves.unbound hvar (resolved_of_walk hwalk hvar) hwalk
        rwa [if_pos rfl] at hself
      · have hway := transGen_swap.1 (transGen_of_walk hwalk hne)
        exact .bound hvar hwalk hne hwalk (ih u' hway (hvalues.walk hwalk hu))
    | false =>
      obtain ⟨pairs, hpairs, hsame⟩ := confront_self hu hvar
      refine .together hvar hvar hpairs (solves_pairs fun pair hpair => ?_)
      have hpart := (mem_parts_of_confront hpairs hpair).1
      rw [← hsame pair hpair]
      exact ih pair.1 (.single (leads_of_mem_parts hvar hpart)) (hu.of_mem_parts hpart)

/-- The terms of each pair unify under a substitution without a binding, in either order. -/
def Task.Settled (registry : Registry) (t : Substitution) : Task → Prop
  | .pair u v _ => EitherWay registry t (· = .ok t) u v
  | .pairs list _ => ∀ pair ∈ list, EitherWay registry t (· = .ok t) pair.1 pair.2

theorem solves_of_settled (h : Task.Settled registry t (.pair u v s)) :
    Solves registry (.pair u v t) (.ok t) := by
  obtain ⟨result, hsolves, rfl⟩ := EitherWay.exists_solves h
  exact hsolves

theorem solves_pairs_of_settled (h : Task.Settled registry t (.pairs pairs s)) :
    Solves registry (.pairs pairs t) (.ok t) :=
  solves_pairs fun pair hpair => solves_of_settled (s := s) (h pair hpair)

theorem solves_pairs_swap_of_settled (h : Task.Settled registry t (.pairs pairs s)) :
    Solves registry (.pairs (pairs.map Prod.swap) t) (.ok t) := by
  refine solves_pairs fun pair hpair => ?_
  obtain ⟨pair, hmem, rfl⟩ := List.mem_map.1 hpair
  exact solves_of_settled (s := s) (h pair hmem).symm

/-! ## The rules -/

/-- Chains with one end settle their terms. -/
theorem settled_of_walk_eq (ht : t.Acyclic registry) (hvalues : t.AllValues Term.Canonical)
    (hu : u.Canonical) (h : t.walk registry u = t.walk registry v) :
    Task.Settled registry t (.pair u v s) := by
  obtain ⟨u', hwalk⟩ := ht.exists_walk u
  exact .of_walk_eq hwalk (h ▸ hwalk) (solves_self ht hvalues (hvalues.walk hwalk hu)) rfl

/-- Under an extension of the bindings that there are in the end, each task on the way is
settled. -/
theorem Solves.settled {task : Task} {result : Substitution} (h : Solves registry task (.ok result))
    (hall : task.All Term.Canonical) (ht : t.Acyclic registry)
    (hvalues : t.AllValues Term.Canonical) (hext : t.Extends result) :
    task.Settled registry t := by
  have hends {r : Substitution} {a b : Term} (hext : t.Extends r)
      (hwalk : r.walk registry a = some b) : t.walk registry a = t.walk registry b :=
    ht.walkable.walk_of_extends hext hwalk
  generalize hresult : (.ok result : Result) = r at h
  induction h generalizing result with
  | @unbound u v v' s hu hfree hv =>
    cases hresult
    refine settled_of_walk_eq ht hvalues hall.1 ?_
    split at hext
    next heq =>
      subst heq
      exact (hends hext hv).symm
    next =>
      -- The variable has the end of the other chain as its value now.
      have hs : t.Extends s := hext.trans (extends_bind hfree v')
      have hu' : t.lookup u = some v' := hext u v' (by simp)
      exact (ht.walkable.walk_of_lookup hu hu').trans (hends hs hv).symm
  | bound _ hu' _ hv h ih =>
    subst hresult
    have hs := hext.trans h.extends
    exact (ih (hall.of_walk hu' hv) hext rfl).congr (hends hs hu') (hends hs hv)
  | swapped _ _ _ ih => exact (ih hall.symm hext hresult).symm
  | @together u v s pairs _ hu hv hpairs _ ih =>
    have hsettled := ih (hall.of_confront Term.canonical_parts hpairs) hext hresult
    have hleft := Solves.together hu hv hpairs (solves_pairs_of_settled hsettled)
    have hright := Solves.together hv hu (confront_swap hall.1 hall.2.1 hpairs)
      (solves_pairs_swap_of_settled hsettled)
    exact .of_isVariable_eq_false hu hv ⟨_, hleft, rfl⟩ ⟨_, hright, rfl⟩
  | nil => exact fun pair hpair => by simp at hpair
  | apart | clash => cases hresult
  | @cons u v pairs s s' _ h hrest ih ihrest =>
    subst hresult
    have hfirst := ih hall.first (hext.trans hrest.extends) rfl
    have hothers := ihrest (hall.rest Term.canonical_parts h) hext rfl
    exact List.forall_mem_cons.2 ⟨hfirst, hothers⟩

end Unification

/-! ## Runs -/

namespace Unifier

variable {φ ψ : Type} [Unification.Extension φ] {registry : Registry} {t' : Substitution}

/-- What was unified once unifies again under every acyclic extension of the solution, and the
extension is returned as it is. That the substitutions before were acyclic follows from that. -/
theorem unify_of_extends (ht' : t'.Acyclic registry) (hvalues : t'.AllValues Term.Canonical) :
    (∀ u v s limit t, u.Canonical → v.Canonical →
      ((standard : Unifier φ ψ).unify registry limit u v s).result = .ok (.ok t) → t'.Extends t →
      Returns (fun limit => (standard : Unifier φ ψ).unify registry limit u v t') (.ok t')) ∧
    (∀ pairs s limit t, (∀ pair ∈ pairs, pair.1.Canonical ∧ pair.2.Canonical) →
      ((standard : Unifier φ ψ).unifyAll registry limit pairs s).result = .ok (.ok t) →
      t'.Extends t →
      Returns (fun limit => (standard : Unifier φ ψ).unifyAll registry limit pairs t') (.ok t')) ∧
    ∀ u, u.Canonical → ((standard : Unifier φ ψ).unifySelf u t').result = .ok (.ok t') ∧
      Returns (fun limit => (standard : Unifier φ ψ).unify registry limit u u t') (.ok t') := by
  have hbefore {s t : Substitution} (hts : t.Extends s) (hext : t'.Extends t) :
      s.AllValues Term.Canonical := fun x value h => hvalues x value (hext x value (hts x value h))
  refine ⟨?_, ?_, ?_⟩
  · intro u v s limit t hu hv hrun hext
    have hsolves := solves_of_unify hrun
    have hsettled := hsolves.settled ⟨hu, hv, hbefore hsolves.extends hext⟩ ht' hvalues hext
    exact returns_unify (Unification.solves_of_settled hsettled)
  · intro pairs s limit t hpairs hrun hext
    have hsolves := solves_of_unifyAll hrun
    have hsettled := hsolves.settled ⟨hpairs, hbefore hsolves.extends hext⟩ ht' hvalues hext
    exact returns_unifyAll (Unification.solves_pairs_of_settled hsettled)
  · intro u hu
    exact ⟨rfl, returns_unify (Unification.solves_self ht' hvalues hu)⟩

/-- Two sets with a common element and two maps with a variable as the key. Under the extension the
key and the value have changed, and the value is now compared with what it was bound to. -/
theorem unify_of_extends_example :
    Returns (fun limit => (standard : Unifier Empty Empty).unifyAll .empty limit
      [(.set [.atom (.int 1), .var (.fresh 0)], .set [.atom (.int 1), .atom (.int 2)]),
        (.map [(.var (.fresh 0), .var (.fresh 1))],
          .map [(.var (.fresh 0), .tuple [.var (.fresh 2)])])]
      (((Substitution.empty.bind (.var (.fresh 0)) (.atom (.int 2))).bind (.var (.fresh 1))
        (.tuple [.var (.fresh 2)])).bind (.var (.fresh 2)) (.list [])))
      (.ok (((Substitution.empty.bind (.var (.fresh 0)) (.atom (.int 2))).bind (.var (.fresh 1))
        (.tuple [.var (.fresh 2)])).bind (.var (.fresh 2)) (.list []))) := by
  have htwo : (Term.atom (.int 2)).Canonical := by decide
  have htuple : (Term.tuple [.var (.fresh 2)]).Canonical := by decide
  have hlist : (Term.list []).Canonical := by decide
  have hvalues := (((allValues_empty Term.Canonical).bind htwo (.var (.fresh 0))).bind htuple
    (.var (.fresh 1))).bind hlist (.var (.fresh 2))
  have hacyclic : (((Substitution.empty.bind (.var (.fresh 0)) (.atom (.int 2))).bind
      (.var (.fresh 1)) (.tuple [.var (.fresh 2)])).bind (.var (.fresh 2))
        (.list [])).Acyclic .empty := by
    refine ((acyclic_empty _).bind_of_subterms ?_).bind_of_subterms ?_ |>.bind_of_subterms ?_
    all_goals decide +kernel
  exact (unify_of_extends hacyclic hvalues).2.1 _ .empty 30 _ (by decide +kernel)
    (by decide +kernel) (extends_bind (by decide +kernel) _)

/-- For a term and a copy of it a run comes to what is returned without a run if the two are known
to be one: within a limit that is high enough it returns the substitution, which has the same
bindings and is still shared, and within no limit it comes to anything else. -/
theorem unify_copy {s : Substitution} {u v : Term} (hs : s.Acyclic registry)
    (hvalues : s.AllValues Term.Canonical) (hu : u.Canonical) (hcopy : u.compare v = .eq) :
    (∃ enough, ∀ limit ≥ enough, ((standard : Unifier φ ψ).unify registry limit u v s).result =
      ((standard : Unifier φ ψ).unifySelf u s).result) ∧
    (∀ limit, ((standard : Unifier φ ψ).unify registry limit u v s).result =
        ((standard : Unifier φ ψ).unifySelf u s).result ∨
      ((standard : Unifier φ ψ).unify registry limit u v s).result = .error .unfinished) ∧
    ∀ limit result, ((standard : Unifier φ ψ).unify registry limit u v s).result = .ok result →
      ∃ t, result = .ok t ∧ t.bindings = s.bindings ∧ t.SharesWith s := by
  obtain rfl : u = v := Term.compare_eq_iff.1 hcopy
  have hanswers := Unification.answers_of_solves (φ := φ)
    (Unification.solves_self hs hvalues hu)
  have hwithin (limit : Nat) :
      ((standard : Unifier φ ψ).unify registry limit u u s).result = .ok (.ok s) ∨
        ((standard : Unifier φ ψ).unify registry limit u u s).result = .error .unfinished :=
    Procedure.answered_of_yields hanswers limit
  refine ⟨Procedure.returns_of_yields hanswers, hwithin, ?_⟩
  intro limit result hrun
  obtain hdone | hbroken := hwithin limit
  · cases hdone.symm.trans hrun
    exact ⟨s, rfl, rfl, rfl⟩
  · cases hbroken.symm.trans hrun

/-- A map whose key is bound and whose value is a chain of variables that ends at a set. -/
theorem unify_copy_example :
    let s := ((Substitution.empty.bind (.var (.fresh 0)) (.var (.fresh 1))).bind (.var (.fresh 1))
      (.set [.atom (.int 1), .var (.fresh 2)])).bind (.var (.fresh 3)) (.atom (.int 7))
    let u : Term := .tuple [.map [(.var (.fresh 3), .var (.fresh 0))], .var (.fresh 2)]
    ∃ enough, ∀ limit ≥ enough, ((standard : Unifier Empty Empty).unify .empty limit u u s).result =
      ((standard : Unifier Empty Empty).unifySelf u s).result := by
  intro s u
  have hs : s.Acyclic .empty := by
    refine (((acyclic_empty .empty).bind_of_subterms ?_).bind_of_subterms ?_).bind_of_subterms ?_
    all_goals decide +kernel
  have hone : (Term.var (.fresh 1)).Canonical := by decide
  have hset : (Term.set [.atom (.int 1), .var (.fresh 2)]).Canonical := by decide +kernel
  have hseven : (Term.atom (.int 7)).Canonical := by decide
  have hvalues := (((allValues_empty Term.Canonical).bind hone (.var (.fresh 0))).bind hset
    (.var (.fresh 1))).bind hseven (.var (.fresh 3))
  exact (unify_copy hs hvalues (by decide +kernel) (by decide +kernel)).1

end Unifier

end LogicTerms
