import LogicTerms.Proofs.Unification.Generality
import LogicTerms.Proofs.Unification.Soundness

/-!
# Pairs in another order

Without sets and without variables in keys it makes no difference in which order pairs are unified.
Other variables may be bound, and in other directions, but each substitution is an instance of the
other. There is no occurs check: that another order comes to an end at all follows from the
acyclic solution that the first one found.
-/

namespace LogicTerms

open Substitution

namespace Unification

variable {registry : Registry} {s t w : Substitution} {pairs pairs' : List (Term × Term)}

/-- Pairs of plain terms are unified if some acyclic substitution makes the terms of each pair
equal and satisfies what is bound already. -/
theorem Admits.solvable_of_agrees {hw : w.Acyclic registry} (hs : Admits hw s)
    (hpairs : ∀ pair ∈ pairs, pair.1.Plain registry ∧ pair.2.Plain registry)
    (hagrees : Task.Agrees hw.image (.pairs pairs s)) : Solvable hw (.pairs pairs s) := by
  refine hs.solvable_pairs fun pair hpair s hs => ?_
  obtain ⟨hu, hv⟩ := hpairs pair hpair
  exact hs.solvable hu hv (hagrees pair hpair)

/-- An acyclic substitution that the rules come to satisfies the bindings that they started from. -/
theorem Solves.admits {task : Task} (h : Solves registry task (.ok t)) (ht : t.Acyclic registry)
    (hplain : task.under.AllValues (Term.Plain registry)) : Admits ht task.under where
  acyclic := ht.of_extends h.extends
  plain := hplain
  image_eq x value hx hvalue := ht.image_of_lookup hx (h.extends x value hvalue)

/-- In every other order the pairs are unified as well, and the first solution is an instance of
what is bound then. -/
theorem exists_solves_of_perm (hperm : pairs'.Perm pairs)
    (hplain : s.AllValues (Term.Plain registry))
    (hpairs : ∀ pair ∈ pairs, pair.1.Plain registry ∧ pair.2.Plain registry)
    (h : Solves registry (.pairs pairs s) (.ok t)) (ht : t.Acyclic registry) :
    ∃ t', Solves registry (.pairs pairs' s) (.ok t') ∧ Admits ht t' := by
  have hall : Task.All Term.Canonical (.pairs pairs s) := by
    refine ⟨fun pair hpair => ?_, fun x value hvalue => (hplain x value hvalue).canonical⟩
    obtain ⟨hu, hv⟩ := hpairs pair hpair
    exact ⟨hu.canonical, hv.canonical⟩
  have hagrees : Task.Agrees ht.image (.pairs pairs s) := h.agrees hall ht (.refl t)
  -- Neither condition on the pairs depends on their order.
  refine (h.admits ht hplain).solvable_of_agrees ?_ ?_
  · intro pair hpair
    exact hpairs pair (hperm.mem_iff.1 hpair)
  · intro pair hpair
    exact hagrees pair (hperm.mem_iff.1 hpair)

end Unification

/-! ## Runs -/

namespace Unifier

variable {φ ψ : Type} [Unification.Extension φ] [Reification.Extension ψ] {registry : Registry}
  {s t : Substitution} {pairs pairs' : List (Term × Term)} {limit : Nat}

/-- If pairs are unified in one order without a cycle, so they are in every order, and either
substitution is an instance of the other. That the substitution at the start is acyclic follows
from that. -/
theorem unifyAll_perm (hatoms : ∀ a ∈ registry.terms, ∃ value, a = .atom value)
    (hplain : s.AllValues (Term.Plain registry))
    (hpairs : ∀ pair ∈ pairs, pair.1.Plain registry ∧ pair.2.Plain registry)
    (hrun : ((standard : Unifier φ ψ).unifyAll registry limit pairs s).result = .ok (.ok t))
    (ht : t.Acyclic registry) (hperm : pairs'.Perm pairs) :
    ∃ t', Returns (fun limit => (standard : Unifier φ ψ).unifyAll registry limit pairs' s)
        (.ok t') ∧
      t'.Acyclic registry ∧ (standard : Unifier φ ψ).MoreGeneral registry t t' ∧
      (standard : Unifier φ ψ).MoreGeneral registry t' t := by
  have hsolves := solves_of_unifyAll hrun
  obtain ⟨t', hsolves', hadmits⟩ :=
    Unification.exists_solves_of_perm hperm hplain hpairs hsolves ht
  have ht' := hadmits.acyclic
  have hpairs' : ∀ pair ∈ pairs', pair.1.Plain registry ∧ pair.2.Plain registry :=
    fun pair hpair => hpairs pair (hperm.mem_iff.1 hpair)
  -- The way back leads to a substitution again, which can only be the first one.
  obtain ⟨t'', hback, hadmits'⟩ :=
    Unification.exists_solves_of_perm hperm.symm hplain hpairs' hsolves' ht'
  have hsame : Except.ok t'' = .ok t :=
    Returns.unique (returns_unifyAll (φ := φ) (ψ := ψ) hback) (returns_unifyAll hsolves)
  cases hsame
  exact ⟨t', returns_unifyAll hsolves', ht', moreGeneral_of_admits hadmits' hatoms,
    moreGeneral_of_admits hadmits hatoms⟩

/-- In the first order a variable is bound to another one, and in the second order both are bound
to tuples, which meet at last. A registered atom gets a value in either. -/
theorem unifyAll_perm_example :
    let registry := Registry.empty.insert (.atom (.int 7))
    let s := Substitution.empty.bind (.var (.fresh 2)) (.list [.var (.fresh 0)])
    let t := ((s.bind (.var (.fresh 0)) (.var (.fresh 1))).bind (.var (.fresh 1))
      (.tuple [.atom (.int 7)])).bind (.atom (.int 7)) (.atom (.int 1))
    let t' := ((s.bind (.var (.fresh 0)) (.tuple [.atom (.int 1)])).bind (.var (.fresh 1))
      (.tuple [.atom (.int 7)])).bind (.atom (.int 7)) (.atom (.int 1))
    t'.Acyclic registry ∧ (standard : Unifier Empty Empty).MoreGeneral registry t t' ∧
      (standard : Unifier Empty Empty).MoreGeneral registry t' t := by
  intro registry s t t'
  have hregistered : registry.terms = [.atom (.int 7)] := by decide +kernel
  have hvalue : (Term.list [.var (.fresh 0)]).Plain registry :=
    ⟨by decide +kernel, by decide +kernel, by decide +kernel⟩
  have hpairs : ∀ pair ∈ [(Term.var (.fresh 0), Term.var (.fresh 1)),
      (.var (.fresh 1), .tuple [.atom (.int 7)]), (.var (.fresh 0), .tuple [.atom (.int 1)])],
      pair.1.Plain registry ∧ pair.2.Plain registry := by
    simp only [List.forall_mem_cons]
    refine ⟨⟨?_, ?_⟩, ⟨?_, ?_⟩, ⟨?_, ?_⟩, by simp⟩
    all_goals exact ⟨by decide +kernel, by decide +kernel, by decide +kernel⟩
  have ht : t.Acyclic registry := by
    refine ((((acyclic_empty registry).bind_of_subterms ?_).bind_of_subterms ?_).bind_of_subterms
      ?_).bind_of_subterms ?_
    all_goals decide +kernel
  have hvalues := (allValues_empty _).bind hvalue (.var (.fresh 2))
  have hrun : ((standard : Unifier Empty Empty).unifyAll registry 30
      [(.var (.fresh 0), .var (.fresh 1)), (.var (.fresh 1), .tuple [.atom (.int 7)]),
        (.var (.fresh 0), .tuple [.atom (.int 1)])] s).result = .ok (.ok t) := by
    decide +kernel
  have hback : ((standard : Unifier Empty Empty).unifyAll registry 30
      [(.var (.fresh 0), .tuple [.atom (.int 1)]), (.var (.fresh 1), .tuple [.atom (.int 7)]),
        (.var (.fresh 0), .var (.fresh 1))] s).result = .ok (.ok t') := by
    decide +kernel
  obtain ⟨r, hreturns, hgeneral⟩ :=
    unifyAll_perm (by simp [hregistered]) hvalues hpairs hrun ht (List.reverse_perm _)
  cases hreturns.unique (Procedure.returns_of_answered hback)
  exact hgeneral

end Unifier

end LogicTerms
