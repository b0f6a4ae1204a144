import LogicTerms.Proofs.Reification.FreeVariables
import LogicTerms.Proofs.Substitution.Agreement
import LogicTerms.Proofs.Unification.Confinement
import LogicTerms.Proofs.Unification.Correspondence

/-!
# Which bindings matter

Unification looks nothing up but variables that its two terms lead to. Two substitutions with the
same bindings of these stay in agreement while both of them grow, so that they get the same further
bindings.
-/

namespace LogicTerms

open Substitution Unification

namespace Substitution

variable {registry : Registry} {s s' t t' : Substitution} {P : Term → Prop}

/-- `t` and `t'` keep all bindings of `s` and of `s'`, and the further ones are the same. -/
structure AddsAlike (s s' t t' : Substitution) : Prop where
  left : t.Extends s
  right : t'.Extends s'
  added (x value : Term) : s.lookup x = none ∧ t.lookup x = some value ↔
    s'.lookup x = none ∧ t'.lookup x = some value

namespace AgreeOn

/-- Runs over terms of a set on which two substitutions agree go the same way. -/
theorem correspondence (h : AgreeOn registry P s s') :
    Correspondence registry registry (fun a a' => P a ∧ a' = a) (AgreeOn registry P) where
  isVariable_eq := by
    rintro _ a ⟨-, rfl⟩
    rfl
  eq_iff := by
    rintro _ a _ b ⟨-, rfl⟩ ⟨-, rfl⟩
    rfl
  parts := by
    rintro _ a ⟨ha, rfl⟩ hvar
    exact List.forall₂_same.2 fun p hp => ⟨h.closed _ _ (leads_of_mem_parts hvar hp) ha, rfl⟩
  confront := by
    rintro _ u _ v ⟨hu, rfl⟩ ⟨hv, rfl⟩ hvaru hvarv
    cases hpairs : confront u v with
    | error clash => exact .error clash
    | ok pairs =>
      refine .ok (List.forall₂_same.2 fun pair hpair => ?_)
      obtain ⟨hpu, hpv⟩ := mem_parts_of_confront hpairs hpair
      exact ⟨⟨h.closed _ _ (leads_of_mem_parts hvaru hpu) hu, rfl⟩,
        h.closed _ _ (leads_of_mem_parts hvarv hpv) hv, rfl⟩
  lookup_eq_none_iff := by
    rintro s s' _ a hs ⟨ha, rfl⟩ hvar
    rw [hs.lookup_eq a hvar ha]
  lookup := by
    rintro s s' _ a value value' hs ⟨ha, rfl⟩ hvar hvalue hvalue'
    rw [hs.lookup_eq a hvar ha, hvalue, Option.some.injEq] at hvalue'
    exact ⟨hs.closed a value (leads_of_lookup hvar hvalue) ha, hvalue'.symm⟩
  bind := by
    rintro s s' _ x _ value hs ⟨-, rfl⟩ ⟨hvalue, rfl⟩
    exact hs.bind hvalue x

/-- Substitutions that still agree have got the same further bindings. -/
theorem addsAlike (h : AgreeOn registry P s s') (ht : AgreeOn registry P t t')
    (hleft : Grows registry P s t) (hright : Grows registry P s' t') : AddsAlike s s' t t' where
  left := hleft.keeps
  right := hright.keeps
  added x value := by
    constructor
    · rintro ⟨hfree, hvalue⟩
      obtain ⟨hvar, hx, -⟩ := hleft.added x value hvalue hfree
      rw [h.lookup_eq x hvar hx, ht.lookup_eq x hvar hx]
      exact ⟨hfree, hvalue⟩
    · rintro ⟨hfree, hvalue⟩
      obtain ⟨hvar, hx, -⟩ := hright.added x value hvalue hfree
      rw [← h.lookup_eq x hvar hx, ← ht.lookup_eq x hvar hx]
      exact ⟨hfree, hvalue⟩

end AgreeOn

theorem addsAlike_refl (s s' : Substitution) : AddsAlike s s' s s' where
  left := .refl s
  right := .refl s'
  added x value := by
    constructor
    all_goals
      rintro ⟨hfree, hvalue⟩
      simp [hfree] at hvalue

end Substitution

/-- From substitutions that agree, the rules come to the same clash or add the same bindings. -/
theorem Unification.Solves.exists_addsAlike {registry : Registry} {P : Term → Prop}
    {s s' : Substitution} {u v : Term} {result : Result}
    (h : Solves registry (.pair u v s) result) (hagree : AgreeOn registry P s s') (hu : P u)
    (hv : P v) :
    ∃ result', Solves registry (.pair u v s') result' ∧
      Parallel (AddsAlike s s') result result' := by
  obtain ⟨result', hsolves, hparallel⟩ :=
    hagree.correspondence.solves h (.pair ⟨hu, rfl⟩ ⟨hv, rfl⟩ hagree)
  refine ⟨result', hsolves, ?_⟩
  cases hparallel with
  | error clash => exact .error clash
  | ok ht =>
    have hleft := h.grows hagree.closed (.refl s) ⟨hu, hv⟩
    have hright := hsolves.grows hagree.symm.closed (.refl s') ⟨hu, hv⟩
    exact .ok (hagree.addsAlike ht hleft hright)

/-! ## Runs -/

namespace Unifier

variable {φ ψ : Type} [Unification.Extension φ] [Reification.Extension ψ] {registry : Registry}
  {s s' : Substitution} {u v : Term}

/-- Only the bindings of the variables that two terms need have an influence: on what reification,
the groundness check and the collection of free variables return for one of them, and on the clash
or on the bindings that unification of both adds. -/
theorem needed_bindings_suffice (hs : s.Acyclic registry) (hs' : s'.Acyclic registry)
    (h : ∀ x, s.Needs registry u x ∨ s.Needs registry v x → s'.lookup x = s.lookup x) :
    (∃ value, (standard : Unifier φ ψ).Reifies registry u s value ∧
      (standard : Unifier φ ψ).Reifies registry u s' value) ∧
    (∃ ground, Returns (fun limit => (standard : Unifier φ ψ).isGround registry limit u s) ground ∧
      Returns (fun limit => (standard : Unifier φ ψ).isGround registry limit u s') ground) ∧
    (∃ found,
      Returns (fun limit => (standard : Unifier φ ψ).freeVariables registry limit u s) found ∧
      Returns (fun limit => (standard : Unifier φ ψ).freeVariables registry limit u s') found) ∧
    (∀ limit result,
      ((standard : Unifier φ ψ).unify registry limit u v s).result = .ok result →
      ∃ result',
        Returns (fun limit => (standard : Unifier φ ψ).unify registry limit u v s') result' ∧
        Parallel (AddsAlike s s') result result') ∧
    ∀ result, ((standard : Unifier φ ψ).unifySelf u s).result = .ok result →
      ∃ result', ((standard : Unifier φ ψ).unifySelf u s').result = .ok result' ∧
        Parallel (AddsAlike s s') result result' := by
  have hagree := agreeOn_of_needs h
  refine ⟨?_, ?_, ?_, ?_, ?_⟩
  · refine ⟨hs.image u, reifies_image hs u, ?_⟩
    rw [← hagree.image_eq hs hs' (.inl .refl)]
    exact reifies_image hs' u
  · obtain ⟨ground, hground, hiff⟩ := returns_isGround (φ := φ) (ψ := ψ) hs u
    obtain ⟨ground', hground', hiff'⟩ := returns_isGround (φ := φ) (ψ := ψ) hs' u
    obtain rfl : ground' = ground := by
      rw [Bool.eq_iff_iff, hiff, hiff']
      exact forall_congr' fun x => not_congr (hagree.reaches_iff (.inl .refl))
    exact ⟨ground', hground, hground'⟩
  · obtain ⟨found, hfound, hincreasing, hmem⟩ := returns_freeVariables (φ := φ) (ψ := ψ) hs u
    obtain ⟨found', hfound', hincreasing', hmem'⟩ := returns_freeVariables (φ := φ) (ψ := ψ) hs' u
    obtain rfl : found' = found := by
      refine hincreasing'.ext hincreasing fun x => ?_
      rw [hmem, hmem', hagree.reaches_iff (.inl .refl)]
    exact ⟨found', hfound, hfound'⟩
  · intro limit result hrun
    obtain ⟨result', hsolves, halike⟩ :=
      (solves_of_unify hrun).exists_addsAlike hagree (.inl .refl) (.inr .refl)
    exact ⟨result', returns_unify hsolves, halike⟩
  · rintro result ⟨⟩
    exact ⟨_, rfl, .ok (addsAlike_refl s s')⟩

/-- One substitution binds a variable that is not needed, and the other one a key that is part of
both terms but no variable. -/
theorem needed_bindings_suffice_example :
    let registry := Registry.empty.insert (.atom (.int 7))
    let shared := Substitution.empty.bind (.var (.fresh 1)) (.list [.var (.fresh 2)])
    let s := shared.bind (.var (.fresh 9)) (.var (.fresh 2))
    let s' := shared.bind (.atom (.int 8)) (.var (.fresh 3))
    let u : Term := .tuple [.var (.fresh 1), .atom (.int 7), .atom (.int 8)]
    let v : Term := .tuple [.list [.var (.fresh 3)], .var (.fresh 0), .atom (.int 8)]
    let t := (s.bind (.var (.fresh 2)) (.var (.fresh 3))).bind (.atom (.int 7)) (.var (.fresh 0))
    ∃ result',
      Returns (fun limit => (standard : Unifier Empty Empty).unify registry limit u v s') result' ∧
      Parallel (AddsAlike s s') (.ok t) result' := by
  intro registry shared s s' u v t
  have hshared : shared.Acyclic registry :=
    (acyclic_empty registry).bind_of_subterms (by decide +kernel)
  have hs : s.Acyclic registry := hshared.bind_of_subterms (by decide +kernel)
  have hs' : s'.Acyclic registry := hshared.bind_of_subterms (by decide +kernel)
  let all := u.subterms ++ v.subterms ++ (Term.list [.var (.fresh 2)]).subterms
  have hvalues : ∀ a ∈ all, ∀ b ∈ s.lookup a, b ∈ all := by decide +kernel
  have hparts : ∀ a ∈ all, ∀ b ∈ a.parts, b ∈ all := by decide +kernel
  have hsame : ∀ x ∈ all, registry.isVariable x = true → s'.lookup x = s.lookup x := by
    decide +kernel
  have hagree : AgreeOn registry (· ∈ all) s s' := by
    refine ⟨fun x hx hmem => hsame x hmem hx, fun a b hstep ha => ?_⟩
    obtain ⟨-, hvalue⟩ | ⟨-, hpart⟩ := hstep.cases
    · exact hvalues a ha b hvalue
    · exact hparts a ha b hpart
  have hneeds (x : Term) (h : s.Needs registry u x ∨ s.Needs registry v x) :
      s'.lookup x = s.lookup x := by
    obtain hu | hv := h
    · exact hagree.lookup_eq_of_needs (by decide +kernel) hu
    · exact hagree.lookup_eq_of_needs (by decide +kernel) hv
  exact (needed_bindings_suffice (φ := Empty) (ψ := Empty) hs hs' hneeds).2.2.2.1 20 _
    (by decide +kernel)

end Unifier

end LogicTerms
