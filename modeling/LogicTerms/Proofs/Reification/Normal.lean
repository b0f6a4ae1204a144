import LogicTerms.Proofs.Reification.Remaining

/-!
# Reification comes to a normal form

What reification returns contains no bound variable, and a term without bound variables is what
reification returns for it. So a second reification changes nothing, although sets may have shrunk
and entries of maps may have been lost in the first one. No compound may count as a variable for
that: the compound that is built of reified parts could be a bound one.
-/

namespace LogicTerms

open Substitution

namespace Substitution.Acyclic

variable {registry : Registry} {s : Substitution} {a x : Term}

/-- Whatever becomes equal on the way, sets and maps are in order again in the image. -/
theorem canonical_image (hs : s.Acyclic registry) (hvalues : s.AllValues Term.Canonical)
    (ha : a.Canonical) : (hs.image a).Canonical :=
  hs.image_preserves Term.canonical_parts
    (fun _ form _ _ _ _ hparts => form.canonical_build hparts) hvalues ha

/-- The variables inside an image are not bound. -/
theorem resolved_of_mem_image (hs : s.Acyclic registry) (hflat : registry.Flat)
    (hx : x ∈ (hs.image a).subterms) : s.Resolved registry x := by
  intro hvar
  exact ((hs.mem_subterms_image_iff_of_flat hflat a).1 ⟨hvar, hx⟩).lookup_eq_none

end Substitution.Acyclic

namespace Unifier

variable {φ ψ : Type} [Reification.Extension ψ] {registry : Registry} {s : Substitution} {t : Term}

/-- Reification returns a term in which no bound variable occurs, and it returns the term itself if
none occurs in it. Hence reification returns the same for what it has returned. -/
theorem reify_normal (hregistry : ∀ a ∈ registry.terms, a.isCompound = false)
    (hs : s.Acyclic registry) (hvalues : s.AllValues Term.Canonical) (ht : t.Canonical) :
    ∃ value, (standard : Unifier φ ψ).Reifies registry t s value ∧
      (∀ x ∈ value.subterms, registry.isVariable x = true → s.lookup x = none) ∧
      ((∀ x ∈ t.subterms, registry.isVariable x = true → s.lookup x = none) → value = t) ∧
      (standard : Unifier φ ψ).Reifies registry value s value := by
  have hnormal (x : Term) (hx : x ∈ (hs.image t).subterms) : s.Resolved registry x :=
    hs.resolved_of_mem_image (Registry.flat_of_terms hregistry) hx
  refine ⟨hs.image t, reifies_image hs t, hnormal, hs.image_eq_self ht, ?_⟩
  rw [reifies_iff hs, hs.image_eq_self (hs.canonical_image hvalues ht) hnormal]

/-- An atom acts as a variable, a set shrinks to one element, and of three keys that become equal
one is left. -/
theorem reify_normal_example :
    let registry := Registry.empty.insert (.atom (.int 7))
    let s := ((Substitution.empty.bind (.atom (.int 7)) (.var (.fresh 0))).bind
      (.var (.fresh 0)) (.var (.fresh 1))).bind (.var (.fresh 1)) (.tuple [.var (.fresh 2)])
    let t : Term := .tuple [.set [.atom (.int 7), .var (.fresh 0), .tuple [.var (.fresh 2)]],
      .map [(.atom (.int 7), .atom (.int 1)), (.var (.fresh 1), .var (.fresh 0)),
        (.tuple [.var (.fresh 2)], .atom (.int 7))]]
    let value : Term := .tuple [.set [.tuple [.var (.fresh 2)]],
      .map [(.tuple [.var (.fresh 2)], .tuple [.var (.fresh 2)])]]
    (standard : Unifier Empty Empty).Reifies registry t s value ∧
      (standard : Unifier Empty Empty).Reifies registry value s value := by
  intro registry s t value
  have hs : s.Acyclic registry := by
    refine (((acyclic_empty registry).bind_of_subterms ?_).bind_of_subterms ?_).bind_of_subterms ?_
    all_goals decide +kernel
  have hvalues : s.AllValues Term.Canonical :=
    (((allValues_empty _).bind (by decide +kernel) _).bind (by decide +kernel) _).bind
      (by decide +kernel) _
  have hvalue : (standard : Unifier Empty Empty).Reifies registry t s value :=
    reifies_of_result 80 (by decide +kernel)
  obtain ⟨value', hvalue', -, -, hagain⟩ := reify_normal (φ := Empty) (ψ := Empty)
    (by decide +kernel) hs hvalues (show t.Canonical by decide +kernel)
  obtain rfl : value' = value := Returns.unique hvalue' hvalue
  exact ⟨hvalue, hagain⟩

/-- A registered compound that is built of reified parts may be bound. -/
example :
    let registry := Registry.empty.insert (.tuple [.atom (.int 1)])
    let s := (Substitution.empty.bind (.var (.fresh 0)) (.atom (.int 1))).bind
      (.tuple [.atom (.int 1)]) (.atom (.int 2))
    let reify (t : Term) := ((standard : Unifier Empty Empty).reify registry 20 t s).result
    reify (.tuple [.var (.fresh 0)]) = .ok (.tuple [.atom (.int 1)]) ∧
      reify (.tuple [.atom (.int 1)]) = .ok (.atom (.int 2)) := by
  decide +kernel

end Unifier

end LogicTerms
