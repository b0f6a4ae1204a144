import LogicTerms.Proofs.Reification.Invariants
import LogicTerms.Proofs.Reification.Normal
import LogicTerms.Proofs.Unification.Runs

/-!
# Sets and maps stay in order

Every set and every map inside a term is in increasing order if it was built of a list, and then
equal collections are equal terms. Reification changes elements and keys after they were put in
order, and unification takes sets and maps apart; what they make of canonical terms is canonical
again, whatever the substitution is.
-/

namespace LogicTerms

open Substitution

/-! ## Collections as terms -/

/-- The value under a key is that of the last entry with the key. -/
theorem Entries.lookup_ofList_iff {entries : List (Term × Term)} {key value : Term} :
    lookup key (ofList entries) = some value ↔
      ∃ before after, entries = before ++ (key, value) :: after ∧
        ∀ later ∈ after, later.1 ≠ key := by
  have hlasts : (key, value) ∈ ofList entries ↔
      ∃ entry, Term.Lasts id entries entry ∧ entry.1 = key ∧ entry.2 = value := by
    simpa using Term.mem_ofList_map_iff (f := id)
  rw [← mem_iff_lookup (increasing_ofList entries), hlasts]
  constructor
  · rintro ⟨entry, hentry, rfl, rfl⟩
    exact hentry
  · intro hentry
    exact ⟨(key, value), hentry, rfl, rfl⟩

namespace Term

variable {xs ys : List Term} {entries others : List (Term × Term)}

/-- A set is known by its members, in whatever order they are given and however often. -/
theorem setOf_eq_iff : setOf xs = setOf ys ↔ ∀ t, t ∈ xs ↔ t ∈ ys := by
  constructor
  · intro h t
    rw [← Elements.mem_ofList, Term.set.inj h, Elements.mem_ofList]
  · intro h
    exact congrArg set (Elements.ofList_congr h)

theorem Canonical.set_eq_iff (hx : (set xs).Canonical) (hy : (set ys).Canonical) :
    set xs = set ys ↔ ∀ t, t ∈ xs ↔ t ∈ ys := by
  constructor
  · intro h t
    rw [Term.set.inj h]
  · intro h
    exact congrArg set (hx.increasing_elements.ext hy.increasing_elements h)

theorem Canonical.map_eq_iff (hx : (map entries).Canonical) (hy : (map others).Canonical) :
    map entries = map others ↔ ∀ key value, (key, value) ∈ entries ↔ (key, value) ∈ others := by
  constructor
  · intro h key value
    rw [Term.map.inj h]
  · intro h
    exact congrArg map (Entries.ext hx.increasing_keys hy.increasing_keys h)

end Term

/-! ## Unifiers -/

namespace Unifier

variable {φ ψ : Type} [Unification.Extension φ] [Reification.Extension ψ]

/-- What a unifier makes of canonical terms under canonical bindings is canonical: the terms that
it returns, and all that it binds. Under an acyclic substitution it does return a term. -/
structure KeepsCanonical (unifier : Unifier φ ψ) (registry : Registry) : Prop where
  reify (t value : Term) (s : Substitution) (limit : Nat) (ht : t.Canonical)
    (hs : s.AllValues Term.Canonical)
    (h : (unifier.reify registry limit t s).result = .ok value) : value.Canonical
  reifies (t : Term) (s : Substitution) (ht : t.Canonical) (hs : s.AllValues Term.Canonical)
    (hacyclic : s.Acyclic registry) : ∃ value, unifier.Reifies registry t s value ∧ value.Canonical
  unify (u v : Term) (s t : Substitution) (limit : Nat) (hu : u.Canonical) (hv : v.Canonical)
    (hs : s.AllValues Term.Canonical)
    (h : (unifier.unify registry limit u v s).result = .ok (.ok t)) : t.AllValues Term.Canonical
  unifySelf (u : Term) (s t : Substitution) (hs : s.AllValues Term.Canonical)
    (h : (unifier.unifySelf u s).result = .ok (.ok t)) : t.AllValues Term.Canonical
  unifyAll (pairs : List (Term × Term)) (s t : Substitution) (limit : Nat)
    (hpairs : ∀ pair ∈ pairs, pair.1.Canonical ∧ pair.2.Canonical)
    (hs : s.AllValues Term.Canonical)
    (h : (unifier.unifyAll registry limit pairs s).result = .ok (.ok t)) :
    t.AllValues Term.Canonical

/-- The runs of the standard unifier only take terms apart, build them anew and bind what they met,
and all of this keeps the order. -/
theorem keepsCanonical_standard (registry : Registry) :
    (standard : Unifier φ ψ).KeepsCanonical registry where
  reify _ _ _ _ ht hs h :=
    preserves_of_reify Term.canonical_parts (fun form _ => form.canonical_build) ht hs h
  reifies t _ ht hs hacyclic :=
    ⟨hacyclic.image t, reifies_image hacyclic t, hacyclic.canonical_image hs ht⟩
  unify _ _ _ _ _ hu hv hs h :=
    (solves_of_unify h).allValues Term.canonical_parts ⟨hu, hv, hs⟩
  unifySelf _ _ _ hs h := by
    cases h
    exact hs
  unifyAll _ _ _ _ hpairs hs h :=
    (solves_of_unifyAll h).allValues Term.canonical_parts ⟨hpairs, hs⟩

/-- The sets and maps that are built of canonical terms are canonical, and so is what the standard
unifier makes of canonical terms. A set is known by its members, whatever their order and however
often they come, and a map holds under each key the value of the last entry with the key. Canonical
sets with the same members, and canonical maps with the same entries, are equal terms. -/
theorem keeps_canonical (registry : Registry) :
    (∀ elements : List Term, (∀ t ∈ elements, t.Canonical) → (Term.setOf elements).Canonical) ∧
    (∀ entries : List (Term × Term), (∀ entry ∈ entries, entry.1.Canonical ∧ entry.2.Canonical) →
      (Term.mapOf entries).Canonical) ∧
    (standard : Unifier φ ψ).KeepsCanonical registry ∧
    (∀ xs ys, Term.setOf xs = Term.setOf ys ↔ ∀ t, t ∈ xs ↔ t ∈ ys) ∧
    (∀ entries key value, Entries.lookup key (Entries.ofList entries) = some value ↔
      ∃ before after, entries = before ++ (key, value) :: after ∧
        ∀ later ∈ after, later.1 ≠ key) ∧
    (∀ xs ys, (Term.set xs).Canonical → (Term.set ys).Canonical → (∀ t, t ∈ xs ↔ t ∈ ys) →
      Term.set xs = Term.set ys ∧ (Term.set xs).compare (Term.set ys) = .eq) ∧
    (∀ xs ys, (Term.map xs).Canonical → (Term.map ys).Canonical →
      (∀ key value, (key, value) ∈ xs ↔ (key, value) ∈ ys) →
      Term.map xs = Term.map ys ∧ (Term.map xs).compare (Term.map ys) = .eq) := by
  refine ⟨fun _ => Term.canonical_setOf, fun entries h => ?_, keepsCanonical_standard registry,
    fun _ _ => Term.setOf_eq_iff, fun _ _ _ => Entries.lookup_ofList_iff, ?_, ?_⟩
  · exact Term.canonical_mapOf (Term.forall_mem_flatten_iff.2 h)
  · intro xs ys hx hy h
    have heq := (hx.set_eq_iff hy).2 h
    exact ⟨heq, Term.compare_eq_iff.2 heq⟩
  · intro xs ys hx hy h
    have heq := (hx.map_eq_iff hy).2 h
    exact ⟨heq, Term.compare_eq_iff.2 heq⟩

/-- Two keys become equal, also under bindings with a cycle, and a set is bound whose element has a
set in its name. -/
theorem keeps_canonical_example :
    let pair := Term.setOf [.atom (.int 2), .atom (.int 1), .atom (.int 2)]
    let s := ((Substitution.empty.bind (.var (.fresh 0)) (.tuple [.var (.fresh 0)])).bind
      (.var (.fresh 1)) (.atom (.int 5))).bind (.var (.fresh 2)) (.atom (.int 5))
    let t := s.bind (.var (.fresh 3)) (.set [.var (.named pair)])
    let value := Term.map [(.atom (.int 5), pair)]
    pair = .setOf [.atom (.int 1), .atom (.int 2)] ∧
      ((standard : Unifier Empty Empty).reify .empty 40
        (.map [(.var (.fresh 1), .atom (.int 1)), (.var (.fresh 2), pair)]) s).result =
        .ok value ∧ value.Canonical ∧
      ((standard : Unifier Empty Empty).unify .empty 40 (.tuple [.var (.fresh 3)])
        (.tuple [.set [.var (.named pair)]]) s).result = .ok (.ok t) ∧
      t.AllValues Term.Canonical := by
  intro pair s t value
  obtain ⟨-, -, hkeeps, hset, -, -, -⟩ := keeps_canonical (φ := Empty) (ψ := Empty) .empty
  have hvalues : s.AllValues Term.Canonical :=
    (((allValues_empty _).bind (by decide +kernel) _).bind (by decide +kernel) _).bind
      (by decide +kernel) _
  have hreify : ((standard : Unifier Empty Empty).reify .empty 40
      (.map [(.var (.fresh 1), .atom (.int 1)), (.var (.fresh 2), pair)]) s).result =
      .ok value := by decide +kernel
  have hunify : ((standard : Unifier Empty Empty).unify .empty 40 (.tuple [.var (.fresh 3)])
      (.tuple [.set [.var (.named pair)]]) s).result = .ok (.ok t) := by decide +kernel
  refine ⟨(hset _ _).2 (by simp), hreify, ?_, hunify, ?_⟩
  · exact hkeeps.reify _ _ _ _ (by decide +kernel) hvalues hreify
  · exact hkeeps.unify _ _ _ _ _ (by decide +kernel) (by decide +kernel) hvalues hunify

end Unifier

end LogicTerms
