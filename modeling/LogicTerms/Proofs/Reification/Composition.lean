import LogicTerms.Proofs.Registry
import LogicTerms.Proofs.Reification.Values
import LogicTerms.Proofs.Substitution.Plain

/-!
# One reification after another

A term that was reified under few bindings and then under more of them has become what it becomes
at once under all of them. Sets may shrink in between: two elements that are equal by then stay
equal. The keys of maps must not change for that, since of two entries whose keys become equal the
later one counts, and which one is later depends on what the keys were before.
-/

namespace LogicTerms

open Substitution

/-- Elements may be put in order before they change, or after. -/
theorem Elements.ofList_map_ofList (f : Term → Term) (ts : List Term) :
    ofList ((ofList ts).map f) = ofList (ts.map f) := by
  refine ofList_congr fun t => ?_
  simp only [List.mem_map, mem_ofList]

namespace Substitution.Acyclic

variable {registry : Registry} {s w : Substitution} {a : Term}

/-- If `w` makes each variable that `s` binds equal to its value, then it makes of a term what it
makes of the image of the term under `s`. -/
theorem image_image (hs : s.Acyclic registry) (hw : w.Acyclic registry) (hflat : registry.Flat)
    (hvalues : s.AllValues (Term.FixedKeys registry))
    (heq : ∀ x value, registry.isVariable x = true → s.lookup x = some value →
      hw.image x = hw.image value)
    (ha : a.FixedKeys registry) : hw.image (hs.image a) = hw.image a := by
  induction a using hs.wellFounded.induction with
  | _ a ih =>
    cases hvar : registry.isVariable a with
    | true =>
      cases hlookup : s.lookup a with
      | none => rw [hs.image_of_resolved (fun _ => hlookup) (.inl hvar)]
      | some value =>
        rw [hs.image_of_lookup hvar hlookup, heq a value hvar hlookup]
        exact ih value (leads_of_lookup hvar hlookup) (hvalues a value hlookup)
    | false =>
      have hparts (p : Term) (hp : p ∈ a.parts) : hw.image (hs.image p) = hw.image p :=
        ih p (leads_of_mem_parts hvar hp) (ha.of_mem_parts hp)
      -- No image of a compound counts as a variable, so that `w` rebuilds it once more.
      cases a with
      | atom value => rw [hs.image_of_resolved (resolved_of_isVariable_eq_false hvar) (.inr rfl)]
      | var name => simp at hvar
      | tuple items =>
        rw [hs.image_tuple hvar, hw.image_tuple (hflat _ rfl), hw.image_tuple hvar, List.map_map]
        exact congrArg Term.tuple (List.map_congr_left hparts)
      | list items =>
        rw [hs.image_list hvar, hw.image_list (hflat _ rfl), hw.image_list hvar, List.map_map]
        exact congrArg Term.list (List.map_congr_left hparts)
      | set elements =>
        rw [hs.image_set hvar, Term.setOf, hw.image_set (hflat _ rfl), hw.image_set hvar,
          Term.setOf, Elements.ofList_map_ofList, List.map_map]
        exact congrArg Term.setOf (List.map_congr_left hparts)
      | map entries =>
        rw [hs.image_map_of_fixedKeys ha hvar, hw.image_map (hflat _ rfl), hw.image_map hvar,
          List.map_map]
        refine congrArg Term.mapOf (List.map_congr_left fun entry hentry => ?_)
        have hvalue : entry.2 ∈ (Term.map entries).parts :=
          Term.mem_flatten_iff.2 ⟨entry, hentry, .inr rfl⟩
        simp only [Function.comp_apply, hparts entry.2 hvalue]
      | slice start stop step =>
        rw [hs.image_slice hvar, hw.image_slice (hflat _ rfl), hw.image_slice hvar,
          hparts start (by simp [Term.parts]), hparts stop (by simp [Term.parts]),
          hparts step (by simp [Term.parts])]

end Substitution.Acyclic

namespace Unifier

variable {φ ψ : Type} [Reification.Extension ψ] {registry : Registry} {s t : Substitution}
  {a : Term}

/-- What reification makes of a term under some bindings, it makes under more bindings into what
these make of the term at once. That the fewer bindings are acyclic and have no other values
follows from that. -/
theorem reify_reify (hregistry : ∀ b ∈ registry.terms, b.isCompound = false)
    (ht : t.Acyclic registry) (hext : t.Extends s)
    (hvalues : t.AllValues (Term.FixedKeys registry)) (ha : a.FixedKeys registry) :
    ∃ value result, (standard : Unifier φ ψ).Reifies registry a s value ∧
      (standard : Unifier φ ψ).Reifies registry value t result ∧
      (standard : Unifier φ ψ).Reifies registry a t result := by
  have hs : s.Acyclic registry := ht.of_extends hext
  have hbefore : s.AllValues (Term.FixedKeys registry) :=
    fun x value h => hvalues x value (hext x value h)
  have himage : ht.image (hs.image a) = ht.image a :=
    hs.image_image ht (Registry.flat_of_terms hregistry) hbefore
      (fun x value hx h => ht.image_of_lookup hx (hext x value h)) ha
  refine ⟨hs.image a, ht.image a, reifies_image hs a, ?_, reifies_image ht a⟩
  rw [← himage]
  exact reifies_image ht (hs.image a)

/-- A set shrinks in the first reification and again in the second, where a registered atom gives
way to the element that is left. -/
theorem reify_reify_example :
    let registry := Registry.empty.insert (.atom (.int 7))
    let s := Substitution.empty.bind (.var (.fresh 0)) (.var (.fresh 1))
    let t := (s.bind (.var (.fresh 1)) (.list [.atom (.int 7)])).bind (.atom (.int 7))
      (.map [(.atom .none, .var (.fresh 2))])
    let a : Term := .set [.var (.fresh 0), .var (.fresh 1), .list [.atom (.int 7)]]
    let value : Term := .set [.var (.fresh 1), .list [.atom (.int 7)]]
    let result : Term := .set [.list [.map [(.atom .none, .var (.fresh 2))]]]
    (standard : Unifier Empty Empty).Reifies registry a s value ∧
      (standard : Unifier Empty Empty).Reifies registry value t result ∧
      (standard : Unifier Empty Empty).Reifies registry a t result := by
  intro registry s t a value result
  have hone : (Term.var (.fresh 1)).FixedKeys registry := ⟨by decide, by decide +kernel⟩
  have hlist : (Term.list [.atom (.int 7)]).FixedKeys registry := ⟨by decide, by decide +kernel⟩
  have hmap : (Term.map [(.atom .none, .var (.fresh 2))]).FixedKeys registry :=
    ⟨by decide, by decide +kernel⟩
  have ha : a.FixedKeys registry := ⟨by decide +kernel, by decide +kernel⟩
  have ht : t.Acyclic registry := by
    refine (((acyclic_empty registry).bind_of_subterms ?_).bind_of_subterms ?_).bind_of_subterms ?_
    all_goals decide +kernel
  have hext : t.Extends s :=
    (extends_bind (by decide +kernel) _).trans (extends_bind (by decide +kernel) _)
  have hvalues : t.AllValues (Term.FixedKeys registry) :=
    (((allValues_empty _).bind hone _).bind hlist _).bind hmap _
  have hvalue : (standard : Unifier Empty Empty).Reifies registry a s value :=
    reifies_of_result 40 (by decide +kernel)
  have hresult : (standard : Unifier Empty Empty).Reifies registry a t result :=
    reifies_of_result 60 (by decide +kernel)
  obtain ⟨value', result', hvalue', hagain, hresult'⟩ := reify_reify (φ := Empty) (ψ := Empty)
    (by decide +kernel) ht hext hvalues ha
  obtain rfl : value' = value := Returns.unique hvalue' hvalue
  obtain rfl : result' = result := Returns.unique hresult' hresult
  exact ⟨hvalue, hagain, hresult⟩

end Unifier

end LogicTerms
