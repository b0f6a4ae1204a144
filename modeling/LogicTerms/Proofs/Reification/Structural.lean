import LogicTerms.Proofs.Reification.Values

/-!
# Reification is structural substitution

A run of reification puts its result together in frames that wait for one part after the other, with
the values of bound variables in between. What it returns is what the equations of substitution
determine, along the terms and along the bindings.
-/

namespace LogicTerms

open Substitution

namespace Reification

variable {registry : Registry} {s : Substitution} {f : Term → Term}

/-- The equations of substitution. A variable that is not bound stays, and a bound one becomes what
its value becomes. Atoms stay, and any other compound is built anew of what its parts become: the
elements of a set find their places again, and so do the keys of a map, in their order, where a
later entry takes the place of an earlier one with the same key. -/
structure Substitutes (registry : Registry) (s : Substitution) (f : Term → Term) : Prop where
  unbound (x : Term) (hx : registry.isVariable x = true) (h : s.lookup x = none) : f x = x
  bound (x value : Term) (hx : registry.isVariable x = true) (h : s.lookup x = some value) :
    f x = f value
  atom (a : Atom) (h : registry.isVariable (.atom a) = false) : f (.atom a) = .atom a
  tuple (items : List Term) (h : registry.isVariable (.tuple items) = false) :
    f (.tuple items) = .tuple (items.map f)
  list (items : List Term) (h : registry.isVariable (.list items) = false) :
    f (.list items) = .list (items.map f)
  set (elements : List Term) (h : registry.isVariable (.set elements) = false) :
    f (.set elements) = .setOf (elements.map f)
  map (entries : List (Term × Term)) (h : registry.isVariable (.map entries) = false) :
    f (.map entries) = .mapOf (entries.map fun (key, value) => (f key, f value))
  slice (start stop step : Term) (h : registry.isVariable (.slice start stop step) = false) :
    f (.slice start stop step) = .slice (f start) (f stop) (f step)

/-- Images solve the equations of substitution. -/
theorem substitutes_image (hs : s.Acyclic registry) : Substitutes registry s hs.image where
  unbound _ hx h := hs.image_of_resolved (fun _ => h) (.inl hx)
  bound _ _ hx h := hs.image_of_lookup hx h
  atom _ h := hs.image_of_resolved (resolved_of_isVariable_eq_false h) (.inr rfl)
  tuple _ h := hs.image_tuple h
  list _ h := hs.image_list h
  set _ h := hs.image_set h
  map _ h := hs.image_map h
  slice _ _ _ h := hs.image_slice h

/-- The equations determine what becomes of a compound by its parts. -/
theorem Substitutes.eq_of_parts {g : Term → Term} (hf : Substitutes registry s f)
    (hg : Substitutes registry s g) {a : Term} (ha : registry.isVariable a = false)
    (hparts : ∀ p ∈ a.parts, f p = g p) : f a = g a := by
  cases a with
  | atom value => rw [hf.atom value ha, hg.atom value ha]
  | var name => simp at ha
  | tuple items =>
    rw [hf.tuple items ha, hg.tuple items ha]
    exact congrArg Term.tuple (List.map_congr_left hparts)
  | list items =>
    rw [hf.list items ha, hg.list items ha]
    exact congrArg Term.list (List.map_congr_left hparts)
  | set elements =>
    rw [hf.set elements ha, hg.set elements ha]
    exact congrArg Term.setOf (List.map_congr_left hparts)
  | map entries =>
    have hentries : (entries.map fun (key, value) => (f key, f value)) =
        entries.map fun (key, value) => (g key, g value) := by
      refine List.map_congr_left fun ⟨key, value⟩ hentry => ?_
      have hkey : f key = g key := hparts key (Term.mem_flatten_iff.2 ⟨_, hentry, .inl rfl⟩)
      have hvalue : f value = g value := hparts value (Term.mem_flatten_iff.2 ⟨_, hentry, .inr rfl⟩)
      simp only [hkey, hvalue]
    rw [hf.map entries ha, hg.map entries ha, hentries]
  | slice start stop step =>
    simp only [Term.parts, List.forall_mem_cons] at hparts
    obtain ⟨hstart, hstop, hstep, -⟩ := hparts
    rw [hf.slice start stop step ha, hg.slice start stop step ha, hstart, hstop, hstep]

/-- The equations have one solution. It is found along the ways into a term, which all end. -/
theorem substitutes_iff (hs : s.Acyclic registry) : Substitutes registry s f ↔ f = hs.image := by
  refine ⟨fun hf => ?_, ?_⟩
  · funext a
    induction a using hs.wellFounded.induction with
    | _ a ih =>
      cases ha : registry.isVariable a with
      | false =>
        exact hf.eq_of_parts (substitutes_image hs) ha fun p hp => ih p (leads_of_mem_parts ha hp)
      | true =>
        cases hlookup : s.lookup a with
        | none => rw [hf.unbound a ha hlookup, (substitutes_image hs).unbound a ha hlookup]
        | some value =>
          rw [hf.bound a value ha hlookup, hs.image_of_lookup ha hlookup]
          exact ih value (leads_of_lookup ha hlookup)
  · rintro rfl
    exact substitutes_image hs

end Reification

namespace Unifier

variable {φ ψ : Type} [Reification.Extension ψ] {registry : Registry} {s : Substitution}

/-- One function solves the equations of substitution, and reification returns its values: every
run with a limit that is high enough does, and a run with a lower limit breaks off or does so too,
but does not fail otherwise. -/
theorem reify_structural (hs : s.Acyclic registry) :
    ∃ f, (∀ g, Reification.Substitutes registry s g ↔ g = f) ∧ ∀ t,
      Returns (fun limit => (standard : Unifier φ ψ).reify registry limit t s) (f t) ∧
        ∀ limit, ((standard : Unifier φ ψ).reify registry limit t s).result = .ok (f t) ∨
          ((standard : Unifier φ ψ).reify registry limit t s).result = .error .unfinished := by
  refine ⟨hs.image, fun g => Reification.substitutes_iff hs, fun t => ⟨?_, ?_⟩⟩
  · exact reifies_image hs t
  · intro limit
    exact Procedure.answered_of_yields (Reification.answers_image hs t) limit

/-- Two keys become equal, and the value under the later one is left. -/
theorem reify_structural_example :
    ∃ f, Reification.Substitutes .empty ((Substitution.empty.bind (.var (.fresh 0))
        (.var (.fresh 1))).bind (.var (.fresh 1)) (.atom (.int 7))) f ∧
      f (.map [(.var (.fresh 0), .atom (.int 1)), (.var (.fresh 1), .tuple [.var (.fresh 0)])]) =
        .map [(.atom (.int 7), .tuple [.atom (.int 7)])] ∧
      Returns (fun limit => (standard : Unifier Empty Empty).reify .empty limit
        (.map [(.var (.fresh 0), .atom (.int 1)), (.var (.fresh 1), .tuple [.var (.fresh 0)])])
        ((Substitution.empty.bind (.var (.fresh 0)) (.var (.fresh 1))).bind (.var (.fresh 1))
          (.atom (.int 7)))) (.map [(.atom (.int 7), .tuple [.atom (.int 7)])]) := by
  have hacyclic : ((Substitution.empty.bind (.var (.fresh 0)) (.var (.fresh 1))).bind
      (.var (.fresh 1)) (.atom (.int 7))).Acyclic .empty := by
    refine ((acyclic_empty _).bind_of_subterms ?_).bind_of_subterms ?_
    all_goals decide +kernel
  obtain ⟨f, hunique, hreturns⟩ := reify_structural (φ := Empty) (ψ := Empty) hacyclic
  have hf := (hunique f).2 rfl
  have hseven := hf.atom (.int 7) (by decide +kernel)
  have hone := hf.bound (.var (.fresh 1)) (.atom (.int 7)) rfl (by decide +kernel)
  have hzero := hf.bound (.var (.fresh 0)) (.var (.fresh 1)) rfl (by decide +kernel)
  have hvalue : f (.map [(.var (.fresh 0), .atom (.int 1)),
      (.var (.fresh 1), .tuple [.var (.fresh 0)])]) =
        .map [(.atom (.int 7), .tuple [.atom (.int 7)])] := by
    rw [hf.map _ (by decide +kernel)]
    simp only [List.map_cons, List.map_nil, hzero, hone, hseven,
      hf.atom (.int 1) (by decide +kernel), hf.tuple [.var (.fresh 0)] (by decide +kernel)]
    decide +kernel
  refine ⟨f, hf, hvalue, ?_⟩
  rw [← hvalue]
  exact (hreturns _).1

end Unifier

end LogicTerms
