import LogicTerms.Proofs.Reification.Composition
import LogicTerms.Proofs.Unification.Runs

/-!
# Unification is complete, and its solutions are most general

Without sets and without variables in keys, unification finds a solution whenever there is one, and
every solution is an instance of it. There is no occurs check: what keeps the rules from going on
for ever, and the bindings from making a cycle, is that the parts of a term have lighter images
under the solution than the term itself.
-/

namespace LogicTerms

open Relation Substitution

namespace Unification

variable {registry : Registry} {s t w : Substitution} {u v : Term}

/-! ## No clash -/

/-- Values that find partners under their keys make pairs. -/
theorem exists_valuePairs {left right : List (Term × Term)} {f : Term → Term}
    (h : ∀ entry ∈ left,
      ∃ other, Entries.lookup entry.1 right = some other ∧ f entry.2 = f other) :
    ∃ pairs, valuePairs right left = .ok pairs ∧ ∀ pair ∈ pairs, f pair.1 = f pair.2 := by
  induction left with
  | nil => exact ⟨[], rfl, by simp⟩
  | cons entry left ih =>
    obtain ⟨⟨other, hlookup, hother⟩, hleft⟩ := List.forall_mem_cons.1 h
    obtain ⟨pairs, hpairs, heq⟩ := ih hleft
    refine ⟨(entry.2, other) :: pairs, ?_, List.forall_mem_cons.2 ⟨hother, heq⟩⟩
    exact valuePairs_cons_eq_ok_iff.2 ⟨other, pairs, hlookup, hpairs, rfl⟩

/-- Lists with equal images have equal lengths, so their elements make pairs. -/
theorem exists_zipped {left right : List Term} {f : Term → Term}
    (h : left.map f = right.map f) :
    ∃ pairs, zipped left right = .ok pairs ∧ ∀ pair ∈ pairs, f pair.1 = f pair.2 := by
  have hlength : left.length = right.length := by simpa using congrArg List.length h
  refine ⟨left.zip right, zipped_eq_ok_iff.2 ⟨hlength, rfl⟩, ?_⟩
  clear hlength
  induction left generalizing right with
  | nil => simp
  | cons x xs ih =>
    cases right with
    | nil => simp
    | cons y ys =>
      obtain ⟨hhead, htail⟩ := List.cons.inj h
      exact List.forall_mem_cons.2 ⟨hhead, ih htail⟩

/-- Two plain terms that have the same image leave pairs of parts that have the same images. -/
theorem exists_confront (hw : w.Acyclic registry) (hu : u.Plain registry) (hv : v.Plain registry)
    (hvaru : registry.isVariable u = false) (hvarv : registry.isVariable v = false)
    (h : hw.image u = hw.image v) :
    ∃ pairs, confront u v = .ok pairs ∧ ∀ pair ∈ pairs, hw.image pair.1 = hw.image pair.2 := by
  obtain ⟨hshapeu, hpartsu⟩ := hw.image_of_plain hu hvaru
  obtain ⟨hshapev, hpartsv⟩ := hw.image_of_plain hv hvarv
  have hshape : u.shape = v.shape := by rw [← hshapeu, h, hshapev]
  have hparts : u.parts.map hw.image = v.parts.map hw.image := by rw [← hpartsu, h, hpartsv]
  cases u <;> cases v <;> simp only [Term.shape, reduceCtorEq] at hshape
  case atom.atom =>
    rw [hw.image_of_resolved (resolved_of_isVariable_eq_false hvaru) (.inr rfl),
      hw.image_of_resolved (resolved_of_isVariable_eq_false hvarv) (.inr rfl)] at h
    cases h
    exact ⟨[], by simp [confront], by simp⟩
  case var.var => simp at hvaru
  case tuple.tuple | list.list => exact exists_zipped hparts
  case set.set elements _ => exact absurd rfl (hu.ne_set elements)
  case map.map left right =>
    rw [hw.image_map_of_fixedKeys hu.fixedKeys hvaru,
      hw.image_map_of_fixedKeys hv.fixedKeys hvarv] at h
    have hentries := Term.map.inj h
    have hlength : left.length = right.length := by simpa using congrArg List.length hentries
    rw [confront, if_pos hlength]
    refine exists_valuePairs fun entry hentry => ?_
    have hmem := (congrArg ((entry.1, hw.image entry.2) ∈ ·) hentries).mp
      (List.mem_map.2 ⟨entry, hentry, rfl⟩)
    obtain ⟨⟨key, other⟩, hother, heq⟩ := List.mem_map.1 hmem
    obtain ⟨rfl, hvalue⟩ := Prod.mk.inj heq
    exact ⟨other, Entries.lookup_of_mem hv.canonical.increasing_keys.nodup hother, hvalue.symm⟩
  case slice.slice =>
    refine ⟨_, rfl, ?_⟩
    simp only [Term.parts, List.map_cons, List.map_nil, List.cons.injEq, and_true] at hparts
    simpa using hparts

/-! ## Bindings that a solution satisfies -/

/-- An acyclic substitution of plain terms, such that under `w` each variable has the image of the
term that is bound to it. -/
structure Admits (hw : w.Acyclic registry) (s : Substitution) : Prop where
  acyclic : s.Acyclic registry
  plain : s.AllValues (Term.Plain registry)
  image_eq : ∀ x value, registry.isVariable x = true → s.lookup x = some value →
    hw.image x = hw.image value

namespace Admits

variable {hw : w.Acyclic registry} {a b x value : Term}

/-- The solution tells no term from the end of its chain. -/
theorem image_of_walk (hs : Admits hw s) (h : s.walk registry a = some b) :
    hw.image a = hw.image b :=
  hw.image_eq_of_walk hs.image_eq h

/-- Images do not become heavier on the way into a term. -/
theorem weight_image_le (hs : Admits hw s) (ha : a.Plain registry)
    (hway : ReflTransGen (s.Leads registry) a b) :
    b.Plain registry ∧ (hw.image b).weight ≤ (hw.image a).weight := by
  induction hway with
  | refl => exact ⟨ha, le_rfl⟩
  | tail _ hstep ih =>
    obtain ⟨hplain, hle⟩ := ih
    obtain ⟨hvar, hvalue⟩ | ⟨hvar, hpart⟩ := hstep.cases
    · rw [← hs.image_eq _ _ hvar hvalue]
      exact ⟨hs.plain _ _ hvalue, hle⟩
    · have hlt := hw.weight_image_lt hplain hvar hpart
      exact ⟨hplain.of_mem_parts hpart, by omega⟩

/-- A term that a variable is to be equal to does not contain it, unless it is the variable. -/
theorem not_leads (hs : Admits hw s) (hvalue : value.Plain registry)
    (hresolved : s.Resolved registry value) (hne : value ≠ x) (heq : hw.image x = hw.image value) :
    ¬ ReflTransGen (s.Leads registry) value x := by
  intro hway
  obtain rfl | ⟨part, hstep, hrest⟩ := hway.cases_head
  · exact hne rfl
  obtain ⟨hvar, hlookup⟩ | ⟨hvar, hpart⟩ := hstep.cases
  · simp [hresolved hvar] at hlookup
  · -- The first step goes to a part, and so the variable would be lighter than itself.
    have hlt := hw.weight_image_lt hvalue hvar hpart
    have hle := (hs.weight_image_le (hvalue.of_mem_parts hpart) hrest).2
    rw [heq] at hle
    omega

/-- A binding that the solution satisfies may be added, and makes no cycle. -/
theorem bind (hs : Admits hw s) (hvalue : value.Plain registry)
    (hresolved : s.Resolved registry value) (hne : value ≠ x) (heq : hw.image x = hw.image value) :
    Admits hw (s.bind x value) where
  acyclic := hs.acyclic.bind (hs.not_leads hvalue hresolved hne heq)
  plain := hs.plain.bind hvalue x
  image_eq y v hy hv := by
    rw [lookup_bind] at hv
    split at hv
    next hyx =>
      cases hv
      rw [hyx, heq]
    next => exact hs.image_eq y v hy hv

/-! ## The rules come to an end -/

def Solvable (hw : w.Acyclic registry) (task : Task) : Prop :=
  ∃ t, Solves registry task (.ok t) ∧ Admits hw t

theorem solvable_of_unbound (hs : Admits hw s) (hu : registry.isVariable u = true)
    (hfree : s.lookup u = none) (hv : v.Plain registry) (heq : hw.image u = hw.image v) :
    Solvable hw (.pair u v s) := by
  obtain ⟨v', hwalk⟩ := hs.acyclic.exists_walk v
  refine ⟨_, .unbound hu hfree hwalk, ?_⟩
  split
  next => exact hs
  next hne =>
    rw [hs.image_of_walk hwalk] at heq
    exact hs.bind (hs.plain.walk hwalk hv) (resolved_of_walk hwalk) (Ne.symm hne) heq

/-- Pairs are unified one after the other, each under an admitted substitution. -/
theorem solvable_pairs {pairs : List (Term × Term)} (hs : Admits hw s)
    (hpairs : ∀ pair ∈ pairs, ∀ s, Admits hw s → Solvable hw (.pair pair.1 pair.2 s)) :
    Solvable hw (.pairs pairs s) := by
  induction pairs generalizing s with
  | nil => exact ⟨s, .nil, hs⟩
  | cons pair pairs ih =>
    obtain ⟨hfirst, hothers⟩ := List.forall_mem_cons.1 hpairs
    obtain ⟨s', hsolves, hs'⟩ := hfirst s hs
    obtain ⟨t, hrest, ht⟩ := ih hs' hothers
    exact ⟨t, .cons hsolves hrest, ht⟩

/-- Two terms that are no bound variables are unified if all pairs with lighter images are. -/
theorem solvable_of_resolved (hs : Admits hw s) (hu : u.Plain registry) (hv : v.Plain registry)
    (hresu : s.Resolved registry u) (hresv : s.Resolved registry v)
    (heq : hw.image u = hw.image v)
    (ih : ∀ a b s, Admits hw s → a.Plain registry → b.Plain registry →
      hw.image a = hw.image b → (hw.image a).weight < (hw.image u).weight →
      Solvable hw (.pair a b s)) : Solvable hw (.pair u v s) := by
  cases hvaru : registry.isVariable u with
  | true => exact hs.solvable_of_unbound hvaru (hresu hvaru) hv heq
  | false =>
    cases hvarv : registry.isVariable v with
    | true =>
      obtain ⟨t, hsolves, ht⟩ := hs.solvable_of_unbound hvarv (hresv hvarv) hu heq.symm
      exact ⟨t, .swapped hvaru hvarv hsolves, ht⟩
    | false =>
      obtain ⟨pairs, hpairs, himages⟩ := exists_confront hw hu hv hvaru hvarv heq
      have hsolvable : Solvable hw (.pairs pairs s) := by
        refine hs.solvable_pairs fun pair hpair s hs => ?_
        obtain ⟨hpartu, hpartv⟩ := mem_parts_of_confront hpairs hpair
        exact ih pair.1 pair.2 s hs (hu.of_mem_parts hpartu) (hv.of_mem_parts hpartv)
          (himages pair hpair) (hw.weight_image_lt hu hvaru hpartu)
      obtain ⟨t, hsolves, ht⟩ := hsolvable
      exact ⟨t, .together hvaru hvarv hpairs hsolves, ht⟩

/-- A variable on the left is bound, or gives way to the end of its chain. -/
theorem solvable_of_isVariable (hs : Admits hw s) (hvar : registry.isVariable u = true)
    (hv : v.Plain registry) (heq : hw.image u = hw.image v)
    (hends : ∀ u' v', s.walk registry u = some u' → s.walk registry v = some v' →
      Solvable hw (.pair u' v' s)) : Solvable hw (.pair u v s) := by
  obtain ⟨u', hwalku⟩ := hs.acyclic.exists_walk u
  obtain ⟨v', hwalkv⟩ := hs.acyclic.exists_walk v
  by_cases hself : u' = u
  · subst hself
    exact hs.solvable_of_unbound hvar (resolved_of_walk hwalku hvar) hv heq
  · obtain ⟨t, hsolves, ht⟩ := hends u' v' hwalku hwalkv
    exact ⟨t, .bound hvar hwalku hself hwalkv hsolves, ht⟩

/-- Two plain terms that the solution makes equal are unified under every substitution that it
satisfies. -/
theorem solvable (hs : Admits hw s) (hu : u.Plain registry) (hv : v.Plain registry)
    (heq : hw.image u = hw.image v) : Solvable hw (.pair u v s) := by
  induction hweight : (hw.image u).weight using Nat.strongRecOn generalizing u v s with
  | ind n ih =>
    -- The ends of both chains have the image of weight `n`, and their parts have lighter ones.
    have ends {a b a' b' : Term} (ha : a.Plain registry) (hb : b.Plain registry)
        (heq : hw.image a = hw.image b) (hn : (hw.image a).weight = n)
        (hwa : s.walk registry a = some a') (hwb : s.walk registry b = some b') :
        Solvable hw (.pair a' b' s) := by
      rw [hs.image_of_walk hwa] at heq hn
      rw [hs.image_of_walk hwb] at heq
      refine hs.solvable_of_resolved (hs.plain.walk hwa ha) (hs.plain.walk hwb hb)
        (resolved_of_walk hwa) (resolved_of_walk hwb) heq fun c d r hr hc hd hcd hlt => ?_
      exact ih _ (hn ▸ hlt) hr hc hd hcd rfl
    cases hvaru : registry.isVariable u with
    | true => exact hs.solvable_of_isVariable hvaru hv heq fun _ _ => ends hu hv heq hweight
    | false =>
      cases hvarv : registry.isVariable v with
      | true =>
        obtain ⟨t, hsolves, ht⟩ := hs.solvable_of_isVariable hvarv hu heq.symm
          fun _ _ => ends hv hu heq.symm (heq ▸ hweight)
        exact ⟨t, .swapped hvaru hvarv hsolves, ht⟩
      | false =>
        have hresu : s.Resolved registry u := resolved_of_isVariable_eq_false hvaru
        have hresv : s.Resolved registry v := resolved_of_isVariable_eq_false hvarv
        exact ends hu hv heq hweight (walk_of_resolved hresu) (walk_of_resolved hresv)

/-! ## Generality -/

/-- The solution is an instance of all that is bound. -/
theorem image_image (hs : Admits hw s) (hflat : registry.Flat) (ha : a.Plain registry) :
    hw.image (hs.acyclic.image a) = hw.image a :=
  hs.acyclic.image_image hw hflat (fun x value hvalue => (hs.plain x value hvalue).fixedKeys)
    hs.image_eq ha.fixedKeys

end Admits

end Unification

/-! ## Runs -/

namespace Unifier

variable {φ ψ : Type} [Reification.Extension ψ] {registry : Registry} {s t w : Substitution}
  {u v : Term}

/-- An acyclic substitution under which two terms are equal, and each variable that `s` binds is
equal to its value. -/
structure Solution (unifier : Unifier φ ψ) (registry : Registry) (u v : Term)
    (s w : Substitution) : Prop where
  acyclic : w.Acyclic registry
  alike : unifier.ReifiesAlike registry u v w
  satisfies : ∀ x value, registry.isVariable x = true → s.lookup x = some value →
    unifier.ReifiesAlike registry x value w

/-- What `t` leaves of a variable is the same under `w` as the variable itself. -/
def MoreGeneral (unifier : Unifier φ ψ) (registry : Registry) (t w : Substitution) : Prop :=
  ∀ x, registry.isVariable x = true → ∃ value, unifier.Reifies registry x t value ∧
    unifier.ReifiesAlike registry value x w

theorem Solution.admits (h : (standard : Unifier φ ψ).Solution registry u v s w)
    (hs : s.Acyclic registry) (hplain : s.AllValues (Term.Plain registry)) :
    Unification.Admits h.acyclic s :=
  ⟨hs, hplain, fun x value hx hvalue =>
    (reifiesAlike_iff h.acyclic).1 (h.satisfies x value hx hvalue)⟩

/-- The solution is an instance of every substitution that it satisfies. -/
theorem moreGeneral_of_admits {hw : w.Acyclic registry} (h : Unification.Admits hw t)
    (hatoms : ∀ a ∈ registry.terms, ∃ value, a = .atom value) :
    (standard : Unifier φ ψ).MoreGeneral registry t w := by
  intro x hx
  refine ⟨h.acyclic.image x, reifies_image h.acyclic x, (reifiesAlike_iff hw).2 ?_⟩
  cases hlookup : t.lookup x with
  | none => rw [h.acyclic.image_of_resolved (fun _ => hlookup) (.inl hx)]
  | some value =>
    rw [h.acyclic.image_of_lookup hx hlookup, h.image_eq x value hx hlookup]
    have hflat : registry.Flat := Registry.flat_of_terms fun a ha => by
      obtain ⟨value, rfl⟩ := hatoms a ha
      rfl
    exact h.image_image hflat (h.plain x value hlookup)

variable [Unification.Extension φ]

/-- Unification finds a substitution whenever there is a solution, and every solution is an
instance of what it finds. Hence there is no solution where it fails. -/
theorem exists_unify_of_solution (hatoms : ∀ a ∈ registry.terms, ∃ value, a = .atom value)
    (hs : s.Acyclic registry) (hplain : s.AllValues (Term.Plain registry))
    (hu : u.Plain registry) (hv : v.Plain registry) :
    (∀ w, (standard : Unifier φ ψ).Solution registry u v s w →
      ∃ t, Returns (fun limit => (standard : Unifier φ ψ).unify registry limit u v s) (.ok t) ∧
        t.Acyclic registry ∧ (standard : Unifier φ ψ).MoreGeneral registry t w) ∧
    (∀ limit clash,
      ((standard : Unifier φ ψ).unify registry limit u v s).result = .ok (.error clash) →
      ¬ ∃ w, (standard : Unifier φ ψ).Solution registry u v s w) ∧
    ∀ w, (standard : Unifier φ ψ).Solution registry u u s w →
      ∃ t, ((standard : Unifier φ ψ).unifySelf u s).result = .ok (.ok t) ∧
        t.Acyclic registry ∧ (standard : Unifier φ ψ).MoreGeneral registry t w := by
  have hsolves (w : Substitution) (h : (standard : Unifier φ ψ).Solution registry u v s w) :
      Unification.Admits.Solvable h.acyclic (.pair u v s) :=
    (h.admits hs hplain).solvable hu hv ((reifiesAlike_iff h.acyclic).1 h.alike)
  refine ⟨?_, ?_, ?_⟩
  · intro w h
    obtain ⟨t, ht, hadmits⟩ := hsolves w h
    exact ⟨t, returns_unify ht, hadmits.acyclic, moreGeneral_of_admits hadmits hatoms⟩
  · rintro limit clash hrun ⟨w, h⟩
    obtain ⟨t, ht, -⟩ := hsolves w h
    have hreturns := Procedure.returns_of_answered hrun
    cases Returns.unique (returns_unify ht) hreturns
  · intro w h
    exact ⟨s, rfl, hs, moreGeneral_of_admits (h.admits hs hplain) hatoms⟩

/-- An atom acts as a variable, and a variable is bound at the start. -/
theorem exists_unify_of_solution_example :
    ∃ t, Returns (fun limit => (standard : Unifier Empty Empty).unify
        (Registry.empty.insert (.atom (.int 7))) limit
        (.tuple [.var (.fresh 0), .map [(.atom .none, .atom (.int 7))]])
        (.tuple [.list [.var (.fresh 1)], .map [(.atom .none, .var (.fresh 2))]])
        (Substitution.empty.bind (.var (.fresh 2)) (.atom (.int 2)))) (.ok t) ∧
      t.Acyclic (Registry.empty.insert (.atom (.int 7))) ∧
      (standard : Unifier Empty Empty).MoreGeneral (Registry.empty.insert (.atom (.int 7))) t
        ((((Substitution.empty.bind (.var (.fresh 0)) (.list [.var (.fresh 1)])).bind
          (.var (.fresh 1)) (.atom (.int 3))).bind (.atom (.int 7)) (.atom (.int 2))).bind
          (.var (.fresh 2)) (.atom (.int 2))) := by
  have hregistered : (Registry.empty.insert (.atom (.int 7))).terms = [.atom (.int 7)] := by
    decide +kernel
  have hvalue : (Term.atom (.int 2)).Plain (Registry.empty.insert (.atom (.int 7))) :=
    ⟨by decide +kernel, by decide +kernel, by decide +kernel⟩
  refine (exists_unify_of_solution ?_ ?_ ((allValues_empty _).bind hvalue _) ?_ ?_).1 _
    ⟨?_, ?_, fun x value _ hvalue => ?_⟩
  · simp [hregistered]
  · exact (acyclic_empty _).bind_of_subterms (by decide +kernel)
  · exact ⟨by decide +kernel, by decide +kernel, by decide +kernel⟩
  · exact ⟨by decide +kernel, by decide +kernel, by decide +kernel⟩
  · refine ((((acyclic_empty _).bind_of_subterms ?_).bind_of_subterms ?_).bind_of_subterms
      ?_).bind_of_subterms ?_
    all_goals decide +kernel
  · refine ⟨.tuple [.list [.atom (.int 3)], .map [(.atom .none, .atom (.int 2))]], ?_, ?_⟩
    all_goals exact reifies_of_result 20 (by decide +kernel)
  · rw [lookup_bind] at hvalue
    split at hvalue <;> cases hvalue
    next hx =>
      subst hx
      refine ⟨.atom (.int 2), ?_, ?_⟩
      all_goals exact reifies_of_result 20 (by decide +kernel)

end Unifier

end LogicTerms
