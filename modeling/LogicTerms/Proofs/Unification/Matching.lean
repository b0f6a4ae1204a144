import LogicTerms.Proofs.Reification.FreeVariables
import LogicTerms.Proofs.Unification.Sides
import LogicTerms.Proofs.Unification.Soundness

/-!
# Matching a ground term

A term that has no variable left ends every unification with it. Of each pair on the way one side is
ground, whichever side that is, and it comes from the ground term by a way that all bindings on it
were there for from the start. Such a way ends, and a ground term that is bound to a variable makes
no cycle.
-/

namespace LogicTerms

open Relation Substitution

namespace Unification

variable {registry : Registry} {s r t : Substitution} {u v a b : Term}
  {pairs pairs' : List (Term × Term)}

/-! ## The rules -/

/-- The bindings that there were at the start, and maybe more, without a cycle. -/
structure Stage (registry : Registry) (s r : Substitution) : Prop where
  keeps : r.Extends s
  acyclic : r.Acyclic registry
  canonical : r.AllValues Term.Canonical

def Grounds (registry : Registry) (s : Substitution) (terms : List Term) (result : Result) : Prop :=
  ∀ t, result = .ok t → Stage registry s t ∧ ∀ a ∈ terms, t.Ground registry a

theorem grounds_error (clash : Clash) (terms : List Term) :
    Grounds registry s terms (.error clash) := by
  rintro t ⟨⟩

/-- A free variable that is bound to a ground term makes no cycle. -/
theorem Stage.bind (hr : Stage registry s r) (hvar : registry.isVariable a = true)
    (hfree : r.lookup a = none) (hb : r.Ground registry b) (hcanonical : b.Canonical) :
    Stage registry s (r.bind a b) where
  keeps := (extends_bind hfree b).trans hr.keeps
  acyclic := hr.acyclic.bind fun hway => hb a (reaches_of_reflTransGen hway hvar hfree)
  canonical := hr.canonical.bind hcanonical a

/-- Pairs are unified one after the other, in either order each, if that can be done from every
stage. -/
theorem exists_solves_grounds (hr : Stage registry s r)
    (hpairs : ∀ pair ∈ pairs, ∀ r, Stage registry s r →
      EitherWay registry r (Grounds registry s [pair.1]) pair.1 pair.2)
    (hturned : Turned pairs pairs') :
    ∃ result, Solves registry (.pairs pairs' r) result ∧
      Grounds registry s (pairs.map Prod.fst) result := by
  induction hturned generalizing r with
  | nil =>
    refine ⟨.ok r, .nil, ?_⟩
    rintro t ⟨⟩
    exact ⟨hr, by simp⟩
  | cons hpair _ ih =>
    obtain ⟨hfirst, hothers⟩ := List.forall_mem_cons.1 hpairs
    obtain ⟨result, hsolves, hgrounds⟩ := (hfirst r hr).exists_solves_of_turned hpair
    cases result with
    | error clash => exact ⟨.error clash, .clash hsolves, grounds_error clash _⟩
    | ok r' =>
      obtain ⟨hr', hground⟩ := hgrounds r' rfl
      obtain ⟨result, hrest, hgrounds'⟩ := ih hr' hothers
      refine ⟨result, .cons hsolves hrest, ?_⟩
      rintro t rfl
      obtain ⟨ht, hall⟩ := hgrounds' t rfl
      exact ⟨ht, List.forall_mem_cons.2 ⟨(hground _ (.head _)).of_extends hrest.extends, hall⟩⟩

/-- Two terms that are no variables clash in both orders, or their pairs are unified. -/
theorem eitherWay_of_confront (hr : Stage registry s r) (hu : registry.isVariable u = false)
    (hv : registry.isVariable v = false) (hcu : u.Canonical) (hcv : v.Canonical)
    (hground : s.Ground registry v)
    (hpairs : ∀ p q, p ∈ u.parts → q ∈ v.parts → ∀ r, Stage registry s r →
      EitherWay registry r (Grounds registry s [p]) p q) :
    EitherWay registry r (Grounds registry s [u]) u v := by
  cases hconfront : confront u v with
  | error clash =>
    obtain ⟨clash', hswap, -⟩ := exists_confront_swap_of_error hcu hcv hconfront
    exact .of_isVariable_eq_false hu hv ⟨_, .apart hu hv hconfront, grounds_error clash _⟩
      ⟨_, .apart hv hu hswap, grounds_error clash' _⟩
  | ok pairs =>
    have hall (pair : Term × Term) (hpair : pair ∈ pairs) (r : Substitution)
        (hr : Stage registry s r) :
        EitherWay registry r (Grounds registry s [pair.1]) pair.1 pair.2 := by
      obtain ⟨hp, hq⟩ := mem_parts_of_confront hconfront hpair
      exact hpairs pair.1 pair.2 hp hq r hr
    -- The parts of `u` that are in no pair are parts of `v`, which was ground from the start.
    have hparts (result : Result) (h : Grounds registry s (pairs.map Prod.fst) result) :
        Grounds registry s [u] result := by
      rintro t rfl
      obtain ⟨ht, hfirst⟩ := h t rfl
      refine ⟨ht, List.forall_mem_singleton.2 ?_⟩
      refine (ground_iff_of_isVariable_eq_false hu).2 fun p hp => ?_
      obtain hmem | ⟨q, hpair⟩ := mem_parts_or_mem_of_confront hconfront hp
      · exact (hground.of_leads (leads_of_mem_parts hv hmem)).of_extends ht.keeps
      · exact hfirst p (List.mem_map_of_mem hpair)
    obtain ⟨left, hleft, hgrounds⟩ := exists_solves_grounds hr hall (turned_refl pairs)
    obtain ⟨right, hright, hgrounds'⟩ := exists_solves_grounds hr hall (turned_swap pairs)
    have hswap := confront_swap hcu hcv hconfront
    exact .of_isVariable_eq_false hu hv ⟨_, .together hu hv hconfront hleft, hparts _ hgrounds⟩
      ⟨_, .together hv hu hswap hright, hparts _ hgrounds'⟩

/-- The end of a chain is ground just if its start is, so that it suffices to unify the ends. -/
theorem EitherWay.grounds_of_walk (hu : r.walk registry u = some a)
    (hv : r.walk registry v = some b) (h : EitherWay registry r (Grounds registry s [a]) a b) :
    EitherWay registry r (Grounds registry s [u]) u v := by
  have lift {x y : Term} {result : Result} (hsolves : Solves registry (.pair x y r) result)
      (hgrounds : Grounds registry s [a] result) : Grounds registry s [u] result := by
    rintro t rfl
    obtain ⟨ht, hground⟩ := hgrounds t rfl
    rw [List.forall_mem_singleton, ← ground_iff_of_walk hsolves.extends hu] at hground
    exact ⟨ht, List.forall_mem_singleton.2 hground⟩
  obtain ⟨a', b', ha', hb', ⟨left, hleft, hgrounds⟩, right, hright, hgrounds'⟩ := h
  rw [walk_of_walk hu, Option.some.injEq] at ha'
  rw [walk_of_walk hv, Option.some.injEq] at hb'
  subst ha' hb'
  exact ⟨a, b, hu, hv, ⟨left, hleft, lift hleft hgrounds⟩, right, hright, lift hright hgrounds'⟩

/-- Against a ground term the rules come to an end, in either order, and what they come to makes the
other term ground. The induction is on the ways into the ground term. -/
theorem eitherWay_grounds (hs : s.Acyclic registry) (hv : s.Ground registry v)
    (hcv : v.Canonical) (hcu : u.Canonical) (hr : Stage registry s r) :
    EitherWay registry r (Grounds registry s [u]) u v := by
  induction v using hs.wellFounded.transGen.induction generalizing u r with
  | _ v ih =>
    obtain ⟨a, ha⟩ := hr.acyclic.exists_walk u
    obtain ⟨b, hb⟩ := hr.acyclic.exists_walk v
    have hway := hv.reflTransGen_of_walk hr.keeps hb
    have hground : s.Ground registry b := hv.of_reflTransGen hway
    have hvarb := (hv.of_extends hr.keeps).isVariable_eq_false_of_walk hb
    have hcb : b.Canonical := hr.canonical.walk hb hcv
    refine .grounds_of_walk ha hb ?_
    cases hvar : registry.isVariable a with
    | true =>
      have hne : b ≠ a := by
        rintro rfl
        simp [hvarb] at hvar
      have hstage := hr.bind hvar (resolved_of_walk ha hvar) (hground.of_extends hr.keeps) hcb
      refine .of_isVariable (walk_of_walk ha) (walk_of_walk hb) hvar hne ?_ (by simp [hvarb])
      rintro t ⟨⟩
      refine ⟨hstage, List.forall_mem_singleton.2 fun x hx => ?_⟩
      have hlookup : (r.bind a b).lookup a = some b := by simp
      rw [Reaches, reachesBy_iff_of_lookup hvar hlookup] at hx
      exact hground.of_extends hstage.keeps x hx
    | false =>
      have hca : a.Canonical := hr.canonical.walk ha hcu
      refine eitherWay_of_confront hr hvar hvarb hca hcb hground fun p q hp hq r hr => ?_
      have hstep := leads_of_mem_parts (s := s) hvarb hq
      exact ih q (transGen_swap.1 (.tail' hway hstep)) (hground.of_leads hstep)
        (hcb.of_mem_parts hq) (hca.of_mem_parts hp) hr

end Unification

/-! ## Runs -/

namespace Unifier

variable {φ ψ : Type} [Reification.Extension ψ] {registry : Registry} {s t : Substitution}
  {u v : Term}

/-- What a run comes to that unified `u` with the term `v`, which was ground under `s`: bindings
without a cycle, under which `u` is ground and is reified to what `v` was reified to before. -/
structure Matched (unifier : Unifier φ ψ) (registry : Registry) (u v : Term)
    (s t : Substitution) : Prop where
  acyclic : t.Acyclic registry
  ground : Returns (fun limit => unifier.isGround registry limit u t) true
  reifies : ∃ value, unifier.Reifies registry u t value ∧ unifier.Reifies registry v s value

/-- Once both terms have the same image, the first one is reified to what the second one was. -/
theorem matched_of_image_eq (hs : s.Acyclic registry) (hv : s.Ground registry v)
    (ht : Unification.Stage registry s t) (hu : t.Ground registry u)
    (heq : ht.acyclic.image u = ht.acyclic.image v) :
    (standard : Unifier φ ψ).Matched registry u v s t where
  acyclic := ht.acyclic
  ground := (returns_isGround_iff ht.acyclic).2 hu
  reifies := by
    refine ⟨hs.image v, (reifies_iff ht.acyclic).2 ?_, reifies_image hs v⟩
    rw [heq, hv.image_eq hs ht.acyclic ht.keeps]

variable [Unification.Extension φ]

/-- Unification with a ground term returns, whichever of the two terms comes first. If it succeeds,
it makes the other term ground and equal to the ground one. -/
theorem unify_ground (hs : s.Acyclic registry) (hvalues : s.AllValues Term.Canonical)
    (hu : u.Canonical) (hv : v.Canonical)
    (hground : Returns (fun limit => (standard : Unifier φ ψ).isGround registry limit v s) true) :
    (∃ result, Returns (fun limit => (standard : Unifier φ ψ).unify registry limit u v s) result ∧
      ∀ t, result = .ok t → (standard : Unifier φ ψ).Matched registry u v s t) ∧
    (∃ result, Returns (fun limit => (standard : Unifier φ ψ).unify registry limit v u s) result ∧
      ∀ t, result = .ok t → (standard : Unifier φ ψ).Matched registry u v s t) ∧
    ∃ t, ((standard : Unifier φ ψ).unifySelf v s).result = .ok (.ok t) ∧
      (standard : Unifier φ ψ).Matched registry v v s t := by
  have hreaches := (returns_isGround_iff hs).1 hground
  have heither := Unification.eitherWay_grounds hs hreaches hv hu ⟨.refl s, hs, hvalues⟩
  refine ⟨?_, ?_, s, rfl, ?_⟩
  · obtain ⟨result, hsolves, hgrounds⟩ := heither.exists_solves
    refine ⟨result, returns_unify hsolves, ?_⟩
    rintro t rfl
    obtain ⟨ht, hall⟩ := hgrounds t rfl
    have hagrees := hsolves.agrees ⟨hu, hv, hvalues⟩ ht.acyclic (.refl t)
    exact matched_of_image_eq hs hreaches ht (hall u (.head _)) hagrees
  · obtain ⟨result, hsolves, hgrounds⟩ := heither.symm.exists_solves
    refine ⟨result, returns_unify hsolves, ?_⟩
    rintro t rfl
    obtain ⟨ht, hall⟩ := hgrounds t rfl
    have hagrees := hsolves.agrees ⟨hv, hu, hvalues⟩ ht.acyclic (.refl t)
    exact matched_of_image_eq hs hreaches ht (hall u (.head _)) hagrees.symm
  · exact matched_of_image_eq hs hreaches ⟨.refl s, hs, hvalues⟩ hreaches rfl

/-- A map under a key that is bound, and a set with an element that is in both terms. The set on the
left has a chain of variables in it. -/
theorem unify_ground_example :
    let s := (Substitution.empty.bind (.var (.fresh 0)) (.var (.fresh 1))).bind (.var (.fresh 2))
      (.atom (.int 7))
    let u : Term := .tuple [.map [(.var (.fresh 2), .var (.fresh 1))],
      .set [.atom (.int 1), .var (.fresh 0)]]
    let v : Term := .tuple [.map [(.var (.fresh 2), .list [.var (.fresh 2)])],
      .set [.atom (.int 1), .list [.var (.fresh 2)]]]
    let t := s.bind (.var (.fresh 1)) (.list [.var (.fresh 2)])
    (standard : Unifier Empty Empty).Matched .empty u v s t ∧
      Returns (fun limit => (standard : Unifier Empty Empty).unify .empty limit v u s) (.ok t) := by
  intro s u v t
  have hs : s.Acyclic .empty := by
    refine ((acyclic_empty .empty).bind_of_subterms ?_).bind_of_subterms ?_
    all_goals decide +kernel
  have hseven : (Term.atom (.int 7)).Canonical := by decide
  have hone : (Term.var (.fresh 1)).Canonical := by decide
  have hvalues := ((allValues_empty Term.Canonical).bind hone (.var (.fresh 0))).bind hseven
    (.var (.fresh 2))
  have hground : ((standard : Unifier Empty Empty).isGround .empty 20 v s).result = .ok true := by
    decide +kernel
  obtain ⟨⟨result, hreturns, hmatched⟩, -, -⟩ := unify_ground (φ := Empty) (ψ := Empty) hs hvalues
    (u := u) (by decide +kernel) (by decide +kernel) (returns_isGround_of_result 20 hground)
  have hrun : ((standard : Unifier Empty Empty).unify .empty 20 u v s).result = .ok (.ok t) := by
    decide +kernel
  have hback : ((standard : Unifier Empty Empty).unify .empty 20 v u s).result = .ok (.ok t) := by
    decide +kernel
  refine ⟨hmatched t (hreturns.unique (Procedure.returns_of_answered hrun)), ?_⟩
  exact Procedure.returns_of_answered hback

end Unifier

end LogicTerms
