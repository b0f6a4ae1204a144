import LogicTerms.Proofs.Unification.Runs
import LogicTerms.Proofs.Unification.Sides

/-!
# Unification is symmetric

Two terms the other way round unify just if the terms do. The runs bind variables in different
directions, so that their substitutions differ; but at every moment both have the same classes of
variables, with the same terms at the ends of their chains. Hence all that is not a variable meets
the same terms in both runs.
-/

namespace LogicTerms

open Substitution

namespace Unification

variable {registry : Registry} {s t : Substitution} {u v : Term} {result : Result}
  {pairs : List (Term × Term)}

/-- Both results are clashes, of the same kind, or both are substitutions, with the same classes. -/
def Mirrors (registry : Registry) : Result → Result → Prop
  | .error clash, .error clash' => clash.SameKind clash'
  | .ok s, .ok t => Alike registry s t
  | _, _ => False

/-- From every substitution with the same classes as the one of the task, and in every order of its
terms, the rules come to a result that mirrors a given one. -/
def Task.Mirrored (registry : Registry) (result : Result) : Task → Prop
  | .pair u v s => ∀ t, Alike registry s t → EitherWay registry t (Mirrors registry result) u v
  | .pairs list s => ∀ t list', Alike registry s t → Turned list list' →
      ∃ result', Solves registry (.pairs list' t) result' ∧ Mirrors registry result result'

/-- What succeeds in either order succeeds for a pair that is turned round. -/
theorem EitherWay.exists_alike_of_turned {pair : Term × Term}
    (h : EitherWay registry t (Mirrors registry (.ok s)) u v)
    (hpair : pair = (u, v) ∨ pair = (v, u)) :
    ∃ t', Solves registry (.pair pair.1 pair.2 t) (.ok t') ∧ Alike registry s t' := by
  obtain ⟨result', hsolves, hmirrors⟩ := h.exists_solves_of_turned hpair
  cases result' with
  | error clash => exact hmirrors.elim
  | ok t' => exact ⟨t', hsolves, hmirrors⟩

/-! ## Variables -/

/-- A variable that is not bound joins the same two classes from either side. -/
theorem mirrored_of_unbound {v' : Term} (hu : registry.isVariable u = true)
    (hfree : s.lookup u = none) (hv : s.walk registry v = some v') :
    Task.Mirrored registry (.ok (if u = v' then s else s.bind u v')) (.pair u v s) := by
  intro t hst
  have hself : s.walk registry u = some u := walk_of_resolved fun _ => hfree
  obtain ⟨a, ha⟩ := hst.walkable_right u
  obtain ⟨b, hb⟩ := hst.walkable_right v
  have hvar : registry.isVariable a = true := hst.isVariable_eq hself ha ▸ hu
  split
  next heq =>
    subst heq
    -- Both chains have one end in either run, and nothing is bound.
    obtain rfl : a = b := by
      have hends : t.walk registry u = t.walk registry v := by rw [← hst.classes, hself, hv]
      rw [ha, hb] at hends
      exact Option.some.inj hends
    have hsolves := Solves.unbound hvar (resolved_of_walk ha hvar) (walk_of_walk ha)
    rw [if_pos rfl] at hsolves
    exact .of_walk_eq ha hb hsolves hst
  next heq =>
    have hne : v' ≠ u := Ne.symm heq
    refine .of_isVariable ha hb hvar (hst.ne_of_walk hself hv ha hb hne)
      (hst.bind hself hv ha hb hu hne) fun hvarb => ?_
    have hvar' : registry.isVariable v' = true := (hst.isVariable_eq hv hb).trans hvarb
    exact hst.bind_flipped hself hv ha hb hu hvar' hne

/-! ## The rules -/

/-- The rules are symmetric, by induction on them. -/
theorem Solves.mirrored {task : Task} (h : Solves registry task result)
    (hall : task.All Term.Canonical) : task.Mirrored registry result := by
  induction h with
  | unbound hu hfree hv => exact mirrored_of_unbound hu hfree hv
  | bound _ hu' _ hv _ ih =>
    intro t hst
    have hends := ih (hall.of_walk hu' hv) t hst
    exact hends.congr (hst.walk_of_walk hu').symm (hst.walk_of_walk hv).symm
  | swapped _ _ _ ih =>
    intro t hst
    exact (ih hall.symm t hst).symm
  | apart hu hv hclash =>
    intro t hst
    obtain ⟨clash', hclash', hsame⟩ := exists_confront_swap_of_error hall.1 hall.2.1 hclash
    exact .of_isVariable_eq_false hu hv ⟨_, .apart hu hv hclash, .refl _⟩
      ⟨_, .apart hv hu hclash', hsame⟩
  | @together u v s pairs result hu hv hpairs _ ih =>
    intro t hst
    have hmirrored := ih (hall.of_confront Term.canonical_parts hpairs) t
    obtain ⟨left, hleft, hmirrors⟩ := hmirrored pairs hst (turned_refl pairs)
    obtain ⟨right, hright, hmirrors'⟩ := hmirrored (pairs.map Prod.swap) hst (turned_swap pairs)
    have hswap := confront_swap hall.1 hall.2.1 hpairs
    exact .of_isVariable_eq_false hu hv ⟨_, .together hu hv hpairs hleft, hmirrors⟩
      ⟨_, .together hv hu hswap hright, hmirrors'⟩
  | nil =>
    intro t list hst hturned
    cases hturned
    exact ⟨_, .nil, hst⟩
  | clash _ ih =>
    intro t list hst hturned
    cases hturned with
    | @cons _ pair _ rest hpair hrest =>
      obtain ⟨result', hsolves, hmirrors⟩ := (ih hall.first t hst).exists_solves_of_turned hpair
      cases result' with
      | ok t' => exact hmirrors.elim
      | error clash' => exact ⟨_, .clash hsolves, hmirrors⟩
  | @cons u v pairs s s' result h _ ih ihrest =>
    intro t list hst hturned
    cases hturned with
    | @cons _ pair _ rest hpair hrest =>
      obtain ⟨t', hsolves, ht'⟩ := (ih hall.first t hst).exists_alike_of_turned hpair
      have hothers := ihrest (hall.rest Term.canonical_parts h)
      obtain ⟨result', hsolves', hmirrors'⟩ := hothers t' rest ht' hrest
      exact ⟨result', .cons hsolves hsolves', hmirrors'⟩

end Unification

/-! ## Runs -/

namespace Unifier

variable {φ ψ : Type} [Unification.Extension φ] {registry : Registry} {s : Substitution}
  {u v : Term}

/-- Unification returns for two terms just if it returns for them the other way round. It fails
alike, or it succeeds with as many bindings and the same classes of variables. -/
theorem unify_symmetric (hs : s.Acyclic registry) (hvalues : s.AllValues Term.Canonical)
    (hu : u.Canonical) (hv : v.Canonical) :
    (∀ limit result,
      ((standard : Unifier φ ψ).unify registry limit u v s).result = .ok result →
      ∃ result', Returns (fun limit => (standard : Unifier φ ψ).unify registry limit v u s) result' ∧
        Unification.Mirrors registry result result') ∧
    ∀ result, ((standard : Unifier φ ψ).unifySelf u s).result = .ok result →
      Unification.Mirrors registry result result := by
  have hrefl : Alike registry s s := .refl hs.walkable
  refine ⟨?_, ?_⟩
  · intro limit result hrun
    have hmirrored := (solves_of_unify hrun).mirrored ⟨hu, hv, hvalues⟩
    obtain ⟨result', hsolves, hmirrors⟩ := (hmirrored s hrefl).symm.exists_solves
    exact ⟨result', returns_unify hsolves, hmirrors⟩
  · intro result hrun
    cases hrun
    exact hrefl

/-- Two variables are bound to each other, in one direction or in the other, before one of them
meets a set; and two maps of one size have no key in common. -/
theorem unify_symmetric_example :
    (∃ result', Returns (fun limit => (standard : Unifier Empty Empty).unify .empty limit
        (.tuple [.var (.fresh 1), .set [.atom (.int 1)]])
        (.tuple [.var (.fresh 0), .var (.fresh 0)]) .empty) result' ∧
      Unification.Mirrors .empty (.ok ((Substitution.empty.bind (.var (.fresh 0))
        (.var (.fresh 1))).bind (.var (.fresh 1)) (.set [.atom (.int 1)]))) result') ∧
    ∃ result', Returns (fun limit => (standard : Unifier Empty Empty).unify .empty limit
        (.map [(.atom (.int 2), .var (.fresh 0))]) (.map [(.atom (.int 1), .var (.fresh 0))])
        .empty) result' ∧
      Unification.Mirrors .empty (.error (.missingKey (.atom (.int 1)))) result' := by
  refine ⟨?_, ?_⟩
  · exact (unify_symmetric (acyclic_empty _) (allValues_empty _) (by decide) (by decide)).1 20 _
      (by decide +kernel)
  · exact (unify_symmetric (acyclic_empty _) (allValues_empty _) (by decide) (by decide)).1 20 _
      (by decide +kernel)

end Unifier

end LogicTerms
