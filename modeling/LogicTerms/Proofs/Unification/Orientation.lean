import LogicTerms.Proofs.Unification.Failure
import LogicTerms.Proofs.Unification.Symmetry

/-!
# Which side a clash calls left

A variable on the right is unified as if it stood on the left, and its value stays there. So two
terms may clash in the order in which they were given or in the other one. The order is restored if
on the way to them a variable meets a term that is none: the variable comes first then, whichever
side it stands on.
-/

namespace LogicTerms

open Substitution

/-- A clash of two terms is none of the same terms the other way round. -/
theorem Clash.Between.ne_of_swap {clash clash' : Clash} {a b : Term} (h : clash.Between a b)
    (h' : clash'.Between b a) : clash' ≠ clash := by
  intro heq
  cases h <;> cases h' <;> simp_all

namespace Unification

variable {registry : Registry} {s t : Substitution} {u v u' v' a b : Term}
  {pairs : List (Term × Term)} {task : Task}

/-! ## Tasks that fail -/

def Task.on (t : Substitution) : Task → Task
  | .pair u v _ => .pair u v t
  | .pairs list _ => .pairs list t

def Task.swap : Task → Task
  | .pair u v s => .pair v u s
  | .pairs list s => .pairs (list.map Prod.swap) s

/-- A free variable is bound to whatever it meets, so that no pair with one at the end of a chain
fails. -/
theorem FailsAt.isVariable_of_resolved (h : FailsAt registry (.pair u v s) a b)
    (hu : s.Resolved registry u) (hv : s.Resolved registry v) :
    registry.isVariable u = false ∧ registry.isVariable v = false := by
  have left {u v : Term} (h : FailsAt registry (.pair u v s) a b) (hu : s.Resolved registry u) :
      registry.isVariable u = false := by
    cases h with
    | apart hvar | swapped hvar | together hvar => exact hvar
    | bound _ hu' hne =>
      rw [walk_of_resolved hu, Option.some.injEq] at hu'
      exact absurd hu'.symm hne
  have hvar := left h hu
  refine ⟨hvar, ?_⟩
  cases h with
  | apart _ hvarv | together _ hvarv => exact hvarv
  | bound hvar' => simp [hvar] at hvar'
  | swapped _ _ h => exact left h hv

/-- Under substitutions with the same classes a task fails at the same terms. -/
theorem FailsAt.of_alike (h : FailsAt registry task a b) (hall : task.All Term.Canonical)
    (ht : Alike registry task.under t) : FailsAt registry (task.on t) a b := by
  induction h generalizing t with
  | apart hu hv hclash => exact .apart hu hv hclash
  | bound hu hu' hne hv h ih =>
    obtain ⟨hvaru, hvarv⟩ := h.isVariable_of_resolved (resolved_of_walk hu') (resolved_of_walk hv)
    exact .bound hu (ht.walk_of_isVariable_eq_false hu' hvaru) hne
      (ht.walk_of_isVariable_eq_false hv hvarv) (ih (hall.of_walk hu' hv) ht)
  | swapped hu hv _ ih => exact .swapped hu hv (ih hall.symm ht)
  | together hu hv hpairs _ ih =>
    exact .together hu hv hpairs (ih (hall.of_confront Term.canonical_parts hpairs) ht)
  | first _ ih => exact .first (ih hall.first ht)
  | later h _ ih =>
    obtain ⟨t', hsolves, ht'⟩ := (h.mirrored hall.first t ht).exists_alike_of_turned (.inl rfl)
    exact .later hsolves (ih (hall.rest Term.canonical_parts h) ht')

/-! ## Crossings -/

/-- On the way to the two terms at which a task fails, a variable meets a term that is none. -/
inductive Crossed (registry : Registry) : Task → Prop
  | here {u v : Term} {s : Substitution} (h : registry.isVariable u ≠ registry.isVariable v) :
      Crossed registry (.pair u v s)
  | bound {u v u' v' : Term} {s : Substitution} (hu : registry.isVariable u = true)
      (hv : registry.isVariable v = true) (hu' : s.walk registry u = some u')
      (hv' : s.walk registry v = some v') (h : Crossed registry (.pair u' v' s)) :
      Crossed registry (.pair u v s)
  | together {u v : Term} {s : Substitution} {pairs : List (Term × Term)}
      (hu : registry.isVariable u = false) (hv : registry.isVariable v = false)
      (hpairs : confront u v = .ok pairs) (h : Crossed registry (.pairs pairs s)) :
      Crossed registry (.pair u v s)
  | first {u v : Term} {s : Substitution} {pairs : List (Term × Term)} {clash : Clash}
      (h : Solves registry (.pair u v s) (.error clash))
      (hcrossed : Crossed registry (.pair u v s)) :
      Crossed registry (.pairs ((u, v) :: pairs) s)
  | later {u v : Term} {s s' : Substitution} {pairs : List (Term × Term)}
      (h : Solves registry (.pair u v s) (.ok s')) (hcrossed : Crossed registry (.pairs pairs s')) :
      Crossed registry (.pairs ((u, v) :: pairs) s)

theorem crossed_bound_iff (hu : registry.isVariable u = true) (hv : registry.isVariable v = true)
    (hu' : s.walk registry u = some u') (hv' : s.walk registry v = some v') :
    Crossed registry (.pair u v s) ↔ Crossed registry (.pair u' v' s) := by
  constructor
  · intro h
    cases h with
    | here hne => simp [hu, hv] at hne
    | bound _ _ hwalku hwalkv h =>
      rw [hu', Option.some.injEq] at hwalku
      rw [hv', Option.some.injEq] at hwalkv
      rwa [hwalku, hwalkv]
    | together hvar => simp [hu] at hvar
  · exact .bound hu hv hu' hv'

theorem crossed_together_iff (hu : registry.isVariable u = false)
    (hv : registry.isVariable v = false) (hpairs : confront u v = .ok pairs) :
    Crossed registry (.pair u v s) ↔ Crossed registry (.pairs pairs s) := by
  constructor
  · intro h
    cases h with
    | here hne => simp [hu, hv] at hne
    | bound hvar => simp [hu] at hvar
    | together _ _ hpairs' h =>
      rw [hpairs, Except.ok.injEq] at hpairs'
      rwa [hpairs']
  · exact .together hu hv hpairs

theorem not_crossed_of_apart {clash : Clash} (hu : registry.isVariable u = false)
    (hv : registry.isVariable v = false) (hclash : confront u v = .error clash) :
    ¬ Crossed registry (.pair u v s) := by
  intro h
  cases h with
  | here hne => simp [hu, hv] at hne
  | bound hvar => simp [hu] at hvar
  | together _ _ hpairs => simp [hclash] at hpairs

/-- If the first pair fails, it decides. -/
theorem crossed_first_iff {clash : Clash} (h : Solves registry (.pair u v s) (.error clash)) :
    Crossed registry (.pairs ((u, v) :: pairs) s) ↔ Crossed registry (.pair u v s) := by
  constructor
  · intro hcrossed
    cases hcrossed with
    | first _ hcrossed => exact hcrossed
    | later h' => cases h.unique h'
  · exact .first h

/-- If the first pair succeeds, the others decide from its substitution on. -/
theorem crossed_later_iff {s' : Substitution} (h : Solves registry (.pair u v s) (.ok s')) :
    Crossed registry (.pairs ((u, v) :: pairs) s) ↔ Crossed registry (.pairs pairs s') := by
  constructor
  · intro hcrossed
    cases hcrossed with
    | first h' => cases h.unique h'
    | later h' hcrossed =>
      cases h.unique h'
      exact hcrossed
  · exact .later h

/-- A task with its sides exchanged fails at the same two terms. They keep their order if a variable
meets a term that is none on the way, and are exchanged as well otherwise. -/
theorem FailsAt.swap (h : FailsAt registry task a b) (hall : task.All Term.Canonical)
    (ht : Alike registry task.under t) :
    (Crossed registry task → FailsAt registry (task.swap.on t) a b) ∧
      (¬ Crossed registry task → FailsAt registry (task.swap.on t) b a) := by
  induction h generalizing t with
  | apart hu hv hclash =>
    obtain ⟨clash', hclash', -⟩ := exists_confront_swap_of_error hall.1 hall.2.1 hclash
    exact ⟨fun hcrossed => absurd hcrossed (not_crossed_of_apart hu hv hclash),
      fun _ => .apart hv hu hclash'⟩
  | @bound u v u' v' a b s hu hu' hne hv h ih =>
    obtain ⟨hvaru, hvarv⟩ := h.isVariable_of_resolved (resolved_of_walk hu') (resolved_of_walk hv)
    have hwalku := ht.walk_of_isVariable_eq_false hu' hvaru
    have hwalkv := ht.walk_of_isVariable_eq_false hv hvarv
    cases hvar : registry.isVariable v with
    | true =>
      have hnev : v' ≠ v := fun heq => by simp [heq, hvar] at hvarv
      rw [crossed_bound_iff hu hvar hu' hv]
      exact (ih (hall.of_walk hu' hv) ht).imp
        (fun h hcrossed => .bound hvar hwalkv hnev hwalku (h hcrossed))
        (fun h hcrossed => .bound hvar hwalkv hnev hwalku (h hcrossed))
    | false =>
      -- The variable comes first in both orders.
      have hcrossed : Crossed registry (.pair u v s) := .here (by simp [hu, hvar])
      have hfails := (FailsAt.bound hu hu' hne hv h).of_alike hall ht
      exact ⟨fun _ => .swapped hvar hu hfails, fun hstraight => absurd hcrossed hstraight⟩
  | swapped hu hv h =>
    exact ⟨fun _ => h.of_alike hall.symm ht,
      fun hstraight => absurd (.here (by simp [hu, hv])) hstraight⟩
  | together hu hv hpairs _ ih =>
    have hswap := confront_swap hall.1 hall.2.1 hpairs
    rw [crossed_together_iff hu hv hpairs]
    exact (ih (hall.of_confront Term.canonical_parts hpairs) ht).imp
      (fun h hcrossed => .together hv hu hswap (h hcrossed))
      (fun h hcrossed => .together hv hu hswap (h hcrossed))
  | first h ih =>
    obtain ⟨clash, -, hsolves⟩ := h.exists_solves
    rw [crossed_first_iff hsolves]
    exact (ih hall.first ht).imp (fun h hcrossed => .first (h hcrossed))
      (fun h hcrossed => .first (h hcrossed))
  | later h _ ih =>
    obtain ⟨t', hsolves, ht'⟩ := (h.mirrored hall.first t ht).exists_alike_of_turned (.inr rfl)
    rw [crossed_later_iff h]
    exact (ih (hall.rest Term.canonical_parts h) ht').imp
      (fun h hcrossed => .later hsolves (h hcrossed))
      (fun h hcrossed => .later hsolves (h hcrossed))

/-- A bound variable on the right goes to the left, and so does its value. -/
theorem solves_bound_right_iff {w : Term} {result : Result} (hu : registry.isVariable u = false)
    (hv : registry.isVariable v = true) (hw : s.walk registry v = some w) (hne : w ≠ v) :
    Solves registry (.pair u v s) result ↔ Solves registry (.pair w u s) result := by
  have hself : s.walk registry u = some u := walk_of_isVariable_eq_false hu
  constructor
  · intro h
    cases h with
    | unbound hvar | bound hvar => simp [hu] at hvar
    | apart _ hvar | together _ hvar => simp [hv] at hvar
    | swapped _ _ h =>
      cases h with
      | unbound _ hfree =>
        rw [walk_of_resolved fun _ => hfree, Option.some.injEq] at hw
        exact absurd hw.symm hne
      | bound _ hw' _ hself' h =>
        rw [hw, Option.some.injEq] at hw'
        rw [hself, Option.some.injEq] at hself'
        rwa [hw', hself']
      | swapped hvar | apart hvar | together hvar => simp [hv] at hvar
  · exact fun h => .swapped hu hv (.bound hv hw hne hself h)

end Unification

/-! ## Runs -/

namespace Unifier

variable {φ ψ : Type} [Unification.Extension φ] {registry : Registry} {s : Substitution}
  {u v w : Term}

/-- A bound variable on the right is unified as its value on the left. So unification fails with the
clash of the term and the value just if a variable meets a term that is none on the way down from
them. Otherwise it fails at the same two terms, but the clash describes them the other way round. -/
theorem unify_bound_right (hs : s.Acyclic registry) (hvalues : s.AllValues Term.Canonical)
    (hu : u.Canonical) (hv : v.Canonical) (hvaru : registry.isVariable u = false)
    (hvarv : registry.isVariable v = true) (hw : s.walk registry v = some w)
    (hvarw : registry.isVariable w = false) :
    (∀ result, Returns (fun limit => (standard : Unifier φ ψ).unify registry limit u v s) result ↔
      Returns (fun limit => (standard : Unifier φ ψ).unify registry limit w u s) result) ∧
    ∀ limit clash,
      ((standard : Unifier φ ψ).unify registry limit u w s).result = .ok (.error clash) →
      ∃ a b clash', Unification.FailsAt registry (.pair u w s) a b ∧ clash.Between a b ∧
        Returns (fun limit => (standard : Unifier φ ψ).unify registry limit u v s)
          (.error clash') ∧
        (clash' = clash ↔ Unification.Crossed registry (.pair u w s)) ∧
        (clash' ≠ clash → clash'.Between b a) := by
  have hne : w ≠ v := fun heq => by simp [heq, hvarv] at hvarw
  have hright (result : Unification.Result) :
      Unification.Solves registry (.pair u v s) result ↔
        Unification.Solves registry (.pair w u s) result :=
    Unification.solves_bound_right_iff hvaru hvarv hw hne
  refine ⟨fun result => returns_unify_iff.trans ((hright result).trans returns_unify_iff.symm), ?_⟩
  intro limit clash hrun
  obtain ⟨a, b, hfails, hclash⟩ := (solves_of_unify hrun).exists_failsAt
  have hbetween := hfails.between hclash
  obtain ⟨hcrossed, hstraight⟩ :=
    hfails.swap ⟨hu, hvalues.walk hw hv, hvalues⟩ (.refl hs.walkable)
  by_cases h : Unification.Crossed registry (.pair u w s)
  · obtain ⟨clash', hclash', hsolves⟩ := (hcrossed h).exists_solves
    rw [hclash, Except.error.injEq] at hclash'
    subst hclash'
    exact ⟨a, b, clash, hfails, hbetween, returns_unify ((hright _).2 hsolves),
      iff_of_true rfl h, absurd rfl⟩
  · obtain ⟨clash', hclash', hsolves⟩ := (hstraight h).exists_solves
    have hbetween' := (hstraight h).between hclash'
    exact ⟨a, b, clash', hfails, hbetween, returns_unify ((hright _).2 hsolves),
      iff_of_false (hbetween.ne_of_swap hbetween') h, fun _ => hbetween'⟩

/-- Inside of the tuples an atom meets a variable, so that both orders come to the same clash. The
same two atoms are exchanged if they meet at once. -/
theorem unify_bound_right_example :
    let s := (Substitution.empty.bind (.var (.fresh 0)) (.tuple [.var (.fresh 1)])).bind
      (.var (.fresh 1)) (.atom (.int 2))
    Returns (fun limit => (standard : Unifier Empty Empty).unify .empty limit
        (.tuple [.atom (.int 1)]) (.var (.fresh 0)) s) (.error (.atomMismatch (.int 2) (.int 1))) ∧
      ∃ clash', Returns (fun limit => (standard : Unifier Empty Empty).unify .empty limit
        (.atom (.int 1)) (.var (.fresh 1)) s) (.error clash') ∧
        clash' ≠ .atomMismatch (.int 1) (.int 2) := by
  intro s
  have hs : s.Acyclic .empty := by
    refine ((acyclic_empty .empty).bind_of_subterms ?_).bind_of_subterms ?_
    all_goals decide +kernel
  have hvalues : s.AllValues Term.Canonical := by
    refine ((allValues_empty _).bind ?_ _).bind ?_ _
    all_goals decide
  refine ⟨?_, ?_⟩
  · have hwalk : s.walk .empty (.var (.fresh 0)) = some (.tuple [.var (.fresh 1)]) := by
      decide +kernel
    have hrun : ((standard : Unifier Empty Empty).unify .empty 20 (.tuple [.atom (.int 1)])
        (.tuple [.var (.fresh 1)]) s).result =
        .ok (.error (.atomMismatch (.int 2) (.int 1))) := by decide +kernel
    have hinner : ((standard : Unifier Empty Empty).unify .empty 20 (.atom (.int 1))
        (.var (.fresh 1)) s).result =
        .ok (.error (.atomMismatch (.int 2) (.int 1))) := by decide +kernel
    obtain ⟨-, -, clash', -, -, hreturns, hsame, -⟩ :=
      (unify_bound_right hs hvalues (by decide) (by decide) rfl rfl hwalk rfl).2 20 _ hrun
    rwa [hsame.2 (.together rfl rfl rfl (.first (solves_of_unify hinner) (.here (by decide))))]
      at hreturns
  · have hwalk : s.walk .empty (.var (.fresh 1)) = some (.atom (.int 2)) := by decide +kernel
    have hrun : ((standard : Unifier Empty Empty).unify .empty 20 (.atom (.int 1))
        (.atom (.int 2)) s).result =
        .ok (.error (.atomMismatch (.int 1) (.int 2))) := by decide +kernel
    obtain ⟨-, -, clash', -, -, hreturns, hsame, -⟩ :=
      (unify_bound_right hs hvalues (by decide) (by decide) rfl rfl hwalk rfl).2 20 _ hrun
    exact ⟨clash', hreturns, hsame.not.2 (Unification.not_crossed_of_apart rfl rfl rfl)⟩

/-- Against the right map itself a key of the left map is missing. Against a variable that is bound
to it, the key that is reported as missing from the right map is one of its own. -/
theorem not_key_of_left :
    let key : Term := .atom (.int 1)
    let other : Term := .atom (.int 2)
    let left := [(key, .atom (.int 0))]
    let right := [(other, .atom (.int 0))]
    let v : Term := .var (.named (.atom (.str "x")))
    let s := Substitution.empty.bind v (.map right)
    s.Acyclic .empty ∧ s.walk .empty v = some (.map right) ∧
      Returns (fun limit => (standard : Unifier Empty Empty).unify .empty limit (.map left)
        (.map right) s) (.error (.missingKey key)) ∧
      ∃ clash, Returns (fun limit => (standard : Unifier Empty Empty).unify .empty limit (.map left)
        v s) (.error clash) ∧
        ¬ ∃ key ∈ Entries.keys left, key ∉ Entries.keys right ∧ clash = .missingKey key := by
  intro key other left right v s
  have hvalue : ((standard : Unifier Empty Empty).unify .empty 20 (.map left) (.map right)
      s).result = .ok (.error (.missingKey key)) := by decide +kernel
  have hbound : ((standard : Unifier Empty Empty).unify .empty 20 (.map left) v s).result =
      .ok (.error (.missingKey other)) := by decide +kernel
  refine ⟨(acyclic_empty .empty).bind_of_subterms (by decide +kernel), by decide +kernel,
    returns_unify (solves_of_unify hvalue), _, returns_unify (solves_of_unify hbound), ?_⟩
  rintro ⟨key', hleft, -, heq⟩
  cases heq
  exact absurd hleft (by decide +kernel)

end Unifier

end LogicTerms
