import LogicTerms.Proofs.Substitution.Walk

/-!
# Classes of variables

Chains of bindings lead from variables to an end that they share, which is a variable that is not
bound or another term. Substitutions that bind variables to each other in different directions may
still have the same classes of variables, with the same terms at their ends.
-/

namespace LogicTerms

theorem Entries.length_insert {key : Term} {entries : List (Term × Term)}
    (h : lookup key entries = none) (value : Term) :
    (insert key value entries).length = entries.length + 1 := by
  induction entries with
  | nil => rfl
  | cons entry entries ih => grind [insert, lookup, Term.compare_eq_iff]

namespace Substitution

variable {registry : Registry} {s t : Substitution} {a b x y value : Term} {limit : Nat}

theorem size_bind (h : s.lookup x = none) (value : Term) : (s.bind x value).size = s.size + 1 :=
  Entries.length_insert h value

/-! ## Chains that end -/

def Walkable (registry : Registry) (s : Substitution) : Prop :=
  ∀ a, ∃ b, s.walk registry a = some b

/-- Without cycles every chain of bindings ends. -/
theorem Acyclic.walkable (hs : s.Acyclic registry) : s.Walkable registry := hs.exists_walk

theorem walk_of_walk (h : s.walk registry a = some b) : s.walk registry b = some b :=
  walk_of_resolved (resolved_of_walk h)

namespace Walkable

theorem walk_of_lookup (hs : s.Walkable registry) (hx : registry.isVariable x = true)
    (h : s.lookup x = some value) : s.walk registry x = s.walk registry value := by
  obtain ⟨b, hb⟩ := hs x
  have hstep : s.follow registry s.size value = some b := by
    rwa [walk, follow, if_pos hx, h] at hb
  rw [hb]
  exact (follow_mono hstep (Nat.le_succ s.size)).symm

/-- Under further bindings a term and the end of its chain have the same end. -/
theorem walk_of_extends (ht : t.Walkable registry) (hext : t.Extends s)
    (h : s.walk registry a = some b) : t.walk registry a = t.walk registry b := by
  refine walk_preserves (P := fun c => t.walk registry a = t.walk registry c) ?_ h rfl
  intro x value hx hvalue heq
  exact heq.trans (ht.walk_of_lookup hx (hext x value hvalue))

end Walkable

/-! ## One more binding -/

theorem Resolved.bind (hb : s.Resolved registry b) (hne : b ≠ x) (value : Term) :
    (s.bind x value).Resolved registry b := by
  intro hvar
  rw [lookup_bind, if_neg hne]
  exact hb hvar

/-- The chains that ended at a variable are prolonged by one term if it is bound to the end of
another chain. -/
theorem follow_bind (hx : registry.isVariable x = true) (hfree : s.lookup x = none)
    (hy : s.Resolved registry y) (hne : y ≠ x) (h : s.follow registry limit a = some b) :
    (s.bind x y).follow registry (limit + 1) a = some (if b = x then y else b) := by
  have last {c : Term} (hc : s.Resolved registry c) (limit : Nat) :
      (s.bind x y).follow registry (limit + 2) c = some (if c = x then y else c) := by
    split
    next heq =>
      subst heq
      rw [follow, if_pos hx, lookup_bind, if_pos rfl]
      exact follow_of_resolved (hy.bind hne y) limit
    next hcx => exact follow_of_resolved (hc.bind hcx y) (limit + 1)
  fun_induction follow registry s limit a with
  | case1 => simp at h
  | case2 limit a hvar next hlookup ih =>
    have hax : a ≠ x := by
      rintro rfl
      simp [hfree] at hlookup
    rw [follow, if_pos hvar, lookup_bind, if_neg hax, hlookup]
    exact ih h
  | case3 limit a hvar hlookup =>
    cases h
    exact last (fun _ => hlookup) limit
  | case4 limit a hvar =>
    cases h
    exact last (fun ha => absurd ha hvar) limit

/-- Where all chains end once a variable is bound to the end of another chain. -/
theorem walk_bind (hx : registry.isVariable x = true) (hfree : s.lookup x = none)
    (hy : s.Resolved registry y) (hne : y ≠ x) (h : s.walk registry a = some b) :
    (s.bind x y).walk registry a = some (if b = x then y else b) := by
  rw [walk, size_bind hfree]
  exact follow_bind hx hfree hy hne h

def EndsAt (registry : Registry) (s : Substitution) (x y a : Term) : Prop :=
  s.walk registry a = some x ∨ s.walk registry a = some y

theorem EndsAt.comm : s.EndsAt registry x y a ↔ s.EndsAt registry y x a := Or.comm

/-- A binding joins two classes and leaves all others as they are. -/
theorem walk_bind_eq_iff (hs : s.Walkable registry) (hx : registry.isVariable x = true)
    (hfree : s.lookup x = none) (hy : s.Resolved registry y) (hne : y ≠ x) (a b : Term) :
    (s.bind x y).walk registry a = (s.bind x y).walk registry b ↔
      s.walk registry a = s.walk registry b ∨
        s.EndsAt registry x y a ∧ s.EndsAt registry x y b := by
  obtain ⟨a', ha⟩ := hs a
  obtain ⟨b', hb⟩ := hs b
  rw [walk_bind hx hfree hy hne ha, walk_bind hx hfree hy hne hb, EndsAt, EndsAt, ha, hb]
  simp only [Option.some.injEq]
  grind

/-! ## The same classes -/

/-- Two substitutions with as many bindings, whose chains end alike: both at a variable, or both at
the same other term, and two chains have one end under both or under none. -/
structure Alike (registry : Registry) (s t : Substitution) : Prop where
  size_eq : s.size = t.size
  ends (a : Term) : ∃ b c, s.walk registry a = some b ∧ t.walk registry a = some c ∧
    registry.isVariable b = registry.isVariable c ∧ (registry.isVariable b = false → b = c)
  classes (a b : Term) : s.walk registry a = s.walk registry b ↔
    t.walk registry a = t.walk registry b

namespace Alike

theorem refl (hs : s.Walkable registry) : Alike registry s s where
  size_eq := rfl
  ends a := by
    obtain ⟨b, hb⟩ := hs a
    exact ⟨b, b, hb, hb, rfl, fun _ => rfl⟩
  classes _ _ := Iff.rfl

theorem walkable_left (h : Alike registry s t) : s.Walkable registry := by
  intro a
  obtain ⟨b, -, hb, -⟩ := h.ends a
  exact ⟨b, hb⟩

theorem walkable_right (h : Alike registry s t) : t.Walkable registry := by
  intro a
  obtain ⟨-, c, -, hc, -⟩ := h.ends a
  exact ⟨c, hc⟩

theorem isVariable_eq (h : Alike registry s t) (hb : s.walk registry a = some b)
    (hx : t.walk registry a = some x) : registry.isVariable b = registry.isVariable x := by
  obtain ⟨b', x', hb', hx', hvar, -⟩ := h.ends a
  rw [hb, Option.some.injEq] at hb'
  rw [hx, Option.some.injEq] at hx'
  rw [hb', hx', hvar]

/-- Chains that end at a term other than a variable end at the same term. -/
theorem eq_of_isVariable_eq_false (h : Alike registry s t) (hb : s.walk registry a = some b)
    (hx : t.walk registry a = some x) (hvar : registry.isVariable b = false) : b = x := by
  obtain ⟨b', x', hb', hx', -, heq⟩ := h.ends a
  rw [hb, Option.some.injEq] at hb'
  rw [hx, Option.some.injEq] at hx'
  subst hb' hx'
  exact heq hvar

theorem walk_of_isVariable_eq_false (h : Alike registry s t) (hb : s.walk registry a = some b)
    (hvar : registry.isVariable b = false) : t.walk registry a = some b := by
  obtain ⟨c, hc⟩ := h.walkable_right a
  rw [hc, h.eq_of_isVariable_eq_false hb hc hvar]

/-- The end of a chain under one substitution is in the class of the chain under the other. -/
theorem walk_of_walk (h : Alike registry s t) (hb : s.walk registry a = some b) :
    t.walk registry b = t.walk registry a := by
  rw [← h.classes, Substitution.walk_of_walk hb, hb]

/-- The terms whose chains share an end are the same under both substitutions. -/
theorem walk_eq_some_iff (h : Alike registry s t) (hb : s.walk registry a = some b)
    (hx : t.walk registry a = some x) (c : Term) :
    s.walk registry c = some b ↔ t.walk registry c = some x := by
  rw [← hb, ← hx]
  exact h.classes c a

section

variable {x' y' u v : Term}

/-- Classes that correspond are joined. -/
theorem bind_of_endsAt (h : Alike registry s t) (hx : registry.isVariable x = true)
    (hfree : s.lookup x = none) (hy : s.Resolved registry y) (hne : y ≠ x)
    (hx' : registry.isVariable x' = true) (hfree' : t.lookup x' = none)
    (hy' : t.Resolved registry y') (hne' : y' ≠ x')
    (hends : ∀ a, s.EndsAt registry x y a ↔ t.EndsAt registry x' y' a)
    (hvar : registry.isVariable y = registry.isVariable y')
    (hvalue : registry.isVariable y = false → y = y') :
    Alike registry (s.bind x y) (t.bind x' y') where
  size_eq := by rw [size_bind hfree, size_bind hfree', h.size_eq]
  ends a := by
    obtain ⟨b, c, hb, hc, hbc⟩ := h.ends a
    refine ⟨_, _, walk_bind hx hfree hy hne hb, walk_bind hx' hfree' hy' hne' hc, ?_⟩
    have hjoined := hends a
    simp only [EndsAt, hb, hc, Option.some.injEq] at hjoined
    grind
  classes a b := by
    rw [walk_bind_eq_iff h.walkable_left hx hfree hy hne,
      walk_bind_eq_iff h.walkable_right hx' hfree' hy' hne', h.classes, hends, hends]

theorem ne_of_walk (h : Alike registry s t) (hu : s.walk registry u = some x)
    (hv : s.walk registry v = some y) (hu' : t.walk registry u = some x')
    (hv' : t.walk registry v = some y') (hne : y ≠ x) : y' ≠ x' := by
  rintro rfl
  have heq : s.walk registry v = s.walk registry u := by rw [h.classes, hu', hv']
  rw [hu, hv, Option.some.injEq] at heq
  exact hne heq

/-- The classes of two terms are joined in both substitutions, -/
theorem bind (h : Alike registry s t) (hu : s.walk registry u = some x)
    (hv : s.walk registry v = some y) (hu' : t.walk registry u = some x')
    (hv' : t.walk registry v = some y') (hx : registry.isVariable x = true) (hne : y ≠ x) :
    Alike registry (s.bind x y) (t.bind x' y') := by
  have hx' : registry.isVariable x' = true := h.isVariable_eq hu hu' ▸ hx
  refine h.bind_of_endsAt hx (resolved_of_walk hu hx) (resolved_of_walk hv) hne hx'
    (resolved_of_walk hu' hx') (resolved_of_walk hv') (h.ne_of_walk hu hv hu' hv' hne)
    (fun a => ?_) (h.isVariable_eq hv hv') (h.eq_of_isVariable_eq_false hv hv')
  exact or_congr (h.walk_eq_some_iff hu hu' a) (h.walk_eq_some_iff hv hv' a)

/-- and it makes no difference in which direction if both ends are variables. -/
theorem bind_flipped (h : Alike registry s t) (hu : s.walk registry u = some x)
    (hv : s.walk registry v = some y) (hu' : t.walk registry u = some x')
    (hv' : t.walk registry v = some y') (hx : registry.isVariable x = true)
    (hy : registry.isVariable y = true) (hne : y ≠ x) :
    Alike registry (s.bind x y) (t.bind y' x') := by
  have hx' : registry.isVariable x' = true := h.isVariable_eq hu hu' ▸ hx
  have hy' : registry.isVariable y' = true := h.isVariable_eq hv hv' ▸ hy
  refine h.bind_of_endsAt hx (resolved_of_walk hu hx) (resolved_of_walk hv) hne hy'
    (resolved_of_walk hv' hy') (resolved_of_walk hu') (h.ne_of_walk hu hv hu' hv' hne).symm
    (fun a => ?_) (by rw [hy, hx']) (by simp [hy])
  rw [EndsAt.comm (x := y')]
  exact or_congr (h.walk_eq_some_iff hu hu' a) (h.walk_eq_some_iff hv hv' a)

end

end Alike

end Substitution

end LogicTerms
