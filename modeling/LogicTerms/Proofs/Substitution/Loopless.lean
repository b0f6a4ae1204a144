import LogicTerms.Proofs.Substitution.Walk
import LogicTerms.Proofs.Substitution.Classes
import Mathlib.Order.WellFoundedSet

/-!
# Chains without loops

A variable may be bound to a term that contains it, which is a cycle but not a loop: a chain of
bindings ends at the first term that is no variable. Chains end under all substitutions in which no
variable leads back to itself through variables alone.
-/

namespace LogicTerms.Substitution

open Relation

variable {registry : Registry} {s : Substitution} {a b c x y : Term} {keys : List Term}

def Follows (registry : Registry) (s : Substitution) (x value : Term) : Prop :=
  registry.isVariable x = true ∧ s.lookup x = some value

def Loopless (registry : Registry) (s : Substitution) : Prop :=
  ∀ x, ¬ TransGen (s.Follows registry) x x

/-! ## Chains that end make no loop -/

/-- A chain that ends gets shorter with each step along it. -/
theorem Chain.of_follows (h : s.Chain registry a keys b) (hc : s.Follows registry a c) :
    ∃ rest, s.Chain registry c rest b ∧ rest.length < keys.length := by
  cases h with
  | stop hstop =>
    have hfree := hstop hc.1
    simp [hc.2] at hfree
  | @step _ value _ rest _ hlookup hrest =>
    obtain rfl : c = value := by simpa [hc.2] using hlookup
    exact ⟨rest, hrest, Nat.lt_succ_self _⟩

/-- The further a chain is followed, the shorter is what is left of it. -/
theorem Chain.of_transGen (h : s.Chain registry a keys b)
    (hc : TransGen (s.Follows registry) a c) :
    ∃ rest, s.Chain registry c rest b ∧ rest.length < keys.length := by
  induction hc with
  | single hstep => exact h.of_follows hstep
  | tail _ hstep ih =>
    obtain ⟨rest, hchain, hlt⟩ := ih
    obtain ⟨rest', hchain', hlt'⟩ := hchain.of_follows hstep
    exact ⟨rest', hchain', by omega⟩

/-- A chain that comes back to a variable has no end. -/
theorem Walkable.loopless (h : s.Walkable registry) : s.Loopless registry := by
  intro x hloop
  obtain ⟨b, hwalk⟩ := h x
  obtain ⟨keys, hchain⟩ := walk_eq_some_iff.1 hwalk
  obtain ⟨rest, hback, hlt⟩ := hchain.of_transGen hloop
  obtain ⟨rfl, -⟩ := hback.unique hchain
  omega

/-! ## Without a loop chains end -/

/-- There are finitely many variables to pass, and none is passed twice. -/
theorem Loopless.wellFoundedOn (h : s.Loopless registry) :
    {x | x ∈ s.domain}.WellFoundedOn fun y x => TransGen (s.Follows registry) x y := by
  have : IsStrictOrder Term fun y x => TransGen (s.Follows registry) x y :=
    { irrefl := h
      trans := fun _ _ _ hyx hzy => hzy.trans hyx }
  exact s.domain.finite_toSet.wellFoundedOn

/-- Without loops the bound variables are finitely many and none is passed twice, so every chain
ends. -/
theorem Loopless.exists_chain (h : s.Loopless registry) (a : Term) :
    ∃ keys b, s.Chain registry a keys b := by
  have stops {c : Term} (hc : s.Resolved registry c) : ∃ keys b, s.Chain registry c keys b :=
    ⟨[], c, .stop hc⟩
  by_cases ha : a ∈ s.domain
  · refine h.wellFoundedOn.induction (P := fun x => ∃ keys b, s.Chain registry x keys b) ha
      fun x hx ih => ?_
    obtain ⟨value, hlookup⟩ := mem_domain_iff.1 hx
    cases hvar : registry.isVariable x with
    | false => exact stops (resolved_of_isVariable_eq_false hvar)
    | true =>
      have hnext : ∃ keys b, s.Chain registry value keys b := by
        by_cases hvalue : value ∈ s.domain
        · exact ih value hvalue (.single ⟨hvar, hlookup⟩)
        · exact stops fun _ => not_mem_domain_iff.1 hvalue
      obtain ⟨keys, b, hchain⟩ := hnext
      exact ⟨x :: keys, b, .step hvar hlookup hchain⟩
  · exact stops fun _ => not_mem_domain_iff.1 ha

/-- Every chain of bindings ends just if none comes back to a variable on it. -/
theorem walkable_iff_loopless : s.Walkable registry ↔ s.Loopless registry := by
  constructor
  · exact Walkable.loopless
  · intro h a
    obtain ⟨keys, b, hchain⟩ := h.exists_chain a
    exact ⟨b, walk_eq_some_iff.2 ⟨keys, hchain⟩⟩

/-! ## New bindings -/

theorem walkable_empty (registry : Registry) : Walkable registry empty :=
  (acyclic_empty registry).walkable

/-- A free variable that is bound to the end of another chain makes no loop, whatever the end. -/
theorem Walkable.bind (h : s.Walkable registry) (hx : registry.isVariable x = true)
    (hfree : s.lookup x = none) (hy : s.Resolved registry y) (hne : y ≠ x) :
    (s.bind x y).Walkable registry := by
  intro a
  obtain ⟨b, hwalk⟩ := h a
  exact ⟨_, walk_bind hx hfree hy hne hwalk⟩

/-! ## Walks without loops -/

/-- A walk looks up one variable after the other and ends one round after the last of them. -/
theorem Chain.follow_eq (h : s.Chain registry a keys b) (limit : Nat) :
    s.follow registry limit a = if keys.length < limit then some b else none := by
  induction h generalizing limit with
  | stop hstop =>
    cases limit with
    | zero => rfl
    | succ limit =>
      rw [follow_of_resolved hstop, List.length_nil, if_pos (Nat.zero_lt_succ limit)]
  | step hx hlookup _ ih =>
    cases limit with
    | zero => rfl
    | succ limit =>
      rw [Substitution.follow, if_pos hx, hlookup]
      simp only [ih, List.length_cons, Nat.add_lt_add_iff_right]

/-- Where no bindings of variables to variables come back, a walk passes different keys and ends
after the last of them, at a term that is no bound variable. From there it stays where it is, and
under further bindings without loops it goes on to where the walk from the start comes to. -/
theorem walk_of_loopless (hs : s.Loopless registry) (a : Term) :
    ∃ keys b, s.Chain registry a keys b ∧ keys.Nodup ∧ keys ⊆ s.domain ∧
      (∀ limit, s.follow registry limit a = if keys.length < limit then some b else none) ∧
      s.walk registry a = some b ∧
      (registry.isVariable b = true → s.lookup b = none) ∧
      s.walk registry b = some b ∧
      ∀ t : Substitution, t.Extends s → t.Loopless registry →
        ∃ c, t.walk registry a = some c ∧ t.walk registry b = some c := by
  obtain ⟨keys, b, hchain⟩ := hs.exists_chain a
  have hwalk : s.walk registry a = some b := walk_eq_some_iff.2 ⟨keys, hchain⟩
  refine ⟨keys, b, hchain, hchain.nodup, hchain.subset_domain, hchain.follow_eq, hwalk,
    resolved_of_walk hwalk, walk_of_walk hwalk, fun t hext ht => ?_⟩
  have hwalkable : t.Walkable registry := walkable_iff_loopless.2 ht
  obtain ⟨c, hc⟩ := hwalkable b
  exact ⟨c, (hwalkable.walk_of_extends hext hwalk).trans hc, hc⟩

/-- A chain starts at a registered atom. It is prolonged to a term that contains a variable of the
chain, which is a cycle but no loop. -/
theorem walk_of_loopless_example :
    let registry := Registry.empty.insert (.atom (.int 7))
    let s := (empty.bind (.atom (.int 7)) (.var (.fresh 0))).bind (.var (.fresh 0))
      (.var (.fresh 1))
    let t := s.bind (.var (.fresh 1)) (.tuple [.var (.fresh 0)])
    s.Loopless registry ∧ t.Loopless registry ∧ t.Extends s ∧
      s.Chain registry (.atom (.int 7)) [.atom (.int 7), .var (.fresh 0)] (.var (.fresh 1)) ∧
      s.walk registry (.atom (.int 7)) = some (.var (.fresh 1)) ∧
      t.walk registry (.atom (.int 7)) = some (.tuple [.var (.fresh 0)]) ∧
      t.walk registry (.var (.fresh 1)) = some (.tuple [.var (.fresh 0)]) := by
  intro registry s t
  have hone : (empty.bind (.atom (.int 7)) (.var (.fresh 0))).Walkable registry :=
    (walkable_empty registry).bind (by decide +kernel) rfl (fun _ => rfl) (by decide +kernel)
  have hs : s.Walkable registry :=
    hone.bind rfl (by decide +kernel) (fun _ => by decide +kernel) (by decide +kernel)
  have ht : t.Walkable registry :=
    hs.bind rfl (by decide +kernel) (fun _ => by decide +kernel) (by decide +kernel)
  have hext : t.Extends s := extends_bind (by decide +kernel) _
  obtain ⟨keys, b, hchain, -, -, -, hwalk, -, -, hfurther⟩ :=
    walk_of_loopless (walkable_iff_loopless.1 hs) (.atom (.int 7))
  have hkeys : s.Chain registry (.atom (.int 7)) [.atom (.int 7), .var (.fresh 0)]
      (.var (.fresh 1)) := by
    have hseven : s.lookup (.atom (.int 7)) = some (.var (.fresh 0)) := by decide +kernel
    have hzero : s.lookup (.var (.fresh 0)) = some (.var (.fresh 1)) := by decide +kernel
    have hstop : s.Resolved registry (.var (.fresh 1)) := fun _ => by decide +kernel
    exact .step (by decide +kernel) hseven (.step rfl hzero (.stop hstop))
  obtain ⟨rfl, rfl⟩ := hchain.unique hkeys
  obtain ⟨c, ha, hb⟩ := hfurther t hext (walkable_iff_loopless.1 ht)
  obtain rfl : c = .tuple [.var (.fresh 0)] := by
    have hc : t.walk registry (.var (.fresh 1)) = some (.tuple [.var (.fresh 0)]) := by
      decide +kernel
    rw [hc, Option.some.injEq] at hb
    exact hb.symm
  exact ⟨walkable_iff_loopless.1 hs, walkable_iff_loopless.1 ht, hext, hkeys, hwalk, ha, hb⟩

end LogicTerms.Substitution
