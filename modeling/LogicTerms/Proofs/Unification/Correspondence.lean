import LogicTerms.Proofs.Substitution.Walk
import LogicTerms.Proofs.Substitution.Reaches
import LogicTerms.Proofs.Unification.Rules

/-!
# Corresponding runs

Two runs, each under a registry of its own, go the same way if their terms and substitutions
correspond at the start. All that the runs ask is whether a term is a variable, whether two terms
are equal, what is bound to a variable and what is left of two terms, and the answers correspond.
-/

namespace LogicTerms

open Relation Substitution

/-! ## Results and tasks -/

namespace Unification

inductive Parallel {α β : Type} (P : α → β → Prop) : Except Clash α → Except Clash β → Prop
  | ok {a : α} {b : β} (h : P a b) : Parallel P (.ok a) (.ok b)
  | error (clash : Clash) : Parallel P (.error clash) (.error clash)

theorem Parallel.symm {α β : Type} {P : α → β → Prop} {Q : β → α → Prop} {left : Except Clash α}
    {right : Except Clash β} (h : Parallel P left right) (hPQ : ∀ a b, P a b → Q b a) :
    Parallel Q right left := by
  cases h with
  | ok h => exact .ok (hPQ _ _ h)
  | error clash => exact .error clash

abbrev PairsBy (R : Term → Term → Prop) : List (Term × Term) → List (Term × Term) → Prop :=
  List.Forall₂ fun pair pair' => R pair.1 pair'.1 ∧ R pair.2 pair'.2

theorem exists_mem_of_forall₂ {R : Term → Term → Prop} {ts ts' : List Term} {t : Term}
    (h : List.Forall₂ R ts ts') (ht : t ∈ ts) : ∃ t' ∈ ts', R t t' := by
  induction h with
  | nil => simp at ht
  | cons hhead _ ih => grind

inductive Task.Corresponds (R : Term → Term → Prop) (S : Substitution → Substitution → Prop) :
    Task → Task → Prop
  | pair {u u' v v' : Term} {s s' : Substitution} (hu : R u u') (hv : R v v') (hs : S s s') :
      Task.Corresponds R S (.pair u v s) (.pair u' v' s')
  | pairs {list list' : List (Term × Term)} {s s' : Substitution} (h : PairsBy R list list')
      (hs : S s s') : Task.Corresponds R S (.pairs list s) (.pairs list' s')

end Unification

open Unification

/-! ## Correspondences -/

/-- Relations of the terms and of the substitutions of two runs, which answer every question of a
run alike on both sides. -/
structure Correspondence (registry registry' : Registry) (R : Term → Term → Prop)
    (S : Substitution → Substitution → Prop) : Prop where
  isVariable_eq {a a' : Term} (ha : R a a') : registry.isVariable a = registry'.isVariable a'
  eq_iff {a a' b b' : Term} (ha : R a a') (hb : R b b') : a = b ↔ a' = b'
  /-- A term that is no variable has related parts, -/
  parts {a a' : Term} (ha : R a a') (hvar : registry.isVariable a = false) :
    List.Forall₂ R a.parts a'.parts
  /-- and two of them leave related pairs. -/
  confront {u u' v v' : Term} (hu : R u u') (hv : R v v') (hvaru : registry.isVariable u = false)
    (hvarv : registry.isVariable v = false) :
    Parallel (PairsBy R) (confront u v) (confront u' v')
  /-- Only variables are looked up, whatever else may have a binding. -/
  lookup_eq_none_iff {s s' : Substitution} {a a' : Term} (hs : S s s') (ha : R a a')
    (hvar : registry.isVariable a = true) : s.lookup a = none ↔ s'.lookup a' = none
  lookup {s s' : Substitution} {a a' v v' : Term} (hs : S s s') (ha : R a a')
    (hvar : registry.isVariable a = true) (hv : s.lookup a = some v)
    (hv' : s'.lookup a' = some v') : R v v'
  bind {s s' : Substitution} {x x' v v' : Term} (hs : S s s') (hx : R x x') (hv : R v v') :
    S (s.bind x v) (s'.bind x' v')

namespace Correspondence

variable {registry registry' : Registry} {R : Term → Term → Prop}
  {S : Substitution → Substitution → Prop} {s s' : Substitution} {a a' b x : Term}

/-- What is alike on both sides may be read the other way round. -/
theorem symm (c : Correspondence registry registry' R S) :
    Correspondence registry' registry (flip R) (flip S) where
  isVariable_eq ha := (c.isVariable_eq ha).symm
  eq_iff ha hb := (c.eq_iff ha hb).symm
  parts ha hvar := (c.parts ha (by rwa [c.isVariable_eq ha])).flip
  confront hu hv hvaru hvarv := by
    have hpairs := c.confront hu hv (by rwa [c.isVariable_eq hu]) (by rwa [c.isVariable_eq hv])
    exact hpairs.symm fun _ _ h => h.flip
  lookup_eq_none_iff hs ha hvar :=
    (c.lookup_eq_none_iff hs ha (by rwa [c.isVariable_eq ha])).symm
  lookup hs ha hvar hv hv' := c.lookup hs ha (by rwa [c.isVariable_eq ha]) hv' hv
  bind hs hx hv := c.bind hs hx hv

theorem exists_mem_parts (c : Correspondence registry registry' R S) (ha : R a a')
    (hvar : registry.isVariable a = false) (hb : b ∈ a.parts) : ∃ b' ∈ a'.parts, R b b' := by
  exact exists_mem_of_forall₂ (c.parts ha hvar) hb

/-! ## Chains -/

theorem exists_lookup (c : Correspondence registry registry' R S) (hs : S s s') (ha : R a a')
    (hvar : registry.isVariable a = true) (h : s.lookup a = some b) :
    ∃ b', s'.lookup a' = some b' ∧ R b b' := by
  have hsome : s'.lookup a' ≠ none := mt (c.lookup_eq_none_iff hs ha hvar).2 (by simp [h])
  obtain ⟨b', hb'⟩ := Option.ne_none_iff_exists'.1 hsome
  exact ⟨b', hb', c.lookup hs ha hvar h hb'⟩

/-- If the chain of a term ends, that of a corresponding term does, and the ends correspond. -/
theorem chain (c : Correspondence registry registry' R S) (hs : S s s') {keys : List Term}
    (h : s.Chain registry a keys b) (ha : R a a') :
    ∃ keys' b', s'.Chain registry' a' keys' b' ∧ R b b' := by
  induction h generalizing a' with
  | stop hstop =>
    refine ⟨[], a', .stop fun hvar' => ?_, ha⟩
    have hvar := (c.isVariable_eq ha).trans hvar'
    exact (c.lookup_eq_none_iff hs ha hvar).1 (hstop hvar)
  | step hx hlookup _ ih =>
    obtain ⟨value', hlookup', hvalue⟩ := c.exists_lookup hs ha hx hlookup
    obtain ⟨keys', b', hchain, hb⟩ := ih hvalue
    exact ⟨_, b', .step (by rwa [← c.isVariable_eq ha]) hlookup' hchain, hb⟩

theorem walk (c : Correspondence registry registry' R S) (hs : S s s') (ha : R a a')
    (h : s.walk registry a = some b) : ∃ b', s'.walk registry' a' = some b' ∧ R b b' := by
  obtain ⟨keys, hchain⟩ := walk_eq_some_iff.1 h
  obtain ⟨keys', b', hchain', hb⟩ := c.chain hs hchain ha
  exact ⟨b', walk_eq_some_iff.2 ⟨keys', hchain'⟩, hb⟩

/-! ## The rules -/

/-- The rules come to results that correspond. The converse is the same for the correspondence read
the other way round. -/
theorem solves (c : Correspondence registry registry' R S) {task task' : Task} {result : Result}
    (h : Solves registry task result) (htask : Task.Corresponds R S task task') :
    ∃ result', Solves registry' task' result' ∧ Parallel S result result' := by
  induction h generalizing task' with
  | @unbound u v last s hu hfree hv =>
    cases htask with
    | pair hru hrv hs =>
      obtain ⟨last', hwalk, hlast⟩ := c.walk hs hrv hv
      have hfree' := (c.lookup_eq_none_iff hs hru hu).1 hfree
      refine ⟨_, .unbound (c.isVariable_eq hru ▸ hu) hfree' hwalk, ?_⟩
      by_cases heq : u = last
      · rw [if_pos heq, if_pos ((c.eq_iff hru hlast).1 heq)]
        exact .ok hs
      · rw [if_neg heq, if_neg (mt (c.eq_iff hru hlast).2 heq)]
        exact .ok (c.bind hs hru hlast)
  | bound hu hwalku hne hwalkv _ ih =>
    cases htask with
    | pair hru hrv hs =>
      obtain ⟨endu, hwalku', hendu⟩ := c.walk hs hru hwalku
      obtain ⟨endv, hwalkv', hendv⟩ := c.walk hs hrv hwalkv
      obtain ⟨result', hsolves, hparallel⟩ := ih (.pair hendu hendv hs)
      have hne' := mt (c.eq_iff hendu hru).2 hne
      exact ⟨result', .bound (c.isVariable_eq hru ▸ hu) hwalku' hne' hwalkv' hsolves, hparallel⟩
  | swapped hu hv _ ih =>
    cases htask with
    | pair hru hrv hs =>
      obtain ⟨result', hsolves, hparallel⟩ := ih (.pair hrv hru hs)
      exact ⟨result', .swapped (c.isVariable_eq hru ▸ hu) (c.isVariable_eq hrv ▸ hv) hsolves,
        hparallel⟩
  | apart hu hv hclash =>
    cases htask with
    | pair hru hrv hs =>
      have hpairs := c.confront hru hrv hu hv
      rw [hclash] at hpairs
      generalize hclash' : Unification.confront _ _ = left at hpairs
      cases hpairs
      exact ⟨_, .apart (c.isVariable_eq hru ▸ hu) (c.isVariable_eq hrv ▸ hv) hclash', .error _⟩
  | together hu hv hpairs _ ih =>
    cases htask with
    | pair hru hrv hs =>
      have hrelated := c.confront hru hrv hu hv
      rw [hpairs] at hrelated
      generalize hpairs' : Unification.confront _ _ = left at hrelated
      cases hrelated with
      | ok hlist =>
        obtain ⟨result', hsolves, hparallel⟩ := ih (.pairs hlist hs)
        exact ⟨result', .together (c.isVariable_eq hru ▸ hu) (c.isVariable_eq hrv ▸ hv) hpairs'
          hsolves, hparallel⟩
  | nil =>
    cases htask with
    | pairs hlist hs =>
      cases hlist
      exact ⟨_, .nil, .ok hs⟩
  | clash _ ih =>
    cases htask with
    | pairs hlist hs =>
      cases hlist with
      | cons hpair hrest =>
        obtain ⟨result', hsolves, hparallel⟩ := ih (.pair hpair.1 hpair.2 hs)
        cases hparallel
        exact ⟨_, .clash hsolves, .error _⟩
  | cons _ _ ih ihrest =>
    cases htask with
    | pairs hlist hs =>
      cases hlist with
      | cons hpair hothers =>
        obtain ⟨first, hsolves, hparallel⟩ := ih (.pair hpair.1 hpair.2 hs)
        cases hparallel with
        | ok hs' =>
          obtain ⟨result', hrest, hresult⟩ := ihrest (.pairs hothers hs')
          exact ⟨result', .cons hsolves hrest, hresult⟩

/-! ## Ways into terms -/

theorem leads (c : Correspondence registry registry' R S) (hs : S s s') (ha : R a a')
    (h : s.Leads registry a b) : ∃ b', s'.Leads registry' a' b' ∧ R b b' := by
  obtain ⟨hvar, hlookup⟩ | ⟨hvar, hpart⟩ := h.cases
  · obtain ⟨b', hlookup', hb⟩ := c.exists_lookup hs ha hvar hlookup
    exact ⟨b', leads_of_lookup (c.isVariable_eq ha ▸ hvar) hlookup', hb⟩
  · obtain ⟨b', hpart', hb⟩ := c.exists_mem_parts ha hvar hpart
    exact ⟨b', leads_of_mem_parts (c.isVariable_eq ha ▸ hvar) hpart', hb⟩

theorem transGen (c : Correspondence registry registry' R S) (hs : S s s') (ha : R a a')
    (h : TransGen (s.Leads registry) a b) :
    ∃ b', TransGen (s'.Leads registry') a' b' ∧ R b b' := by
  induction h with
  | single hstep =>
    obtain ⟨b', hstep', hb⟩ := c.leads hs ha hstep
    exact ⟨b', .single hstep', hb⟩
  | tail _ hstep ih =>
    obtain ⟨mid, hway, hmid⟩ := ih
    obtain ⟨b', hstep', hb⟩ := c.leads hs hmid hstep
    exact ⟨b', hway.tail hstep', hb⟩

/-- A cycle has a counterpart, if the variables that are bound on its side have one. -/
theorem acyclic (c : Correspondence registry registry' R S) (hs : S s s')
    (hdomain : ∀ x' ∈ s'.domain, ∃ x, R x x') (h : s.Acyclic registry) : s'.Acyclic registry' := by
  intro x' hx' hcycle
  obtain ⟨y, hstep, -⟩ := TransGen.head'_iff.1 hcycle
  obtain ⟨-, hlookup⟩ | ⟨hvar, -⟩ := hstep.cases
  · obtain ⟨x, hx⟩ := hdomain x' (mem_domain_of_lookup hlookup)
    obtain ⟨b, hway, hb⟩ := c.symm.transGen hs hx hcycle
    obtain rfl : x = b := (c.eq_iff hx hb).2 rfl
    exact h x (by rwa [c.isVariable_eq hx]) hway
  · simp [hx'] at hvar

theorem reaches (c : Correspondence registry registry' R S) (hs : S s s') (ha : R a a')
    (h : s.Reaches registry a x) : ∃ x', s'.Reaches registry' a' x' ∧ R x x' := by
  induction h generalizing a' with
  | unbound hvar hfree =>
    have hfree' := (c.lookup_eq_none_iff hs ha hvar).1 hfree
    exact ⟨a', .unbound (c.isVariable_eq ha ▸ hvar) hfree', ha⟩
  | bound hvar hlookup _ ih =>
    obtain ⟨value', hlookup', hvalue⟩ := c.exists_lookup hs ha hvar hlookup
    obtain ⟨x', hreaches, hx⟩ := ih hvalue
    exact ⟨x', .bound (c.isVariable_eq ha ▸ hvar) hlookup' hreaches, hx⟩
  | part hvar hpart _ ih =>
    obtain ⟨p', hpart', hp⟩ := c.exists_mem_parts ha hvar hpart
    obtain ⟨x', hreaches, hx⟩ := ih hp
    exact ⟨x', .part (c.isVariable_eq ha ▸ hvar) hpart' hreaches, hx⟩

end Correspondence

end LogicTerms
