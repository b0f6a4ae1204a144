import LogicTerms.Proofs.Reification.FreeVariables
import LogicTerms.Proofs.Term.Renaming
import LogicTerms.Proofs.Unification.Correspondence
import LogicTerms.Proofs.Unification.Runs

/-!
# Registered atoms are variables

An atom that is registered is treated like a variable at every turn. Hence the same comes of terms
in which variables stand in the place of the registered atoms, without a registry.
-/

namespace LogicTerms

open Relation Substitution Unification Renaming

/-! ## Maps against each other -/

namespace Unification

variable {f : Term → Term} {entries others : List (Term × Term)}

abbrev PairsUnder (f : Term → Term) (pairs pairs' : List (Term × Term)) : Prop :=
  pairs' = pairs.map (Prod.map f f)

theorem parallel_zipped (f : Term → Term) (left right : List Term) :
    Parallel (PairsUnder f) (zipped left right) (zipped (left.map f) (right.map f)) := by
  unfold zipped
  rw [List.length_map, List.length_map]
  split
  · exact .ok (List.zip_map ..)
  · exact .error _

theorem parallel_valuePairs (hleft : ∀ k ∈ Entries.keys entries, f k = k)
    (hright : ∀ k ∈ Entries.keys others, f k = k) :
    Parallel (PairsUnder f) (valuePairs others entries)
      (valuePairs (others.map fun (key, value) => (f key, f value))
        (entries.map fun (key, value) => (f key, f value))) := by
  induction entries with
  | nil => exact .ok rfl
  | cons entry entries ih =>
    obtain ⟨key, value⟩ := entry
    obtain ⟨hkey, hkeys⟩ := List.forall_mem_cons.1 hleft
    simp only [List.map_cons, valuePairs, show f key = key from hkey,
      Entries.lookup_map_of_fixed hright]
    cases Entries.lookup key others with
    | none => exact .error _
    | some other =>
      have hrest := ih hkeys
      simp only [Option.map_some]
      generalize valuePairs others entries = pairs at hrest ⊢
      generalize valuePairs (List.map _ others) _ = pairs' at hrest ⊢
      cases hrest with
      | ok h =>
        subst h
        exact .ok rfl
      | error clash => exact .error clash

end Unification

namespace Renaming

variable {r : Renaming} {s t : Substitution} {a u v x : Term}

/-! ## Substitutions -/

def applyBindings (r : Renaming) (s : Substitution) : Substitution :=
  ⟨Entries.ofList (s.bindings.map fun (x, value) => (r.apply x, r.apply value)), s.version⟩

/-- A substitution in order, of terms that may be renamed. -/
structure AdmitsBindings (r : Renaming) (s : Substitution) : Prop where
  increasing : Increasing s.domain
  bindings : ∀ binding ∈ s.bindings, r.Admits binding.1 ∧ r.Admits binding.2

theorem admitsBindings_empty (r : Renaming) : r.AdmitsBindings .empty where
  increasing := .nil
  bindings binding hbinding := by simp [Substitution.empty] at hbinding

theorem AdmitsBindings.fresh (h : r.AdmitsBindings s) :
    ∀ x ∈ Entries.keys s.bindings, r.Fresh x :=
  List.forall_mem_map.2 fun binding hbinding => (h.bindings binding hbinding).1.toFresh

theorem AdmitsBindings.of_lookup (h : r.AdmitsBindings s) {value : Term}
    (hlookup : s.lookup x = some value) : r.Admits x ∧ r.Admits value :=
  h.bindings (x, value) (Entries.mem_of_lookup hlookup)

theorem AdmitsBindings.bind (h : r.AdmitsBindings s) (hx : r.Admits x) (hv : r.Admits v) :
    r.AdmitsBindings (s.bind x v) where
  increasing := by
    rw [domain_bind]
    exact Elements.increasing_insert h.increasing
  bindings binding hbinding := by
    obtain ⟨hkey, hvalue⟩ | ⟨-, hmem⟩ := (Entries.mem_insert_iff h.increasing).1 hbinding
    · rw [hkey, hvalue]
      exact ⟨hx, hv⟩
    · exact h.bindings binding hmem

/-- Renamed variables are bound to the renamed values. -/
theorem lookup_applyBindings (hs : r.AdmitsBindings s) (ha : r.Fresh a) :
    (r.applyBindings s).lookup (r.apply a) = (s.lookup a).map r.apply :=
  Entries.lookup_ofList_map r.injOn_apply ha hs.fresh hs.increasing

theorem domain_applyBindings (r : Renaming) (s : Substitution) :
    (r.applyBindings s).domain = Elements.ofList (s.domain.map r.apply) := by
  rw [domain, applyBindings, ← Entries.keys, Entries.keys_ofList, Entries.keys_map]
  rfl

/-- Bindings may be renamed before they are made, or after. -/
theorem applyBindings_bind (hs : r.AdmitsBindings s) (hx : r.Fresh x) :
    r.applyBindings (s.bind x v) = (r.applyBindings s).bind (r.apply x) (r.apply v) := by
  rw [applyBindings, Substitution.bind,
    Entries.ofList_map_insert r.injOn_apply hx hs.fresh hs.increasing]
  rfl

theorem applyBindings_inj (hs : r.AdmitsBindings s) (ht : r.AdmitsBindings t) :
    r.applyBindings s = r.applyBindings t ↔ s = t := by
  refine ⟨fun h => ?_, congrArg _⟩
  rw [applyBindings, applyBindings, Substitution.mk.injEq] at h
  have fresh {s : Substitution} (hs : r.AdmitsBindings s) (binding : Term × Term)
      (hmem : binding ∈ s.bindings) : r.Fresh binding.1 ∧ r.Fresh binding.2 :=
    (hs.bindings binding hmem).imp Admits.toFresh Admits.toFresh
  have hbindings := Entries.eq_of_ofList_map_eq r.injOn_apply (fresh hs) (fresh ht) hs.increasing
    ht.increasing h.1
  cases s
  cases t
  simp_all

/-! ## Correspondence -/

/-- The names of the atoms that are registered leave the same pairs as the atoms. -/
theorem parallel_confront (hu : r.Admits u) (hv : r.Admits v)
    (hvaru : r.registry.isVariable u = false) (hvarv : r.registry.isVariable v = false) :
    Parallel (PairsUnder r.apply) (confront u v) (confront (r.apply u) (r.apply v)) := by
  by_cases hshape : u.shape = v.shape
  · cases u <;> cases v <;> simp only [Term.shape, reduceCtorEq] at hshape
    case var.var => simp at hvaru
    case set.set => exact absurd rfl (hu.ne_set _)
    case atom.atom left right =>
      rw [apply_atom hvaru, apply_atom hvarv, confront]
      split
      · exact .ok rfl
      · exact .error _
    case tuple.tuple left right | list.list left right =>
      simp only [apply_tuple, apply_list, confront]
      exact parallel_zipped r.apply left right
    case map.map left right =>
      rw [apply_map hu, apply_map hv, confront, confront, List.length_map, List.length_map]
      split
      · exact parallel_valuePairs (fun _ => hu.apply_key) fun _ => hv.apply_key
      · exact .error _
    case slice.slice => exact .ok rfl
  · rw [confront_of_shape_ne hshape, confront_of_shape_ne, shape_apply hvaru, shape_apply hvarv]
    · exact .error _
    · rwa [shape_apply hvaru, shape_apply hvarv]

/-- Terms and substitutions correspond to the renamed ones. -/
theorem correspondence (r : Renaming) :
    Correspondence r.registry .empty (fun a a' => r.Admits a ∧ a' = r.apply a)
      (fun s s' => r.AdmitsBindings s ∧ s' = r.applyBindings s) where
  isVariable_eq := by
    rintro a _ ⟨-, rfl⟩
    exact isVariable_apply a
  eq_iff := by
    rintro a _ b _ ⟨ha, rfl⟩ ⟨hb, rfl⟩
    exact (r.injOn_apply.eq_iff ha.toFresh hb.toFresh).symm
  parts := by
    rintro a _ ⟨ha, rfl⟩ -
    rw [parts_apply ha, List.forall₂_map_right_iff, List.forall₂_same]
    exact fun p hp => ⟨ha.of_mem_parts hp, rfl⟩
  confront := by
    rintro u _ v _ ⟨hu, rfl⟩ ⟨hv, rfl⟩ hvaru hvarv
    have hparallel := parallel_confront hu hv hvaru hvarv
    generalize hpairs : confront u v = left at hparallel ⊢
    generalize confront (r.apply u) (r.apply v) = right at hparallel ⊢
    cases hparallel with
    | error clash => exact .error clash
    | ok h =>
      subst h
      refine .ok ?_
      rw [PairsBy, List.forall₂_map_right_iff, List.forall₂_same]
      intro pair hpair
      obtain ⟨hpu, hpv⟩ := mem_parts_of_confront hpairs hpair
      exact ⟨⟨hu.of_mem_parts hpu, rfl⟩, hv.of_mem_parts hpv, rfl⟩
  lookup_eq_none_iff := by
    rintro s _ a _ ⟨hs, rfl⟩ ⟨ha, rfl⟩ -
    rw [lookup_applyBindings hs ha.toFresh, Option.map_eq_none_iff]
  lookup := by
    rintro s _ a _ value value' ⟨hs, rfl⟩ ⟨ha, rfl⟩ - hvalue hvalue'
    rw [lookup_applyBindings hs ha.toFresh, hvalue, Option.map_some, Option.some.injEq] at hvalue'
    exact ⟨(hs.of_lookup hvalue).2, hvalue'.symm⟩
  bind := by
    rintro s _ x _ v _ ⟨hs, rfl⟩ ⟨hx, rfl⟩ ⟨hv, rfl⟩
    exact ⟨hs.bind hx hv, (applyBindings_bind hs hx.toFresh).symm⟩

/-! ## Rules of unification -/

section

variable (hu : r.Admits u) (hv : r.Admits v) (hs : r.AdmitsBindings s)

include hu hv hs

theorem exists_solves_apply {result : Result}
    (h : Solves r.registry (.pair u v s) result) :
    ∃ result', Solves .empty (.pair (r.apply u) (r.apply v) (r.applyBindings s)) result' ∧
      Parallel (fun t t' => r.AdmitsBindings t ∧ t' = r.applyBindings t) result result' :=
  r.correspondence.solves h (.pair ⟨hu, rfl⟩ ⟨hv, rfl⟩ ⟨hs, rfl⟩)

/-- Without a registry the rules come to renamed results only: the correspondence, read from the
other side. -/
theorem exists_solves_of_apply {result' : Result}
    (h : Solves .empty (.pair (r.apply u) (r.apply v) (r.applyBindings s)) result') :
    ∃ result, Solves r.registry (.pair u v s) result ∧
      Parallel (fun t' t => r.AdmitsBindings t ∧ t' = r.applyBindings t) result' result :=
  r.correspondence.symm.solves h (.pair ⟨hu, rfl⟩ ⟨hv, rfl⟩ ⟨hs, rfl⟩)

theorem solves_error_iff {clash : Clash} :
    Solves r.registry (.pair u v s) (.error clash) ↔
      Solves .empty (.pair (r.apply u) (r.apply v) (r.applyBindings s)) (.error clash) := by
  constructor
  · intro h
    obtain ⟨_, hsolves, ⟨⟩⟩ := exists_solves_apply hu hv hs h
    exact hsolves
  · intro h
    obtain ⟨_, hsolves, ⟨⟩⟩ := exists_solves_of_apply hu hv hs h
    exact hsolves

/-- What the renamed terms are unified to is a renamed substitution. -/
theorem exists_of_solves_ok {t' : Substitution}
    (h : Solves .empty (.pair (r.apply u) (r.apply v) (r.applyBindings s)) (.ok t')) :
    ∃ t, Solves r.registry (.pair u v s) (.ok t) ∧ r.AdmitsBindings t ∧
      t' = r.applyBindings t := by
  obtain ⟨_, hsolves, ⟨ht, heq⟩⟩ := exists_solves_of_apply hu hv hs h
  exact ⟨_, hsolves, ht, heq⟩

theorem solves_ok_iff :
    Solves r.registry (.pair u v s) (.ok t) ↔ r.AdmitsBindings t ∧
      Solves .empty (.pair (r.apply u) (r.apply v) (r.applyBindings s))
        (.ok (r.applyBindings t)) := by
  constructor
  · intro h
    obtain ⟨_, hsolves, ⟨ht, rfl⟩⟩ := exists_solves_apply hu hv hs h
    exact ⟨ht, hsolves⟩
  · rintro ⟨ht, h⟩
    obtain ⟨t', hsolves, ht', heq⟩ := exists_of_solves_ok hu hv hs h
    rwa [(applyBindings_inj ht ht').1 heq]

end

/-! ## Images and variables -/

/-- Renaming makes no cycle. -/
theorem acyclic_applyBindings (hs : r.AdmitsBindings s) (hacyclic : s.Acyclic r.registry) :
    (r.applyBindings s).Acyclic .empty := by
  refine r.correspondence.acyclic ⟨hs, rfl⟩ (fun x' hx' => ?_) hacyclic
  rw [domain_applyBindings, Elements.mem_ofList] at hx'
  obtain ⟨x, hx, rfl⟩ := List.mem_map.1 hx'
  obtain ⟨value, hvalue⟩ := mem_domain_iff.1 hx
  exact ⟨x, (hs.of_lookup hvalue).1, rfl⟩

theorem fresh_image (hs : r.AdmitsBindings s) (hacyclic : s.Acyclic r.registry) (ha : r.Fresh a) :
    r.Fresh (hacyclic.image a) :=
  hacyclic.image_preserves (fun _ ha _ hp => ha.of_mem_parts hp)
    (fun _ _ _ _ ha hform hparts => ha.build hform hparts)
    (fun _ _ hlookup => (hs.of_lookup hlookup).2.toFresh) ha

section

variable (hs : r.AdmitsBindings s) (hacyclic : s.Acyclic r.registry)
  (hrenamed : (r.applyBindings s).Acyclic .empty) (ha : r.Admits a)

include hs ha

/-- The image of a compound is renamed with the images of its parts. Renamed atoms may get into keys
that become equal on the way, so that the order of the entries changes. -/
theorem apply_image_of_parts (hvar : r.registry.isVariable a = false)
    (hparts : ∀ p ∈ a.parts, r.apply (hacyclic.image p) = hrenamed.image (r.apply p)) :
    r.apply (hacyclic.image a) = hrenamed.image (r.apply a) := by
  cases a with
  | atom value =>
    have hvar' := isVariable_apply (r := r) (.atom value)
    rw [hvar, apply_atom hvar] at hvar'
    rw [hacyclic.image_of_resolved (resolved_of_isVariable_eq_false hvar) (.inr rfl),
      apply_atom hvar,
      hrenamed.image_of_resolved (resolved_of_isVariable_eq_false hvar'.symm) (.inr rfl)]
  | var name => simp at hvar
  | tuple items =>
    rw [hacyclic.image_tuple hvar, apply_tuple, apply_tuple,
      hrenamed.image_tuple (Registry.flat_empty _ rfl), List.map_map, List.map_map]
    exact congrArg Term.tuple (List.map_congr_left hparts)
  | list items =>
    rw [hacyclic.image_list hvar, apply_list, apply_list,
      hrenamed.image_list (Registry.flat_empty _ rfl), List.map_map, List.map_map]
    exact congrArg Term.list (List.map_congr_left hparts)
  | set elements => exact absurd rfl (ha.ne_set elements)
  | map entries =>
    have hfresh : ∀ key ∈ Entries.keys entries, r.Fresh (hacyclic.image key) := fun key hkey =>
      fresh_image hs hacyclic (ha.of_mem_parts (Term.mem_parts_of_mem_keys hkey)).toFresh
    rw [hacyclic.image_map hvar, apply_mapOf (by rwa [Entries.keys_map, List.forall_mem_map]),
      apply_map ha, hrenamed.image_map (Registry.flat_empty _ rfl), List.map_map, List.map_map]
    refine congrArg Term.mapOf (List.map_congr_left fun ⟨key, value⟩ hentry => ?_)
    obtain ⟨hkey, hvalue⟩ := Term.forall_mem_flatten_iff.1 hparts _ hentry
    simp only [Function.comp_apply, hkey, hvalue]
  | slice start stop step =>
    simp only [Term.parts, List.forall_mem_cons] at hparts
    obtain ⟨hstart, hstop, hstep, -⟩ := hparts
    rw [hacyclic.image_slice hvar, apply, apply,
      hrenamed.image_slice (Registry.flat_empty _ rfl), hstart, hstop, hstep]

/-- Images are renamed with their terms. -/
theorem apply_image : r.apply (hacyclic.image a) = hrenamed.image (r.apply a) := by
  induction a using hacyclic.wellFounded.induction with
  | _ a ih =>
    cases hvar : r.registry.isVariable a with
    | false =>
      refine apply_image_of_parts hs hacyclic hrenamed ha hvar fun p hp => ?_
      exact ih p (leads_of_mem_parts hvar hp) (ha.of_mem_parts hp)
    | true =>
      have hvar' : Registry.empty.isVariable (r.apply a) = true := by rwa [← isVariable_apply]
      have hlookup := lookup_applyBindings hs ha.toFresh
      cases hvalue : s.lookup a with
      | none =>
        rw [hvalue, Option.map_none] at hlookup
        rw [hacyclic.image_of_resolved (fun _ => hvalue) (.inl hvar),
          hrenamed.image_of_resolved (fun _ => hlookup) (.inl hvar')]
      | some value =>
        rw [hvalue, Option.map_some] at hlookup
        rw [hacyclic.image_of_lookup hvar hvalue, hrenamed.image_of_lookup hvar' hlookup]
        exact ih value (leads_of_lookup hvar hvalue) (hs.of_lookup hvalue).2

end

theorem reaches_apply_iff (hs : r.AdmitsBindings s) (ha : r.Admits a) {y : Term} :
    (r.applyBindings s).Reaches .empty (r.apply a) y ↔
      ∃ x, s.Reaches r.registry a x ∧ r.apply x = y := by
  constructor
  · intro h
    obtain ⟨x, hx, -, rfl⟩ := r.correspondence.symm.reaches ⟨hs, rfl⟩ ⟨ha, rfl⟩ h
    exact ⟨x, hx, rfl⟩
  · rintro ⟨x, hx, rfl⟩
    obtain ⟨_, hy, -, rfl⟩ := r.correspondence.reaches ⟨hs, rfl⟩ ⟨ha, rfl⟩ hx
    exact hy

end Renaming

/-! ## Runs -/

namespace Unifier

variable {φ ψ : Type} [Reification.Extension ψ] {r : Renaming} {s : Substitution} {a u v : Term}

/-- Reification of a renamed term returns the renamed value. -/
theorem reifies_renamed (hs : r.AdmitsBindings s) (hacyclic : s.Acyclic r.registry)
    (ha : r.Admits a) :
    ∃ value, r.Fresh value ∧ (standard : Unifier φ ψ).Reifies r.registry a s value ∧
      (standard : Unifier φ ψ).Reifies .empty (r.apply a) (r.applyBindings s) (r.apply value) := by
  have hrenamed := acyclic_applyBindings hs hacyclic
  refine ⟨hacyclic.image a, fresh_image hs hacyclic ha.toFresh, reifies_image hacyclic a, ?_⟩
  rw [reifies_iff hrenamed, apply_image hs hacyclic hrenamed ha]

theorem returns_isGround_renamed (hs : r.AdmitsBindings s) (hacyclic : s.Acyclic r.registry)
    (ha : r.Admits a) :
    ∃ ground,
      Returns (fun limit => (standard : Unifier φ ψ).isGround r.registry limit a s) ground ∧
      Returns (fun limit => (standard : Unifier φ ψ).isGround .empty limit (r.apply a)
        (r.applyBindings s)) ground := by
  have hrenamed := acyclic_applyBindings hs hacyclic
  obtain ⟨ground, hreturns, hground⟩ := returns_isGround (φ := φ) (ψ := ψ) hacyclic a
  obtain ⟨ground', hreturns', hground'⟩ :=
    returns_isGround (φ := φ) (ψ := ψ) hrenamed (r.apply a)
  obtain rfl : ground = ground' := by
    rw [Bool.eq_iff_iff, hground, hground']
    simp [reaches_apply_iff hs ha]
  exact ⟨ground, hreturns, hreturns'⟩

/-- The free variables of a renamed term are the renamed ones, in an order of their own. -/
theorem returns_freeVariables_renamed (hs : r.AdmitsBindings s)
    (hacyclic : s.Acyclic r.registry) (ha : r.Admits a) :
    ∃ found,
      Returns (fun limit => (standard : Unifier φ ψ).freeVariables r.registry limit a s) found ∧
      Returns (fun limit => (standard : Unifier φ ψ).freeVariables .empty limit (r.apply a)
        (r.applyBindings s)) (Elements.ofList (found.map r.apply)) := by
  have hrenamed := acyclic_applyBindings hs hacyclic
  obtain ⟨found, hreturns, -, hmem⟩ := returns_freeVariables (φ := φ) (ψ := ψ) hacyclic a
  obtain ⟨found', hreturns', hincreasing, hmem'⟩ :=
    returns_freeVariables (φ := φ) (ψ := ψ) hrenamed (r.apply a)
  obtain rfl : found' = Elements.ofList (found.map r.apply) := by
    refine hincreasing.ext (Elements.increasing_ofList _) fun y => ?_
    rw [hmem', reaches_apply_iff hs ha, Elements.mem_ofList, List.mem_map]
    exact exists_congr fun x => and_congr_left' (hmem x).symm
  exact ⟨found, hreturns, hreturns'⟩

variable [Unification.Extension φ]

/-- Atoms that are registered behave like variables. Where terms with the atoms unify under the
registry, so do the terms with other variables in the place of the atoms without it, and to the
renamed substitution; where they clash, so do the others, with the same clash. Under acyclic
substitutions reification returns renamed terms for renamed terms, these are ground just if the
terms are, and their free variables are the renamed ones. -/
theorem unify_renamed (hu : r.Admits u) (hv : r.Admits v) (hs : r.AdmitsBindings s) :
    (∀ clash,
      Returns (fun limit => (standard : Unifier φ ψ).unify r.registry limit u v s) (.error clash) ↔
        Returns (fun limit => (standard : Unifier φ ψ).unify .empty limit (r.apply u) (r.apply v)
          (r.applyBindings s)) (.error clash)) ∧
    (∀ t,
      Returns (fun limit => (standard : Unifier φ ψ).unify r.registry limit u v s) (.ok t) ↔
        r.AdmitsBindings t ∧
          Returns (fun limit => (standard : Unifier φ ψ).unify .empty limit (r.apply u) (r.apply v)
            (r.applyBindings s)) (.ok (r.applyBindings t))) ∧
    (∀ t', Returns (fun limit => (standard : Unifier φ ψ).unify .empty limit (r.apply u) (r.apply v)
        (r.applyBindings s)) (.ok t') → ∃ t, r.AdmitsBindings t ∧ t' = r.applyBindings t) ∧
    (∀ t, ((standard : Unifier φ ψ).unifySelf u s).result = .ok (.ok t) ↔
      r.AdmitsBindings t ∧ ((standard : Unifier φ ψ).unifySelf (r.apply u)
        (r.applyBindings s)).result = .ok (.ok (r.applyBindings t))) ∧
    (s.Acyclic r.registry → ∀ a, r.Admits a →
      (∃ value, r.Fresh value ∧ (standard : Unifier φ ψ).Reifies r.registry a s value ∧
        (standard : Unifier φ ψ).Reifies .empty (r.apply a) (r.applyBindings s)
          (r.apply value)) ∧
      (∃ ground,
        Returns (fun limit => (standard : Unifier φ ψ).isGround r.registry limit a s) ground ∧
        Returns (fun limit => (standard : Unifier φ ψ).isGround .empty limit (r.apply a)
          (r.applyBindings s)) ground) ∧
      ∃ found,
        Returns (fun limit => (standard : Unifier φ ψ).freeVariables r.registry limit a s) found ∧
        Returns (fun limit => (standard : Unifier φ ψ).freeVariables .empty limit (r.apply a)
          (r.applyBindings s)) (Elements.ofList (found.map r.apply))) := by
  simp only [returns_unify_iff]
  refine ⟨fun clash => solves_error_iff hu hv hs, fun t => solves_ok_iff hu hv hs,
    fun t' h => ?_, fun t => ?_, fun hacyclic a ha => ?_⟩
  · obtain ⟨t, -, ht, heq⟩ := exists_of_solves_ok hu hv hs h
    exact ⟨t, ht, heq⟩
  · constructor
    · rintro ⟨⟩
      exact ⟨hs, rfl⟩
    · rintro ⟨ht, h⟩
      simp only [unifySelf, Except.ok.injEq] at h
      rw [(applyBindings_inj hs ht).1 h]
      rfl
  · exact ⟨reifies_renamed hs hacyclic ha, returns_isGround_renamed hs hacyclic ha,
      returns_freeVariables_renamed hs hacyclic ha⟩

/-- Two atoms are registered. One is bound to a list, and the other one is bound at the start and
walks to the first. -/
theorem unify_renamed_example :
    let r : Renaming := ⟨[.int 7, .int 8], fun a => .named (.atom a), fun a _ b _ h => by simp_all⟩
    let s := Substitution.empty.bind (.atom (.int 8)) (.atom (.int 7))
    let u : Term := .tuple [.atom (.int 7), .map [(.atom (.int 1), .var (.fresh 0))]]
    let v : Term := .tuple [.list [.var (.fresh 1), .atom (.int 9)],
      .map [(.atom (.int 1), .atom (.int 8))]]
    let t := (s.bind (.atom (.int 7)) (.list [.var (.fresh 1), .atom (.int 9)])).bind
      (.var (.fresh 0)) (.list [.var (.fresh 1), .atom (.int 9)])
    r.apply u = .tuple [.var (.named (.atom (.int 7))), .map [(.atom (.int 1), .var (.fresh 0))]] ∧
    Returns (fun limit => (standard : Unifier Empty Empty).unify .empty limit (r.apply u)
      (r.apply v) (r.applyBindings s)) (.ok (r.applyBindings t)) ∧
    ∃ value, (standard : Unifier Empty Empty).Reifies r.registry u s value ∧
      (standard : Unifier Empty Empty).Reifies .empty (r.apply u) (r.applyBindings s)
        (r.apply value) := by
  intro r s u v t
  have admits {a : Term} (h : a.Canonical ∧ (∀ b ∈ a.subterms, b.shape ≠ .set) ∧
      (∀ b ∈ a.subterms, ∀ a ∈ r.atoms, b ≠ .var (r.name a)) ∧
      ∀ b ∈ a.subterms, ∀ key ∈ b.keys, ∀ a ∈ r.atoms, .atom a ∉ key.subterms) : r.Admits a :=
    ⟨⟨h.1, h.2.1, h.2.2.1⟩, h.2.2.2⟩
  have hu : r.Admits u := admits (by decide +kernel)
  have hv : r.Admits v := admits (by decide +kernel)
  have hs : r.AdmitsBindings s :=
    (admitsBindings_empty r).bind (admits (by decide +kernel)) (admits (by decide +kernel))
  have hrun : ((standard : Unifier Empty Empty).unify r.registry 20 u v s).result =
      .ok (.ok t) := by decide +kernel
  have hacyclic : s.Acyclic r.registry := (acyclic_empty _).bind_of_subterms (by decide +kernel)
  obtain ⟨-, hok, -, -, hobservers⟩ := unify_renamed (φ := Empty) (ψ := Empty) hu hv hs
  obtain ⟨⟨value, -, hvalue, hrenamed⟩, -, -⟩ := hobservers hacyclic u hu
  exact ⟨by decide +kernel, ((hok t).1 (Procedure.returns_of_answered hrun)).2, value, hvalue,
    hrenamed⟩

end Unifier

end LogicTerms
