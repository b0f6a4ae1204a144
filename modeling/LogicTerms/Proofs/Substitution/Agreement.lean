import LogicTerms.Proofs.Substitution.Image
import LogicTerms.Proofs.Substitution.Reaches

/-!
# Substitutions that agree

What a term comes to depends on the bindings of the variables that it leads to and on no others. Two
substitutions that agree on these may differ everywhere else, also on keys that are no variables.
All bindings that matter for a ground term are there, so further ones have no influence on it.
-/

namespace LogicTerms.Substitution

open Relation

variable {registry : Registry} {s s' : Substitution} {P : Term → Prop} {u v a b x value : Term}

/-- A variable that a term leads to, in some steps or in none. It may be bound or not. -/
def Needs (registry : Registry) (s : Substitution) (a x : Term) : Prop :=
  registry.isVariable x = true ∧ ReflTransGen (s.Leads registry) a x

/-- Two substitutions have the same bindings of the variables of a set. The set contains whatever
its terms lead to. -/
structure AgreeOn (registry : Registry) (P : Term → Prop) (s s' : Substitution) : Prop where
  lookup_eq (x : Term) (hx : registry.isVariable x = true) (hxP : P x) : s'.lookup x = s.lookup x
  closed (a b : Term) (h : s.Leads registry a b) (ha : P a) : P b

/-- All that two terms lead to is such a set. -/
theorem agreeOn_of_needs
    (h : ∀ x, s.Needs registry u x ∨ s.Needs registry v x → s'.lookup x = s.lookup x) :
    AgreeOn registry (fun a => ReflTransGen (s.Leads registry) u a ∨
      ReflTransGen (s.Leads registry) v a) s s' where
  lookup_eq x hx hway := h x (hway.imp (fun h => ⟨hx, h⟩) (fun h => ⟨hx, h⟩))
  closed _ _ hstep hway := hway.imp (fun h => h.tail hstep) (fun h => h.tail hstep)

namespace AgreeOn

/-- The steps into terms of the set are the same under both substitutions. -/
theorem leads_iff (h : AgreeOn registry P s s') (ha : P a) :
    s'.Leads registry a b ↔ s.Leads registry a b := by
  unfold Leads
  split
  next hvar => rw [h.lookup_eq a hvar ha]
  next => rfl

theorem symm (h : AgreeOn registry P s s') : AgreeOn registry P s' s where
  lookup_eq x hx hxP := (h.lookup_eq x hx hxP).symm
  closed a b hstep ha := h.closed a b ((h.leads_iff ha).1 hstep) ha

/-- All variables that terms of the set need are in it. -/
theorem lookup_eq_of_needs (h : AgreeOn registry P s s') (ha : P a) (hx : s.Needs registry a x) :
    s'.lookup x = s.lookup x :=
  h.lookup_eq x hx.1 (reflTransGen_preserves h.closed hx.2 ha)

/-- The same binding of whatever key keeps the agreement. -/
theorem bind (h : AgreeOn registry P s s') (hvalue : P value) (x : Term) :
    AgreeOn registry P (s.bind x value) (s'.bind x value) where
  lookup_eq y hy hyP := by rw [lookup_bind, lookup_bind, h.lookup_eq y hy hyP]
  closed a b hstep ha := by
    obtain hstep | ⟨-, rfl⟩ := hstep.of_bind
    · exact h.closed a b hstep ha
    · exact hvalue

theorem reaches (h : AgreeOn registry P s s') (hreaches : s.Reaches registry a x) (ha : P a) :
    s'.Reaches registry a x := by
  induction hreaches with
  | unbound hx hfree => exact .unbound hx ((h.lookup_eq _ hx ha).trans hfree)
  | bound hx hlookup _ ih =>
    exact .bound hx ((h.lookup_eq _ hx ha).trans hlookup)
      (ih (h.closed _ _ (leads_of_lookup hx hlookup) ha))
  | part hvar hpart _ ih =>
    exact .part hvar hpart (ih (h.closed _ _ (leads_of_mem_parts hvar hpart) ha))

theorem reaches_iff (h : AgreeOn registry P s s') (ha : P a) :
    s'.Reaches registry a x ↔ s.Reaches registry a x :=
  ⟨fun hreaches => h.symm.reaches hreaches ha, fun hreaches => h.reaches hreaches ha⟩

/-- Terms of the set have the same image under both substitutions. -/
theorem image_eq (h : AgreeOn registry P s s') (hs : s.Acyclic registry)
    (hs' : s'.Acyclic registry) (ha : P a) : hs'.image a = hs.image a := by
  induction a using hs.wellFounded.induction with
  | _ a ih =>
    cases hvar : registry.isVariable a with
    | true =>
      have hsame := h.lookup_eq a hvar ha
      cases hlookup : s.lookup a with
      | none =>
        rw [hs.image_of_resolved (fun _ => hlookup) (.inl hvar),
          hs'.image_of_resolved (fun _ => hsame.trans hlookup) (.inl hvar)]
      | some value =>
        have hstep := leads_of_lookup hvar hlookup
        rw [hs.image_of_lookup hvar hlookup, hs'.image_of_lookup hvar (hsame.trans hlookup)]
        exact ih value hstep (h.closed a value hstep ha)
    | false =>
      have hresolved {r : Substitution} : r.Resolved registry a :=
        resolved_of_isVariable_eq_false hvar
      cases hform : a.decompose with
      | none =>
        rw [hs.image_of_resolved hresolved (.inr hform),
          hs'.image_of_resolved hresolved (.inr hform)]
      | some d =>
        obtain ⟨form, parts⟩ := d
        obtain rfl := Term.eq_parts_of_decompose hform
        rw [hs.image_of_decompose hvar hform, hs'.image_of_decompose hvar hform]
        refine congrArg form.build (List.map_congr_left fun p hp => ?_)
        have hstep := leads_of_mem_parts (s := s) hvar hp
        exact ih p hstep (h.closed a p hstep ha)

end AgreeOn

/-! ## Ground terms -/

variable {t : Substitution} {p : Term}

def Ground (registry : Registry) (s : Substitution) (a : Term) : Prop :=
  ∀ x, ¬ s.Reaches registry a x

theorem ground_iff_of_isVariable_eq_false (ha : registry.isVariable a = false) :
    s.Ground registry a ↔ ∀ p ∈ a.parts, s.Ground registry p := by
  simp only [Ground, Reaches, reachesBy_iff_of_isVariable_eq_false ha, not_exists, not_and]
  exact ⟨fun h p hp x => h x p hp, fun h x p hp => h p hp x⟩

/-- The end of a chain is ground just if its start is, also under further bindings. -/
theorem ground_iff_of_walk (hext : t.Extends s) (h : s.walk registry a = some b) :
    t.Ground registry a ↔ t.Ground registry b := by
  refine walk_preserves (P := fun c => t.Ground registry a ↔ t.Ground registry c) ?_ h Iff.rfl
  intro x value hx hvalue ih
  refine ih.trans (forall_congr' fun y => not_congr ?_)
  exact reachesBy_iff_of_lookup hx (hext x value hvalue)

/-- A term reaches each variable that it leads to and that is not bound. -/
theorem reaches_of_reflTransGen (h : ReflTransGen (s.Leads registry) a x)
    (hx : registry.isVariable x = true) (hfree : s.lookup x = none) : s.Reaches registry a x := by
  induction h using ReflTransGen.head_induction_on with
  | refl => exact .unbound hx hfree
  | head hstep _ ih => exact ih.of_leads hstep

namespace Ground

theorem of_leads (ha : s.Ground registry a) (h : s.Leads registry a b) : s.Ground registry b :=
  fun x hx => ha x (hx.of_leads h)

theorem of_reflTransGen (ha : s.Ground registry a) (h : ReflTransGen (s.Leads registry) a b) :
    s.Ground registry b :=
  reflTransGen_preserves (fun _ _ hstep hground => hground.of_leads hstep) h ha

theorem lookup_ne_none (ha : s.Ground registry a) (hvar : registry.isVariable a = true) :
    s.lookup a ≠ none := fun hfree => ha a (.unbound hvar hfree)

theorem exists_lookup (ha : s.Ground registry a) (hvar : registry.isVariable a = true) :
    ∃ value, s.lookup a = some value :=
  Option.ne_none_iff_exists'.1 (ha.lookup_ne_none hvar)

/-- No variable is at the end of a chain that a ground term starts. -/
theorem isVariable_eq_false_of_walk (ha : s.Ground registry a)
    (h : s.walk registry a = some b) : registry.isVariable b = false := by
  have hb : s.Ground registry b := (ground_iff_of_walk (.refl s) h).1 ha
  by_contra hvar
  rw [Bool.not_eq_false] at hvar
  exact hb.lookup_ne_none hvar (resolved_of_walk h hvar)

/-- Further bindings bind no variable that a ground term leads to. -/
theorem agreeOn_of_extends (hext : t.Extends s) : AgreeOn registry (s.Ground registry) s t where
  lookup_eq x hx hground := by
    obtain ⟨value, hvalue⟩ := hground.exists_lookup hx
    rw [hvalue, hext x value hvalue]
  closed _ _ hstep hground := hground.of_leads hstep

/-- Under further bindings a ground term leads where it led before. -/
theorem leads_of_extends (ha : s.Ground registry a) (hext : t.Extends s)
    (h : t.Leads registry a b) : s.Leads registry a b :=
  ((agreeOn_of_extends hext).leads_iff ha).1 h

/-- Further bindings leave a term ground. -/
theorem of_extends (ha : s.Ground registry a) (hext : t.Extends s) : t.Ground registry a :=
  fun x hx => ha x (((agreeOn_of_extends hext).reaches_iff ha).1 hx)

/-- Under further bindings a chain from a ground term goes where it led before. -/
theorem reflTransGen_of_walk (ha : s.Ground registry a) (hext : t.Extends s)
    (h : t.walk registry a = some b) : ReflTransGen (s.Leads registry) a b := by
  refine walk_preserves (P := fun c => ReflTransGen (s.Leads registry) a c) ?_ h .refl
  intro x value hx hvalue hway
  exact hway.tail ((ha.of_reflTransGen hway).leads_of_extends hext (leads_of_lookup hx hvalue))

/-- Further bindings have no influence on the image of a ground term. -/
theorem image_eq (ha : s.Ground registry a) (hs : s.Acyclic registry) (ht : t.Acyclic registry)
    (hext : t.Extends s) : ht.image a = hs.image a :=
  (agreeOn_of_extends hext).image_eq hs ht ha

end Ground

end LogicTerms.Substitution
