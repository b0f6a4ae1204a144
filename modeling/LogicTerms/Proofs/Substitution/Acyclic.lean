import LogicTerms.Proofs.Term.Subterms
import LogicTerms.Substitution
import Mathlib.Data.Set.Card
import Mathlib.Logic.Relation

/-!
# Acyclic substitutions

A substitution binds variables to terms with further variables inside, which may be bound in turn.
Whoever follows all of them comes to an end just if no variable leads back to itself.
-/

namespace LogicTerms.Substitution

open Relation

variable {registry : Registry} {s t : Substitution} {x a b value : Term}

/-! ## Extensions -/

def Extends (t s : Substitution) : Prop :=
  ∀ x value, s.lookup x = some value → t.lookup x = some value

@[simp] theorem Extends.refl (s : Substitution) : s.Extends s := fun _ _ h => h

theorem Extends.trans {r : Substitution} (hts : t.Extends s) (hsr : s.Extends r) : t.Extends r :=
  fun x value h => hts x value (hsr x value h)

/-- What is not bound in the end was not bound before. -/
theorem Extends.lookup_eq_none (hts : t.Extends s) (h : t.lookup x = none) : s.lookup x = none := by
  rw [Option.eq_none_iff_forall_ne_some]
  intro value hvalue
  simp [hts x value hvalue] at h

@[simp] theorem extends_empty (t : Substitution) : t.Extends empty := fun x value h => by
  simp at h

/-- A variable that was not bound before loses nothing. -/
theorem extends_bind (h : s.lookup x = none) (value : Term) : (s.bind x value).Extends s := by
  intro y v hv
  have hne : y ≠ x := by
    rintro rfl
    simp [h] at hv
  rw [lookup_bind, if_neg hne, hv]

theorem mem_domain_iff : x ∈ s.domain ↔ ∃ value, s.lookup x = some value :=
  Entries.mem_keys_iff

theorem not_mem_domain_iff : x ∉ s.domain ↔ s.lookup x = none := by
  rw [mem_domain_iff, Option.eq_none_iff_forall_ne_some, not_exists]

theorem domain_bind (s : Substitution) (x value : Term) :
    (s.bind x value).domain = Elements.insert x s.domain :=
  Entries.keys_insert

theorem mem_domain_of_lookup (h : s.lookup x = some value) : x ∈ s.domain :=
  mem_domain_iff.2 ⟨value, h⟩

theorem Extends.mem_domain (h : t.Extends s) (hx : x ∈ s.domain) : x ∈ t.domain := by
  obtain ⟨value, hvalue⟩ := mem_domain_iff.1 hx
  exact mem_domain_of_lookup (h x value hvalue)

/-! ## Ways into a term -/

/-- One step into the value of a term: from a variable to the term that is bound to it, and from
any other term to a part of it. -/
def Leads (registry : Registry) (s : Substitution) (a b : Term) : Prop :=
  if registry.isVariable a then s.lookup a = some b else b ∈ a.parts

def Acyclic (registry : Registry) (s : Substitution) : Prop :=
  ∀ x, registry.isVariable x = true → ¬ TransGen (s.Leads registry) x x

theorem leads_of_lookup (hx : registry.isVariable x = true) (h : s.lookup x = some value) :
    s.Leads registry x value := by
  rw [Leads, if_pos hx]
  exact h

theorem leads_of_mem_parts (ha : registry.isVariable a = false) (hb : b ∈ a.parts) :
    s.Leads registry a b := by
  rw [Leads, if_neg (by simp [ha])]
  exact hb

theorem Leads.cases (h : s.Leads registry a b) :
    registry.isVariable a = true ∧ s.lookup a = some b ∨
      registry.isVariable a = false ∧ b ∈ a.parts := by
  unfold Leads at h
  split at h
  next ha => exact .inl ⟨ha, h⟩
  next ha => exact .inr ⟨by simpa using ha, h⟩

theorem Leads.of_extends (hts : t.Extends s) (h : s.Leads registry a b) :
    t.Leads registry a b := by
  obtain ⟨ha, hb⟩ | ⟨ha, hb⟩ := h.cases
  · exact leads_of_lookup ha (hts a b hb)
  · exact leads_of_mem_parts ha hb

/-- What passes from each term to all that it leads to holds on the whole way. -/
theorem reflTransGen_preserves {P : Term → Prop} (hP : ∀ a b, s.Leads registry a b → P a → P b)
    (h : ReflTransGen (s.Leads registry) a b) (ha : P a) : P b := by
  induction h with
  | refl => exact ha
  | tail _ hstep ih => exact hP _ _ hstep ih

theorem acyclic_empty (registry : Registry) : Acyclic registry empty := by
  intro x hx h
  obtain ⟨y, hxy, -⟩ := TransGen.head'_iff.1 h
  obtain ⟨-, hy⟩ | ⟨hx', -⟩ := hxy.cases
  · simp at hy
  · simp [hx] at hx'

/-- Fewer bindings make no cycle. -/
theorem Acyclic.of_extends (h : t.Acyclic registry) (hts : t.Extends s) : s.Acyclic registry := by
  have hsub : s.Leads registry ≤ t.Leads registry := fun _ _ hstep => hstep.of_extends hts
  exact fun x hx hcycle => h x hx (TransGen.mono hsub x x hcycle)

/-! ## Every way ends -/

def ahead (registry : Registry) (s : Substitution) (a : Term) : Set Term :=
  {x | x ∈ s.domain ∧ ReflTransGen (s.Leads registry) a x}

theorem finite_ahead (registry : Registry) (s : Substitution) (a : Term) :
    (s.ahead registry a).Finite :=
  s.domain.finite_toSet.subset fun _ hx => hx.1

/-- No more variables are ahead than are bound. -/
theorem ncard_ahead_le_size (registry : Registry) (s : Substitution) (a : Term) :
    (s.ahead registry a).ncard ≤ s.size := by
  classical
  have hsub : s.ahead registry a ⊆ (s.domain.toFinset : Set Term) := by
    intro x hx
    simpa using hx.1
  calc (s.ahead registry a).ncard
      ≤ (s.domain.toFinset : Set Term).ncard := Set.ncard_le_ncard hsub (Finset.finite_toSet _)
    _ = s.domain.toFinset.card := Set.ncard_coe_finset _
    _ ≤ s.domain.length := List.toFinset_card_le _
    _ = s.size := by simp [domain, size]

theorem ahead_subset_of_leads (h : s.Leads registry a b) :
    s.ahead registry b ⊆ s.ahead registry a :=
  fun _ hx => ⟨hx.1, .head h hx.2⟩

/-- A variable is not ahead any more once it was passed. -/
theorem Acyclic.ncard_ahead_lt (hs : s.Acyclic registry) (hx : registry.isVariable x = true)
    (h : s.lookup x = some value) :
    (s.ahead registry value).ncard < (s.ahead registry x).ncard := by
  have hstep := leads_of_lookup hx h
  refine Set.ncard_lt_ncard ⟨ahead_subset_of_leads hstep, fun hsub => ?_⟩ (finite_ahead ..)
  have hback := hsub ⟨mem_domain_of_lookup h, .refl⟩
  exact hs x hx (.head' hstep hback.2)

/-- Each step passes a variable or goes to a smaller term. -/
theorem Acyclic.wellFounded (hs : s.Acyclic registry) :
    WellFounded fun b a => s.Leads registry a b := by
  refine Subrelation.wf (fun {b a} hstep => ?_)
    (InvImage.wf (fun a => ((s.ahead registry a).ncard, a.weight))
      (Prod.lex Nat.lt_wfRel Nat.lt_wfRel).wf)
  obtain ⟨ha, hb⟩ | ⟨-, hb⟩ := hstep.cases
  · exact .left _ _ (hs.ncard_ahead_lt ha hb)
  · have hle := Set.ncard_le_ncard (ahead_subset_of_leads hstep) (finite_ahead ..)
    obtain hlt | heq := Nat.lt_or_eq_of_le hle
    · exact .left _ _ hlt
    · refine Prod.lex_def.2 (.inr ⟨heq, Term.weight_lt_of_mem_parts hb⟩)

/-! ## New bindings -/

/-- A step under one more binding is an old one, or it follows the binding. -/
theorem Leads.of_bind (h : (s.bind x value).Leads registry a b) :
    s.Leads registry a b ∨ a = x ∧ b = value := by
  obtain ⟨ha, hb⟩ | ⟨ha, hb⟩ := h.cases
  · rw [lookup_bind] at hb
    split at hb
    next hax => exact .inr ⟨hax, (Option.some.inj hb).symm⟩
    next => exact .inl (leads_of_lookup ha hb)
  · exact .inl (leads_of_mem_parts ha hb)

/-- A way under one more binding either is one without it or leads to its variable and on from its
value. -/
theorem transGen_of_bind (hvalue : ¬ ReflTransGen (s.Leads registry) value x)
    (h : TransGen ((s.bind x value).Leads registry) a b) :
    TransGen (s.Leads registry) a b ∨
      ReflTransGen (s.Leads registry) a x ∧ ReflTransGen (s.Leads registry) value b := by
  induction h with
  | single hstep =>
    obtain hstep | ⟨rfl, rfl⟩ := hstep.of_bind
    · exact .inl (.single hstep)
    · exact .inr ⟨.refl, .refl⟩
  | tail _ hstep ih =>
    obtain hstep | ⟨rfl, rfl⟩ := hstep.of_bind
    · obtain hway | ⟨hto, hfrom⟩ := ih
      · exact .inl (hway.tail hstep)
      · exact .inr ⟨hto, hfrom.tail hstep⟩
    · obtain hway | ⟨-, hfrom⟩ := ih
      · exact .inr ⟨hway.to_reflTransGen, .refl⟩
      · exact absurd hfrom hvalue

/-- A new binding makes a cycle only if its value leads to the variable. -/
theorem Acyclic.bind (hs : s.Acyclic registry)
    (hvalue : ¬ ReflTransGen (s.Leads registry) value x) : (s.bind x value).Acyclic registry := by
  intro y hy hcycle
  obtain hway | ⟨hto, hfrom⟩ := transGen_of_bind hvalue hcycle
  · exact hs y hy hway
  · exact hvalue (hfrom.trans hto)

/-- A value makes no cycle if it contains no bound variable and not the variable itself. -/
theorem Acyclic.bind_of_subterms (hs : s.Acyclic registry)
    (h : ∀ b ∈ value.subterms, b ≠ x ∧ (registry.isVariable b = true → s.lookup b = none)) :
    (s.bind x value).Acyclic registry := by
  have inside {b : Term} (hway : ReflTransGen (s.Leads registry) value b) : b ∈ value.subterms := by
    refine reflTransGen_preserves (fun b c hstep hb => ?_) hway value.self_mem_subterms
    obtain ⟨hvar, hvalue⟩ | ⟨-, hc⟩ := hstep.cases
    · simp [(h b hb).2 hvar] at hvalue
    · exact Term.subterms_trans (Term.mem_subterms_of_mem_parts hc c.self_mem_subterms) hb
  exact hs.bind fun hway => (h x (inside hway)).1 rfl

end LogicTerms.Substitution
