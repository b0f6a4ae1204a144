import LogicTerms.Proofs.Reification.FreeVariables
import LogicTerms.Proofs.Unification.Runs

/-!
# What unification binds

Unification keeps all bindings that there are and adds bindings of free variables of the two terms.
A variable is only bound after a walk ended at it, so that no binding is ever replaced, and the
terms that meet on the way come out of the two terms and the values that they lead to.
-/

namespace LogicTerms

namespace Substitution

variable {registry : Registry} {s t r : Substitution} {P : Term → Prop} {a b x value : Term}

/-- `t` has all bindings of `s`, and each further one binds a variable. The variable and its value
are terms with a property. -/
structure Grows (registry : Registry) (P : Term → Prop) (s t : Substitution) : Prop where
  keeps : t.Extends s
  added (x value : Term) (h : t.lookup x = some value) (hfree : s.lookup x = none) :
    registry.isVariable x = true ∧ P x ∧ P value

namespace Grows

theorem refl (s : Substitution) : Grows registry P s s where
  keeps := .refl s
  added x value h hfree := by simp [hfree] at h

theorem bind (h : Grows registry P s t) (hx : registry.isVariable x = true)
    (hfree : t.lookup x = none) (hxP : P x) (hvalue : P value) :
    Grows registry P s (t.bind x value) where
  keeps := (extends_bind hfree value).trans h.keeps
  added y v hv hy := by
    rw [lookup_bind] at hv
    split at hv
    next heq =>
      cases hv
      exact ⟨heq ▸ hx, heq ▸ hxP, hvalue⟩
    next => exact h.added y v hv hy

/-- A walk stays among the terms of the property if all that these lead to from the start has it. -/
theorem of_walk (h : Grows registry P s t) (hP : ∀ a b, s.Leads registry a b → P a → P b)
    (hwalk : t.walk registry a = some b) (ha : P a) : P b := by
  refine walk_preserves (fun x value hx hvalue hxP => ?_) hwalk ha
  cases hlookup : s.lookup x with
  | none => exact (h.added x value hvalue hlookup).2.2
  | some v =>
    rw [h.keeps x v hlookup, Option.some.injEq] at hvalue
    exact hP x value (leads_of_lookup hx (hvalue ▸ hlookup)) hxP

end Grows

end Substitution

open Substitution

namespace Unification

variable {registry : Registry} {s t : Substitution} {P : Term → Prop}

/-! ## The rules -/

def Task.Terms (P : Term → Prop) : Task → Prop
  | .pair u v _ => P u ∧ P v
  | .pairs list _ => ∀ pair ∈ list, P pair.1 ∧ P pair.2

/-- The pairs that are left of two terms are among what the terms lead to. -/
theorem Task.Terms.of_confront (hP : ∀ a b, s.Leads registry a b → P a → P b) {u v : Term}
    {r : Substitution} {pairs : List (Term × Term)} (h : Task.Terms P (.pair u v r))
    (hu : registry.isVariable u = false) (hv : registry.isVariable v = false)
    (hpairs : confront u v = .ok pairs) : Task.Terms P (.pairs pairs r) := by
  intro pair hpair
  obtain ⟨hleft, hright⟩ := mem_parts_of_confront hpairs hpair
  exact ⟨hP u _ (leads_of_mem_parts hu hleft) h.1, hP v _ (leads_of_mem_parts hv hright) h.2⟩

/-- The rules stay among the terms of a property that passes from each term to what it leads to. -/
theorem Solves.grows (hP : ∀ a b, s.Leads registry a b → P a → P b) {task : Task}
    (h : Solves registry task (.ok t)) (hunder : Grows registry P s task.under)
    (hterms : task.Terms P) : Grows registry P s t := by
  generalize hresult : (.ok t : Result) = result at h
  induction h generalizing t with
  | unbound hu hfree hv =>
    cases hresult
    split
    · exact hunder
    · exact hunder.bind hu hfree hterms.1 (hunder.of_walk hP hv hterms.2)
  | bound _ hu' _ hv _ ih =>
    exact ih hunder ⟨hunder.of_walk hP hu' hterms.1, hunder.of_walk hP hv hterms.2⟩ hresult
  | swapped _ _ _ ih => exact ih hunder hterms.symm hresult
  | together hu hv hpairs _ ih => exact ih hunder (hterms.of_confront hP hu hv hpairs) hresult
  | nil =>
    cases hresult
    exact hunder
  | apart | clash => cases hresult
  | cons _ _ ih ihrest =>
    obtain ⟨hpair, hrest⟩ := List.forall_mem_cons.1 hterms
    exact ihrest (ih hunder hpair rfl) hrest hresult

/-- The storage is shared as long as nothing is bound, and each binding takes a new version and a
new key. -/
theorem Solves.eq_or_added {task : Task} (h : Solves registry task (.ok t)) :
    t = task.under ∨
      task.under.version < t.version ∧ ∃ x ∈ t.domain, x ∉ task.under.domain := by
  generalize hresult : (.ok t : Result) = result at h
  induction h generalizing t with
  | @unbound u v v' s hu hfree hv =>
    cases hresult
    split
    · exact .inl rfl
    · have hlookup : (s.bind u v').lookup u = some v' := by simp
      exact .inr ⟨Nat.lt_succ_self s.version, u, mem_domain_of_lookup hlookup,
        not_mem_domain_iff.2 hfree⟩
  | bound _ _ _ _ _ ih | swapped _ _ _ ih | together _ _ _ _ ih => exact ih hresult
  | nil =>
    cases hresult
    exact .inl rfl
  | apart | clash => cases hresult
  | @cons u v pairs s s' _ hfirst hrest ih ihrest =>
    subst hresult
    obtain hsame | ⟨hlt, x, hx, hxs⟩ := ih rfl
    · change s' = s at hsame
      subst hsame
      exact ihrest rfl
    · refine .inr ⟨?_, x, hrest.extends.mem_domain hx, hxs⟩
      obtain hsame | ⟨hlt', -⟩ := ihrest rfl
      · rwa [hsame]
      · exact hlt.trans hlt'

/-- The storage is shared just if no key was added. -/
theorem Solves.sharesWith_iff {task : Task} (h : Solves registry task (.ok t)) :
    t.SharesWith task.under ↔ ∀ x ∈ t.domain, x ∈ task.under.domain := by
  obtain rfl | ⟨hlt, x, hx, hxs⟩ := h.eq_or_added
  · exact iff_of_true rfl fun _ hx => hx
  · exact iff_of_false (Nat.ne_of_gt hlt) fun hall => hxs (hall x hx)

/-! ## Terms that are met -/

/-- A term that is there from the start: it is inside of one of two terms or of a value that is
bound, and it reaches no variable that neither of the two terms reaches. -/
structure Met (registry : Registry) (u v : Term) (s : Substitution) (a : Term) : Prop where
  reached (x : Term) (hx : s.Reaches registry a x) :
    ∃ b, (b = u ∨ b = v) ∧ s.Reaches registry b x
  inside : ∃ b, (b = u ∨ b = v ∨ ∃ x, s.lookup x = some b) ∧ a ∈ b.subterms

theorem met_left : Met registry u v s u where
  reached _ hx := ⟨u, .inl rfl, hx⟩
  inside := ⟨u, .inl rfl, u.self_mem_subterms⟩

theorem met_right : Met registry u v s v where
  reached _ hx := ⟨v, .inr rfl, hx⟩
  inside := ⟨v, .inr (.inl rfl), v.self_mem_subterms⟩

/-- The values and the parts of terms that are there from the start are there as well. -/
theorem Met.of_leads (ha : Met registry u v s a) (h : s.Leads registry a b) :
    Met registry u v s b where
  reached x hx := ha.reached x (hx.of_leads h)
  inside := by
    obtain ⟨-, hvalue⟩ | ⟨-, hpart⟩ := h.cases
    · exact ⟨b, .inr (.inr ⟨a, hvalue⟩), b.self_mem_subterms⟩
    · obtain ⟨c, hc, hmem⟩ := ha.inside
      have hb := Term.mem_subterms_of_mem_parts hpart b.self_mem_subterms
      exact ⟨c, hc, Term.subterms_trans hb hmem⟩

/-- Only terms that are there from the start are bound. -/
theorem Solves.grows_met (h : Solves registry (.pair u v s) (.ok t)) :
    Grows registry (Met registry u v s) s t :=
  h.grows (fun _ _ hstep ha => ha.of_leads hstep) (.refl s) ⟨met_left, met_right⟩

end Unification

/-! ## Runs -/

namespace Unifier

variable {φ ψ : Type} [Unification.Extension φ] [Reification.Extension ψ] {registry : Registry}
  {s : Substitution}

/-- What unification of two terms may make of a substitution. All bindings stay as they are. Each
key that is added is a variable, a free one of one of the terms, and its value is a subterm of one
of the terms or of a value that was bound before. The storage is shared just if no key is added. -/
structure Confined (unifier : Unifier φ ψ) (registry : Registry) (u v : Term)
    (s t : Substitution) : Prop where
  keeps : t.Extends s
  key (x : Term) (hx : x ∈ t.domain) (hnew : x ∉ s.domain) : registry.isVariable x = true ∧
    ∃ a found, (a = u ∨ a = v) ∧
      Returns (fun limit => unifier.freeVariables registry limit a s) found ∧ x ∈ found
  value (x value : Term) (h : t.lookup x = some value) (hnew : x ∉ s.domain) :
    ∃ a, (a = u ∨ a = v ∨ ∃ y, s.lookup y = some a) ∧ value ∈ a.subterms
  shares : t.SharesWith s ↔ ∀ x ∈ t.domain, x ∈ s.domain

omit [Unification.Extension φ] in
theorem confined_refl (unifier : Unifier φ ψ) (u v : Term) : unifier.Confined registry u v s s where
  keeps := .refl s
  key _ hx hnew := absurd hx hnew
  value _ _ h hnew := absurd (mem_domain_of_lookup h) hnew
  shares := iff_of_true rfl fun _ hx => hx

/-- Unification adds nothing but bindings of free variables of the two terms to subterms that were
there before. -/
theorem unify_confined (hs : s.Acyclic registry) :
    (∀ u v limit t, ((standard : Unifier φ ψ).unify registry limit u v s).result = .ok (.ok t) →
      (standard : Unifier φ ψ).Confined registry u v s t) ∧
    ∀ u t, ((standard : Unifier φ ψ).unifySelf u s).result = .ok (.ok t) →
      (standard : Unifier φ ψ).Confined registry u u s t := by
  refine ⟨?_, ?_⟩
  · intro u v limit t hrun
    have hsolves := solves_of_unify hrun
    have hgrows := hsolves.grows_met
    refine ⟨hgrows.keeps, ?_, ?_, hsolves.sharesWith_iff⟩
    · intro x hx hnew
      obtain ⟨value, hvalue⟩ := mem_domain_iff.1 hx
      have hfree := not_mem_domain_iff.1 hnew
      obtain ⟨hvar, hmet, -⟩ := hgrows.added x value hvalue hfree
      obtain ⟨a, ha, hreaches⟩ := hmet.reached x (.unbound hvar hfree)
      obtain ⟨found, hfound, -, hmem⟩ := returns_freeVariables (φ := φ) (ψ := ψ) hs a
      exact ⟨hvar, a, found, ha, hfound, (hmem x).2 hreaches⟩
    · intro x value h hnew
      exact (hgrows.added x value h (not_mem_domain_iff.1 hnew)).2.2.inside
  · intro u t hrun
    cases hrun
    exact confined_refl _ u u

/-- A variable is bound to a variable inside the value of another one, and a registered atom to a
variable. Then nothing is left to be bound. -/
theorem unify_confined_example :
    let registry := Registry.empty.insert (.atom (.int 7))
    let s := Substitution.empty.bind (.var (.fresh 1)) (.list [.var (.fresh 2)])
    let u : Term := .tuple [.var (.fresh 1), .atom (.int 7)]
    let v : Term := .tuple [.list [.var (.fresh 3)], .var (.fresh 0)]
    let t := (s.bind (.var (.fresh 2)) (.var (.fresh 3))).bind (.atom (.int 7)) (.var (.fresh 0))
    (standard : Unifier Empty Empty).Confined registry u v s t ∧ ¬ t.SharesWith s ∧
      (standard : Unifier Empty Empty).Confined registry u v t t := by
  intro registry s u v t
  have hs : s.Acyclic registry := (acyclic_empty registry).bind_of_subterms (by decide +kernel)
  have ht : t.Acyclic registry := by
    refine (hs.bind_of_subterms ?_).bind_of_subterms ?_
    all_goals decide +kernel
  refine ⟨(unify_confined hs).1 u v 20 t (by decide +kernel), by decide +kernel, ?_⟩
  exact (unify_confined ht).1 u v 20 t (by decide +kernel)

end Unifier

end LogicTerms
