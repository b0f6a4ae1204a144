import LogicTerms.Proofs.Dispatch
import LogicTerms.Proofs.Evaluation.Unobserved
import LogicTerms.Proofs.Substitution.Image
import LogicTerms.Unifier

/-!
# What reification returns

Under an acyclic substitution a run of the standard table returns the image of the term and nothing
else. The proof is by an induction along the answers of the table: a variable gives way to its
value, and a compound waits for its parts.
-/

namespace LogicTerms

open Relation Substitution

namespace Reification

variable {ψ : Type} {registry : Registry} {s : Substitution} {a b : Term}

namespace Table

/-- The standard table chooses by whether the term is a variable, an atom or a compound. -/
theorem standard_lookup (shape : Shape) :
    (standard : Table ψ).dispatch.lookup #v[shape] =
      .ok (if shape = .var then resolve else if shape = .atom then constant else compound) := by
  rw [standard, register, DispatchTable.lookup_register, DispatchTable.mostSpecific_eq_winner]
  cases shape <;> rfl

/-- Variables are resolved, and all other terms are taken apart as far as they have parts. -/
theorem standard_reply (registry : Registry) (task : Task) :
    (standard : Table ψ).reply registry task =
      if registry.isVariable task.term = true then resolve registry task.term task.under
      else compound registry task.term task.under := by
  rw [reply, standard_lookup]
  dsimp only
  cases hvar : registry.isVariable task.term with
  | true => simp [Registry.dispatchShape, hvar]
  | false =>
    have hshape : task.term.shape ≠ .var := by
      cases hterm : task.term <;> simp_all [Term.shape]
    have hatom : task.term.shape = .atom → task.term.decompose = none := by
      cases task.term <;> simp [Term.shape, Term.decompose]
    simp only [Registry.dispatchShape, hvar, Bool.false_eq_true, if_false, if_neg hshape]
    split
    next h => simp only [compound, hatom h]
    next => rfl

end Table

/-- A frame takes over the part that it is handed, whatever it does next. -/
theorem Parts.resume_eq (frame : Parts) (input : Option Term) :
    (frame.resume input : Query Task (Frame ψ) Term (Step (Frame ψ) Term Fault)) =
      match frame.pending with
      | t :: pending =>
        .await ⟨t, frame.under⟩
          (.inl { frame with pending, reified := input.toList ++ frame.reified })
      | [] =>
        if frame.constructing then
          .done (.finish (frame.form.build (input.toList ++ frame.reified).reverse))
        else
          .done (.construct (.inl
            { frame with reified := input.toList ++ frame.reified, constructing := true })) := by
  cases input <;> rfl

variable [Extension ψ]

/-- A frame whose parts all come to their images builds the compound of the images. -/
theorem finishes_build (hs : s.Acyclic registry) (form : Form) {pending : List Term}
    (h : ∀ p ∈ pending, ((Table.standard : Table ψ).procedure registry).Answers ⟨p, s⟩ (hs.image p))
    (reified : List Term) :
    ((Table.standard : Table ψ).procedure registry).Finishes
      (.inl ⟨s, form, pending, reified, false⟩) none
      (form.build (reified.reverse ++ pending.map hs.image)) := by
  induction pending generalizing reified with
  | nil =>
    refine Procedure.finishes_of_construct rfl (Procedure.finishes_of_finish ?_)
    simp [Table.procedure, resume, Parts.resume]
  | cons p pending ih =>
    have hrest := ih (fun q hq => h q (List.mem_cons_of_mem _ hq)) (hs.image p :: reified)
    refine Procedure.finishes_of_await rfl (h p List.mem_cons_self) ?_
    -- The value of the part goes to the reified ones, whether it was handed over or kept.
    refine Procedure.finishes_of_resume_eq ?_ (by simpa using hrest)
    rfl

/-- Under an acyclic substitution the standard table asks its way down to resolved variables and
atoms: it keeps these, passes a bound variable on to the end of its chain, and suspends a compound
with all its parts pending. What passes upwards along these answers holds of every term. -/
theorem answer_induction (hs : s.Acyclic registry) {P : Term → Prop}
    (constant : ∀ a, s.Resolved registry a →
      (registry.isVariable a = true ∨ registry.isVariable a = false ∧ a.decompose = none) →
      ((Table.standard : Table ψ).procedure registry).answer ⟨a, s⟩ = .done (.done a) → P a)
    (delegate : ∀ a b, s.walk registry a = some b →
      ((Table.standard : Table ψ).procedure registry).answer ⟨a, s⟩ = .delegate ⟨b, s⟩ →
      P b → P a)
    (compound : ∀ a form, registry.isVariable a = false → a.decompose = some (form, a.parts) →
      ((Table.standard : Table ψ).procedure registry).answer ⟨a, s⟩ =
        .done (.suspended (.inl ⟨s, form, a.parts, [], false⟩)) →
      (∀ p ∈ a.parts, P p) → P a) (a : Term) : P a := by
  induction a using hs.wellFounded.transGen.induction with
  | _ a ih =>
    have hanswer : ((Table.standard : Table ψ).procedure registry).answer ⟨a, s⟩ = _ :=
      Table.standard_reply registry ⟨a, s⟩
    cases hvar : registry.isVariable a with
    | true =>
      obtain ⟨b, hwalk⟩ := hs.exists_walk a
      simp only [hvar, if_true, resolve, hwalk] at hanswer
      split at hanswer
      next heq =>
        subst heq
        exact constant b (resolved_of_walk hwalk) (.inl hvar) hanswer
      next hne =>
        have hway := transGen_swap.1 (transGen_of_walk hwalk hne)
        exact delegate a b hwalk hanswer (ih b hway)
    | false =>
      simp only [hvar, Bool.false_eq_true, if_false, Reification.compound] at hanswer
      cases hform : a.decompose with
      | none =>
        refine constant a (resolved_of_isVariable_eq_false hvar) (.inr ⟨hvar, hform⟩) ?_
        rw [hanswer, hform]
        rfl
      | some d =>
        obtain ⟨form, parts⟩ := d
        obtain rfl := Term.eq_parts_of_decompose hform
        refine compound a form hvar hform (by rw [hanswer, hform]) fun p hp => ?_
        exact ih p (.single (leads_of_mem_parts hvar hp))

/-- Under an acyclic substitution the run of the standard table comes to the image of the term. -/
theorem answers_image (hs : s.Acyclic registry) (a : Term) :
    ((Table.standard : Table ψ).procedure registry).Answers ⟨a, s⟩ (hs.image a) := by
  induction a using answer_induction (ψ := ψ) hs with
  | constant a ha hkind hanswer =>
    rw [hs.image_of_resolved ha (hkind.imp_right And.right)]
    exact Procedure.answers_of_done hanswer
  | delegate a b hwalk hanswer ih =>
    rw [hs.image_of_walk (.refl s) hwalk]
    exact Procedure.answers_of_delegate hanswer ih
  | compound a form hvar hform hanswer ih =>
    rw [hs.image_of_decompose hvar hform]
    exact Procedure.answers_of_suspended hanswer (finishes_build hs form ih [])

end Reification

/-! ## Unifiers -/

namespace Unifier

variable {φ ψ : Type} [Reification.Extension ψ] {registry : Registry}
  {s : Substitution} {a b value : Term}

def Reifies (unifier : Unifier φ ψ) (registry : Registry) (a : Term) (s : Substitution)
    (value : Term) : Prop :=
  Returns (fun limit => unifier.reify registry limit a s) value

def ReifiesAlike (unifier : Unifier φ ψ) (registry : Registry) (a b : Term) (s : Substitution) :
    Prop :=
  ∃ value, unifier.Reifies registry a s value ∧ unifier.Reifies registry b s value

theorem reifies_of_result (limit : Nat)
    (h : ((standard : Unifier φ ψ).reify registry limit a s).result = .ok value) :
    (standard : Unifier φ ψ).Reifies registry a s value :=
  Procedure.returns_of_answered h

theorem reifies_image (hs : s.Acyclic registry) (a : Term) :
    (standard : Unifier φ ψ).Reifies registry a s (hs.image a) :=
  Procedure.returns_of_yields (Reification.answers_image hs a)

/-- Reification returns the image and nothing else. -/
theorem reifies_iff (hs : s.Acyclic registry) :
    (standard : Unifier φ ψ).Reifies registry a s value ↔ value = hs.image a := by
  constructor
  · intro h
    exact Returns.unique h (reifies_image hs a)
  · rintro rfl
    exact reifies_image hs a

theorem reifiesAlike_iff (hs : s.Acyclic registry) :
    (standard : Unifier φ ψ).ReifiesAlike registry a b s ↔ hs.image a = hs.image b := by
  simp only [ReifiesAlike, reifies_iff hs, exists_eq_left]

end Unifier

end LogicTerms
