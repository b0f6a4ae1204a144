import LogicTerms.Proofs.Evaluation.Invariants
import LogicTerms.Proofs.Reification.Values

/-!
# What all terms of a reification have in common

A property that goes from terms to their parts, and from parts to what is built of them, holds of
all terms that reification ever works with once it holds of the term and of all that is bound. The
bindings may have cycles: then no value may come, but none without the property does.
-/

namespace LogicTerms

open Substitution

namespace Reification

variable {ψ : Type} {registry : Registry} {P : Term → Prop}

def Task.All (P : Term → Prop) (task : Task) : Prop := P task.term ∧ task.under.AllValues P

def Frame.All (P : Term → Prop) : Frame ψ → Prop
  | .inl frame =>
    (∀ p ∈ frame.pending, P p) ∧ (∀ p ∈ frame.reified, P p) ∧ frame.under.AllValues P
  | .inr _ => False

/-- The standard algorithms hand parts to a frame, or ask for the end of a chain. -/
theorem Task.All.reply (hparts : ∀ a, P a → ∀ p ∈ a.parts, P p) {task : Task} (h : task.All P) :
    ((Table.standard : Table ψ).reply registry task).All (Task.All P)
      (Computation.All (Frame.All P) P) (Computation.All (Frame.All P) P) := by
  obtain ⟨hterm, hunder⟩ := h
  rw [Table.standard_reply]
  split
  next =>
    unfold resolve
    split
    next value hwalk =>
      split
      next => exact .done hterm
      next => exact .call ⟨hunder.walk hwalk hterm, hunder⟩ fun _ hanswer => .done hanswer
    next => exact .fail
  next =>
    unfold compound
    split
    next form parts hform =>
      rw [Term.eq_parts_of_decompose hform]
      exact .done ⟨hparts task.term hterm, by simp, hunder⟩
    next => exact .done hterm

/-- A frame of parts asks for parts that it was given, and what it finishes with is built of the
values that were handed to it. -/
theorem Frame.All.resume [Extension ψ]
    (hbuild : ∀ (form : Form) parts, (∀ p ∈ parts, P p) → P (form.build parts))
    {frame : Frame ψ} {input : Option Term} (hframe : Frame.All P frame)
    (hinput : ∀ value, input = some value → P value) :
    (resume frame input).All (Task.All P) (Computation.All (Frame.All P) P)
      (Step.All (Frame.All P) P) := by
  cases frame with
  | inr frame => exact hframe.elim
  | inl frame =>
    obtain ⟨hpending, hreified, hunder⟩ := hframe
    have hall : ∀ p ∈ input.toList ++ frame.reified, P p :=
      List.forall_mem_append.2 ⟨fun p hp => hinput p (Option.mem_toList.1 hp), hreified⟩
    change (frame.resume input).All _ _ _
    rw [frame.resume_eq]
    split
    next t pending heq =>
      obtain ⟨ht, hrest⟩ := List.forall_mem_cons.1 (heq ▸ hpending)
      exact .call ⟨ht, hunder⟩ fun child hchild => .done ⟨hchild, hrest, hall, hunder⟩
    next =>
      split
      next => exact .done (hbuild frame.form _ fun p hp => hall p (List.mem_reverse.1 hp))
      next => exact .done ⟨hpending, hall, hunder⟩

/-- All terms of a run have the property. -/
theorem invariant_of_parts [Extension ψ] (registry : Registry)
    (hparts : ∀ a, P a → ∀ p ∈ a.parts, P p)
    (hbuild : ∀ (form : Form) parts, (∀ p ∈ parts, P p) → P (form.build parts)) :
    ((Table.standard : Table ψ).procedure registry).Invariant (Task.All P) (Frame.All P) P where
  answer _ htask := htask.reply hparts
  resume _ _ hframe := hframe.resume hbuild

end Reification

namespace Unifier

variable {φ ψ : Type} [Reification.Extension ψ] {registry : Registry} {P : Term → Prop}
  {s : Substitution} {t value : Term} {limit : Nat}

/-- Whatever the bindings are: if reification returns a term, the term has the property. -/
theorem preserves_of_reify (hparts : ∀ a, P a → ∀ p ∈ a.parts, P p)
    (hbuild : ∀ (form : Form) parts, (∀ p ∈ parts, P p) → P (form.build parts))
    (ht : P t) (hs : s.AllValues P)
    (h : ((standard : Unifier φ ψ).reify registry limit t s).result = .ok value) : P value := by
  have hinvariant := Reification.invariant_of_parts (ψ := ψ) registry hparts hbuild
  refine hinvariant.of_run ?_ (Report.answered_eq_ok_iff.1 h)
  exact ⟨ht, hs⟩

end Unifier

end LogicTerms
