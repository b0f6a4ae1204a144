import LogicTerms.Proofs.Evaluation.Invariants
import LogicTerms.Proofs.Substitution.Loopless
import LogicTerms.Proofs.Unification.Runs

/-!
# Unification makes no loop of variables

Both terms of a pair are followed to the ends of their chains, and a variable is bound only if it is
at the end of its own chain and not at the end of the other one. So no chain of bindings comes back
to a variable, although there is no occurs check and a variable may be bound to a term that contains
it. This holds at all times, also in a run that goes on for ever.
-/

namespace LogicTerms

open Substitution

namespace Unification

variable {φ : Type} {registry : Registry} {s : Substitution} {u v : Term}

def WalkableFrame (registry : Registry) : Frame φ → Prop
  | .inl frame => frame.under.Walkable registry
  | .inr _ => False

def WalkableResult (registry : Registry) (result : Result) : Prop :=
  ∀ t, result = .ok t → t.Walkable registry

theorem walkableResult_ok (hs : s.Walkable registry) : WalkableResult registry (.ok s) := by
  rintro t ⟨⟩
  exact hs

theorem walkableResult_error (clash : Clash) : WalkableResult registry (.error clash) := by
  rintro t ⟨⟩

/-- The calls of an algorithm or of a frame start from substitutions under which every chain ends,
and it comes to such substitutions. -/
abbrev Query.Walkable {β : Type} (registry : Registry) (R : β → Prop)
    (query : Query Task (Frame φ) Result β) : Prop :=
  query.All (fun task => task.under.Walkable registry)
    (Computation.All (WalkableFrame registry) (WalkableResult registry)) R

/-- A variable is only bound to the end of another chain, which makes no loop. -/
theorem walkable_variableLeft (hs : s.Walkable registry) (hu : registry.isVariable u = true) :
    Query.Walkable registry (Computation.All (WalkableFrame registry) (WalkableResult registry))
      (variableLeft registry u v s : Reply φ) := by
  obtain ⟨u', hwalku⟩ := hs u
  obtain ⟨v', hwalkv⟩ := hs v
  simp only [variableLeft, hwalku, hwalkv]
  split
  next hself =>
    subst hself
    refine .done (walkableResult_ok ?_)
    split
    next => exact hs
    next hne =>
      exact hs.bind hu (resolved_of_walk hwalku hu) (resolved_of_walk hwalkv) (Ne.symm hne)
  next => exact .call hs fun answer hanswer => .done hanswer

/-- The standard algorithms start and end at substitutions whose chains end. -/
theorem walkable_reply (registry : Registry) (task : Task) (hs : task.under.Walkable registry) :
    Query.Walkable registry (Computation.All (WalkableFrame registry) (WalkableResult registry))
      ((Table.standard : Table φ).reply registry task) := by
  cases task with
  | pairs list s => exact .done hs
  | pair u v s =>
    cases hu : registry.isVariable u with
    | true =>
      rw [Table.standard_reply_of_isVariable hu]
      exact walkable_variableLeft hs hu
    | false =>
      cases hv : registry.isVariable v with
      | true =>
        rw [Table.standard_reply_swap hu hv, Table.standard_reply_of_isVariable hv]
        exact walkable_variableLeft hs hv
      | false =>
        rw [Table.standard_reply_of_confront hu hv]
        cases confront u v with
        | error clash => exact .done (walkableResult_error clash)
        | ok pairs =>
          dsimp only
          split
          next => exact .done hs
          next => exact .done (walkableResult_ok hs)

/-- A frame goes on from the result that it is handed, or from its own substitution, and keeps the
empty one. -/
theorem walkable_resume [Extension φ] {frame : Frame φ} {input : Option Result}
    (hframe : WalkableFrame registry frame)
    (hinput : ∀ result, input = some result → WalkableResult registry result) :
    Query.Walkable registry (Step.All (WalkableFrame registry) (WalkableResult registry))
      (resume frame input) := by
  cases frame with
  | inr frame => exact hframe.elim
  | inl frame =>
    have hstart : WalkableResult registry (frame.start input) := by
      cases input with
      | none => exact walkableResult_ok hframe
      | some result => exact hinput result rfl
    change Query.Walkable _ _ (frame.resume input)
    rw [frame.resume_eq]
    cases hresult : frame.start input with
    | error clash => exact .done (walkableResult_error clash)
    | ok s =>
      have hs : s.Walkable registry := hstart s hresult
      cases frame.pending with
      | nil => exact .done (walkableResult_ok hs)
      | cons pair rest => exact .call hs fun child hchild => .done ⟨hchild, walkable_empty registry⟩

/-- That every chain ends is an invariant of the standard table. -/
theorem invariant_walkable [Extension φ] (registry : Registry) :
    ((Table.standard : Table φ).procedure registry).Invariant
      (fun task => task.under.Walkable registry) (WalkableFrame registry)
      (WalkableResult registry) where
  answer := walkable_reply registry
  resume _ _ := walkable_resume

end Unification

/-! ## Runs -/

namespace Unifier

variable {φ ψ : Type} [Unification.Extension φ] {registry : Registry} {s : Substitution}

/-- From a substitution without a loop of variables no run ever gets to one with a loop: neither in
what it calls algorithms with, be the run endless or watched by an observer that drops frames, nor
in what it returns. So every chain ends at any time. -/
theorem loopless_of_unify (hs : s.Loopless registry) :
    (∀ (task : Unification.Task) (limit : Nat) (ω : Type)
      (observer : Observer (Unification.Frame φ) Unification.Result ω) (seen : ω), task.under = s →
      (∀ call, ((standard : Unifier φ ψ).unification.procedure registry).Calls observer limit task
          seen call →
        call.under.Loopless registry ∧ call.under.Walkable registry) ∧
      ∀ t, (((standard : Unifier φ ψ).unification.procedure registry).run observer limit task
          seen).outcome = .value (.ok t) →
        t.Loopless registry ∧ t.Walkable registry) ∧
    (∀ u v limit t, ((standard : Unifier φ ψ).unify registry limit u v s).result = .ok (.ok t) →
      t.Loopless registry ∧ t.Walkable registry) ∧
    (∀ pairs limit t,
      ((standard : Unifier φ ψ).unifyAll registry limit pairs s).result = .ok (.ok t) →
      t.Loopless registry ∧ t.Walkable registry) ∧
    ∀ u t, ((standard : Unifier φ ψ).unifySelf u s).result = .ok (.ok t) →
      t.Loopless registry ∧ t.Walkable registry := by
  have hwalkable : s.Walkable registry := walkable_iff_loopless.2 hs
  have hinvariant := Unification.invariant_walkable (φ := φ) registry
  refine ⟨?_, ?_, ?_, ?_⟩
  · rintro task limit ω observer seen rfl
    refine ⟨fun call hcall => ?_, fun t hrun => ?_⟩
    · have hcall := hinvariant.of_calls hwalkable hcall
      exact ⟨hcall.loopless, hcall⟩
    · have ht : t.Walkable registry := hinvariant.of_run hwalkable hrun t rfl
      exact ⟨ht.loopless, ht⟩
  · intro u v limit t hrun
    have ht : t.Walkable registry := by
      refine hinvariant.of_run ?_ (Report.answered_eq_ok_iff.1 hrun) t rfl
      exact hwalkable
    exact ⟨ht.loopless, ht⟩
  · intro pairs limit t hrun
    have ht : t.Walkable registry := by
      refine hinvariant.of_run ?_ (Report.answered_eq_ok_iff.1 hrun) t rfl
      exact hwalkable
    exact ⟨ht.loopless, ht⟩
  · rintro u t ⟨⟩
    exact ⟨hs, hwalkable⟩

/-- A variable is bound to a tuple that contains it, and a registered tuple to the end of a chain.
The result has a cycle, but no loop of variables. -/
theorem loopless_of_unify_example :
    let registry := Registry.empty.insert (.tuple [.atom (.int 1)])
    let s := Substitution.empty.bind (.var (.fresh 1)) (.var (.fresh 2))
    let t := (s.bind (.var (.fresh 0)) (.tuple [.var (.fresh 0)])).bind (.tuple [.atom (.int 1)])
      (.var (.fresh 2))
    ((standard : Unifier Empty Empty).unify registry 20
      (.tuple [.var (.fresh 0), .tuple [.atom (.int 1)]])
      (.tuple [.tuple [.var (.fresh 0)], .var (.fresh 1)]) s).result = .ok (.ok t) ∧
      t.Loopless registry ∧ ¬ t.Acyclic registry := by
  intro registry s t
  have hs : s.Loopless registry := by
    have hresolved : Substitution.empty.Resolved registry (.var (.fresh 2)) := fun _ => rfl
    exact ((walkable_empty registry).bind rfl rfl hresolved (by decide +kernel)).loopless
  have hrun : ((standard : Unifier Empty Empty).unify registry 20
      (.tuple [.var (.fresh 0), .tuple [.atom (.int 1)]])
      (.tuple [.tuple [.var (.fresh 0)], .var (.fresh 1)]) s).result = .ok (.ok t) := by
    decide +kernel
  refine ⟨hrun, ((loopless_of_unify hs).2.1 _ _ _ _ hrun).1, fun hacyclic => ?_⟩
  have hvalue : t.Leads registry (.var (.fresh 0)) (.tuple [.var (.fresh 0)]) :=
    leads_of_lookup rfl (by decide +kernel)
  have hback : t.Leads registry (.tuple [.var (.fresh 0)]) (.var (.fresh 0)) :=
    leads_of_mem_parts (by decide +kernel) (.head _)
  exact hacyclic _ rfl (.head hvalue (.single hback))

end Unifier

end LogicTerms
