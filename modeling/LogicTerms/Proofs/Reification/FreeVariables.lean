import LogicTerms.Proofs.Reification.Groundness
import LogicTerms.Proofs.Reification.Values
import LogicTerms.Proofs.Substitution.Agreement

/-!
# The variables that are collected

The observer that collects variables drops each compound when it is about to be built, so that the
compound above it goes on without the part. No part is left out for that, and no value is seen but
atoms and variables that are not bound. When the substitution is extended, a free variable of a term
may become bound and give way to the free variables of its value, which may be any term. No other
variable comes in, and none is lost.
-/

namespace LogicTerms

open Relation Substitution

namespace Reification

variable {ψ : Type} {registry : Registry} {s : Substitution} {a b : Term}
  {found found' found₁ : List Term} {P Q : Term → Prop}

/-! ## Insertions -/

/-- The terms with a property were inserted into a list, and nothing else. -/
structure Adds (P : Term → Prop) (found found' : List Term) : Prop where
  mem_iff (x : Term) : x ∈ found' ↔ x ∈ found ∨ P x
  increasing (h : Increasing found) : Increasing found'

namespace Adds

theorem refl (h : ∀ x, ¬ P x) (found : List Term) : Adds P found found where
  mem_iff x := by simp [h x]
  increasing h := h

theorem insert (t : Term) (found : List Term) :
    Adds (· = t) found (Elements.insert t found) where
  mem_iff x := by
    rw [Elements.mem_insert]
    exact Or.comm
  increasing := Elements.increasing_insert

/-- What two lots of insertions add, one after the other. -/
theorem trans (h : Adds P found found₁) (h' : Adds Q found₁ found') :
    Adds (fun x => P x ∨ Q x) found found' where
  mem_iff x := by rw [h'.mem_iff, h.mem_iff, or_assoc]
  increasing hfound := h'.increasing (h.increasing hfound)

theorem congr (hiff : ∀ x, P x ↔ Q x) (h : Adds P found found') : Adds Q found found' where
  mem_iff x := by rw [h.mem_iff, hiff]
  increasing := h.increasing

end Adds

/-! ## Tasks and frames -/

/-- Under the observer that collects variables, a task comes to an end that its frame may go on
after, with all variables of a property collected. -/
def Collects (procedure : Procedure Task (Frame ψ) Term) (registry : Registry) (task : Task)
    (P : Term → Prop) : Prop :=
  ∀ found, ∃ outcome handed found',
    procedure.Yields (collector registry) task found outcome found' ∧
      outcome.handed = some handed ∧ Adds P found found'

theorem Collects.congr {procedure : Procedure Task (Frame ψ) Term} {task : Task}
    (hiff : ∀ x, P x ↔ Q x) (h : Collects procedure registry task P) :
    Collects procedure registry task Q := by
  intro found
  obtain ⟨outcome, handed, found', hyields, hhanded, hadds⟩ := h found
  exact ⟨outcome, handed, found', hyields, hhanded, hadds.congr hiff⟩

variable [Extension ψ] {table : Table ψ}

/-- A compound is dropped before it is built. All its parts were resumed with by then, whether they
came to a value or were dropped as well. -/
theorem evaluates_parts (form : Form) {pending : List Term} {P : Term → Term → Prop}
    (h : ∀ p ∈ pending, Collects (table.procedure registry) registry ⟨p, s⟩ (P p))
    (input : Option Term) (reified found : List Term) :
    ∃ limit found', Evaluates ((table.procedure registry).step limit) (collector registry)
        (.inl ⟨s, form, pending, reified, false⟩) input found (.interrupted .abandoned) found' ∧
      Adds (fun x => ∃ p ∈ pending, P p x) found found' := by
  induction pending generalizing input reified found with
  | nil =>
    have hresume : (table.procedure registry).resume (.inl ⟨s, form, [], reified, false⟩) input =
        .done (.construct (.inl ⟨s, form, [], input.toList ++ reified, true⟩)) :=
      Parts.resume_eq ⟨s, form, [], reified, false⟩ input
    have hevent : ((table.procedure registry).step 0 (.inl ⟨s, form, [], reified, false⟩)
        input).event? = some .construct := by
      rw [Procedure.step_of_done hresume]
      rfl
    exact ⟨0, found, .abandon hevent rfl, .refl (by simp) found⟩
  | cons p pending ih =>
    obtain ⟨outcome, handed, found₁, ⟨limit, root, hroot, heval⟩, hhanded, hadds⟩ :=
      h p List.mem_cons_self found
    have hrest := ih fun q hq => h q (List.mem_cons_of_mem _ hq)
    obtain ⟨limit', found', hnext, hadds'⟩ := hrest handed (input.toList ++ reified) found₁
    have hresume : (table.procedure registry).resume
        (.inl ⟨s, form, p :: pending, reified, false⟩) input =
        .await ⟨p, s⟩ (.inl ⟨s, form, pending, input.toList ++ reified, false⟩) :=
      Parts.resume_eq ⟨s, form, p :: pending, reified, false⟩ input
    have hle := Nat.le_max_left limit limit'
    have hstep := Procedure.step_of_await hresume (Procedure.resolve_of_le hroot hle)
    have hnext' := Procedure.evaluates_of_le hnext (Nat.le_max_right limit limit') (by simp)
    refine ⟨max limit limit', found', ?_, (hadds.trans hadds').congr (by simp)⟩
    cases heval with
    | suspended hchild =>
      have hne : outcome ≠ .failed .unfinished := by
        rintro rfl
        simp [Outcome.handed] at hhanded
      exact .nested hstep rfl (Procedure.evaluates_of_le hchild hle hne) hhanded hnext'
    | proceed hflow =>
      cases hhanded
      exact .ready hstep hflow hnext'
    | abandon hflow => cases hflow
    | halt hflow => cases hflow

/-- A value that is there at once is collected if it is a variable. -/
theorem collects_of_done {task : Task} {t : Term}
    (h : (table.procedure registry).answer task = .done (.done t))
    (hP : ∀ x, P x ↔ registry.isVariable t = true ∧ x = t) :
    Collects (table.procedure registry) registry task P := by
  intro found
  have heval : (Computation.done t).Evaluates ((table.procedure registry).step 0)
      (collector registry) found (.value t)
      (if registry.isVariable t then Elements.insert t found else found) := .proceed rfl
  refine ⟨_, _, _, Procedure.yields_of_root h heval (by simp), rfl, ?_⟩
  split
  next hvar => exact (Adds.insert t found).congr fun x => by simp [hP, hvar]
  next hvar => exact .refl (by simp [hP, hvar]) found

theorem collects_of_delegate {task task' : Task}
    (h : (table.procedure registry).answer task = .delegate task')
    (hcollects : Collects (table.procedure registry) registry task' P) :
    Collects (table.procedure registry) registry task P := by
  intro found
  obtain ⟨outcome, handed, found', hyields, hhanded, hadds⟩ := hcollects found
  refine ⟨outcome, handed, found', Procedure.yields_of_delegate h hyields ?_, hhanded, hadds⟩
  rintro rfl
  simp [Outcome.handed] at hhanded

/-- A frame of parts collects the variables of all of them. -/
theorem collects_of_suspended {task : Task} {form : Form} {parts : List Term}
    {P : Term → Term → Prop}
    (h : (table.procedure registry).answer task =
      .done (.suspended (.inl ⟨s, form, parts, [], false⟩)))
    (hparts : ∀ p ∈ parts, Collects (table.procedure registry) registry ⟨p, s⟩ (P p)) :
    Collects (table.procedure registry) registry task fun x => ∃ p ∈ parts, P p x := by
  intro found
  obtain ⟨limit, found', heval, hadds⟩ := evaluates_parts form hparts none [] found
  exact ⟨_, _, found', Procedure.yields_of_root h (.suspended heval) (by simp), rfl, hadds⟩

/-- Under an acyclic substitution the standard table collects the variables that a term reaches. -/
theorem collects_reaches (hs : s.Acyclic registry) (a : Term) :
    Collects ((Table.standard : Table ψ).procedure registry) registry ⟨a, s⟩
      (s.Reaches registry a) := by
  induction a using answer_induction (ψ := ψ) hs with
  | constant a ha hkind hanswer =>
    refine collects_of_done hanswer fun x => ?_
    obtain hvar | ⟨hvar, hform⟩ := hkind
    · rw [Reaches, reachesBy_iff_of_unbound hvar (ha hvar)]
      simp [hvar]
    · rw [Reaches, reachesBy_iff_of_isVariable_eq_false hvar]
      have hparts : a.parts = [] := by cases a <;> simp_all [Term.decompose, Term.parts]
      simp [hparts, hvar]
  | delegate a b hwalk hanswer ih =>
    refine collects_of_delegate hanswer (ih.congr fun x => ?_)
    exact (reachesBy_iff_of_walk hwalk).symm
  | compound a form hvar hform hanswer ih =>
    refine (collects_of_suspended hanswer ih).congr fun x => ?_
    rw [Reaches, reachesBy_iff_of_isVariable_eq_false hvar]

end Reification

/-! ## Unifiers -/

namespace Unifier

open Reification

variable {φ ψ : Type} [Reification.Extension ψ] {unifier : Unifier φ ψ} {registry : Registry}
  {t : Term} {s : Substitution} {found : List Term}

/-- Within any limit the collection ends with the same variables or breaks off. -/
theorem freeVariables_of_yields {outcome : Outcome Term Fault}
    (h : (unifier.reification.procedure registry).Yields (collector registry) ⟨t, s⟩ [] outcome
      found)
    (hok : ∀ fault, outcome ≠ .failed fault) (limit : Nat) :
    (unifier.freeVariables registry limit t s).result = .ok found ∨
      (unifier.freeVariables registry limit t s).result = .error .unfinished := by
  obtain ⟨enough, henough⟩ := Procedure.run_of_yields h (hok _)
  by_cases hne : ((unifier.reification.procedure registry).run (collector registry) limit ⟨t, s⟩
      []).outcome = .failed .unfinished
  · refine .inr ?_
    simp only [freeVariables, hne]
  · refine .inl (freeVariables_eq_ok_iff.2 ?_)
    rw [← Procedure.run_mono (Nat.le_max_left limit enough) hne]
    have hrun := henough _ (Nat.le_max_right limit enough)
    exact ⟨fun fault hfault => hok fault (hrun.1.symm.trans hfault), hrun.2⟩

/-- Under an acyclic substitution the collection comes to an end, in order and with just the
variables that the term reaches. -/
theorem exists_collected (hs : s.Acyclic registry) (t : Term) :
    ∃ outcome found, ((Table.standard : Table ψ).procedure registry).Yields (collector registry)
        ⟨t, s⟩ [] outcome found ∧ (∀ fault, outcome ≠ .failed fault) ∧
      Increasing found ∧ ∀ x, x ∈ found ↔ s.Reaches registry t x := by
  obtain ⟨outcome, handed, found, hyields, hhanded, hadds⟩ := collects_reaches (ψ := ψ) hs t []
  refine ⟨outcome, found, hyields, ?_, hadds.increasing .nil, fun x => by simp [hadds.mem_iff]⟩
  rintro fault rfl
  simp [Outcome.handed] at hhanded

theorem returns_freeVariables (hs : s.Acyclic registry) (t : Term) :
    ∃ found,
      Returns (fun limit => (standard : Unifier φ ψ).freeVariables registry limit t s) found ∧
      Increasing found ∧ ∀ x, x ∈ found ↔ s.Reaches registry t x := by
  obtain ⟨outcome, found, hyields, hok, hincreasing, hmem⟩ := exists_collected (ψ := ψ) hs t
  exact ⟨found, returns_freeVariables_of_yields hyields hok, hincreasing, hmem⟩

/-- The check comes to an end, and it denies groundness just if the term reaches a variable. -/
theorem returns_isGround (hs : s.Acyclic registry) (t : Term) :
    ∃ ground, Returns (fun limit => (standard : Unifier φ ψ).isGround registry limit t s) ground ∧
      (ground = true ↔ ∀ x, ¬ s.Reaches registry t x) := by
  obtain ⟨found, ⟨enough, h⟩, -, hmem⟩ := returns_freeVariables (φ := φ) (ψ := ψ) hs t
  refine ⟨_, returns_isGround_of_freeVariables (h enough (Nat.le_refl _)), ?_⟩
  rw [List.isEmpty_iff, List.eq_nil_iff_forall_not_mem]
  exact forall_congr' fun x => not_congr (hmem x)

/-- The free variables of a term are those that it reaches, in order: every run with a limit that
is high enough returns them, and a run with a lower limit breaks off or does so too. -/
theorem freeVariables_exact (hs : s.Acyclic registry) (t : Term) :
    ∃ found,
      Returns (fun limit => (standard : Unifier φ ψ).freeVariables registry limit t s) found ∧
      Increasing found ∧ (∀ x, x ∈ found ↔ s.Reaches registry t x) ∧
      ∀ limit, ((standard : Unifier φ ψ).freeVariables registry limit t s).result = .ok found ∨
        ((standard : Unifier φ ψ).freeVariables registry limit t s).result =
          .error .unfinished := by
  obtain ⟨outcome, found, hyields, hok, hincreasing, hmem⟩ := exists_collected (ψ := ψ) hs t
  exact ⟨found, returns_freeVariables_of_yields hyields hok, hincreasing, hmem,
    freeVariables_of_yields hyields hok⟩

/-- A tuple that is registered counts as a variable, in an item of a list and in the value of a
variable. The name of a variable is not looked into. -/
theorem freeVariables_exact_example :
    let registry := Registry.empty.insert (.tuple [.atom (.int 1)])
    let s := Substitution.empty.bind (.var (.fresh 1))
      (.set [.var (.fresh 2), .tuple [.atom (.int 1)]])
    let t : Term := .map [(.var (.named (.var (.fresh 9))), .list [.tuple [.atom (.int 1)]]),
      (.list [], .var (.fresh 1))]
    let all := [Term.var (.fresh 2), .var (.named (.var (.fresh 9))), .tuple [.atom (.int 1)]]
    s.Acyclic registry ∧
      Returns (fun limit => (standard : Unifier Empty Empty).freeVariables registry limit t s) all ∧
      ∀ x, x ∈ all ↔ s.Reaches registry t x := by
  intro registry s t all
  have hs : s.Acyclic registry := (acyclic_empty registry).bind_of_subterms (by decide +kernel)
  obtain ⟨found, hreturns, -, hmem, -⟩ := freeVariables_exact (φ := Empty) (ψ := Empty) hs t
  have hall : ((standard : Unifier Empty Empty).freeVariables registry 20 t s).result =
      .ok all := by decide +kernel
  obtain rfl := hreturns.unique (returns_freeVariables_of_result 20 hall)
  exact ⟨hs, hreturns, hmem⟩

end Unifier

/-! ## Further bindings -/

namespace Unifier

variable {φ ψ : Type} [Reification.Extension ψ] {registry : Registry} {s t : Substitution}
  {u : Term}

/-- The check tells the ground terms. -/
theorem returns_isGround_iff (hs : s.Acyclic registry) :
    Returns (fun limit => (standard : Unifier φ ψ).isGround registry limit u s) true ↔
      s.Ground registry u := by
  obtain ⟨ground, hreturns, hground⟩ := returns_isGround (φ := φ) (ψ := ψ) hs u
  constructor
  · intro h
    exact hground.1 (hreturns.unique h)
  · intro h
    rwa [hground.2 h] at hreturns

/-- The free variables of a term under an extension are, in order, the union of the free variables
that those it had before have now. Hence a term that was ground before is ground now. -/
theorem freeVariables_of_extends (ht : t.Acyclic registry) (hts : t.Extends s) (a : Term) :
    ∃ (found : List Term) (each : Term → List Term),
      Returns (fun limit => (standard : Unifier φ ψ).freeVariables registry limit a s) found ∧
      (∀ x, Returns (fun limit => (standard : Unifier φ ψ).freeVariables registry limit x t)
        (each x)) ∧
      Returns (fun limit => (standard : Unifier φ ψ).freeVariables registry limit a t)
        (Elements.ofList (found.flatMap each)) ∧
      (Returns (fun limit => (standard : Unifier φ ψ).isGround registry limit a s) true →
        Returns (fun limit => (standard : Unifier φ ψ).isGround registry limit a t) true) := by
  have hs : s.Acyclic registry := ht.of_extends hts
  obtain ⟨found, hfound, -, hmem⟩ := returns_freeVariables (φ := φ) (ψ := ψ) hs a
  choose each heach _ hmemEach using returns_freeVariables (φ := φ) (ψ := ψ) ht
  obtain ⟨all, hall, hincreasing, hmemAll⟩ := returns_freeVariables (φ := φ) (ψ := ψ) ht a
  have hunion : all = Elements.ofList (found.flatMap each) := by
    refine hincreasing.ext (Elements.increasing_ofList _) fun y => ?_
    rw [Elements.mem_ofList, List.mem_flatMap, hmemAll, Reaches, reachesBy_iff_of_extends hts]
    exact exists_congr fun x => and_congr (hmem x).symm (hmemEach x y).symm
  refine ⟨found, each, hfound, heach, hunion ▸ hall, fun hground => ?_⟩
  rw [returns_isGround_iff hs] at hground
  exact (returns_isGround_iff ht).2 (hground.of_extends hts)

/-- A free variable ends a chain before and leads on to a set after the extension, and so does a
registered tuple, whose item is not entered. -/
theorem freeVariables_of_extends_example :
    let registry := Registry.empty.insert (.tuple [.var (.fresh 9)])
    let s := Substitution.empty.bind (.var (.fresh 0)) (.var (.fresh 1))
    let t := (s.bind (.var (.fresh 1)) (.set [.var (.fresh 2), .var (.fresh 3)])).bind
      (.tuple [.var (.fresh 9)]) (.list [.var (.fresh 3), .var (.fresh 4)])
    let a : Term := .map [(.var (.fresh 0), .tuple [.var (.fresh 9)]),
      (.list [.var (.fresh 5)], .atom (.int 1))]
    let found : List Term := [.var (.fresh 1), .var (.fresh 5), .tuple [.var (.fresh 9)]]
    let all : List Term :=
      [.var (.fresh 2), .var (.fresh 3), .var (.fresh 4), .var (.fresh 5)]
    t.Acyclic registry ∧ t.Extends s ∧
      ∃ each : Term → List Term, each (.var (.fresh 1)) = [.var (.fresh 2), .var (.fresh 3)] ∧
        Elements.ofList (found.flatMap each) = all ∧
        Returns (fun limit => (standard : Unifier Empty Empty).freeVariables registry limit a s)
          found ∧
        Returns (fun limit => (standard : Unifier Empty Empty).freeVariables registry limit a t)
          all := by
  intro registry s t a found all
  have hs : s.Acyclic registry := (acyclic_empty registry).bind_of_subterms (by decide +kernel)
  have ht : t.Acyclic registry := by
    refine (hs.bind_of_subterms ?_).bind_of_subterms ?_
    all_goals decide +kernel
  have hts : t.Extends s :=
    (extends_bind (by decide +kernel) _).trans (extends_bind (by decide +kernel) _)
  obtain ⟨found', each, hfound', heach, hall', -⟩ :=
    freeVariables_of_extends (φ := Empty) (ψ := Empty) ht hts a
  have hfound : ((standard : Unifier Empty Empty).freeVariables registry 20 a s).result =
      .ok found := by decide +kernel
  have hall : ((standard : Unifier Empty Empty).freeVariables registry 20 a t).result =
      .ok all := by decide +kernel
  have hone : ((standard : Unifier Empty Empty).freeVariables registry 20 (.var (.fresh 1))
      t).result = .ok [.var (.fresh 2), .var (.fresh 3)] := by decide +kernel
  obtain rfl := hfound'.unique (returns_freeVariables_of_result 20 hfound)
  have hunion := hall'.unique (returns_freeVariables_of_result 20 hall)
  refine ⟨ht, hts, each, ?_, hunion, hfound', hunion ▸ hall'⟩
  exact (heach _).unique (returns_freeVariables_of_result 20 hone)

end Unifier

end LogicTerms
