import LogicTerms.Proofs.Evaluation.Settled
import LogicTerms.Unification.Variants
import LogicTerms.Unifier
import Mathlib.Control.Monad.Basic

/-!
# Pairs one after the other

To unify pairs at once, a single run keeps them in a frame and unifies each pair in a computation
that lies above this frame. It comes to the same as a run for each pair that starts from what the
run before came to. This holds for every table, and also for what a run fails with.
-/

namespace LogicTerms

namespace Unification

variable {φ : Type} [Extension φ] {table : Table φ} {registry : Registry} {limit : Nat}
  {s : Substitution} {u v : Term} {rest : List (Term × Term)} {first result : Except Fault Result}

/-- What becomes of pairs once the first of them has a result: the others go on from a substitution,
and anything else is the result of all. -/
inductive Sequel (next : Substitution → Except Fault Result → Prop) :
    Except Fault Result → Except Fault Result → Prop
  | success {t result} (h : next t result) : Sequel next (.ok (.ok t)) result
  | clash {clash} : Sequel next (.ok (.error clash)) (.ok (.error clash))
  | fault {fault} : Sequel next (.error fault) (.error fault)

section

variable {next next' : Substitution → Except Fault Result → Prop} {t : Substitution}

@[simp]
theorem sequel_success_iff : Sequel next (.ok (.ok t)) result ↔ next t result := by
  constructor
  · intro h
    cases h with
    | success h => exact h
  · exact .success

@[simp]
theorem sequel_clash_iff {clash : Clash} :
    Sequel next (.ok (.error clash)) result ↔ result = .ok (.error clash) := by
  constructor
  · intro h
    cases h
    rfl
  · rintro rfl
    exact .clash

@[simp]
theorem sequel_fault_iff {fault : Fault} :
    Sequel next (.error fault) result ↔ result = .error fault := by
  constructor
  · intro h
    cases h
    rfl
  · rintro rfl
    exact .fault

theorem Sequel.imp (h : Sequel next first result)
    (himp : ∀ t, next t result → next' t result) : Sequel next' first result := by
  cases h with
  | success h => exact .success (himp _ h)
  | clash => exact .clash
  | fault => exact .fault

theorem Sequel.of_ne_success (h : ∀ t, first ≠ .ok (.ok t)) : Sequel next first first := by
  cases first with
  | error fault => exact .fault
  | ok first =>
    cases first with
    | error clash => exact .clash
    | ok t => exact absurd rfl (h t)

theorem Sequel.ne_unfinished (h : Sequel next first result)
    (hne : result ≠ .error .unfinished) : first ≠ .error .unfinished := by
  rintro rfl
  exact hne (sequel_fault_iff.1 h)

end

/-! ## Frames of pairs -/

theorem ends_pairs_iff {pairs : List (Term × Term)} :
    (table.procedure registry).Ends (limit + 1) (.pairs pairs s) result ↔
      Evaluates ((table.procedure registry).step (limit + 1)) .idle (.inl ⟨pairs, s⟩) none ()
        (.ofResult result) () := by
  have hroot : (table.procedure registry).resolve (limit + 1) (.pairs pairs s) =
      .ok (.suspended (.inl ⟨pairs, s⟩)) := rfl
  constructor
  · intro h
    cases h.evaluates hroot with
    | suspended h => exact h
  · intro h
    exact .evaluated hroot (.suspended h)

theorem ends_pairs_nil_iff :
    (table.procedure registry).Ends (limit + 1) (.pairs [] s) result ↔ result = .ok (.ok s) := by
  rw [ends_pairs_iff, evaluates_iff_of_finish (Procedure.step_of_done rfl),
    Outcome.ofResult_eq_value_iff]

/-- A frame that was given a substitution goes on as a new frame that starts from it. -/
theorem evaluates_pairs_resumed_iff {t : Substitution} {outcome : Outcome Result Fault} :
    Evaluates ((table.procedure registry).step limit) .idle (.inl ⟨rest, Substitution.empty⟩)
        (some (.ok t)) () outcome () ↔
      Evaluates ((table.procedure registry).step limit) .idle (.inl ⟨rest, t⟩) none ()
        outcome () := by
  have heq : (table.procedure registry).step limit (.inl ⟨rest, Substitution.empty⟩)
      (some (.ok t)) = (table.procedure registry).step limit (.inl ⟨rest, t⟩) none := by
    cases rest <;> rfl
  exact ⟨.of_resume_eq heq.symm, .of_resume_eq heq⟩

/-- A frame of pairs comes to what its first pair comes to, and goes on with the other pairs if that
is a substitution. -/
theorem ends_pairs_cons_iff :
    (table.procedure registry).Ends (limit + 1) (.pairs ((u, v) :: rest) s) result ↔
      ∃ first, (table.procedure registry).Ends (limit + 1) (.pair u v s) first ∧
        Sequel (fun t => (table.procedure registry).Ends (limit + 1) (.pairs rest t)) first
          result := by
  have hresume : (table.procedure registry).resume (.inl ⟨(u, v) :: rest, s⟩) none =
      .await (.pair u v s) (.inl ⟨rest, Substitution.empty⟩) := rfl
  rw [ends_pairs_iff, Procedure.evaluates_await_iff hresume]
  constructor
  · rintro (⟨part, hpair, hrest⟩ | ⟨fault, hpair, houtcome⟩)
    · cases part with
      | ok t =>
        rw [evaluates_pairs_resumed_iff, ← ends_pairs_iff] at hrest
        exact ⟨_, hpair, .success hrest⟩
      | error clash =>
        rw [evaluates_iff_of_finish (Procedure.step_of_done rfl)] at hrest
        cases Outcome.ofResult_eq_value_iff.1 hrest
        exact ⟨_, hpair, .clash⟩
    · cases Outcome.ofResult_eq_failed_iff.1 houtcome
      exact ⟨_, hpair, .fault⟩
  · rintro ⟨first, hpair, hsequel⟩
    cases hsequel with
    | success hrest =>
      rw [ends_pairs_iff] at hrest
      exact .inl ⟨_, hpair, evaluates_pairs_resumed_iff.2 hrest⟩
    | clash => exact .inl ⟨_, hpair, .finish (Procedure.step_of_done rfl) rfl⟩
    | fault => exact .inr ⟨_, hpair, rfl⟩

/-! ## Settled answers -/

/-- Answers that are the sequel to other answers settle as the sequel to what these settle on. -/
theorem settles_iff_sequel {head all : Nat → Except Fault Result}
    {tail : Nat → Substitution → Except Fault Result}
    (hsequel : ∀ limit, Sequel (fun t result => tail limit t = result) (head limit) (all limit))
    (hhead : Settles head first) :
    Settles all result ↔ Sequel (fun t => Settles fun limit => tail limit t) first result := by
  obtain ⟨enough, hhead⟩ := hhead
  have hafter : ∀ limit ≥ enough, Sequel (fun t result => tail limit t = result) first
      (all limit) := by
    intro limit hle
    rw [← hhead limit hle]
    exact hsequel limit
  cases first with
  | error fault =>
    simp only [sequel_fault_iff] at hafter ⊢
    exact Settles.settles_iff ⟨enough, hafter⟩
  | ok first =>
    cases first with
    | error clash =>
      simp only [sequel_clash_iff] at hafter ⊢
      exact Settles.settles_iff ⟨enough, hafter⟩
    | ok t =>
      simp only [sequel_success_iff] at hafter ⊢
      exact (settles_congr hafter).symm

end Unification

namespace Unifier

open Unification

variable {φ ψ : Type} [Unification.Extension φ]
  {unifier : Unifier φ ψ} {registry : Registry} {limit : Nat} {s t : Substitution} {u v : Term}
  {rest list list' : List (Term × Term)} {first result : Except Fault Unification.Result}

/-- Unifies the terms of every pair in a run of its own, from left to right. Each run starts from
the substitution of the run before, and the first that comes to anything else is the last. -/
def unifyEach (unifier : Unifier φ ψ) (registry : Registry) (limit : Nat)
    (pairs : List (Term × Term)) (s : Substitution) : Except Fault Unification.Result :=
  ExceptT.run (pairs.foldlM (fun t pair =>
    ExceptT.mk (unifier.unify registry limit pair.1 pair.2 t).result) s)

/-! ## Runs for each pair -/

/-- Work that may clash or fail goes on from a substitution and stops at anything else. -/
theorem sequel_bind (work : ExceptT Clash (Except Fault) Substitution)
    (next : Substitution → ExceptT Clash (Except Fault) Substitution) :
    Sequel (fun t result => (next t).run = result) work.run (work >>= next).run := by
  rw [ExceptT.run_bind]
  cases work.run with
  | error fault => exact .fault
  | ok first =>
    cases first with
    | error clash => exact .clash
    | ok t => exact .success rfl

theorem sequel_unifyEach_append :
    Sequel (fun t result => unifier.unifyEach registry limit list' t = result)
      (unifier.unifyEach registry limit list s)
      (unifier.unifyEach registry limit (list ++ list') s) := by
  simp only [unifyEach, List.foldlM_append]
  exact sequel_bind _ _

theorem sequel_unifyEach_cons :
    Sequel (fun t result => unifier.unifyEach registry limit rest t = result)
      (unifier.unify registry limit u v s).result
      (unifier.unifyEach registry limit ((u, v) :: rest) s) := by
  simp only [unifyEach, List.foldlM_cons]
  exact sequel_bind (ExceptT.mk (unifier.unify registry limit u v s).result) _

theorem settles_unifyEach_append_iff
    (h : Settles (fun limit => unifier.unifyEach registry limit list s) first) :
    Settles (fun limit => unifier.unifyEach registry limit (list ++ list') s) result ↔
      Sequel (fun t => Settles fun limit => unifier.unifyEach registry limit list' t) first
        result :=
  settles_iff_sequel (fun _ => sequel_unifyEach_append) h

/-- Runs for each pair settle only if those for the first pair do. -/
theorem settles_unifyEach_cons_iff (hne : result ≠ .error .unfinished) :
    Settles (fun limit => unifier.unifyEach registry limit ((u, v) :: rest) s) result ↔
      ∃ first, Settles (fun limit => (unifier.unify registry limit u v s).result) first ∧
        Sequel (fun t => Settles fun limit => unifier.unifyEach registry limit rest t) first
          result := by
  constructor
  · intro h
    obtain ⟨enough, henough⟩ := id h
    -- Had the run for the first pair been broken off here, so would have been the fold.
    have hsequel : Sequel (fun t result => unifier.unifyEach registry enough rest t = result)
        (unifier.unify registry enough u v s).result result := by
      rw [← henough enough (Nat.le_refl _)]
      exact sequel_unifyEach_cons
    have hfirst := Procedure.settles_of_answered rfl (hsequel.ne_unfinished hne)
    exact ⟨_, hfirst, (settles_iff_sequel (fun _ => sequel_unifyEach_cons) hfirst).1 h⟩
  · rintro ⟨first, hfirst, hsequel⟩
    exact (settles_iff_sequel (fun _ => sequel_unifyEach_cons) hfirst).2 hsequel

/-! ## A single run -/

theorem settles_unify_iff (hne : result ≠ .error .unfinished) :
    Settles (fun limit => (unifier.unify registry limit u v s).result) result ↔
      ∃ limit, (unifier.unification.procedure registry).Ends (limit + 1) (.pair u v s) result :=
  Procedure.settles_iff_ends hne

theorem settles_unifyAll_iff (hne : result ≠ .error .unfinished) :
    Settles (fun limit => (unifier.unifyAll registry limit list s).result) result ↔
      ∃ limit, (unifier.unification.procedure registry).Ends (limit + 1) (.pairs list s) result :=
  Procedure.settles_iff_ends hne

theorem settles_unifyAll_nil_iff (hne : result ≠ .error .unfinished) :
    Settles (fun limit => (unifier.unifyAll registry limit [] s).result) result ↔
      result = .ok (.ok s) := by
  rw [settles_unifyAll_iff hne]
  simp only [ends_pairs_nil_iff, exists_const]

/-- A single run for all pairs settles as a run for the first pair and a run for the others after
it. -/
theorem settles_unifyAll_cons_iff (hne : result ≠ .error .unfinished) :
    Settles (fun limit => (unifier.unifyAll registry limit ((u, v) :: rest) s).result) result ↔
      ∃ first, Settles (fun limit => (unifier.unify registry limit u v s).result) first ∧
        Sequel (fun t => Settles fun limit => (unifier.unifyAll registry limit rest t).result) first
          result := by
  rw [settles_unifyAll_iff hne]
  simp only [ends_pairs_cons_iff]
  constructor
  · rintro ⟨limit, first, hpair, hsequel⟩
    refine ⟨first, (settles_unify_iff (hsequel.ne_unfinished hne)).2 ⟨limit, hpair⟩, ?_⟩
    exact hsequel.imp fun t hrest => (settles_unifyAll_iff hne).2 ⟨limit, hrest⟩
  · rintro ⟨first, hfirst, hsequel⟩
    have hne' := hsequel.ne_unfinished hne
    obtain ⟨limit, hpair⟩ := (settles_unify_iff hne').1 hfirst
    cases hsequel with
    | success hrest =>
      -- The first pair and the others may take different limits.
      obtain ⟨limit', hrest⟩ := (settles_unifyAll_iff hne).1 hrest
      exact ⟨max limit limit', _, hpair.of_le (by omega) hne',
        .success (hrest.of_le (by omega) hne)⟩
    | clash => exact ⟨limit, _, hpair, .clash⟩
    | fault => exact ⟨limit, _, hpair, .fault⟩

/-! ## Both ways -/

/-- A run for all pairs settles just as runs for each pair do. -/
theorem settles_unifyAll_iff_unifyEach (hne : result ≠ .error .unfinished) :
    Settles (fun limit => (unifier.unifyAll registry limit list s).result) result ↔
      Settles (fun limit => unifier.unifyEach registry limit list s) result := by
  induction list generalizing s with
  | nil =>
    have hsame : Settles (fun limit => unifier.unifyEach registry limit [] s) (.ok (.ok s)) :=
      ⟨0, fun limit _ => rfl⟩
    rw [settles_unifyAll_nil_iff hne, hsame.settles_iff]
  | cons pair rest ih =>
    rw [settles_unifyAll_cons_iff hne, settles_unifyEach_cons_iff hne]
    constructor
    · rintro ⟨first, hfirst, hsequel⟩
      exact ⟨first, hfirst, hsequel.imp fun t => ih.1⟩
    · rintro ⟨first, hfirst, hsequel⟩
      exact ⟨first, hfirst, hsequel.imp fun t => ih.2⟩

/-- A run for all pairs settles as a run for the first of them and a run for the others after it. -/
theorem settles_unifyAll_append_iff (hne : result ≠ .error .unfinished)
    (hfirst : first ≠ .error .unfinished)
    (h : Settles (fun limit => (unifier.unifyAll registry limit list s).result) first) :
    Settles (fun limit => (unifier.unifyAll registry limit (list ++ list') s).result) result ↔
      Sequel (fun t => Settles fun limit => (unifier.unifyAll registry limit list' t).result) first
        result := by
  rw [settles_unifyAll_iff_unifyEach hfirst] at h
  rw [settles_unifyAll_iff_unifyEach hne, settles_unifyEach_append_iff h]
  constructor
  · intro hsequel
    exact hsequel.imp fun t => (settles_unifyAll_iff_unifyEach hne).2
  · intro hsequel
    exact hsequel.imp fun t => (settles_unifyAll_iff_unifyEach hne).1

/-- Whatever algorithms are registered, and whatever a run fails with: a run for all pairs settles
just as runs for each pair from left to right do. So a list of pairs may be cut in two: if the first
part has a substitution, the pairs come to what the second part comes to from there, and otherwise
to what the first part comes to. -/
theorem unifyAll_iff_unifyEach (unifier : Unifier φ ψ) (registry : Registry) :
    (∀ pairs s result, result ≠ .error .unfinished →
      (Settles (fun limit => (unifier.unifyAll registry limit pairs s).result) result ↔
        Settles (fun limit => unifier.unifyEach registry limit pairs s) result)) ∧
    (∀ p q s t, Settles (fun limit => (unifier.unifyAll registry limit p s).result) (.ok (.ok t)) →
      ∀ result, result ≠ .error .unfinished →
        (Settles (fun limit => (unifier.unifyAll registry limit (p ++ q) s).result) result ↔
          Settles (fun limit => (unifier.unifyAll registry limit q t).result) result)) ∧
    ∀ p q s result, result ≠ .error .unfinished → (∀ t, result ≠ .ok (.ok t)) →
      Settles (fun limit => (unifier.unifyAll registry limit p s).result) result →
        Settles (fun limit => (unifier.unifyAll registry limit (p ++ q) s).result) result := by
  refine ⟨fun pairs s result => settles_unifyAll_iff_unifyEach, ?_, ?_⟩
  · intro p q s t h result hne
    rw [settles_unifyAll_append_iff hne (by simp) h, sequel_success_iff]
  · intro p q s result hne hstop h
    rw [settles_unifyAll_append_iff hne hne h]
    exact .of_ne_success hstop

/-- Variables, atoms and some compounds have algorithms of their own, but an atom and a tuple have
none. The miss is found once the value of the variable is known, and it is not found after a clash.
Pairs that are passed on in another form take their place in the sequence, and so does a set that is
bound like a variable. -/
theorem unifyAll_iff_unifyEach_example :
    let table : Unification.Table Empty := Table.empty
      |>.register (.exact .var) .any variableLeft
      |>.register .any (.exact .var) swapped
      |>.register (.exact .atom) (.exact .atom) rigid
      |>.register .sequence .sequence itemwise
      |>.register (.exact .slice) (.exact .slice) byParts
      |>.register (.exact .set) (.exact .set) always
      |>.register (.exact .set) (.exact .tuple) assign
      |>.register (.exact .map) .any never
    let unifier : Unifier Empty Empty := ⟨table, .empty, 0⟩
    let x := Term.var (.fresh 0)
    let y := Term.var (.fresh 1)
    let one := Term.atom (.int 1)
    let two := Term.atom (.int 2)
    let miss : Except Fault Unification.Result := .error (.noAlgorithm ⟨[.atom, .tuple]⟩)
    let clash : Except Fault Unification.Result := .ok (.error (.atomMismatch (.int 1) (.int 2)))
    let refusal : Except Fault Unification.Result := .ok (.error (.shapeClash .map .tuple))
    let items := [(Term.tuple [x, one], Term.list [two, y])]
    let others := [(Term.slice y x one, Term.slice one two y), (.set [x], .set [one, two]),
      (.set [], .tuple [y])]
    let bound := (Substitution.empty.bind x two).bind y one
    let final : Except Fault Unification.Result := .ok (.ok (bound.bind (.set []) (.tuple [y])))
    Settles (fun limit => unifier.unifyEach .empty limit [(x, one), (x, .tuple []), (x, two)]
      .empty) miss ∧
    Settles (fun limit => (unifier.unifyAll .empty limit [(x, .tuple []), (x, two)]
      (Substitution.empty.bind x one)).result) miss ∧
    Settles (fun limit => (unifier.unifyAll .empty limit ([(x, one), (x, two)] ++ [(x, .tuple [])])
      .empty).result) clash ∧
    Settles (fun limit => unifier.unifyEach .empty limit (items ++ others) .empty) final ∧
    Settles (fun limit => (unifier.unifyAll .empty limit others bound).result) final ∧
    Settles (fun limit => (unifier.unifyAll .empty limit ([(.map [], .tuple [])] ++ others)
      .empty).result) refusal := by
  intro table unifier x y one two miss clash refusal items others bound final
  have hone : (unifier.unifyAll .empty 9 [(x, one)] .empty).result =
      .ok (.ok (Substitution.empty.bind x one)) := by decide +kernel
  have hmiss : (unifier.unifyAll .empty 9 [(x, one), (x, .tuple []), (x, two)] .empty).result =
      miss := by decide +kernel
  have hclash : (unifier.unifyAll .empty 9 [(x, one), (x, two)] .empty).result = clash := by
    decide +kernel
  have hitems : (unifier.unifyAll .empty 9 items .empty).result = .ok (.ok bound) := by
    decide +kernel
  have hfinal : (unifier.unifyAll .empty 30 (items ++ others) .empty).result = final := by
    decide +kernel
  have hrefusal : (unifier.unifyAll .empty 9 [(.map [], .tuple [])] .empty).result = refusal := by
    decide +kernel
  have hone := Procedure.settles_of_answered hone (by decide)
  have hmiss := Procedure.settles_of_answered hmiss (by decide)
  have hclash := Procedure.settles_of_answered hclash (by decide)
  have hitems := Procedure.settles_of_answered hitems (by decide)
  have hfinal := Procedure.settles_of_answered hfinal (by decide)
  have hrefusal := Procedure.settles_of_answered hrefusal (by decide)
  obtain ⟨heach, hsuccess, hstop⟩ := unifyAll_iff_unifyEach unifier .empty
  refine ⟨(heach _ _ _ (by decide)).1 hmiss, ?_, ?_, (heach _ _ _ (by decide)).1 hfinal, ?_, ?_⟩
  · exact (hsuccess _ [(x, .tuple []), (x, two)] _ _ hone _ (by decide)).1 hmiss
  · exact hstop _ [(x, .tuple [])] _ _ (by decide) (by simp [clash]) hclash
  · exact (hsuccess items others _ _ hitems _ (by decide)).1 hfinal
  · exact hstop _ others _ _ (by decide) (by simp [refusal]) hrefusal

end Unifier

end LogicTerms
