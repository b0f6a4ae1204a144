import LogicTerms.Proofs.Unification.Confinement

/-!
# What a failure is about

Unification fails at two terms that really differ. Neither of them is a variable, both are inside of
the two terms that were to be unified or of the values of variables, and the clash tells how they
differ. In particular no clash is ever reported between terms of equal shape, of equal length or
with equal keys, although the fallback for all other pairs of shapes looks at neither.
-/

namespace LogicTerms

open Substitution

/-- A clash describes two terms: different atoms, terms of different shapes, collections of
different sizes, or maps of one size with a key of the left one that the right one lacks. Of two
sets the elements count that the other one lacks. -/
inductive Clash.Between : Clash → Term → Term → Prop
  | atoms {left right : Atom} (hne : left ≠ right) :
      Between (.atomMismatch left right) (.atom left) (.atom right)
  | shapes {a b : Term} (hne : a.shape ≠ b.shape) (ha : a.shape ≠ .var) (hb : b.shape ≠ .var) :
      Between (.shapeClash a.shape b.shape) a b
  | tuples {left right : List Term} (hne : left.length ≠ right.length) :
      Between (.lengthMismatch left.length right.length) (.tuple left) (.tuple right)
  | lists {left right : List Term} (hne : left.length ≠ right.length) :
      Between (.lengthMismatch left.length right.length) (.list left) (.list right)
  | maps {left right : List (Term × Term)} (hne : left.length ≠ right.length) :
      Between (.lengthMismatch left.length right.length) (.map left) (.map right)
  | sets {left right : List Term}
      (hne : (Elements.difference left right).length ≠ (Elements.difference right left).length) :
      Between (.lengthMismatch (Elements.difference left right).length
        (Elements.difference right left).length) (.set left) (.set right)
  | key {key : Term} {left right : List (Term × Term)} (hlength : left.length = right.length)
      (hleft : key ∈ Entries.keys left) (hright : key ∉ Entries.keys right) :
      Between (.missingKey key) (.map left) (.map right)

namespace Unification

variable {registry : Registry} {s : Substitution} {u v a b : Term} {clash : Clash}

/-! ## Two terms that clash -/

theorem zipped_eq_error_iff {left right : List Term} :
    zipped left right = .error clash ↔
      left.length ≠ right.length ∧ clash = .lengthMismatch left.length right.length := by
  unfold zipped
  split <;> simp_all [eq_comm]

/-- Two terms that are no variables are described by their clash. -/
theorem between_of_confront (ha : registry.isVariable a = false)
    (hb : registry.isVariable b = false) (h : confront a b = .error clash) :
    clash.Between a b := by
  by_cases hshape : a.shape = b.shape
  · cases a <;> cases b <;> simp only [Term.shape, reduceCtorEq] at hshape
    case atom.atom =>
      rw [confront] at h
      split at h <;> cases h
      next hne => exact .atoms hne
    case var.var => simp at ha
    case tuple.tuple =>
      obtain ⟨hne, rfl⟩ := zipped_eq_error_iff.1 h
      exact .tuples hne
    case list.list =>
      obtain ⟨hne, rfl⟩ := zipped_eq_error_iff.1 h
      exact .lists hne
    case set.set =>
      obtain ⟨hne, rfl⟩ := zipped_eq_error_iff.1 h
      exact .sets hne
    case map.map =>
      rw [confront] at h
      split at h
      next hlength =>
        obtain ⟨key, hleft, hright, rfl⟩ := missingKey_of_valuePairs h
        exact .key hlength hleft hright
      next hne =>
        cases h
        exact .maps hne
    case slice.slice => cases h
  · have hne {c : Term} (hc : registry.isVariable c = false) : c.shape ≠ .var := by
      cases c <;> simp_all [Term.shape]
    rw [confront_of_shape_ne hshape] at h
    cases h
    exact .shapes hshape (hne ha) (hne hb)

/-! ## The rules -/

/-- The two terms at which the rules fail for a task. They are no variables, and they are in the
order in which they are confronted. -/
inductive FailsAt (registry : Registry) : Task → Term → Term → Prop
  | apart {u v : Term} {s : Substitution} {clash : Clash} (hu : registry.isVariable u = false)
      (hv : registry.isVariable v = false) (hclash : confront u v = .error clash) :
      FailsAt registry (.pair u v s) u v
  | bound {u v u' v' a b : Term} {s : Substitution} (hu : registry.isVariable u = true)
      (hu' : s.walk registry u = some u') (hne : u' ≠ u) (hv : s.walk registry v = some v')
      (h : FailsAt registry (.pair u' v' s) a b) : FailsAt registry (.pair u v s) a b
  | swapped {u v a b : Term} {s : Substitution} (hu : registry.isVariable u = false)
      (hv : registry.isVariable v = true) (h : FailsAt registry (.pair v u s) a b) :
      FailsAt registry (.pair u v s) a b
  | together {u v a b : Term} {s : Substitution} {pairs : List (Term × Term)}
      (hu : registry.isVariable u = false) (hv : registry.isVariable v = false)
      (hpairs : confront u v = .ok pairs) (h : FailsAt registry (.pairs pairs s) a b) :
      FailsAt registry (.pair u v s) a b
  | first {u v a b : Term} {s : Substitution} {pairs : List (Term × Term)}
      (h : FailsAt registry (.pair u v s) a b) : FailsAt registry (.pairs ((u, v) :: pairs) s) a b
  | later {u v a b : Term} {s s' : Substitution} {pairs : List (Term × Term)}
      (h : Solves registry (.pair u v s) (.ok s'))
      (hrest : FailsAt registry (.pairs pairs s') a b) :
      FailsAt registry (.pairs ((u, v) :: pairs) s) a b

/-- If the rules come to a clash, there are two terms at which they fail. -/
theorem Solves.exists_failsAt {task : Task} (h : Solves registry task (.error clash)) :
    ∃ a b, FailsAt registry task a b ∧ confront a b = .error clash := by
  generalize hresult : (.error clash : Result) = result at h
  induction h with
  | unbound | nil => cases hresult
  | bound hu hu' hne hv _ ih =>
    obtain ⟨a, b, hfails, hclash⟩ := ih hresult
    exact ⟨a, b, .bound hu hu' hne hv hfails, hclash⟩
  | swapped hu hv _ ih =>
    obtain ⟨a, b, hfails, hclash⟩ := ih hresult
    exact ⟨a, b, .swapped hu hv hfails, hclash⟩
  | @apart u v s clash hu hv hclash =>
    cases hresult
    exact ⟨u, v, .apart hu hv hclash, hclash⟩
  | together hu hv hpairs _ ih =>
    obtain ⟨a, b, hfails, hclash⟩ := ih hresult
    exact ⟨a, b, .together hu hv hpairs hfails, hclash⟩
  | clash _ ih =>
    obtain ⟨a, b, hfails, hclash⟩ := ih hresult
    exact ⟨a, b, .first hfails, hclash⟩
  | cons h _ _ ihrest =>
    obtain ⟨a, b, hfails, hclash⟩ := ihrest hresult
    exact ⟨a, b, .later h hfails, hclash⟩

namespace FailsAt

variable {task : Task}

/-- The rules come to the clash of the two terms at which they fail. -/
theorem exists_solves (h : FailsAt registry task a b) :
    ∃ clash, confront a b = .error clash ∧ Solves registry task (.error clash) := by
  induction h with
  | apart hu hv hclash => exact ⟨_, hclash, .apart hu hv hclash⟩
  | bound hu hu' hne hv _ ih =>
    obtain ⟨clash, hclash, hsolves⟩ := ih
    exact ⟨clash, hclash, .bound hu hu' hne hv hsolves⟩
  | swapped hu hv _ ih =>
    obtain ⟨clash, hclash, hsolves⟩ := ih
    exact ⟨clash, hclash, .swapped hu hv hsolves⟩
  | together hu hv hpairs _ ih =>
    obtain ⟨clash, hclash, hsolves⟩ := ih
    exact ⟨clash, hclash, .together hu hv hpairs hsolves⟩
  | first _ ih =>
    obtain ⟨clash, hclash, hsolves⟩ := ih
    exact ⟨clash, hclash, .clash hsolves⟩
  | later hsolves _ ih =>
    obtain ⟨clash, hclash, hrest⟩ := ih
    exact ⟨clash, hclash, .cons hsolves hrest⟩

theorem isVariable_eq_false (h : FailsAt registry task a b) :
    registry.isVariable a = false ∧ registry.isVariable b = false := by
  induction h with
  | apart hu hv => exact ⟨hu, hv⟩
  | bound _ _ _ _ _ ih | swapped _ _ _ ih | together _ _ _ _ ih | first _ ih | later _ _ ih =>
    exact ih

theorem between (h : FailsAt registry task a b) (hclash : confront a b = .error clash) :
    clash.Between a b :=
  between_of_confront h.isVariable_eq_false.1 h.isVariable_eq_false.2 hclash

/-- The rules fail among the terms that those of the task lead to. -/
theorem terms {P : Term → Prop} (hP : ∀ a b, s.Leads registry a b → P a → P b)
    (h : FailsAt registry task a b) (hunder : Grows registry P s task.under)
    (hterms : task.Terms P) : P a ∧ P b := by
  induction h with
  | apart => exact hterms
  | bound _ hu' _ hv _ ih =>
    exact ih hunder ⟨hunder.of_walk hP hu' hterms.1, hunder.of_walk hP hv hterms.2⟩
  | swapped _ _ _ ih => exact ih hunder hterms.symm
  | together hu hv hpairs _ ih => exact ih hunder (hterms.of_confront hP hu hv hpairs)
  | first _ ih => exact ih hunder (List.forall_mem_cons.1 hterms).1
  | later hsolves _ ih =>
    obtain ⟨hpair, hrest⟩ := List.forall_mem_cons.1 hterms
    exact ih (hsolves.grows hP hunder hpair) hrest

end FailsAt

def Inside (u v : Term) (s : Substitution) (a : Term) : Prop :=
  ∃ b, (b = u ∨ b = v ∨ ∃ x, s.lookup x = some b) ∧ a ∈ b.subterms

/-- The two terms come from inside of what was to be unified, or of values of variables. -/
theorem FailsAt.inside (h : FailsAt registry (.pair u v s) a b) :
    Inside u v s a ∧ Inside u v s b := by
  obtain ⟨ha, hb⟩ := h.terms (fun _ _ hstep hmet => Met.of_leads hmet hstep) (.refl s)
    ⟨met_left, met_right⟩
  exact ⟨ha.inside, hb.inside⟩

end Unification

/-! ## Runs -/

namespace Unifier

variable {φ ψ : Type} [Unification.Extension φ] {registry : Registry} {s : Substitution}

/-- Whenever unification fails, its clash describes two terms that are no variables, inside of the
two terms or of values that were bound before. A term never fails against itself. -/
theorem between_of_unify :
    (∀ u v s limit clash,
      ((standard : Unifier φ ψ).unify registry limit u v s).result = .ok (.error clash) →
      ∃ a b, Unification.Inside u v s a ∧ Unification.Inside u v s b ∧
        registry.isVariable a = false ∧ registry.isVariable b = false ∧ clash.Between a b) ∧
    ∀ u s clash, ((standard : Unifier φ ψ).unifySelf u s).result ≠ .ok (.error clash) := by
  refine ⟨?_, ?_⟩
  · intro u v s limit clash hrun
    obtain ⟨a, b, hfails, hclash⟩ := (solves_of_unify hrun).exists_failsAt
    obtain ⟨ha, hb⟩ := hfails.inside
    obtain ⟨hvara, hvarb⟩ := hfails.isVariable_eq_false
    exact ⟨a, b, ha, hb, hvara, hvarb, hfails.between hclash⟩
  · rintro u s clash ⟨⟩

/-- A registered tuple is bound like a variable, and the sets that clash after that are a subterm
and the value of a variable. Only the elements that they do not share are counted. -/
theorem between_of_unify_example :
    let registry := Registry.empty.insert (.tuple [.atom (.int 1)])
    let s := Substitution.empty.bind (.var (.fresh 0)) (.set [.atom (.int 1), .var (.fresh 1)])
    let u : Term := .list [.tuple [.atom (.int 1)], .var (.fresh 0)]
    let v : Term := .list [.map [], .set [.atom (.int 1)]]
    ∃ a b, Unification.Inside u v s a ∧ Unification.Inside u v s b ∧
      registry.isVariable a = false ∧ registry.isVariable b = false ∧
      (Clash.lengthMismatch 1 0).Between a b := by
  intro registry s u v
  have hrun : ((standard : Unifier Empty Empty).unify registry 20 u v s).result =
      .ok (.error (.lengthMismatch 1 0)) := by decide +kernel
  exact between_of_unify.1 u v s 20 _ hrun

end Unifier

end LogicTerms
