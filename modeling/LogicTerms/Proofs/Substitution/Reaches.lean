import LogicTerms.Proofs.Registry
import LogicTerms.Proofs.Substitution.Walk

/-!
# The variables that a term reaches

The variables at the ends of all ways into a term. They are not bound. A term and the end of its
chain reach the same ones, and further bindings lead on from those that were reached before.
-/

namespace LogicTerms.Substitution

open Relation

variable {registry : Registry} {s t : Substitution} {follows follows' : Term → Term → Prop}
  {a b x y value : Term}

/-- A variable that is not bound reaches itself, a bound one what its value reaches, and any other
term what those of its parts reach that are followed. -/
inductive ReachesBy (registry : Registry) (s : Substitution) (follows : Term → Term → Prop) :
    Term → Term → Prop
  | unbound {x : Term} (hx : registry.isVariable x = true) (h : s.lookup x = none) :
      ReachesBy registry s follows x x
  | bound {x value y : Term} (hx : registry.isVariable x = true) (h : s.lookup x = some value)
      (hy : ReachesBy registry s follows value y) : ReachesBy registry s follows x y
  | part {a p y : Term} (ha : registry.isVariable a = false) (hp : follows a p)
      (hy : ReachesBy registry s follows p y) : ReachesBy registry s follows a y

/-- All parts of a compound are followed: its items or elements, the keys and values of a map, the
fields of a slice. The name of a variable is no part of it. -/
abbrev Reaches (registry : Registry) (s : Substitution) : Term → Term → Prop :=
  s.ReachesBy registry fun a p => p ∈ a.parts

namespace ReachesBy

theorem isVariable (h : s.ReachesBy registry follows a y) : registry.isVariable y = true := by
  induction h with
  | unbound hx => exact hx
  | bound _ _ _ ih | part _ _ _ ih => exact ih

theorem lookup_eq_none (h : s.ReachesBy registry follows a y) : s.lookup y = none := by
  induction h with
  | unbound _ h => exact h
  | bound _ _ _ ih | part _ _ _ ih => exact ih

/-- It matters only which parts are followed on the ways into the term. -/
theorem mono (h : s.ReachesBy registry follows a y)
    (hparts : ∀ b p, follows b p → p ∈ b.parts)
    (hfollows : ∀ b p, ReflTransGen (s.Leads registry) a b → follows b p → follows' b p) :
    s.ReachesBy registry follows' a y := by
  induction h with
  | unbound hx h => exact .unbound hx h
  | bound hx h _ ih =>
    refine .bound hx h (ih fun b p hway hp => ?_)
    exact hfollows b p (.head (leads_of_lookup hx h) hway) hp
  | part ha hp _ ih =>
    refine .part ha (hfollows _ _ .refl hp) (ih fun b q hway hq => ?_)
    exact hfollows b q (.head (leads_of_mem_parts ha (hparts _ _ hp)) hway) hq

end ReachesBy

/-! ## One step at a time -/

theorem reachesBy_iff_of_unbound (hx : registry.isVariable x = true) (h : s.lookup x = none) :
    s.ReachesBy registry follows x y ↔ y = x := by
  constructor
  · intro hreaches
    cases hreaches with
    | unbound => rfl
    | bound _ hvalue => simp [h] at hvalue
    | part ha => simp [hx] at ha
  · rintro rfl
    exact .unbound hx h

theorem reachesBy_iff_of_lookup (hx : registry.isVariable x = true) (h : s.lookup x = some value) :
    s.ReachesBy registry follows x y ↔ s.ReachesBy registry follows value y := by
  constructor
  · intro hreaches
    cases hreaches with
    | unbound _ hnone => simp [h] at hnone
    | bound _ hvalue hy =>
      rw [h, Option.some.injEq] at hvalue
      subst hvalue
      exact hy
    | part ha => simp [hx] at ha
  · exact .bound hx h

/-- A term that is no variable reaches what those of its parts reach that are followed. -/
theorem reachesBy_iff_of_isVariable_eq_false (ha : registry.isVariable a = false) :
    s.ReachesBy registry follows a y ↔ ∃ p, follows a p ∧ s.ReachesBy registry follows p y := by
  constructor
  · intro hreaches
    cases hreaches with
    | unbound hx => simp [ha] at hx
    | bound hx => simp [ha] at hx
    | part _ hp hy => exact ⟨_, hp, hy⟩
  · rintro ⟨p, hp, hy⟩
    exact .part ha hp hy

/-- What a term leads to reaches no other variables than the term. -/
theorem Reaches.of_leads (h : s.Leads registry a b) (hy : s.Reaches registry b y) :
    s.Reaches registry a y := by
  obtain ⟨ha, hvalue⟩ | ⟨ha, hpart⟩ := h.cases
  · exact .bound ha hvalue hy
  · exact .part ha hpart hy

/-- A term and the end of its chain reach the same variables. -/
theorem reachesBy_iff_of_walk (h : s.walk registry a = some b) :
    s.ReachesBy registry follows a y ↔ s.ReachesBy registry follows b y := by
  refine walk_preserves
    (P := fun c => s.ReachesBy registry follows a y ↔ s.ReachesBy registry follows c y) ?_ h Iff.rfl
  intro x value hx hvalue ih
  rw [ih, reachesBy_iff_of_lookup hx hvalue]

/-! ## Further bindings -/

/-- Under further bindings a term reaches what is reached from the variables that it reached
before: a way goes on where it ended. -/
theorem reachesBy_iff_of_extends (hts : t.Extends s) :
    t.ReachesBy registry follows a y ↔
      ∃ x, s.ReachesBy registry follows a x ∧ t.ReachesBy registry follows x y := by
  constructor
  · intro h
    induction h with
    | @unbound x hx hfree => exact ⟨x, .unbound hx (hts.lookup_eq_none hfree), .unbound hx hfree⟩
    | @bound x value y hx hvalue hy ih =>
      cases hlookup : s.lookup x with
      | none => exact ⟨x, .unbound hx hlookup, .bound hx hvalue hy⟩
      | some before =>
        obtain rfl : before = value := by simpa [hts x before hlookup] using hvalue
        obtain ⟨z, hz, hzy⟩ := ih
        exact ⟨z, .bound hx hlookup hz, hzy⟩
    | part ha hp _ ih =>
      obtain ⟨z, hz, hzy⟩ := ih
      exact ⟨z, .part ha hp hz, hzy⟩
  · rintro ⟨x, hx, hy⟩
    induction hx with
    | unbound => exact hy
    | bound hx hvalue _ ih => exact .bound hx (hts _ _ hvalue) (ih hy)
    | part ha hp _ ih => exact .part ha hp (ih hy)

/-! ## Without bindings -/

/-- Where nothing is bound or registered, a term reaches the variables inside it. -/
theorem reaches_empty_iff :
    Reaches .empty empty a x ↔ Registry.empty.isVariable x = true ∧ x ∈ a.subterms := by
  induction a using Term.parts_induction with
  | step a ih =>
    rw [Term.mem_subterms_iff]
    cases ha : Registry.empty.isVariable a with
    | true =>
      obtain ⟨name, rfl⟩ := Registry.isVariable_empty_iff.1 ha
      rw [Reaches, reachesBy_iff_of_unbound ha (lookup_empty _)]
      simp only [Term.parts, List.not_mem_nil, false_and, exists_false, or_false]
      exact ⟨fun h => ⟨h ▸ ha, h⟩, And.right⟩
    | false =>
      rw [Reaches, reachesBy_iff_of_isVariable_eq_false ha]
      constructor
      · rintro ⟨p, hp, hx⟩
        obtain ⟨hvar, hmem⟩ := (ih p hp).1 hx
        exact ⟨hvar, .inr ⟨p, hp, hmem⟩⟩
      · rintro ⟨hvar, rfl | ⟨p, hp, hmem⟩⟩
        · simp [ha] at hvar
        · exact ⟨p, hp, (ih p hp).2 ⟨hvar, hmem⟩⟩

end LogicTerms.Substitution
