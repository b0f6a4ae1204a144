import LogicTerms.Proofs.Substitution.Acyclic

/-!
# The end of a chain of bindings

Under an acyclic substitution every chain of bindings ends, and what each binding of a chain
preserves holds at its end. A walk passes each bound variable at most once, or it would come back
for ever. So the limit of a walk, which is the number of all bindings, is never too low for a chain
that ends.
-/

namespace LogicTerms.Substitution

open Relation

variable {registry : Registry} {s : Substitution} {a b : Term} {limit limit' : Nat}

def Resolved (registry : Registry) (s : Substitution) (a : Term) : Prop :=
  registry.isVariable a = true → s.lookup a = none

theorem resolved_of_isVariable_eq_false (h : registry.isVariable a = false) :
    s.Resolved registry a := fun ha => by
  simp [h] at ha

theorem follow_of_resolved (h : s.Resolved registry a) (limit : Nat) :
    s.follow registry (limit + 1) a = some a := by
  unfold follow
  split
  next ha => rw [h ha]
  next => rfl

/-- A limit that is high enough to find the end of a chain may be higher. -/
theorem follow_mono (h : s.follow registry limit a = some b) (hle : limit ≤ limit') :
    s.follow registry limit' a = some b := by
  fun_induction follow registry s limit a generalizing limit' with
  | case1 => simp at h
  | case2 | case3 | case4 =>
    obtain ⟨limit', rfl⟩ : ∃ n, limit' = n + 1 := ⟨limit' - 1, by omega⟩
    grind [follow]

theorem resolved_of_follow (h : s.follow registry limit a = some b) : s.Resolved registry b := by
  fun_induction follow registry s limit a with
  | case1 => simp at h
  | case2 _ _ _ _ _ ih => exact ih h
  | case3 _ _ _ hlookup =>
    cases h
    exact fun _ => hlookup
  | case4 _ _ hvar =>
    cases h
    exact fun ha => absurd ha hvar

theorem follow_preserves {P : Term → Prop}
    (hP : ∀ x value, registry.isVariable x = true → s.lookup x = some value → P x → P value)
    (h : s.follow registry limit a = some b) (ha : P a) : P b := by
  fun_induction follow registry s limit a with
  | case1 => simp at h
  | case2 _ _ hvar _ hlookup ih => exact ih h (hP _ _ hvar hlookup ha)
  | case3 | case4 =>
    cases h
    exact ha

/-- Each term of a chain has fewer variables ahead than the one before. -/
theorem Acyclic.exists_follow (hs : s.Acyclic registry)
    (hlimit : (s.ahead registry a).ncard < limit) : ∃ b, s.follow registry limit a = some b := by
  fun_induction follow registry s limit a with
  | case1 => omega
  | case2 _ _ hvar _ hlookup ih =>
    have hlt := hs.ncard_ahead_lt hvar hlookup
    exact ih (by omega)
  | case3 | case4 => exact ⟨_, rfl⟩

/-! ## Walks -/

theorem resolved_of_walk (h : s.walk registry a = some b) : s.Resolved registry b :=
  resolved_of_follow h

theorem walk_of_resolved (h : s.Resolved registry a) : s.walk registry a = some a :=
  follow_of_resolved h _

theorem walk_of_isVariable_eq_false (h : registry.isVariable a = false) :
    s.walk registry a = some a :=
  walk_of_resolved (resolved_of_isVariable_eq_false h)

/-- What each binding of a chain preserves holds at its end. -/
theorem walk_preserves {P : Term → Prop}
    (hP : ∀ x value, registry.isVariable x = true → s.lookup x = some value → P x → P value)
    (h : s.walk registry a = some b) (ha : P a) : P b :=
  follow_preserves hP h ha

/-- Under an acyclic substitution every chain ends. -/
theorem Acyclic.exists_walk (hs : s.Acyclic registry) (a : Term) :
    ∃ b, s.walk registry a = some b :=
  hs.exists_follow (Nat.lt_succ_of_le (ncard_ahead_le_size registry s a))

/-! ## Properties of all values -/

def AllValues (P : Term → Prop) (s : Substitution) : Prop :=
  ∀ x value, s.lookup x = some value → P value

@[simp] theorem allValues_empty (P : Term → Prop) : empty.AllValues P := fun x value h => by
  simp at h

theorem AllValues.walk {P : Term → Prop} (hs : s.AllValues P) (h : s.walk registry a = some b)
    (ha : P a) : P b :=
  walk_preserves (fun x value _ hvalue _ => hs x value hvalue) h ha

theorem AllValues.bind {P : Term → Prop} (hs : s.AllValues P) {value : Term} (h : P value)
    (x : Term) : (s.bind x value).AllValues P := by
  intro y v hv
  rw [lookup_bind] at hv
  split at hv
  · cases hv
    exact h
  · exact hs y v hv

/-! ## Ways of a walk -/

/-- A walk that moves leads on from its start. -/
theorem transGen_of_walk (h : s.walk registry a = some b) (hne : b ≠ a) :
    TransGen (s.Leads registry) a b := by
  have hway : ReflTransGen (s.Leads registry) a b := by
    refine walk_preserves (P := fun c => ReflTransGen (s.Leads registry) a c) ?_ h .refl
    exact fun x value hx hvalue hway => hway.tail (leads_of_lookup hx hvalue)
  obtain heq | hway := reflTransGen_iff_eq_or_transGen.1 hway
  · exact absurd heq hne
  · exact hway

/-! ## Chains -/

variable {c x : Term} {keys keys' : List Term}

/-- The bound variables that are passed on the way from a term to the end of its chain. -/
inductive Chain (registry : Registry) (s : Substitution) : Term → List Term → Term → Prop
  | stop {a : Term} (h : s.Resolved registry a) : Chain registry s a [] a
  | step {x value b : Term} {keys : List Term} (hx : registry.isVariable x = true)
      (h : s.lookup x = some value) (hrest : Chain registry s value keys b) :
      Chain registry s x (x :: keys) b

namespace Chain

/-- From a term there is only one chain. -/
theorem unique (h : s.Chain registry a keys b) (h' : s.Chain registry a keys' c) :
    keys = keys' ∧ b = c := by
  induction h generalizing keys' with
  | stop hstop =>
    cases h' with
    | stop => exact ⟨rfl, rfl⟩
    | step hx hlookup => simp [hstop hx] at hlookup
  | step hx hlookup _ ih =>
    cases h' with
    | stop hstop => simp [hstop hx] at hlookup
    | step _ hlookup' hrest' =>
      rw [hlookup, Option.some.injEq] at hlookup'
      subst hlookup'
      obtain ⟨rfl, rfl⟩ := ih hrest'
      exact ⟨rfl, rfl⟩

theorem subset_domain (h : s.Chain registry a keys b) : keys ⊆ s.domain := by
  induction h with
  | stop => simp
  | step _ hlookup _ ih => exact List.cons_subset.2 ⟨mem_domain_of_lookup hlookup, ih⟩

/-- From each of its variables a chain goes on to its end. -/
theorem of_mem (h : s.Chain registry a keys b) (hx : x ∈ keys) :
    ∃ rest, s.Chain registry x rest b ∧ rest.length ≤ keys.length := by
  induction h with
  | stop => simp at hx
  | @step y value b keys hy hlookup hrest ih =>
    obtain rfl | hx := List.mem_cons.1 hx
    · exact ⟨_, .step hy hlookup hrest, le_rfl⟩
    · obtain ⟨rest, hchain, hle⟩ := ih hx
      exact ⟨rest, hchain, by grind⟩

/-- No variable is passed twice. -/
theorem nodup (h : s.Chain registry a keys b) : keys.Nodup := by
  induction h with
  | stop => exact List.nodup_nil
  | @step x value b keys hx hlookup hrest ih =>
    refine List.nodup_cons.2 ⟨fun hmem => ?_, ih⟩
    -- The chain from the second visit would be the one from the first, but shorter.
    obtain ⟨rest, hchain, hle⟩ := hrest.of_mem hmem
    obtain ⟨rfl, -⟩ := hchain.unique (.step hx hlookup hrest)
    grind

theorem length_le_size (h : s.Chain registry a keys b) : keys.length ≤ s.size := by
  have hle := (List.subperm_of_subset h.nodup h.subset_domain).length_le
  rwa [domain, List.length_map] at hle

/-- A limit beyond the length of a chain is high enough. -/
theorem follow (h : s.Chain registry a keys b) :
    s.follow registry (keys.length + 1) a = some b := by
  induction h with
  | stop hstop => exact follow_of_resolved hstop 0
  | step hx hlookup _ ih => rwa [List.length_cons, Substitution.follow, if_pos hx, hlookup]

end Chain

theorem exists_chain_of_follow (h : s.follow registry limit a = some b) :
    ∃ keys, s.Chain registry a keys b := by
  fun_induction Substitution.follow registry s limit a with
  | case1 => simp at h
  | case2 _ _ hvar _ hlookup ih =>
    obtain ⟨keys, hchain⟩ := ih h
    exact ⟨_, .step hvar hlookup hchain⟩
  | case3 _ _ _ hlookup =>
    cases h
    exact ⟨[], .stop fun _ => hlookup⟩
  | case4 _ _ hvar =>
    cases h
    exact ⟨[], .stop fun ha => absurd ha hvar⟩

/-- A walk finds the end of a chain whenever there is one. -/
theorem walk_eq_some_iff : s.walk registry a = some b ↔ ∃ keys, s.Chain registry a keys b := by
  constructor
  · exact exists_chain_of_follow
  · rintro ⟨keys, h⟩
    exact follow_mono h.follow (Nat.succ_le_succ h.length_le_size)

end LogicTerms.Substitution
