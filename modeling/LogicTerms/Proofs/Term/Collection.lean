import LogicTerms.Proofs.Term.Subterms

/-!
# Taking compounds apart and building them anew

A compound whose elements or keys are in order is what is built of its own parts. Whatever else is
built of canonical parts is canonical.
-/

namespace LogicTerms

namespace Term

variable {p t : Term} {form : Form} {parts elements : List Term} {entries : List (Term × Term)}

/-- A compound that was taken apart, by its form. -/
@[elab_as_elim]
theorem decompose_cases
    {motive : ∀ t form parts, decompose t = some (form, parts) → Prop}
    (tuple : ∀ items, motive (.tuple items) .tuple items rfl)
    (list : ∀ items, motive (.list items) .list items rfl)
    (set : ∀ elements, motive (.set elements) .set elements rfl)
    (map : ∀ entries, motive (.map entries) .map (flatten entries) rfl)
    (slice : ∀ start stop step, motive (.slice start stop step) .slice [start, stop, step] rfl)
    {t : Term} {form : Form} {parts : List Term} (h : t.decompose = some (form, parts)) :
    motive t form parts h := by
  cases t with
  | atom | var => cases h
  | tuple =>
    cases h
    exact tuple _
  | list =>
    cases h
    exact list _
  | set =>
    cases h
    exact set _
  | map =>
    cases h
    exact map _
  | slice =>
    cases h
    exact slice _ _ _

theorem eq_parts_of_decompose (h : t.decompose = some (form, parts)) : parts = t.parts := by
  induction h using decompose_cases <;> rfl

theorem map_flatten (f : Term → Term) (entries : List (Term × Term)) :
    (flatten entries).map f = flatten (entries.map fun (key, value) => (f key, f value)) := by
  induction entries with
  | nil => rfl
  | cons entry entries ih =>
    obtain ⟨key, value⟩ := entry
    simp [ih]

theorem pairUp_map_flatten (f : Term → Term) (entries : List (Term × Term)) :
    pairUp ((flatten entries).map f) = entries.map fun (key, value) => (f key, f value) := by
  rw [map_flatten, pairUp_flatten]

def Ordered : Term → Prop
  | set elements => Increasing elements
  | map entries => Increasing (Entries.keys entries)
  | _ => True

theorem Canonical.ordered (ht : t.Canonical) : t.Ordered := by
  cases t with
  | set elements => exact ht.increasing_elements
  | map entries => exact ht.increasing_keys
  | _ => trivial

/-- A compound in order is what is built of its own parts. -/
theorem Ordered.build_parts (ht : t.Ordered) (h : t.decompose = some (form, parts)) :
    form.build parts = t := by
  induction h using decompose_cases with
  | tuple | list | slice => rfl
  | set elements => rw [Form.build, setOf, Elements.ofList_eq_self ht]
  | map entries => rw [Form.build, pairUp_flatten, mapOf, Entries.ofList_eq_self ht]

/-- Only compounds in order are built of their own parts, and canonical ones are in order. -/
theorem Canonical.build_parts (ht : t.Canonical) (h : t.decompose = some (form, parts)) :
    form.build parts = t :=
  ht.ordered.build_parts h

theorem mem_of_mem_flatten_pairUp (h : p ∈ flatten (pairUp parts)) : p ∈ parts := by
  fun_induction pairUp parts with
  | case1 key value rest ih => grind [flatten_cons]
  | case2 => simp at h

theorem canonical_setOf (h : ∀ t ∈ elements, t.Canonical) : (setOf elements).Canonical := by
  rw [setOf, Canonical, isCanonical, Bool.and_eq_true, decide_eq_true_iff, areCanonical_iff]
  exact ⟨Elements.increasing_ofList elements, fun t ht => h t (Elements.mem_ofList.1 ht)⟩

theorem canonical_mapOf (h : ∀ t ∈ flatten entries, t.Canonical) : (mapOf entries).Canonical := by
  rw [mapOf, Canonical, isCanonical, Bool.and_eq_true, decide_eq_true_iff, entriesCanonical_iff]
  refine ⟨Entries.increasing_ofList entries, fun t ht => ?_⟩
  obtain ⟨entry, hentry, hpart⟩ := mem_flatten_iff.1 ht
  exact h t (mem_flatten_iff.2 ⟨entry, Entries.mem_of_mem_ofList hentry, hpart⟩)

end Term

namespace Form

theorem isCompound_build (form : Form) (parts : List Term) :
    (form.build parts).isCompound = true := by
  cases form <;> rfl

/-- Whatever is built of parts is in order. -/
theorem ordered_build (form : Form) (parts : List Term) : (form.build parts).Ordered := by
  cases form with
  | set => exact Elements.increasing_ofList parts
  | map => exact Entries.increasing_ofList (Term.pairUp parts)
  | _ => trivial

/-- Nothing is put into a compound but its parts, or what stands for a field that is not given. -/
theorem mem_parts_build {form : Form} {parts : List Term} {p : Term}
    (h : p ∈ (form.build parts).parts) : p ∈ parts ∨ p = Term.none := by
  cases form with
  | tuple | list => exact .inl h
  | set => exact .inl (Elements.mem_ofList.1 h)
  | map =>
    obtain ⟨entry, hentry, hpart⟩ := Term.mem_flatten_iff.1 h
    refine .inl (Term.mem_of_mem_flatten_pairUp ?_)
    exact Term.mem_flatten_iff.2 ⟨entry, Entries.mem_of_mem_ofList hentry, hpart⟩
  | slice =>
    have hfield (i : Nat) :
        parts[i]?.getD Term.none ∈ parts ∨ parts[i]?.getD Term.none = Term.none := by
      cases hpart : parts[i]? with
      | none => exact .inr rfl
      | some q => exact .inl (List.mem_of_getElem? hpart)
    simp only [build, Term.parts, List.mem_cons, List.not_mem_nil, or_false] at h
    obtain rfl | rfl | rfl := h
    all_goals exact hfield _

/-- Whatever the parts are, their compound is canonical if they are. -/
theorem canonical_build (form : Form) {parts : List Term} (h : ∀ p ∈ parts, p.Canonical) :
    (form.build parts).Canonical := by
  cases form with
  | tuple => exact Term.areCanonical_iff.2 h
  | list => exact Term.areCanonical_iff.2 h
  | set => exact Term.canonical_setOf h
  | map => exact Term.canonical_mapOf fun p hp => h p (Term.mem_of_mem_flatten_pairUp hp)
  | slice =>
    have hfield (i : Nat) : (parts[i]?.getD Term.none).Canonical := by
      cases hpart : parts[i]? with
      | none => rfl
      | some p => exact h p (List.mem_of_getElem? hpart)
    rw [build, Term.Canonical, Term.isCanonical, Bool.and_eq_true, Bool.and_eq_true]
    exact ⟨hfield 0, hfield 1, hfield 2⟩

end Form

end LogicTerms
