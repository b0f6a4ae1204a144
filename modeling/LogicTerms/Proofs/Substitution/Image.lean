import LogicTerms.Proofs.Substitution.Walk
import LogicTerms.Proofs.Term.Collection

/-!
# Images of terms

The image of a term under an acyclic substitution is what is left when all bound variables have
given way to their values. A term and the end of its chain have the same image, and a compound is
built anew from the images of its parts.
-/

namespace LogicTerms

namespace Substitution.Acyclic

variable {registry : Registry} {s : Substitution} {a b x value : Term}

def image (hs : s.Acyclic registry) (a : Term) : Term :=
  if _ha : registry.isVariable a = true then
    match _hvalue : s.lookup a with
    | some value => hs.image value
    | none => a
  else
    match a.decompose with
    | some (form, _) => form.build (a.parts.attach.map fun ⟨p, _⟩ => hs.image p)
    | none => a
termination_by hs.wellFounded.wrap a
decreasing_by
  · exact leads_of_lookup _ha _hvalue
  · exact leads_of_mem_parts (by simpa using _ha) ‹_›

variable (hs : s.Acyclic registry)

theorem image_of_lookup (hx : registry.isVariable x = true) (h : s.lookup x = some value) :
    hs.image x = hs.image value := by
  rw [image, dif_pos hx]
  split <;> simp_all

/-- Resolved variables and atoms stay. -/
theorem image_of_resolved (ha : s.Resolved registry a)
    (h : registry.isVariable a = true ∨ a.decompose = none) : hs.image a = a := by
  rw [image]
  split
  next hvar =>
    split
    next hvalue => simp [ha hvar] at hvalue
    next => rfl
  next hvar =>
    have hnone : a.decompose = none := by simpa [hvar] using h
    simp only [hnone]

/-- A compound is built anew from the images of its parts. -/
theorem image_of_decompose {form : Form} {parts : List Term}
    (ha : registry.isVariable a = false) (h : a.decompose = some (form, parts)) :
    hs.image a = form.build (parts.map hs.image) := by
  rw [image, dif_neg (by simp [ha]), Term.eq_parts_of_decompose h]
  simp only [h, List.map_subtype, List.unattach_attach]

/-- The image stays the same along a chain if it does along each binding. -/
theorem image_eq_of_walk {r : Substitution}
    (hr : ∀ x value, registry.isVariable x = true → r.lookup x = some value →
      hs.image x = hs.image value)
    (h : r.walk registry a = some b) : hs.image a = hs.image b := by
  refine walk_preserves (P := fun c => hs.image a = hs.image c) ?_ h rfl
  intro x value hx hvalue heq
  rw [heq, hr x value hx hvalue]

/-- The end of a chain has the image of its start, also under further bindings. -/
theorem image_of_walk {r : Substitution} (hext : s.Extends r) (h : r.walk registry a = some b) :
    hs.image a = hs.image b := by
  apply hs.image_eq_of_walk _ h
  intro x value hx hvalue
  exact hs.image_of_lookup hx (hext x value hvalue)

/-- What holds of a term, of its parts and of all values holds of the image, if it holds of each
compound that is built in the place of another one. -/
theorem image_preserves {P : Term → Prop} (hparts : ∀ a, P a → ∀ p ∈ a.parts, P p)
    (hbuild : ∀ a form parts parts', P a → a.decompose = some (form, parts) →
      (∀ p ∈ parts', P p) → P (form.build parts'))
    (hvalues : s.AllValues P) (ha : P a) : P (hs.image a) := by
  induction a using hs.wellFounded.induction with
  | _ a ih =>
    cases hvar : registry.isVariable a with
    | true =>
      cases hlookup : s.lookup a with
      | none =>
        rw [hs.image_of_resolved (fun _ => hlookup) (.inl hvar)]
        exact ha
      | some value =>
        rw [hs.image_of_lookup hvar hlookup]
        exact ih value (leads_of_lookup hvar hlookup) (hvalues a value hlookup)
    | false =>
      cases hform : a.decompose with
      | none =>
        rw [hs.image_of_resolved (resolved_of_isVariable_eq_false hvar) (.inr hform)]
        exact ha
      | some d =>
        obtain ⟨form, parts⟩ := d
        rw [hs.image_of_decompose hvar hform]
        refine hbuild a form parts _ ha hform (List.forall_mem_map.2 fun p hp => ?_)
        rw [Term.eq_parts_of_decompose hform] at hp
        exact ih p (leads_of_mem_parts hvar hp) (hparts a ha p hp)

/-- Where no bound variable is, nothing changes. -/
theorem image_eq_self (ha : a.Canonical) (h : ∀ b ∈ a.subterms, s.Resolved registry b) :
    hs.image a = a := by
  induction a using Term.parts_induction with
  | step a ih =>
    have hself := h a a.self_mem_subterms
    cases hvar : registry.isVariable a with
    | true => exact hs.image_of_resolved hself (.inl hvar)
    | false =>
      cases hform : a.decompose with
      | none => exact hs.image_of_resolved hself (.inr hform)
      | some d =>
        obtain ⟨form, parts⟩ := d
        have hparts : parts.map hs.image = parts.map id := by
          refine List.map_congr_left fun p hp => ?_
          have hmem : p ∈ a.parts := by rwa [← Term.eq_parts_of_decompose hform]
          refine ih p hmem (ha.of_mem_parts hmem) fun b hb => ?_
          exact h b (Term.mem_subterms_of_mem_parts hmem hb)
        rw [hs.image_of_decompose hvar hform, hparts, List.map_id, ha.build_parts hform]

/-! ## Compounds -/

theorem image_tuple {items : List Term} (h : registry.isVariable (.tuple items) = false) :
    hs.image (.tuple items) = .tuple (items.map hs.image) :=
  hs.image_of_decompose h rfl

theorem image_list {items : List Term} (h : registry.isVariable (.list items) = false) :
    hs.image (.list items) = .list (items.map hs.image) :=
  hs.image_of_decompose h rfl

/-- Elements whose images are equal become one. -/
theorem image_set {elements : List Term} (h : registry.isVariable (.set elements) = false) :
    hs.image (.set elements) = .setOf (elements.map hs.image) :=
  hs.image_of_decompose h rfl

/-- Of entries whose keys get equal images the later one counts. -/
theorem image_map {entries : List (Term × Term)} (h : registry.isVariable (.map entries) = false) :
    hs.image (.map entries) =
      .mapOf (entries.map fun (key, value) => (hs.image key, hs.image value)) := by
  rw [hs.image_of_decompose h rfl, Form.build, Term.pairUp_map_flatten]

theorem image_slice {start stop step : Term}
    (h : registry.isVariable (.slice start stop step) = false) :
    hs.image (.slice start stop step) =
      .slice (hs.image start) (hs.image stop) (hs.image step) :=
  hs.image_of_decompose h rfl

end Substitution.Acyclic

end LogicTerms
