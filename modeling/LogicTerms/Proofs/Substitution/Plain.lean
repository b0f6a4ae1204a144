import LogicTerms.Proofs.Substitution.Image

/-!
# Plain terms

A substitution may merge the elements of a set or the keys of a map. A map whose keys have no
variables keeps its entries under every substitution. A term without sets that has no other maps
keeps its form, and the parts of its image are the images of its parts.
-/

namespace LogicTerms

structure Term.FixedKeys (registry : Registry) (a : Term) : Prop where
  canonical : a.Canonical
  keys : ∀ b ∈ a.subterms, ∀ key ∈ b.keys, ∀ c ∈ key.subterms, registry.isVariable c = false

theorem Term.FixedKeys.of_mem_parts {registry : Registry} {a p : Term}
    (ha : a.FixedKeys registry) (hp : p ∈ a.parts) : p.FixedKeys registry where
  canonical := ha.canonical.of_mem_parts hp
  keys b hb := ha.keys b (mem_subterms_of_mem_parts hp hb)

/-- A canonical term without sets and without variables inside keys. -/
structure Term.Plain (registry : Registry) (a : Term) : Prop where
  canonical : a.Canonical
  shape_ne : ∀ b ∈ a.subterms, b.shape ≠ .set
  keys : ∀ b ∈ a.subterms, ∀ key ∈ b.keys, ∀ c ∈ key.subterms, registry.isVariable c = false

namespace Term.Plain

variable {registry : Registry} {a p key : Term}

theorem of_mem_parts (ha : a.Plain registry) (hp : p ∈ a.parts) : p.Plain registry where
  canonical := ha.canonical.of_mem_parts hp
  shape_ne b hb := ha.shape_ne b (mem_subterms_of_mem_parts hp hb)
  keys b hb := ha.keys b (mem_subterms_of_mem_parts hp hb)

theorem fixedKeys (ha : a.Plain registry) : a.FixedKeys registry := ⟨ha.canonical, ha.keys⟩

theorem ne_set (ha : a.Plain registry) (elements : List Term) : a ≠ .set elements := by
  rintro rfl
  exact ha.shape_ne _ (self_mem_subterms _) rfl

end Term.Plain

namespace Substitution.Acyclic

variable {registry : Registry} {s : Substitution} (hs : s.Acyclic registry) {a p : Term}

/-- Keys stay as they are. -/
theorem image_key {key : Term} (ha : a.FixedKeys registry) (hkey : key ∈ a.keys) :
    hs.image key = key := by
  have hcanonical := ha.canonical.of_mem_parts (Term.mem_parts_of_mem_keys hkey)
  refine hs.image_eq_self hcanonical fun b hb => ?_
  exact resolved_of_isVariable_eq_false (ha.keys a a.self_mem_subterms key hkey b hb)

/-- Only the values of a map change. -/
theorem map_image_of_fixedKeys {entries : List (Term × Term)}
    (ha : (Term.map entries).FixedKeys registry) :
    (entries.map fun (key, value) => (hs.image key, hs.image value)) =
      entries.map fun (key, value) => (key, hs.image value) := by
  refine List.map_congr_left fun ⟨key, value⟩ hentry => ?_
  have hkey : key ∈ (Term.map entries).keys := List.mem_map_of_mem hentry
  simp only [hs.image_key ha hkey]

/-- Only the values of a map with fixed keys change. -/
theorem image_map_of_fixedKeys {entries : List (Term × Term)}
    (ha : (Term.map entries).FixedKeys registry)
    (h : registry.isVariable (.map entries) = false) :
    hs.image (.map entries) = .map (entries.map fun (key, value) => (key, hs.image value)) := by
  have hincreasing : Increasing
      (Entries.keys (entries.map fun (key, value) => (key, hs.image value))) := by
    simpa [Entries.keys, Function.comp_def] using ha.canonical.increasing_keys
  rw [hs.image_map h, hs.map_image_of_fixedKeys ha, Term.mapOf, Entries.ofList_eq_self hincreasing]

/-- The image of a plain term is of the same form, with the images of the parts as its parts. -/
theorem image_of_plain (ha : a.Plain registry) (h : registry.isVariable a = false) :
    (hs.image a).shape = a.shape ∧ (hs.image a).parts = a.parts.map hs.image := by
  cases a with
  | atom value =>
    rw [hs.image_of_resolved (resolved_of_isVariable_eq_false h) (.inr rfl)]
    exact ⟨rfl, rfl⟩
  | var name => simp at h
  | tuple items =>
    rw [hs.image_tuple h]
    exact ⟨rfl, rfl⟩
  | list items =>
    rw [hs.image_list h]
    exact ⟨rfl, rfl⟩
  | set elements => exact absurd rfl (ha.ne_set elements)
  | map entries =>
    rw [hs.image_map_of_fixedKeys ha.fixedKeys h]
    refine ⟨rfl, ?_⟩
    rw [Term.parts, Term.parts, Term.map_flatten, hs.map_image_of_fixedKeys ha.fixedKeys]
  | slice start stop step =>
    rw [hs.image_slice h]
    exact ⟨rfl, rfl⟩

/-- The image of a part is lighter. -/
theorem weight_image_lt (ha : a.Plain registry) (h : registry.isVariable a = false)
    (hp : p ∈ a.parts) : (hs.image p).weight < (hs.image a).weight := by
  refine Term.weight_lt_of_mem_parts ?_
  rw [(hs.image_of_plain ha h).2]
  exact List.mem_map_of_mem hp

end Substitution.Acyclic

end LogicTerms
