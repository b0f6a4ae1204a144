import LogicTerms.Proofs.Reification.FreeVariables
import LogicTerms.Proofs.Term.Collection

/-!
# The variables that reification leaves

Keys of a map may become equal when their variables are replaced. Then the last entry takes the
place of the others, and the variables in their values are gone. The collection of free variables
drops every compound before it is built, so that it finds these variables all the same.
-/

namespace LogicTerms

open Relation Substitution

namespace Term

variable {f : Term → Term} {entries : List (Term × Term)} {entry last : Term × Term} {a p q : Term}

/-- An entry lasts if no later one has a key that becomes the same. -/
def Lasts (f : Term → Term) (entries : List (Term × Term)) (entry : Term × Term) : Prop :=
  ∃ before after, entries = before ++ entry :: after ∧ ∀ later ∈ after, f later.1 ≠ f entry.1

/-- The last entry lasts, and of the others those that last without it and whose keys do not become
the same as its key. -/
theorem lasts_concat :
    Lasts f (entries ++ [last]) entry ↔
      entry = last ∨ f last.1 ≠ f entry.1 ∧ Lasts f entries entry := by
  constructor
  · rintro ⟨before, after, heq, hlater⟩
    obtain rfl | ⟨rest, x, rfl⟩ := after.eq_nil_or_concat'
    · exact .inl (List.append_inj_right' heq rfl |> List.singleton_inj.1).symm
    · rw [← List.cons_append, ← List.append_assoc] at heq
      obtain ⟨rfl, hx⟩ := List.append_inj' heq rfl
      obtain rfl := List.singleton_inj.1 hx
      rw [List.forall_mem_append, List.forall_mem_singleton] at hlater
      exact .inr ⟨hlater.2, before, rest, rfl, hlater.1⟩
  · rintro (rfl | ⟨hne, before, after, rfl, hlater⟩)
    · exact ⟨entries, [], rfl, by simp⟩
    · refine ⟨before, after ++ [last], by simp, ?_⟩
      rw [List.forall_mem_append, List.forall_mem_singleton]
      exact ⟨hlater, hne⟩

theorem Lasts.mem (h : Lasts f entries entry) : entry ∈ entries := by
  obtain ⟨before, after, rfl, -⟩ := h
  simp

/-- Every entry lasts if all keys stay different. -/
theorem lasts_of_nodup (h : (entries.map fun entry => f entry.1).Nodup) (hmem : entry ∈ entries) :
    Lasts f entries entry := by
  obtain ⟨before, after, rfl⟩ := List.append_of_mem hmem
  refine ⟨before, after, rfl, fun later hlater heq => ?_⟩
  rw [List.map_append, List.map_cons] at h
  have hnodup := (List.nodup_append.1 h).2.1
  exact (List.nodup_cons.1 hnodup).1 (List.mem_map.2 ⟨later, hlater, heq⟩)

/-- A map that is built anew has the entries that last. -/
theorem mem_ofList_map_iff {key value : Term} :
    (key, value) ∈ Entries.ofList (entries.map fun entry => (f entry.1, f entry.2)) ↔
      ∃ entry, Lasts f entries entry ∧ f entry.1 = key ∧ f entry.2 = value := by
  induction entries using List.reverseRecOn with
  | nil => simp [Entries.ofList, Lasts]
  | append_singleton entries last ih =>
    rw [List.map_append, List.map_singleton, Entries.ofList_concat,
      Entries.mem_insert_iff (Entries.increasing_ofList _), ih]
    simp only [lasts_concat]
    constructor
    · rintro (⟨rfl, rfl⟩ | ⟨hne, entry, hlasts, rfl, rfl⟩)
      · exact ⟨last, .inl rfl, rfl, rfl⟩
      · exact ⟨entry, .inr ⟨hne.symm, hlasts⟩, rfl, rfl⟩
    · rintro ⟨entry, rfl | ⟨hne, hlasts⟩, rfl, rfl⟩
      · exact .inl ⟨rfl, rfl⟩
      · exact .inr ⟨hne.symm, entry, hlasts, rfl, rfl⟩

/-- A part that stays when the parts change: any part of a sequence, a set or a slice, and the keys
and values of the entries that last. -/
def Keeps (f : Term → Term) (a p : Term) : Prop :=
  p ∈ a.parts ∧ ∀ entries, a = .map entries →
    ∃ entry, Lasts f entries entry ∧ (p = entry.1 ∨ p = entry.2)

theorem keeps_map_iff :
    Keeps f (.map entries) p ↔ ∃ entry, Lasts f entries entry ∧ (p = entry.1 ∨ p = entry.2) := by
  constructor
  · intro h
    exact h.2 entries rfl
  · rintro ⟨entry, hlasts, hp⟩
    refine ⟨mem_flatten_iff.2 ⟨entry, hlasts.mem, hp⟩, ?_⟩
    rintro _ ⟨⟩
    exact ⟨entry, hlasts, hp⟩

theorem keeps_of_nodup
    (h : ∀ entries, a = .map entries → (entries.map fun entry => f entry.1).Nodup)
    (hp : p ∈ a.parts) : Keeps f a p := by
  refine ⟨hp, ?_⟩
  rintro entries rfl
  obtain ⟨entry, hentry, hp⟩ := mem_flatten_iff.1 hp
  exact ⟨entry, lasts_of_nodup (h entries rfl) hentry, hp⟩

end Term

/-! ## Parts and variables of images -/

namespace Substitution.Acyclic

variable {registry : Registry} {s : Substitution} {a p q x : Term}

/-- The parts of an image are the images of the parts that stay. -/
theorem mem_parts_image_iff (hs : s.Acyclic registry) (ha : registry.isVariable a = false) :
    q ∈ (hs.image a).parts ↔ ∃ p, Term.Keeps hs.image a p ∧ hs.image p = q := by
  cases a with
  | atom value =>
    rw [hs.image_of_resolved (resolved_of_isVariable_eq_false ha) (.inr rfl)]
    simp [Term.Keeps, Term.parts]
  | var name => simp at ha
  | tuple items =>
    rw [hs.image_tuple ha]
    simp [Term.Keeps, Term.parts]
  | list items =>
    rw [hs.image_list ha]
    simp [Term.Keeps, Term.parts]
  | set elements =>
    rw [hs.image_set ha]
    simp [Term.Keeps, Term.parts, Term.setOf]
  | slice start stop step =>
    rw [hs.image_slice ha]
    simp [Term.Keeps, Term.parts, eq_comm]
  | map entries =>
    rw [hs.image_map ha]
    simp only [Term.keeps_map_iff]
    refine Term.mem_flatten_iff.trans ⟨?_, ?_⟩
    · rintro ⟨⟨key, value⟩, hmem, hq⟩
      obtain ⟨entry, hlasts, rfl, rfl⟩ := Term.mem_ofList_map_iff.1 hmem
      obtain rfl | rfl := hq
      · exact ⟨entry.1, ⟨entry, hlasts, .inl rfl⟩, rfl⟩
      · exact ⟨entry.2, ⟨entry, hlasts, .inr rfl⟩, rfl⟩
    · rintro ⟨p, ⟨entry, hlasts, hp⟩, rfl⟩
      refine ⟨_, Term.mem_ofList_map_iff.2 ⟨entry, hlasts, rfl, rfl⟩, ?_⟩
      obtain rfl | rfl := hp
      · exact .inl rfl
      · exact .inr rfl

/-- The variables that a term reaches by the parts that stay. -/
abbrev Remains (hs : s.Acyclic registry) : Term → Term → Prop :=
  s.ReachesBy registry (Term.Keeps hs.image)

theorem reaches_of_remains (hs : s.Acyclic registry) (h : hs.Remains a x) :
    s.Reaches registry a x :=
  ReachesBy.mono h (fun _ _ hp => hp.1) fun _ _ _ hp => hp.1

/-- A term whose keys stay different keeps all its variables. -/
theorem remains_of_nodup (hs : s.Acyclic registry)
    (hkeys : ∀ entries, ReflTransGen (s.Leads registry) a (.map entries) →
      (entries.map fun entry => hs.image entry.1).Nodup)
    (h : s.Reaches registry a x) : hs.Remains a x := by
  refine ReachesBy.mono h (fun _ _ hp => hp) fun b p hway hp => Term.keeps_of_nodup ?_ hp
  rintro entries rfl
  exact hkeys entries hway

theorem isVariable_image_eq_false (hs : s.Acyclic registry) (hflat : registry.Flat)
    (ha : registry.isVariable a = false) : registry.isVariable (hs.image a) = false := by
  cases hform : a.decompose with
  | none =>
    rw [hs.image_of_resolved (resolved_of_isVariable_eq_false ha) (.inr hform)]
    exact ha
  | some d =>
    obtain ⟨form, parts⟩ := d
    rw [hs.image_of_decompose ha hform]
    exact hflat _ (form.isCompound_build _)

/-- The variables inside an image are those that remain, unless compounds count as variables. -/
theorem mem_subterms_image_iff_of_flat (hs : s.Acyclic registry) (hflat : registry.Flat)
    (a : Term) :
    registry.isVariable x = true ∧ x ∈ (hs.image a).subterms ↔ hs.Remains a x := by
  induction a using hs.wellFounded.induction with
  | _ a ih =>
    cases ha : registry.isVariable a with
    | true =>
      cases hlookup : s.lookup a with
      | none =>
        rw [hs.image_of_resolved (fun _ => hlookup) (.inl ha), Remains,
          reachesBy_iff_of_unbound ha hlookup, hflat.mem_subterms_iff ha]
        simp only [and_iff_right_iff_imp]
        rintro rfl
        exact ha
      | some value =>
        rw [hs.image_of_lookup ha hlookup, Remains, reachesBy_iff_of_lookup ha hlookup]
        exact ih value (leads_of_lookup ha hlookup)
    | false =>
      rw [Term.mem_subterms_iff, Remains, reachesBy_iff_of_isVariable_eq_false ha]
      constructor
      · rintro ⟨hx, rfl | ⟨q, hq, hmem⟩⟩
        · simp [hs.isVariable_image_eq_false hflat ha] at hx
        · obtain ⟨p, hp, rfl⟩ := (hs.mem_parts_image_iff ha).1 hq
          exact ⟨p, hp, (ih p (leads_of_mem_parts ha hp.1)).1 ⟨hx, hmem⟩⟩
      · rintro ⟨p, hp, hremains⟩
        obtain ⟨hx, hmem⟩ := (ih p (leads_of_mem_parts ha hp.1)).2 hremains
        exact ⟨hx, .inr ⟨_, (hs.mem_parts_image_iff ha).2 ⟨p, hp, rfl⟩, hmem⟩⟩

/-- Without a registry the variables that reification leaves are those that remain. -/
theorem mem_subterms_image_iff (hs : s.Acyclic .empty) (a : Term) :
    Registry.empty.isVariable x = true ∧ x ∈ (hs.image a).subterms ↔ hs.Remains a x :=
  hs.mem_subterms_image_iff_of_flat Registry.flat_empty a

end Substitution.Acyclic

/-! ## Unifiers -/

namespace Unifier

variable {φ ψ : Type} [Reification.Extension ψ] {s : Substitution}

/-- What is left in an image is collected from it where nothing is bound. -/
theorem returns_freeVariables_image (hs : s.Acyclic .empty) (t : Term) :
    ∃ left, Returns (fun limit => (standard : Unifier φ ψ).freeVariables .empty limit (hs.image t)
        .empty) left ∧ Increasing left ∧ ∀ x, x ∈ left ↔ hs.Remains t x := by
  obtain ⟨left, hreturns, hincreasing, hmem⟩ :=
    returns_freeVariables (φ := φ) (ψ := ψ) (acyclic_empty .empty) (hs.image t)
  refine ⟨left, hreturns, hincreasing, fun x => ?_⟩
  rw [hmem, reaches_empty_iff, hs.mem_subterms_image_iff]

/-- Reification leaves no other variables than the free ones. It leaves them all just if every
variable that the term reaches is reached by the parts that stay, and it leaves some just if one is.
So both are the same if no keys of a map become equal on the way, and a term is then ground if and
only if reification leaves no variable in it. -/
theorem freeVariables_reify_iff (hs : s.Acyclic .empty) (t : Term) :
    ∃ value found left ground,
      (standard : Unifier φ ψ).Reifies .empty t s value ∧
      Returns (fun limit => (standard : Unifier φ ψ).freeVariables .empty limit t s) found ∧
      Returns (fun limit => (standard : Unifier φ ψ).freeVariables .empty limit value .empty) left ∧
      Returns (fun limit => (standard : Unifier φ ψ).isGround .empty limit t s) ground ∧
      left ⊆ found ∧
      (found = left ↔ ∀ x, s.Reaches .empty t x → hs.Remains t x) ∧
      ((ground = true ↔ ∀ x ∈ value.subterms, Registry.empty.isVariable x = false) ↔
        ((∃ x, s.Reaches .empty t x) → ∃ x, hs.Remains t x)) ∧
      ((∀ entries, ReflTransGen (s.Leads .empty) t (.map entries) →
          (entries.map fun entry => hs.image entry.1).Nodup) →
        found = left ∧
          (ground = true ↔ ∀ x ∈ value.subterms, Registry.empty.isVariable x = false)) := by
  obtain ⟨found, hfound, hincreasing, hreaches⟩ := returns_freeVariables (φ := φ) (ψ := ψ) hs t
  obtain ⟨left, hleft, hincreasing', hremains⟩ := returns_freeVariables_image (φ := φ) (ψ := ψ) hs t
  obtain ⟨ground, hground, hnone⟩ := returns_isGround (φ := φ) (ψ := ψ) hs t
  have hsame : found = left ↔ ∀ x, s.Reaches .empty t x → hs.Remains t x := by
    constructor
    · rintro rfl x hx
      exact (hremains x).1 ((hreaches x).2 hx)
    · intro hall
      refine hincreasing.ext hincreasing' fun x => ?_
      rw [hreaches, hremains]
      exact ⟨hall x, hs.reaches_of_remains⟩
  have hvalue : (∀ x ∈ (hs.image t).subterms, Registry.empty.isVariable x = false) ↔
      ¬ ∃ x, hs.Remains t x := by
    simp only [← hs.mem_subterms_image_iff, not_exists, not_and', Bool.not_eq_true]
  have hverdict : (ground = true ↔
      ∀ x ∈ (hs.image t).subterms, Registry.empty.isVariable x = false) ↔
        ((∃ x, s.Reaches .empty t x) → ∃ x, hs.Remains t x) := by
    rw [hvalue, hnone, ← not_exists, not_iff_not]
    exact ⟨Iff.mp, fun h => ⟨h, Exists.imp fun x => hs.reaches_of_remains⟩⟩
  refine ⟨hs.image t, found, left, ground, reifies_image hs t, hfound, hleft, hground, ?_, hsame,
    hverdict, fun hkeys => ?_⟩
  · intro x hx
    exact (hreaches x).2 (hs.reaches_of_remains ((hremains x).1 hx))
  · have hall : ∀ x, s.Reaches .empty t x → hs.Remains t x := fun x => hs.remains_of_nodup hkeys
    exact ⟨hsame.2 hall, hverdict.2 (Exists.imp hall)⟩

/-- Two keys become equal, and the variable in the value that is lost is in the other one too. -/
theorem freeVariables_reify_iff_example :
    let s := Substitution.empty.bind (.var (.fresh 0)) (.atom (.int 1))
    let t : Term :=
      .map [(.atom (.int 1), .var (.fresh 1)), (.var (.fresh 0), .tuple [.var (.fresh 1)])]
    s.Acyclic .empty ∧
    ∃ value found left,
      (standard : Unifier Empty Empty).Reifies .empty t s value ∧
      Returns (fun limit => (standard : Unifier Empty Empty).freeVariables .empty limit t s) found ∧
      Returns (fun limit => (standard : Unifier Empty Empty).freeVariables .empty limit value
        .empty) left ∧
      found = left := by
  intro s t
  have hs : s.Acyclic .empty := (acyclic_empty .empty).bind_of_subterms (by decide +kernel)
  obtain ⟨value, found, left, -, hvalue, hfound, hleft, -, -, hsame, -, -⟩ :=
    freeVariables_reify_iff (φ := Empty) (ψ := Empty) hs t
  refine ⟨hs, value, found, left, hvalue, hfound, hleft, hsame.2 fun x hx => ?_⟩
  obtain ⟨all, hall, -, hmem⟩ := returns_freeVariables (φ := Empty) (ψ := Empty) hs t
  have hone : ((standard : Unifier Empty Empty).freeVariables .empty 20 t s).result =
      .ok [.var (.fresh 1)] := by decide +kernel
  obtain rfl := hall.unique (returns_freeVariables_of_result 20 hone)
  obtain rfl := List.mem_singleton.1 ((hmem x).2 hx)
  -- The entry of the variable is the last one, so that its value stays.
  have hlasts : Term.Lasts hs.image
      [(.atom (.int 1), .var (.fresh 1)), (.var (.fresh 0), .tuple [.var (.fresh 1)])]
      (.var (.fresh 0), .tuple [.var (.fresh 1)]) :=
    ⟨[(.atom (.int 1), .var (.fresh 1))], [], rfl, by simp⟩
  have hkeeps : Term.Keeps hs.image (.tuple [.var (.fresh 1)]) (.var (.fresh 1)) :=
    ⟨List.mem_singleton_self _, by simp⟩
  refine .part (by decide) (Term.keeps_map_iff.2 ⟨_, hlasts, .inr rfl⟩) (.part rfl hkeeps ?_)
  exact .unbound rfl (by decide +kernel)

/-- The second entry takes the place of the first one, whose variable is still collected. -/
theorem not_ground_of_replaced :
    let s := Substitution.empty.bind (.var (.fresh 0)) (.atom (.int 1))
    let t : Term := .map [(.atom (.int 1), .var (.fresh 1)), (.var (.fresh 0), .atom (.int 2))]
    s.Acyclic .empty ∧
    ∃ value found left ground,
      (standard : Unifier Empty Empty).Reifies .empty t s value ∧
      Returns (fun limit => (standard : Unifier Empty Empty).freeVariables .empty limit t s) found ∧
      Returns (fun limit => (standard : Unifier Empty Empty).freeVariables .empty limit value
        .empty) left ∧
      Returns (fun limit => (standard : Unifier Empty Empty).isGround .empty limit t s) ground ∧
      found ≠ left ∧
      ¬ (ground = true ↔ ∀ x ∈ value.subterms, Registry.empty.isVariable x = false) := by
  intro s t
  refine ⟨(acyclic_empty .empty).bind_of_subterms (by decide +kernel),
    .map [(.atom (.int 1), .atom (.int 2))], [.var (.fresh 1)], [], false,
    reifies_of_result 20 (by decide +kernel), ?_, ?_, ?_, by simp, by decide +kernel⟩
  · exact returns_freeVariables_of_result 20 (by decide +kernel)
  · exact returns_freeVariables_of_result 20 (by decide +kernel)
  · exact returns_isGround_of_result 20 (by decide +kernel)

end Unifier

end LogicTerms
