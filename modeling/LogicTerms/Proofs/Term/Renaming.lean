import LogicTerms.Proofs.Registry
import LogicTerms.Proofs.Term.Collection
import Mathlib.Data.Set.Function

/-!
# Atoms renamed to variables

A term says the same with variables in the place of some of its atoms, as long as different atoms
get different variables and none of these is in the term already.
-/

namespace LogicTerms

/-! ## Entries under other keys -/

namespace Entries

variable {f : Term → Term} {P : Set Term} {key value : Term} {entries xs ys : List (Term × Term)}

theorem keys_map :
    keys (entries.map fun (key, value) => (f key, f value)) = (keys entries).map f := by
  simp [keys]

theorem lookup_map_of_fixed (h : ∀ k ∈ keys entries, f k = k) :
    lookup key (entries.map fun (key, value) => (f key, f value)) = (lookup key entries).map f := by
  induction entries with
  | nil => rfl
  | cons entry entries ih =>
    obtain ⟨k, v⟩ := entry
    obtain ⟨hk, hrest⟩ := List.forall_mem_cons.1 h
    simp only [List.map_cons, lookup, ih hrest, show f k = k from hk]
    split <;> rfl

variable (hf : Set.InjOn f P)

include hf

/-- Different keys get different names, so that no entry is lost. -/
theorem mem_ofList_map_iff (hP : ∀ k ∈ keys entries, k ∈ P) (h : Increasing (keys entries))
    {k v : Term} :
    (k, v) ∈ ofList (entries.map fun (key, value) => (f key, f value)) ↔
      ∃ key value, (key, value) ∈ entries ∧ f key = k ∧ f value = v := by
  have hnodup : (keys (entries.map fun (key, value) => (f key, f value))).Nodup := by
    rw [keys_map]
    exact h.nodup.map_on fun x hx y hy heq => hf (hP x hx) (hP y hy) heq
  rw [mem_ofList_iff hnodup]
  simp

/-- Under a renamed key the renamed value is found, as long as the keys stay different. -/
theorem lookup_ofList_map (hkey : key ∈ P) (hP : ∀ k ∈ keys entries, k ∈ P)
    (h : Increasing (keys entries)) :
    lookup (f key) (ofList (entries.map fun (key, value) => (f key, f value))) =
      (lookup key entries).map f := by
  ext v
  rw [← mem_iff_lookup (increasing_ofList _), mem_ofList_map_iff hf hP h, Option.map_eq_some_iff]
  constructor
  · rintro ⟨k, value, hmem, hk, hvalue⟩
    obtain rfl := hf (hP k (List.mem_map.2 ⟨_, hmem, rfl⟩)) hkey hk
    exact ⟨value, lookup_of_mem h.nodup hmem, hvalue⟩
  · rintro ⟨value, hlookup, hvalue⟩
    exact ⟨key, value, mem_of_lookup hlookup, rfl, hvalue⟩

/-- An entry may be put in before the keys are renamed, or after. -/
theorem ofList_map_insert (hkey : key ∈ P) (hP : ∀ k ∈ keys entries, k ∈ P)
    (h : Increasing (keys entries)) :
    ofList ((insert key value entries).map fun (key, value) => (f key, f value)) =
      insert (f key) (f value) (ofList (entries.map fun (key, value) => (f key, f value))) := by
  have hinsert : Increasing (keys (insert key value entries)) := by
    rw [keys_insert]
    exact Elements.increasing_insert h
  have hPinsert : ∀ k ∈ keys (insert key value entries), k ∈ P := by
    simpa [keys_insert] using ⟨hkey, by simpa using hP⟩
  refine ext (increasing_ofList _) ?_ fun k v => ?_
  · rw [keys_insert]
    exact Elements.increasing_insert (increasing_ofList _)
  · simp only [mem_ofList_map_iff hf hPinsert hinsert, mem_insert_iff h,
      mem_insert_iff (increasing_ofList _), mem_ofList_map_iff hf hP h]
    constructor
    · rintro ⟨k', v', ⟨rfl, rfl⟩ | ⟨hne, hmem⟩, rfl, rfl⟩
      · exact .inl ⟨rfl, rfl⟩
      · refine .inr ⟨fun heq => hne ?_, k', v', hmem, rfl, rfl⟩
        exact hf (hP k' (List.mem_map.2 ⟨_, hmem, rfl⟩)) hkey heq
    · rintro (⟨rfl, rfl⟩ | ⟨hne, k', v', hmem, rfl, rfl⟩)
      · exact ⟨key, value, .inl ⟨rfl, rfl⟩, rfl, rfl⟩
      · refine ⟨k', v', .inr ⟨?_, hmem⟩, rfl, rfl⟩
        rintro rfl
        exact hne rfl

/-- Entries may be put in order before their keys are renamed, or after. -/
theorem ofList_map_ofList (hP : ∀ k ∈ keys entries, k ∈ P) :
    ofList ((ofList entries).map fun (key, value) => (f key, f value)) =
      ofList (entries.map fun (key, value) => (f key, f value)) := by
  induction entries using List.reverseRecOn with
  | nil => rfl
  | append_singleton entries last ih =>
    simp only [keys, List.map_append, List.forall_mem_append, List.map_singleton,
      List.forall_mem_singleton] at hP
    have hordered : ∀ k ∈ keys (ofList entries), k ∈ P := by
      simpa [keys_ofList] using hP.1
    rw [ofList_concat, ofList_map_insert hf hP.2 hordered (increasing_ofList _), ih hP.1,
      List.map_append, List.map_singleton, ofList_concat]

section

variable (hPx : ∀ entry ∈ xs, entry.1 ∈ P ∧ entry.2 ∈ P)
  (hPy : ∀ entry ∈ ys, entry.1 ∈ P ∧ entry.2 ∈ P)

include hPx hPy

theorem mem_of_ofList_map_eq (hx : Increasing (keys xs)) (hy : Increasing (keys ys))
    (h : ofList (xs.map fun (key, value) => (f key, f value)) =
      ofList (ys.map fun (key, value) => (f key, f value))) (hmem : (key, value) ∈ xs) :
    (key, value) ∈ ys := by
  have hkeys : ∀ k ∈ keys xs, k ∈ P := List.forall_mem_map.2 fun entry h => (hPx entry h).1
  have hkeys' : ∀ k ∈ keys ys, k ∈ P := List.forall_mem_map.2 fun entry h => (hPy entry h).1
  have himage := (mem_ofList_map_iff hf hkeys hx).2 ⟨key, value, hmem, rfl, rfl⟩
  rw [h, mem_ofList_map_iff hf hkeys' hy] at himage
  obtain ⟨k, v, hmem', hk, hv⟩ := himage
  obtain rfl := hf (hPy _ hmem').1 (hPx _ hmem).1 hk
  obtain rfl := hf (hPy _ hmem').2 (hPx _ hmem).2 hv
  exact hmem'

/-- Entries with the same image are the same. -/
theorem eq_of_ofList_map_eq (hx : Increasing (keys xs)) (hy : Increasing (keys ys))
    (h : ofList (xs.map fun (key, value) => (f key, f value)) =
      ofList (ys.map fun (key, value) => (f key, f value))) : xs = ys :=
  ext hx hy fun _ _ => ⟨mem_of_ofList_map_eq hf hPx hPy hx hy h,
    mem_of_ofList_map_eq hf hPy hPx hy hx h.symm⟩

end

end Entries

/-! ## Renamings -/

/-- Different variables for finitely many atoms. -/
structure Renaming where
  atoms : List Atom
  name : Atom → Var
  injective : Set.InjOn name {a | a ∈ atoms}

mutual

/-- The term with variables in the place of atoms. The names of variables are not entered. -/
def Renaming.apply (r : Renaming) : Term → Term
  | .atom a => if a ∈ r.atoms then .var (r.name a) else .atom a
  | .var name => .var name
  | .tuple items => .tuple (r.applyAll items)
  | .list items => .list (r.applyAll items)
  | .set elements => .setOf (r.applyAll elements)
  | .map entries => .mapOf (r.applyEntries entries)
  | .slice start stop step => .slice (r.apply start) (r.apply stop) (r.apply step)

def Renaming.applyAll (r : Renaming) : List Term → List Term
  | [] => []
  | t :: ts => r.apply t :: r.applyAll ts

def Renaming.applyEntries (r : Renaming) : List (Term × Term) → List (Term × Term)
  | [] => []
  | (key, value) :: entries => (r.apply key, r.apply value) :: r.applyEntries entries

end

namespace Renaming

variable {r : Renaming} {a p t : Term} {items : List Term} {entries : List (Term × Term)}

theorem applyAll_eq_map : r.applyAll items = items.map r.apply := by
  induction items with
  | nil => rfl
  | cons t ts ih => simp [applyAll, ih]

theorem applyEntries_eq_map :
    r.applyEntries entries = entries.map fun (key, value) => (r.apply key, r.apply value) := by
  induction entries with
  | nil => rfl
  | cons entry entries ih =>
    obtain ⟨key, value⟩ := entry
    simp [applyEntries, ih]

theorem apply_tuple : r.apply (.tuple items) = .tuple (items.map r.apply) := by
  rw [apply, applyAll_eq_map]

theorem apply_list : r.apply (.list items) = .list (items.map r.apply) := by
  rw [apply, applyAll_eq_map]

theorem apply_of_decompose {form : Form} {parts : List Term}
    (h : t.decompose = some (form, parts)) : r.apply t = form.build (parts.map r.apply) := by
  induction h using Term.decompose_cases with
  | map entries => rw [apply, applyEntries_eq_map, Form.build, Term.pairUp_map_flatten]
  | _ => simp [apply, applyAll_eq_map, Form.build]

/-- A term without any of the atoms stays as it is. -/
theorem apply_eq_self (ht : t.Canonical) (h : ∀ a ∈ r.atoms, .atom a ∉ t.subterms) :
    r.apply t = t := by
  induction t using Term.parts_induction with
  | step t ih =>
    cases hform : t.decompose with
    | none =>
      cases t with
      | atom a =>
        have ha : a ∉ r.atoms := fun hmem => h a hmem (Term.self_mem_subterms _)
        rw [apply, if_neg ha]
      | var name => rfl
      | _ => simp [Term.decompose] at hform
    | some d =>
      obtain ⟨form, parts⟩ := d
      have hparts : parts.map r.apply = parts.map id := by
        refine List.map_congr_left fun p hp => ?_
        have hmem : p ∈ t.parts := by rwa [← Term.eq_parts_of_decompose hform]
        refine ih p hmem (ht.of_mem_parts hmem) fun a ha hsub => h a ha ?_
        exact Term.mem_subterms_of_mem_parts hmem hsub
      rw [apply_of_decompose hform, hparts, List.map_id, ht.build_parts hform]

/-! ## Registered atoms -/

def registry (r : Renaming) : Registry := Registry.empty.extend (r.atoms.map .atom)

theorem isVariable_registry_iff :
    r.registry.isVariable t = true ↔ (∃ name, t = .var name) ∨ ∃ a ∈ r.atoms, t = .atom a := by
  rw [registry, Registry.isVariable_extend_iff]
  simp [eq_comm]

/-- Registered atoms count as variables just as their names do. -/
theorem isVariable_apply (t : Term) :
    r.registry.isVariable t = Registry.empty.isVariable (r.apply t) := by
  rw [Bool.eq_iff_iff, isVariable_registry_iff, Registry.isVariable_empty_iff]
  cases t with
  | atom a =>
    rw [apply]
    split <;> simp_all
  | var name => simp [apply]
  | _ => simp [apply, Term.setOf, Term.mapOf]

theorem apply_atom {a : Atom} (h : r.registry.isVariable (.atom a) = false) :
    r.apply (.atom a) = .atom a := by
  have ha : a ∉ r.atoms := by
    intro hmem
    simp [isVariable_registry_iff.2 (.inr ⟨a, hmem, rfl⟩)] at h
  rw [apply, if_neg ha]

theorem shape_apply (h : r.registry.isVariable t = false) : (r.apply t).shape = t.shape := by
  cases t with
  | atom a => rw [apply_atom h]
  | _ => rfl

/-! ## Fresh names -/

/-- A canonical term without sets and without the new variables. -/
structure Fresh (r : Renaming) (t : Term) : Prop where
  canonical : t.Canonical
  shape_ne : ∀ b ∈ t.subterms, b.shape ≠ .set
  ne_name : ∀ b ∈ t.subterms, ∀ a ∈ r.atoms, b ≠ .var (r.name a)

theorem Fresh.of_mem_parts (h : r.Fresh t) (hp : p ∈ t.parts) : r.Fresh p where
  canonical := h.canonical.of_mem_parts hp
  shape_ne b hb := h.shape_ne b (Term.mem_subterms_of_mem_parts hp hb)
  ne_name b hb := h.ne_name b (Term.mem_subterms_of_mem_parts hp hb)

theorem Fresh.ne_set (h : r.Fresh t) (elements : List Term) : t ≠ .set elements := by
  rintro rfl
  exact h.shape_ne _ (Term.self_mem_subterms _) rfl

theorem eq_of_applyAll_eq {P : Set Term} (hP : Set.InjOn r.apply P) {xs ys : List Term}
    (hx : ∀ p ∈ xs, p ∈ P) (hy : ∀ p ∈ ys, p ∈ P) (h : r.applyAll xs = r.applyAll ys) :
    xs = ys := by
  induction xs generalizing ys with
  | nil =>
    cases ys with
    | nil => rfl
    | cons y ys => simp [applyAll] at h
  | cons x xs ih =>
    cases ys with
    | nil => simp [applyAll] at h
    | cons y ys =>
      rw [List.forall_mem_cons] at hx hy
      obtain ⟨hhead, htail⟩ := List.cons.inj h
      rw [hP hx.1 hy.1 hhead, ih hx.2 hy.2 htail]

/-- Fresh terms are told apart if their parts are. -/
theorem eq_of_apply_eq {u : Term} {P : Set Term} (ht : r.Fresh t) (hu : r.Fresh u)
    (hP : Set.InjOn r.apply P) (htP : ∀ p ∈ t.parts, p ∈ P) (huP : ∀ p ∈ u.parts, p ∈ P)
    (h : r.apply t = r.apply u) : t = u := by
  have hnamet := ht.ne_name t t.self_mem_subterms
  have hnameu := hu.ne_name u u.self_mem_subterms
  cases t <;> cases u <;> simp only [apply, Term.setOf, Term.mapOf, Term.parts] at h htP huP
  case atom.atom a b =>
    split at h <;> split at h <;> simp only [Term.var.injEq, Term.atom.injEq, reduceCtorEq] at h
    next ha hb => rw [r.injective ha hb h]
    next => rw [h]
  case set.set => exact absurd rfl (ht.ne_set _)
  case tuple.tuple | list.list =>
    simp only [Term.tuple.injEq, Term.list.injEq] at h
    rw [eq_of_applyAll_eq hP htP huP h]
  case map.map xs ys =>
    rw [Term.map.injEq, applyEntries_eq_map, applyEntries_eq_map] at h
    rw [Entries.eq_of_ofList_map_eq hP (Term.forall_mem_flatten_iff.1 htP)
      (Term.forall_mem_flatten_iff.1 huP) ht.canonical.increasing_keys
      hu.canonical.increasing_keys h]
  case slice.slice =>
    simp only [List.forall_mem_cons, Term.slice.injEq] at htP huP h
    rw [hP htP.1 huP.1 h.1, hP htP.2.1 huP.2.1 h.2.1, hP htP.2.2.1 huP.2.2.1 h.2.2]
  all_goals grind

/-- Renaming is injective on fresh terms. -/
theorem injOn_apply (r : Renaming) : Set.InjOn r.apply {t | r.Fresh t} := by
  have (n : Nat) : Set.InjOn r.apply {t | r.Fresh t ∧ t.weight < n} := by
    induction n with
    | zero => simp
    | succ n ih =>
      rintro t ⟨ht, hlt⟩ u ⟨hu, hlt'⟩ heq
      refine eq_of_apply_eq ht hu ih (fun p hp => ?_) (fun p hp => ?_) heq
      · have := Term.weight_lt_of_mem_parts hp
        exact ⟨ht.of_mem_parts hp, by omega⟩
      · have := Term.weight_lt_of_mem_parts hp
        exact ⟨hu.of_mem_parts hp, by omega⟩
  intro t ht u hu
  exact this (max t.weight u.weight + 1) ⟨ht, by omega⟩ ⟨hu, by omega⟩

/-- The keys may be renamed before a map is built. -/
theorem apply_mapOf (h : ∀ k ∈ Entries.keys entries, r.Fresh k) :
    r.apply (.mapOf entries) =
      .mapOf (entries.map fun (key, value) => (r.apply key, r.apply value)) := by
  rw [Term.mapOf, apply, applyEntries_eq_map, Term.mapOf, Term.mapOf,
    Entries.ofList_map_ofList r.injOn_apply h]

/-- A compound that is built anew of fresh parts, in the place of a fresh one, is fresh. -/
theorem Fresh.build {form : Form} {parts parts' : List Term} (ht : r.Fresh t)
    (hform : t.decompose = some (form, parts)) (h : ∀ p ∈ parts', r.Fresh p) :
    r.Fresh (form.build parts') where
  canonical := form.canonical_build fun p hp => (h p hp).canonical
  shape_ne b hb := by
    obtain rfl | ⟨p, hp, hb⟩ := Term.mem_subterms_iff.1 hb
    · intro hset
      induction hform using Term.decompose_cases with
      | set elements => exact ht.ne_set elements rfl
      | _ => simp [Form.build, Term.mapOf, Term.shape] at hset
    · obtain hp | rfl := Form.mem_parts_build hp
      · exact (h p hp).shape_ne b hb
      · simp_all [Term.subterms, Term.shape]
  ne_name b hb := by
    obtain rfl | ⟨p, hp, hb⟩ := Term.mem_subterms_iff.1 hb
    · intro a _ hname
      have hcompound := form.isCompound_build parts'
      simp [hname, Term.isCompound] at hcompound
    · obtain hp | rfl := Form.mem_parts_build hp
      · exact (h p hp).ne_name b hb
      · simp_all [Term.subterms]

/-! ## Keys without renamed atoms -/

structure Admits (r : Renaming) (t : Term) : Prop extends Fresh r t where
  keys : ∀ b ∈ t.subterms, ∀ key ∈ b.keys, ∀ a ∈ r.atoms, .atom a ∉ key.subterms

theorem Admits.of_mem_parts (h : r.Admits t) (hp : p ∈ t.parts) : r.Admits p where
  toFresh := h.toFresh.of_mem_parts hp
  keys b hb := h.keys b (Term.mem_subterms_of_mem_parts hp hb)

theorem Admits.apply_key (h : r.Admits t) {key : Term} (hkey : key ∈ t.keys) :
    r.apply key = key :=
  apply_eq_self (h.canonical.of_mem_parts (Term.mem_parts_of_mem_keys hkey))
    (h.keys t t.self_mem_subterms key hkey)

/-- Where no key is changed, the entries stay in order. -/
theorem apply_map (h : r.Admits (.map entries)) :
    r.apply (.map entries) =
      .map (entries.map fun (key, value) => (r.apply key, r.apply value)) := by
  have hkeys : (Entries.keys entries).map r.apply = (Entries.keys entries).map id :=
    List.map_congr_left fun key hkey => h.apply_key hkey
  rw [apply, applyEntries_eq_map, Term.mapOf, Entries.ofList_eq_self]
  rw [Entries.keys_map, hkeys, List.map_id]
  exact h.canonical.increasing_keys

theorem parts_apply (h : r.Admits t) : (r.apply t).parts = t.parts.map r.apply := by
  cases t with
  | atom a =>
    rw [apply]
    split <;> rfl
  | set elements => exact absurd rfl (h.ne_set elements)
  | map entries =>
    rw [apply_map h, Term.parts, Term.parts, Term.map_flatten]
  | _ => simp [apply, applyAll_eq_map, Term.parts]

end Renaming

end LogicTerms
