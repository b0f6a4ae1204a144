import LogicTerms.Proofs.Term.TotalOrder
import LogicTerms.Term.Collection
import Mathlib.Data.List.Induction
import Mathlib.Data.List.Nodup
import Mathlib.Data.List.Perm.Subperm

/-!
# Increasing lists of terms

Sets and maps are lists in increasing order. Such a list is known by its members, and an increasing
list of keys by what is found under them.
-/

namespace LogicTerms

def Increasing (ts : List Term) : Prop := ts.Pairwise fun s t => s.compare t = .lt

instance (ts : List Term) : Decidable (Increasing ts) :=
  inferInstanceAs (Decidable (ts.Pairwise fun s t => s.compare t = .lt))

namespace Increasing

variable {t : Term} {xs ys : List Term}

@[simp] theorem nil : Increasing [] := List.Pairwise.nil

@[simp] theorem cons_iff : Increasing (t :: xs) ↔ (∀ x ∈ xs, t.compare x = .lt) ∧ Increasing xs :=
  List.pairwise_cons

theorem nodup (h : Increasing xs) : xs.Nodup :=
  h.imp fun {s t} hlt heq => by simp [heq] at hlt

/-- An increasing list is known by its members. -/
theorem ext (hx : Increasing xs) (hy : Increasing ys) (h : ∀ t, t ∈ xs ↔ t ∈ ys) : xs = ys := by
  have hperm : xs.Perm ys := (List.perm_ext_iff_of_nodup hx.nodup hy.nodup).2 h
  refine hperm.eq_of_pairwise (fun s t _ _ hst hts => ?_) hx hy
  exact absurd (Std.TransCmp.lt_trans hst hts) (by simp)

/-- A list that is no longer than one it includes is the same list. -/
theorem eq_of_subset (hx : Increasing xs) (hy : Increasing ys) (hsub : xs ⊆ ys)
    (hlength : ys.length ≤ xs.length) : xs = ys := by
  have hperm := (List.subperm_of_subset hx.nodup hsub).perm_of_length_le hlength
  exact hx.ext hy fun t => hperm.mem_iff

end Increasing

/-! ## Elements -/

namespace Elements

theorem increasing_insert {t : Term} {xs : List Term} (h : Increasing xs) :
    Increasing (insert t xs) := by
  induction xs with
  | nil => simp [insert]
  | cons x xs ih =>
    obtain ⟨hx, hxs⟩ := Increasing.cons_iff.1 h
    unfold insert
    split
    next hlt =>
      refine Increasing.cons_iff.2 ⟨fun y hy => ?_, h⟩
      obtain rfl | hy := List.mem_cons.1 hy
      · exact hlt
      · exact Std.TransCmp.lt_trans hlt (hx y hy)
    next heq => exact h
    next hgt =>
      refine Increasing.cons_iff.2 ⟨fun y hy => ?_, ih hxs⟩
      obtain rfl | hy := mem_insert.1 hy
      · exact Std.OrientedCmp.gt_iff_lt.1 hgt
      · exact hx y hy

theorem increasing_ofList (ts : List Term) : Increasing (ofList ts) := by
  have (xs : List Term) (h : Increasing xs) :
      Increasing (ts.foldl (fun elements t => insert t elements) xs) := by
    induction ts generalizing xs with
    | nil => exact h
    | cons t ts ih => exact ih _ (increasing_insert h)
  exact this [] .nil

/-- Neither order nor repetition in a list matters for the set. -/
theorem ofList_congr {xs ys : List Term} (h : ∀ t, t ∈ xs ↔ t ∈ ys) : ofList xs = ofList ys :=
  (increasing_ofList xs).ext (increasing_ofList ys) (by simpa using h)

theorem ofList_eq_self {xs : List Term} (h : Increasing xs) : ofList xs = xs :=
  (increasing_ofList xs).ext h (by simp)

end Elements

/-! ## Entries -/

namespace Entries

abbrev keys (entries : List (Term × Term)) : List Term := entries.map Prod.fst

variable {key value : Term} {entries : List (Term × Term)}

theorem keys_insert : keys (insert key value entries) = Elements.insert key (keys entries) := by
  induction entries with
  | nil => rfl
  | cons entry entries ih =>
    obtain ⟨k, v⟩ := entry
    simp only [List.map_cons, insert, Elements.insert]
    cases key.compare k <;> simp [ih]

/-- The last entry is put in after all others, and replaces one with its key. -/
theorem ofList_concat {last : Term × Term} :
    ofList (entries ++ [last]) = insert last.1 last.2 (ofList entries) := by
  simp [ofList]

theorem keys_ofList : keys (ofList entries) = Elements.ofList (keys entries) := by
  have (done : List (Term × Term)) :
      keys (entries.foldl (fun entries entry => insert entry.1 entry.2 entries) done) =
        (keys entries).foldl (fun elements t => Elements.insert t elements) (keys done) := by
    induction entries generalizing done with
    | nil => rfl
    | cons entry entries ih =>
      rw [List.foldl_cons, ih, keys_insert]
      rfl
  exact this []

theorem increasing_ofList (entries : List (Term × Term)) : Increasing (keys (ofList entries)) := by
  rw [keys_ofList]
  exact Elements.increasing_ofList _

/-- An entry whose key comes after all others goes to the end. -/
theorem insert_eq_append (h : ∀ k ∈ keys entries, k.compare key = .lt) :
    insert key value entries = entries ++ [(key, value)] := by
  induction entries with
  | nil => rfl
  | cons entry entries ih =>
    obtain ⟨k, v⟩ := entry
    have hk : key.compare k = .gt := Std.OrientedCmp.gt_iff_lt.2 (h k (by simp))
    simp only [insert, hk, List.cons_append, ih fun k hk => h k (by simp [hk])]

theorem ofList_eq_self (h : Increasing (keys entries)) : ofList entries = entries := by
  have (done : List (Term × Term)) (hdone : Increasing (keys (done ++ entries))) :
      entries.foldl (fun entries entry => insert entry.1 entry.2 entries) done =
        done ++ entries := by
    clear h
    induction entries generalizing done with
    | nil => simp
    | cons entry entries ih =>
      obtain ⟨key, value⟩ := entry
      have hlast : insert key value done = done ++ [(key, value)] := by
        refine insert_eq_append fun k hk => ?_
        rw [keys, List.map_append] at hdone
        exact (List.pairwise_append.1 hdone).2.2 k hk key (by simp)
      change List.foldl _ (insert key value done) entries = _
      rw [hlast, ih _ (by simpa using hdone)]
      simp
  exact this [] h

theorem lookup_of_mem (h : (keys entries).Nodup) (hmem : (key, value) ∈ entries) :
    lookup key entries = some value := by
  induction entries with
  | nil => simp at hmem
  | cons entry entries ih =>
    obtain ⟨k, v⟩ := entry
    obtain ⟨hk, hnodup⟩ := List.nodup_cons.1 h
    unfold lookup
    obtain heq | hrest := List.mem_cons.1 hmem
    · cases heq
      simp
    · have hne : key ≠ k := by
        rintro rfl
        exact hk (List.mem_map.2 ⟨_, hrest, rfl⟩)
      rw [if_neg hne, ih hnodup hrest]

theorem mem_of_lookup (h : lookup key entries = some value) : (key, value) ∈ entries := by
  induction entries with
  | nil => simp [lookup] at h
  | cons entry entries ih =>
    obtain ⟨k, v⟩ := entry
    unfold lookup at h
    split at h
    next heq =>
      cases h
      simp [heq]
    · exact List.mem_cons_of_mem _ (ih h)

/-- The keys are those under which something is found. -/
theorem mem_keys_iff : key ∈ keys entries ↔ ∃ value, lookup key entries = some value := by
  induction entries with
  | nil => simp [lookup]
  | cons entry entries ih =>
    obtain ⟨k, v⟩ := entry
    by_cases heq : key = k <;> simp [lookup, heq, ← ih]

theorem mem_iff_lookup (h : Increasing (keys entries)) :
    (key, value) ∈ entries ↔ lookup key entries = some value :=
  ⟨lookup_of_mem h.nodup, mem_of_lookup⟩

/-- An insertion puts one entry in the place of all others with its key. -/
theorem mem_insert_iff {k v : Term} (h : Increasing (keys entries)) :
    (k, v) ∈ insert key value entries ↔
      k = key ∧ v = value ∨ k ≠ key ∧ (k, v) ∈ entries := by
  have hinsert : Increasing (keys (insert key value entries)) := by
    rw [keys_insert]
    exact Elements.increasing_insert h
  rw [mem_iff_lookup hinsert, lookup_insert, mem_iff_lookup h]
  split <;> simp_all [eq_comm]

/-- No entry is invented. -/
theorem mem_of_mem_ofList {entry : Term × Term} (h : entry ∈ ofList entries) :
    entry ∈ entries := by
  induction entries using List.reverseRecOn with
  | nil => simp [ofList] at h
  | append_singleton entries last ih =>
    rw [ofList_concat] at h
    obtain ⟨hkey, hvalue⟩ | ⟨-, hmem⟩ := (mem_insert_iff (increasing_ofList _)).1 h
    · exact List.mem_append_right _ (by simp [Prod.ext_iff, hkey, hvalue])
    · exact List.mem_append_left _ (ih hmem)

/-- No entry is lost if no key comes twice. -/
theorem mem_ofList_iff (h : (keys entries).Nodup) :
    (key, value) ∈ ofList entries ↔ (key, value) ∈ entries := by
  refine ⟨mem_of_mem_ofList, fun hmem => ?_⟩
  have hkey : key ∈ keys (ofList entries) := by
    rw [keys_ofList, Elements.mem_ofList]
    exact List.mem_map.2 ⟨_, hmem, rfl⟩
  obtain ⟨⟨_, other⟩, hother, rfl⟩ := List.mem_map.1 hkey
  have hlookup := lookup_of_mem h (mem_of_mem_ofList hother)
  rw [lookup_of_mem h hmem, Option.some.injEq] at hlookup
  rwa [hlookup]

/-- Entries in order are known by their members. -/
theorem ext {xs ys : List (Term × Term)} (hx : Increasing (keys xs)) (hy : Increasing (keys ys))
    (h : ∀ key value, (key, value) ∈ xs ↔ (key, value) ∈ ys) : xs = ys := by
  have hperm : xs.Perm ys := by
    have hxs := List.Nodup.of_map _ hx.nodup
    have hys := List.Nodup.of_map _ hy.nodup
    exact (List.perm_ext_iff_of_nodup hxs hys).2 fun entry => h entry.1 entry.2
  refine hperm.eq_of_pairwise (fun s t _ _ hst hts => ?_) (List.pairwise_map.1 hx)
    (List.pairwise_map.1 hy)
  exact absurd (Std.TransCmp.lt_trans hst hts) (by simp)

/-- Under the same keys, values that a function does not tell apart make the same entries. -/
theorem map_eq_of_keys_eq {f g : Term → Term} {xs ys : List (Term × Term)}
    (hkeys : keys xs = keys ys)
    (h : ∀ key value other, (key, value) ∈ xs → (key, other) ∈ ys → g value = g other) :
    (xs.map fun (key, value) => (f key, g value)) =
      ys.map fun (key, value) => (f key, g value) := by
  induction xs generalizing ys with
  | nil =>
    obtain rfl : ys = [] := List.map_eq_nil_iff.1 hkeys.symm
    rfl
  | cons x xs ih =>
    cases ys with
    | nil => simp at hkeys
    | cons y ys =>
      obtain ⟨key, value⟩ := x
      obtain ⟨key', other⟩ := y
      obtain ⟨rfl, htail⟩ := List.cons.inj hkeys
      have hrest := ih htail fun k v v' hv hv' =>
        h k v v' (List.mem_cons_of_mem _ hv) (List.mem_cons_of_mem _ hv')
      simp only [List.map_cons, hrest, h key value other List.mem_cons_self List.mem_cons_self]

end Entries

end LogicTerms
