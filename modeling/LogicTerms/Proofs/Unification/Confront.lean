import LogicTerms.Proofs.Term.Subterms
import LogicTerms.Unification.Algorithms

/-!
# Terms against each other

Two terms that are no variables clash, or they leave pairs of parts to be unified. Maps leave the
values under each key if both have the same keys, and otherwise a key of the left one is missing
from the right one.
-/

namespace LogicTerms

namespace Unification

def zipped (left right : List Term) : Except Clash (List (Term × Term)) :=
  if left.length = right.length then .ok (left.zip right)
  else .error (.lengthMismatch left.length right.length)

/-- What is left to be unified of two terms that are no variables. -/
def confront : Term → Term → Except Clash (List (Term × Term))
  | .atom left, .atom right =>
    if left = right then .ok [] else .error (.atomMismatch left right)
  | .tuple left, .tuple right | .list left, .list right => zipped left right
  | .set left, .set right =>
    zipped (Elements.difference left right) (Elements.difference right left)
  | .map left, .map right =>
    if left.length = right.length then valuePairs right left
    else .error (.lengthMismatch left.length right.length)
  | .slice start stop step, .slice start' stop' step' =>
    .ok [(start, start'), (stop, stop'), (step, step')]
  | u, v => .error (.shapeClash u.shape v.shape)

theorem confront_of_shape_ne {u v : Term} (h : u.shape ≠ v.shape) :
    confront u v = .error (.shapeClash u.shape v.shape) := by
  cases u <;> cases v <;> simp_all [confront, Term.shape]

/-- Atoms leave nothing. -/
theorem eq_nil_of_confront {u v : Term} {pairs : List (Term × Term)}
    (hu : u.isCompound = false) (h : confront u v = .ok pairs) : pairs = [] := by
  cases u <;> simp [Term.isCompound] at hu
  case atom =>
    cases v <;> simp only [confront, reduceCtorEq] at h
    split at h <;> cases h
    rfl
  case var => simp [confront] at h

/-! ## Lists -/

section

variable {left right : List Term} {pairs : List (Term × Term)}

theorem zipped_eq_ok_iff :
    zipped left right = .ok pairs ↔ left.length = right.length ∧ pairs = left.zip right := by
  unfold zipped
  split <;> simp_all [eq_comm]

theorem mem_of_zipped (h : zipped left right = .ok pairs) {pair : Term × Term}
    (hpair : pair ∈ pairs) : pair.1 ∈ left ∧ pair.2 ∈ right := by
  obtain ⟨-, rfl⟩ := zipped_eq_ok_iff.1 h
  exact List.of_mem_zip hpair

/-- Each element has a partner. -/
theorem exists_mem_of_zipped (h : zipped left right = .ok pairs) {t : Term} (ht : t ∈ left) :
    ∃ other, (t, other) ∈ pairs := by
  obtain ⟨hlength, rfl⟩ := zipped_eq_ok_iff.1 h
  have hfirst : (left.zip right).map Prod.fst = left := List.map_fst_zip (Nat.le_of_eq hlength)
  rw [← hfirst] at ht
  obtain ⟨⟨_, other⟩, hmem, rfl⟩ := List.mem_map.1 ht
  exact ⟨other, hmem⟩

/-- Lists that agree pair by pair under a function have the same image. -/
theorem map_eq_of_zipped {f : Term → Term} (h : zipped left right = .ok pairs)
    (hpairs : ∀ pair ∈ pairs, f pair.1 = f pair.2) : left.map f = right.map f := by
  obtain ⟨hlength, rfl⟩ := zipped_eq_ok_iff.1 h
  induction left generalizing right with
  | nil =>
    obtain rfl := List.length_eq_zero_iff.1 hlength.symm
    rfl
  | cons x xs ih =>
    cases right with
    | nil => simp at hlength
    | cons y ys =>
      simp only [List.zip_cons_cons, List.forall_mem_cons] at hpairs
      have htail := ih (by simpa using hlength) (by simp_all [zipped_eq_ok_iff]) hpairs.2
      rw [List.map_cons, List.map_cons, hpairs.1, htail]

end

/-! ## Maps -/

section

variable {left right pairs : List (Term × Term)}

theorem valuePairs_cons_eq_ok_iff {key value : Term} :
    valuePairs right ((key, value) :: left) = .ok pairs ↔
      ∃ other rest, Entries.lookup key right = some other ∧ valuePairs right left = .ok rest ∧
        pairs = (value, other) :: rest := by
  rw [valuePairs]
  cases Entries.lookup key right with
  | none => simp
  | some other => cases valuePairs right left <;> simp [Except.map, eq_comm]

/-- The clash of two maps of one size is a key of the left one that the right one lacks. -/
theorem missingKey_of_valuePairs {clash : Clash} (h : valuePairs right left = .error clash) :
    ∃ key ∈ Entries.keys left, key ∉ Entries.keys right ∧ clash = .missingKey key := by
  induction left with
  | nil => cases h
  | cons entry left ih =>
    obtain ⟨key, value⟩ := entry
    rw [valuePairs] at h
    cases hlookup : Entries.lookup key right with
    | none =>
      rw [hlookup] at h
      cases h
      refine ⟨key, List.mem_cons_self, fun hmem => ?_, rfl⟩
      obtain ⟨other, hother⟩ := Entries.mem_keys_iff.1 hmem
      simp [hlookup] at hother
    | some other =>
      cases hrest : valuePairs right left with
      | error clash' =>
        rw [hlookup, hrest] at h
        cases h
        obtain ⟨key', hleft, hright, rfl⟩ := ih hrest
        exact ⟨key', List.mem_cons_of_mem _ hleft, hright, rfl⟩
      | ok rest =>
        rw [hlookup, hrest] at h
        cases h

/-- Each value has a partner under its key. -/
theorem exists_of_valuePairs (h : valuePairs right left = .ok pairs) {key value : Term}
    (hmem : (key, value) ∈ left) :
    ∃ other, Entries.lookup key right = some other ∧ (value, other) ∈ pairs := by
  induction left generalizing pairs with
  | nil => simp at hmem
  | cons entry left ih =>
    obtain ⟨other, rest, hlookup, hrest, rfl⟩ := valuePairs_cons_eq_ok_iff.1 h
    obtain rfl | hmem := List.mem_cons.1 hmem
    · exact ⟨other, hlookup, List.mem_cons_self⟩
    · obtain ⟨other', hlookup', hpair⟩ := ih hrest hmem
      exact ⟨other', hlookup', List.mem_cons_of_mem _ hpair⟩

/-- Each pair is made of the values under one key. -/
theorem mem_of_valuePairs (h : valuePairs right left = .ok pairs) {pair : Term × Term}
    (hpair : pair ∈ pairs) : ∃ key, (key, pair.1) ∈ left ∧ (key, pair.2) ∈ right := by
  induction left generalizing pairs with
  | nil =>
    cases h
    simp at hpair
  | cons entry left ih =>
    obtain ⟨other, rest, hlookup, hrest, rfl⟩ := valuePairs_cons_eq_ok_iff.1 h
    obtain rfl | hpair := List.mem_cons.1 hpair
    · exact ⟨entry.1, List.mem_cons_self, Entries.mem_of_lookup hlookup⟩
    · obtain ⟨key, hleft, hright⟩ := ih hrest hpair
      exact ⟨key, List.mem_cons_of_mem _ hleft, hright⟩

/-- Maps of the same size have the same keys if each key of one is a key of the other. -/
theorem keys_eq_of_valuePairs (h : valuePairs right left = .ok pairs)
    (hlength : left.length = right.length) (hleft : Increasing (Entries.keys left))
    (hright : Increasing (Entries.keys right)) : Entries.keys left = Entries.keys right := by
  refine hleft.eq_of_subset hright (fun key hkey => ?_) (by simp [hlength])
  obtain ⟨⟨_, value⟩, hentry, rfl⟩ := List.mem_map.1 hkey
  obtain ⟨other, hlookup, -⟩ := exists_of_valuePairs h hentry
  exact List.mem_map.2 ⟨_, Entries.mem_of_lookup hlookup, rfl⟩

end

/-! ## Parts -/

/-- Pairs are made of parts of both terms. -/
theorem mem_parts_of_confront {u v : Term} {pairs : List (Term × Term)}
    (h : confront u v = .ok pairs) {pair : Term × Term} (hpair : pair ∈ pairs) :
    pair.1 ∈ u.parts ∧ pair.2 ∈ v.parts := by
  cases u <;> cases v <;> simp only [confront, reduceCtorEq] at h
  case atom.atom =>
    split at h <;> cases h
    simp at hpair
  case tuple.tuple | list.list => exact mem_of_zipped h hpair
  case set.set =>
    obtain ⟨hu, hv⟩ := mem_of_zipped h hpair
    exact ⟨(Elements.mem_difference.1 hu).1, (Elements.mem_difference.1 hv).1⟩
  case map.map =>
    split at h
    · obtain ⟨key, hleft, hright⟩ := mem_of_valuePairs h hpair
      have hu := Term.mem_flatten_iff.2 ⟨_, hleft, .inr rfl⟩
      have hv := Term.mem_flatten_iff.2 ⟨_, hright, .inr rfl⟩
      exact ⟨hu, hv⟩
    · cases h
  case slice.slice =>
    cases h
    simp only [List.mem_cons, List.not_mem_nil, or_false] at hpair
    obtain rfl | rfl | rfl := hpair <;> simp [Term.parts]

/-- A part that is in no pair is a part of the other term as well: a key, or an element of both
sets. -/
theorem mem_parts_or_mem_of_confront {u v : Term} {pairs : List (Term × Term)}
    (h : confront u v = .ok pairs) {p : Term} (hp : p ∈ u.parts) :
    p ∈ v.parts ∨ ∃ q, (p, q) ∈ pairs := by
  cases u <;> cases v <;> simp only [confront, reduceCtorEq] at h
  case atom.atom => simp [Term.parts] at hp
  case tuple.tuple | list.list => exact .inr (exists_mem_of_zipped h hp)
  case set.set left right =>
    by_cases hmem : p ∈ right
    · exact .inl hmem
    · exact .inr (exists_mem_of_zipped h (Elements.mem_difference.2 ⟨hp, hmem⟩))
  case map.map left right =>
    split at h
    next =>
      obtain ⟨⟨key, value⟩, hentry, hkey | hvalue⟩ := Term.mem_flatten_iff.1 hp
      · obtain ⟨other, hlookup, -⟩ := exists_of_valuePairs h hentry
        exact .inl (Term.mem_flatten_iff.2 ⟨_, Entries.mem_of_lookup hlookup, .inl hkey⟩)
      · obtain ⟨other, -, hpair⟩ := exists_of_valuePairs h hentry
        exact .inr ⟨other, hvalue ▸ hpair⟩
    next => cases h
  case slice.slice =>
    cases h
    simp only [Term.parts, List.mem_cons, List.not_mem_nil, or_false] at hp
    obtain rfl | rfl | rfl := hp
    · exact .inr ⟨_, .head _⟩
    · exact .inr ⟨_, .tail _ (.head _)⟩
    · exact .inr ⟨_, .tail _ (.tail _ (.head _))⟩

end Unification

end LogicTerms
