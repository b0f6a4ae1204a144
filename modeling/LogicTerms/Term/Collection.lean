import LogicTerms.Term.Order

/-!
# Sets and maps

The elements of a set and the entries of a map are lists in increasing order, so that equal
collections are equal terms. Of two entries with one key the later one counts. A compound can be
taken apart into its form and its parts, and built anew of other parts.
-/

namespace LogicTerms

/-! ## Elements -/

namespace Elements

/-- Puts an element in its place; an element that is there already stays single. -/
def insert (t : Term) : List Term → List Term
  | [] => [t]
  | x :: xs =>
    match t.compare x with
    | .lt => t :: x :: xs
    | .eq => x :: xs
    | .gt => x :: insert t xs

def ofList (ts : List Term) : List Term :=
  ts.foldl (fun elements t => insert t elements) []

@[simp] theorem mem_insert {x t : Term} {xs : List Term} :
    x ∈ insert t xs ↔ x = t ∨ x ∈ xs := by
  induction xs with
  | nil => simp [insert]
  | cons y ys ih =>
    unfold insert
    split
    · simp
    next h => simp [Term.compare_eq_iff.1 h]
    · simp only [List.mem_cons, ih]
      grind

@[simp] theorem mem_ofList {x : Term} {ts : List Term} : x ∈ ofList ts ↔ x ∈ ts := by
  have (elements : List Term) :
      x ∈ ts.foldl (fun elements t => insert t elements) elements ↔ x ∈ elements ∨ x ∈ ts := by
    induction ts generalizing elements with
    | nil => simp
    | cons t ts ih => simp only [List.foldl_cons, ih, mem_insert, List.mem_cons]; grind
  simp [ofList, this]

def difference (xs ys : List Term) : List Term :=
  xs.filter fun x => !ys.contains x

@[simp] theorem mem_difference {x : Term} {xs ys : List Term} :
    x ∈ difference xs ys ↔ x ∈ xs ∧ x ∉ ys := by
  simp [difference]

end Elements

/-! ## Entries -/

namespace Entries

/-- Puts an entry in its place; an entry with the same key gives way to it. -/
def insert (key value : Term) : List (Term × Term) → List (Term × Term)
  | [] => [(key, value)]
  | (k, v) :: entries =>
    match key.compare k with
    | .lt => (key, value) :: (k, v) :: entries
    | .eq => (k, value) :: entries
    | .gt => (k, v) :: insert key value entries

def ofList (entries : List (Term × Term)) : List (Term × Term) :=
  entries.foldl (fun entries (key, value) => insert key value entries) []

def lookup (key : Term) : List (Term × Term) → Option Term
  | [] => none
  | (k, v) :: entries => if key = k then some v else lookup key entries

/-- An insertion changes what is found under its own key and nothing else. -/
theorem lookup_insert (key value k : Term) (entries : List (Term × Term)) :
    lookup k (insert key value entries) = if k = key then some value else lookup k entries := by
  induction entries with
  | nil => rfl
  | cons entry entries ih =>
    obtain ⟨k', v'⟩ := entry
    unfold insert
    split
    · rfl
    next h =>
      obtain rfl := Term.compare_eq_iff.1 h
      simp only [lookup]
      grind
    next h =>
      have : key ≠ k' := fun e => by simp [e] at h
      simp only [lookup, ih]
      grind

end Entries

namespace Term

def setOf (elements : List Term) : Term := set (Elements.ofList elements)

def mapOf (entries : List (Term × Term)) : Term := map (Entries.ofList entries)

end Term

/-! ## Taking compounds apart -/

inductive Form where
  | tuple
  | list
  | set
  | map
  | slice
deriving DecidableEq

namespace Term

def decompose : Term → Option (Form × List Term)
  | atom _ | var _ => Option.none
  | tuple items => some (.tuple, items)
  | list items => some (.list, items)
  | set elements => some (.set, elements)
  | map entries => some (.map, flatten entries)
  | slice start stop step => some (.slice, [start, stop, step])

/-- Keys and values that alternate, as entries. A last key without a value is left out. -/
def pairUp : List Term → List (Term × Term)
  | key :: value :: rest => (key, value) :: pairUp rest
  | _ => []

@[simp] theorem pairUp_flatten (entries : List (Term × Term)) :
    pairUp (flatten entries) = entries := by
  induction entries with
  | nil => rfl
  | cons entry entries ih =>
    obtain ⟨key, value⟩ := entry
    simp [pairUp, ih]

end Term

namespace Form

/-- The compound of a form with given parts. Elements and keys find their places again, and the
fields of a slice that are not given are `Term.none`. -/
def build : Form → List Term → Term
  | tuple, parts => .tuple parts
  | list, parts => .list parts
  | set, parts => .setOf parts
  | map, parts => .mapOf (Term.pairUp parts)
  | slice, parts =>
    .slice (parts[0]?.getD Term.none) (parts[1]?.getD Term.none) (parts[2]?.getD Term.none)

end Form

end LogicTerms
