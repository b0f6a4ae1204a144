import LogicTerms.DispatchTable
import Mathlib.Data.Nat.Digits.Defs

/-!
# Lookup in tables of algorithms

A combination of shapes is read as a number with one digit for each argument, and the first argument
has the greatest weight. Combinations and places in the vector of winners belong together one to
one, so lookup finds the winner among all registrations. The algorithms have no influence on who
wins.
-/

namespace LogicTerms.DispatchTable

variable {α : Type} {n : Nat}

/-- The last digit of a number, and the digits before it. -/
theorem shapesOf_succ (n slot : Nat) : shapesOf (n + 1) slot =
    (shapesOf n (slot / Shape.count)).push (Shape.ofIndex (Fin.ofNat Shape.count slot)) := rfl

/-- A combination of shapes is known by its number. -/
theorem shapesOf_slot (shapes : Vector Shape n) : shapesOf n (slot shapes) = shapes := by
  induction n with
  | zero => exact Vector.eq_empty.symm
  | succ n ih =>
    obtain ⟨rest, shape, rfl⟩ := @Vector.exists_push _ _ shapes
    have hlt : shape.index.val < Shape.count := shape.index.isLt
    have hrest : (slot rest * Shape.count + shape.index) / Shape.count = slot rest := by
      rw [Nat.mul_comm, Nat.mul_add_div (by decide), Nat.div_eq_of_lt hlt, Nat.add_zero]
    have hlast : Fin.ofNat Shape.count (slot rest * Shape.count + shape.index) = shape.index := by
      apply Fin.ext
      rw [Fin.val_ofNat, Nat.mul_add_mod', Nat.mod_eq_of_lt hlt]
    rw [slot_push, shapesOf_succ, hrest, ih, hlast, Shape.ofIndex_index]

/-- Patterns and shapes of a vector, matched one by one in a list. -/
theorem acceptsAll_eq (patterns : Vector Pattern n) (shapes : Vector Shape n) :
    acceptsAll patterns shapes =
      (patterns.toList.zip shapes.toList).all fun (pattern, shape) => pattern.accepts shape := by
  rw [acceptsAll, ← Vector.all_toList, Vector.toList_zip]

/-- The number of the winner, for the patterns of all registrations in order. -/
def winner (registered : List (Vector Pattern n)) (shapes : Vector Shape n) : Option Nat :=
  let accepts (patterns : Vector Pattern n) : Bool :=
    (patterns.toList.zip shapes.toList).all fun (pattern, shape) => pattern.accepts shape
  let best := registered.zipIdx.foldl (fun best (patterns, number) =>
    if accepts patterns then prefer best (rank patterns) number else best) none
  best.map Prod.snd

/-- Algorithms have no influence on who wins. -/
theorem mostSpecific_eq_winner (entries : Array (Vector Pattern n × α)) (shapes : Vector Shape n) :
    mostSpecific entries shapes = winner (entries.toList.map Prod.fst) shapes := by
  simp only [mostSpecific, winner, acceptsAll_eq, List.zipIdx_map, List.foldl_map]
  rfl

/-- Where the vector of a table is made of its registrations, a lookup finds their winner. -/
theorem lookup_of_resolved {table : DispatchTable α n}
    (h : table.resolved = resolveAll table.entries) (shapes : Vector Shape n) :
    table.lookup shapes =
      ((mostSpecific table.entries shapes).bind fun number => table.entries[number]?).elim
        (.error ⟨shapes.toList⟩) fun entry => .ok entry.2 := by
  have hwinner : table.resolved.get ⟨slot shapes, slot_lt shapes⟩ =
      mostSpecific table.entries shapes := by
    rw [h]
    simp only [resolveAll, Vector.get, Vector.ofFn, Array.getElem_ofFn]
    exact congrArg (mostSpecific table.entries) (shapesOf_slot shapes)
  simp only [lookup, hwinner]
  cases (mostSpecific table.entries shapes).bind fun number => table.entries[number]? <;> rfl

/-- A lookup after one more registration finds the best of all registrations. -/
theorem lookup_register (table : DispatchTable α n) (patterns : Vector Pattern n) (algorithm : α)
    (shapes : Vector Shape n) :
    let entries := table.entries.push (patterns, algorithm)
    (table.register patterns algorithm).lookup shapes =
      match (mostSpecific entries shapes).bind fun number => entries[number]? with
      | some (_, winner) => .ok winner
      | none => .error ⟨shapes.toList⟩ := by
  intro entries
  have hresolved : (table.register patterns algorithm).resolved = resolveAll entries := rfl
  rw [lookup_of_resolved hresolved]
  change Option.elim ((mostSpecific entries shapes).bind fun number => entries[number]?) _ _ = _
  cases (mostSpecific entries shapes).bind fun number => entries[number]? <;> rfl

/-! ## Numbers of combinations -/

theorem slots_eq_pow (n : Nat) : slots n = 7 ^ n := rfl

/-- The numbers of the shapes, that of the last argument first. -/
def digits (shapes : Vector Shape n) : List Nat :=
  shapes.toList.reverse.map fun shape => (shape.index : Nat)

theorem digits_push (shapes : Vector Shape n) (shape : Shape) :
    digits (shapes.push shape) = (shape.index : Nat) :: digits shapes := by
  simp [digits, Vector.toList_push]

theorem slot_eq_ofDigits (shapes : Vector Shape n) :
    slot shapes = Nat.ofDigits 7 (digits shapes) := by
  induction n with
  | zero =>
    obtain rfl : shapes = #v[] := Vector.eq_empty
    rfl
  | succ n ih =>
    obtain ⟨rest, shape, rfl⟩ := @Vector.exists_push _ _ shapes
    rw [slot_push, ih rest, digits_push, Nat.ofDigits_cons, Nat.add_comm, Nat.mul_comm]

/-- Of a number that is too great, the digits that there is no argument for are lost. -/
theorem slot_shapesOf (n number : Nat) : slot (shapesOf n number) = number % slots n := by
  induction n generalizing number with
  | zero => exact (Nat.mod_one number).symm
  | succ n ih =>
    have hlast : ((Fin.ofNat Shape.count number : Fin Shape.count) : Nat) =
        number % Shape.count := Fin.val_ofNat ..
    calc slot (shapesOf (n + 1) number)
        = number / Shape.count % slots n * Shape.count + number % Shape.count := by
          rw [shapesOf_succ, slot_push, ih, Shape.index_ofIndex, hlast]
      _ = number % (Shape.count * slots n) := by
          rw [Nat.mod_mul, Nat.mul_comm, Nat.add_comm]
      _ = number % slots (n + 1) := by rw [slots_succ, Nat.mul_comm]

/-! ## Bounded arithmetic -/

/-- The number of a combination, or nothing if a number on the way reaches the bound. -/
def checkedSlot (bound : Nat) (shapes : Vector Shape n) : Option Nat :=
  shapes.foldlM (fun slot shape =>
    let next := slot * Shape.count + shape.index
    if next < bound then some next else none) 0

theorem checkedSlot_push (bound : Nat) (shapes : Vector Shape n) (shape : Shape) :
    checkedSlot bound (shapes.push shape) = (checkedSlot bound shapes).bind fun slot =>
      if slot * Shape.count + shape.index < bound then some (slot * Shape.count + shape.index)
      else none := by
  simp [checkedSlot]

/-- A bound that leaves room for every place in the vector is never reached. -/
theorem checkedSlot_eq_slot {bound : Nat} (h : slots n ≤ bound) (shapes : Vector Shape n) :
    checkedSlot bound shapes = some (slot shapes) := by
  induction n with
  | zero =>
    obtain rfl : shapes = #v[] := Vector.eq_empty
    rfl
  | succ n ih =>
    obtain ⟨rest, shape, rfl⟩ := @Vector.exists_push _ _ shapes
    have hrest : slots n ≤ bound :=
      (Nat.le_mul_of_pos_right (slots n) (by decide : 0 < Shape.count)).trans h
    have hlt : slot rest * Shape.count + shape.index < bound := by
      rw [← slot_push]
      exact (slot_lt _).trans_le h
    rw [checkedSlot_push, ih hrest rest, Option.bind_some, if_pos hlt, slot_push]

/-! ## Combinations and places -/

/-- The vector of winners has one place for each combination of shapes: the number of a combination
and the combination with a number are inverse to each other. A number has the numbers of the shapes
as its digits, that of the first argument in front. Where the length of the vector can be written,
nothing on the way to a number is too great. -/
theorem slot_bijective (α : Type) (n : Nat) :
    (∀ table : DispatchTable α n, table.resolved.toArray.size = 7 ^ n) ∧
    (∀ shapes : Vector Shape n, slot shapes < 7 ^ n) ∧
    (∀ shapes : Vector Shape n, shapesOf n (slot shapes) = shapes) ∧
    (∀ number < 7 ^ n, slot (shapesOf n number) = number) ∧
    (∀ shapes : Vector Shape n, slot shapes = Nat.ofDigits 7 (digits shapes)) ∧
    ∀ bound, 7 ^ n ≤ bound → ∀ shapes : Vector Shape n,
      checkedSlot bound shapes = some (slot shapes) := by
  refine ⟨fun table => ?_, slot_lt, shapesOf_slot, fun number hlt => ?_, slot_eq_ofDigits,
    fun bound hbound shapes => checkedSlot_eq_slot hbound shapes⟩
  · rw [Vector.size_toArray, slots_eq_pow]
  · rw [slot_shapesOf, slots_eq_pow, Nat.mod_eq_of_lt hlt]

/-- The last combination of two shapes has the last number, and the order of the shapes counts. -/
theorem slot_bijective_example :
    slot (shapesOf 2 48) = 48 ∧ shapesOf 2 48 = #v[.slice, .slice] ∧
      shapesOf 2 (slot #v[.var, .map]) = #v[.var, .map] ∧
      checkedSlot 49 #v[.var, .map] = some 12 ∧ checkedSlot 49 #v[.map, .var] = some 36 := by
  obtain ⟨-, -, hshapes, hnumber, -, hbound⟩ := slot_bijective Nat 2
  exact ⟨hnumber 48 (by decide), by decide, hshapes _, hbound 49 (by decide) _,
    hbound 49 (by decide) _⟩

end LogicTerms.DispatchTable
