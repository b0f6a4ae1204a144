import LogicTerms.Proofs.Term.Subterms
import LogicTerms.Registry

/-!
# What is registered

The bits of a registry leave out most terms before its list is searched. As long as terms are only
added they are the shapes of the registered terms, so that nothing is left out wrongly.
-/

namespace LogicTerms.Registry

variable {registry : Registry} {shape : Shape} {a t : Term}

/-! ## Bits of shapes -/

/-- A shape may occur just if its bit is set. -/
theorem mayHold_eq_getLsbD : registry.mayHold shape = registry.shapes.getLsbD shape.index := by
  have hbit : shapeBit shape ≠ 0 := by cases shape <;> decide
  rw [mayHold, shapeBit, BitVec.and_twoPow]
  cases h : registry.shapes.getLsbD shape.index with
  | true => simpa [shapeBit] using hbit
  | false => simp

theorem mayHold_insert :
    (registry.insert t).mayHold shape = true ↔
      t.shape = shape ∨ registry.mayHold shape = true := by
  have hlt : (shape.index : Nat) < Shape.count := shape.index.isLt
  rw [mayHold_eq_getLsbD, mayHold_eq_getLsbD, insert, BitVec.getLsbD_or, Bool.or_eq_true, shapeBit,
    BitVec.getLsbD_twoPow, Bool.and_eq_true, decide_eq_true_iff, decide_eq_true_iff, ← Fin.ext_iff,
    Shape.index_inj, or_comm, and_iff_right (by omega)]

/-! ## Registered terms -/

/-- The bits are set for the shapes of the registered terms and for no other ones. -/
def Exact (registry : Registry) : Prop :=
  ∀ shape, registry.mayHold shape = true ↔ ∃ t ∈ registry.terms, t.shape = shape

theorem exact_empty : Exact empty := by
  intro shape
  simp [mayHold, empty]

/-- A registered term brings the bit of its shape. -/
theorem Exact.insert (h : registry.Exact) (t : Term) : (registry.insert t).Exact := by
  intro shape
  rw [mayHold_insert, h shape]
  simp [Registry.insert]

theorem Exact.extend (h : registry.Exact) (terms : List Term) : (registry.extend terms).Exact := by
  induction terms generalizing registry with
  | nil => exact h
  | cons t terms ih => exact ih (h.insert t)

/-- Each bit tells of the shape with its number, and no bit is set that is not the number of a
shape. -/
theorem Exact.getLsbD_iff (h : registry.Exact) (i : Nat) :
    registry.shapes.getLsbD i = true ↔ ∃ t ∈ registry.terms, (t.shape.index : Nat) = i := by
  obtain hlt | hle := Nat.lt_or_ge i Shape.count
  · have hbit := h (Shape.ofIndex ⟨i, hlt⟩)
    rw [mayHold_eq_getLsbD] at hbit
    simp only [← Shape.index_inj, Shape.index_ofIndex, Fin.ext_iff] at hbit
    exact hbit
  · rw [BitVec.getLsbD_of_ge _ _ hle]
    refine iff_of_false (by simp) ?_
    rintro ⟨t, -, rfl⟩
    exact absurd t.shape.index.isLt (Nat.not_lt.2 hle)

/-- A registered term passes the test of the bits. -/
theorem Exact.contains_iff (h : registry.Exact) :
    registry.contains t = true ↔ t ∈ registry.terms := by
  rw [contains, Bool.and_eq_true, List.contains_iff_mem, h, and_iff_right_iff_imp]
  exact fun hmem => ⟨t, hmem, rfl⟩

theorem mem_terms_extend {terms : List Term} :
    a ∈ (registry.extend terms).terms ↔ a ∈ registry.terms ∨ a ∈ terms := by
  induction terms generalizing registry with
  | nil => simp [extend]
  | cons t terms ih =>
    change a ∈ ((registry.insert t).extend terms).terms ↔ _
    rw [ih, insert, Elements.mem_insert, List.mem_cons, or_assoc, or_left_comm]

/-! ## Variables -/

theorem isVariable_empty_iff : empty.isVariable t = true ↔ ∃ name, t = .var name := by
  cases t <;> simp [isVariable]

/-- With the right bits no registered term is left out before the list is searched. -/
theorem Exact.isVariable_iff (h : registry.Exact) :
    registry.isVariable t = true ↔ (∃ name, t = .var name) ∨ t ∈ registry.terms := by
  cases t <;> simp [isVariable, h.contains_iff]

/-- Where only the terms of a list were registered, these and the variables count as variables. -/
theorem isVariable_extend_iff {terms : List Term} :
    (empty.extend terms).isVariable t = true ↔ (∃ name, t = .var name) ∨ t ∈ terms := by
  rw [(exact_empty.extend terms).isVariable_iff, mem_terms_extend]
  simp [empty]

/-- No compound counts as a variable. -/
def Flat (registry : Registry) : Prop :=
  ∀ a, a.isCompound = true → registry.isVariable a = false

theorem flat_of_terms (h : ∀ a ∈ registry.terms, a.isCompound = false) : registry.Flat := by
  intro a ha
  cases hvar : registry.isVariable a with
  | false => rfl
  | true =>
    have hmem : a ∈ registry.terms := by
      cases a <;> simp_all [isVariable, contains, Term.isCompound]
    simp [h a hmem] at ha

theorem flat_empty : Flat empty := flat_of_terms (by simp [empty])

/-- Nothing is inside a variable but the variable itself. -/
theorem Flat.mem_subterms_iff (h : registry.Flat) (ht : registry.isVariable t = true) :
    a ∈ t.subterms ↔ a = t := by
  cases hcompound : t.isCompound with
  | true => simp [h t hcompound] at ht
  | false =>
    rw [Term.mem_subterms_iff, Term.parts_eq_nil_of_isCompound_eq_false hcompound]
    simp

end LogicTerms.Registry
