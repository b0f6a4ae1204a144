import LogicTerms.Proofs.Term.TotalOrder

/-!
# The order of terms by their structure

Terms are compared by two visits side by side, and nothing in a visit tells where a part of a term
begins or ends but the brackets around it. The outcome is nevertheless the comparison part by part:
by kind, then by content, with the parts of a compound in lexicographic order.
-/

namespace LogicTerms.Term

/-- A comparison of terms part by part. The shapes count in the order of their numbers, and the
parts of sequences, sets and maps lexicographically, with a proper beginning first. -/
structure StructuralOrder (cmp : Term → Term → Ordering) : Prop where
  atom (a b : Atom) : cmp (.atom a) (.atom b) = a.order b
  fresh (m n : Nat) : cmp (.var (.fresh m)) (.var (.fresh n)) = Ord.compare m n
  fresh_named (m : Nat) (t : Term) : cmp (.var (.fresh m)) (.var (.named t)) = .lt
  named_fresh (s : Term) (n : Nat) : cmp (.var (.named s)) (.var (.fresh n)) = .gt
  named (s t : Term) : cmp (.var (.named s)) (.var (.named t)) = cmp s t
  tuple (xs ys : List Term) : cmp (.tuple xs) (.tuple ys) = List.compareLex cmp xs ys
  list (xs ys : List Term) : cmp (.list xs) (.list ys) = List.compareLex cmp xs ys
  set (xs ys : List Term) : cmp (.set xs) (.set ys) = List.compareLex cmp xs ys
  map (xs ys : List (Term × Term)) : cmp (.map xs) (.map ys) =
    List.compareLex (fun x y => (cmp x.1 y.1).then (cmp x.2 y.2)) xs ys
  slice (a b c a' b' c' : Term) : cmp (.slice a b c) (.slice a' b' c') =
    (cmp a a').then ((cmp b b').then (cmp c c'))
  shape (s t : Term) (h : s.shape ≠ t.shape) :
    cmp s t = Ord.compare s.shape.index t.shape.index

/-! ## The recursive order -/

theorem orderAll_eq_compareLex (xs ys : List Term) :
    orderAll xs ys = List.compareLex order xs ys := by
  induction xs generalizing ys with
  | nil => cases ys <;> rw [orderAll] <;> rfl
  | cons x xs ih =>
    cases ys with
    | nil =>
      rw [orderAll]
      rfl
    | cons y ys => rw [orderAll, List.compareLex_cons_cons, ih ys]

theorem orderEntries_eq_compareLex (xs ys : List (Term × Term)) :
    orderEntries xs ys =
      List.compareLex (fun x y => (x.1.order y.1).then (x.2.order y.2)) xs ys := by
  induction xs generalizing ys with
  | nil => cases ys <;> rw [orderEntries] <;> rfl
  | cons x xs ih =>
    cases ys with
    | nil =>
      rw [orderEntries]
      rfl
    | cons y ys =>
      rw [orderEntries, List.compareLex_cons_cons, ih ys, Ordering.then_assoc]

/-- The recursive order solves the equations. -/
theorem structuralOrder_order : StructuralOrder order where
  atom a b := by rw [order]
  fresh m n := by rw [order, Var.order]
  fresh_named m t := by rw [order, Var.order]
  named_fresh s n := by rw [order, Var.order]
  named s t := by rw [order, Var.order]
  tuple xs ys := by rw [order, orderAll_eq_compareLex]
  list xs ys := by rw [order, orderAll_eq_compareLex]
  set xs ys := by rw [order, orderAll_eq_compareLex]
  map xs ys := by rw [order, orderEntries_eq_compareLex]
  slice a b c a' b' c' := by rw [order]
  shape s t h := order_of_shape_ne h

/-! ## Nothing else solves the equations -/

namespace StructuralOrder

variable {f g : Term → Term → Ordering}

mutual

/-- The equations have no other solution, by induction along both terms. -/
theorem unique (hf : StructuralOrder f) (hg : StructuralOrder g) (s t : Term) : f s t = g s t := by
  by_cases h : s.shape = t.shape
  · match s, t, h with
    | .atom a, .atom b, _ => rw [hf.atom, hg.atom]
    | .var v, .var w, _ => exact unique_var hf hg v w
    | .tuple xs, .tuple ys, _ => rw [hf.tuple, hg.tuple, unique_all hf hg xs ys]
    | .list xs, .list ys, _ => rw [hf.list, hg.list, unique_all hf hg xs ys]
    | .set xs, .set ys, _ => rw [hf.set, hg.set, unique_all hf hg xs ys]
    | .map xs, .map ys, _ => rw [hf.map, hg.map, unique_entries hf hg xs ys]
    | .slice a b c, .slice a' b' c', _ =>
      rw [hf.slice, hg.slice, unique hf hg a a', unique hf hg b b', unique hf hg c c']
  · rw [hf.shape s t h, hg.shape s t h]

theorem unique_var (hf : StructuralOrder f) (hg : StructuralOrder g) (v w : Var) :
    f (.var v) (.var w) = g (.var v) (.var w) := by
  match v, w with
  | .fresh m, .fresh n => rw [hf.fresh, hg.fresh]
  | .fresh m, .named t => rw [hf.fresh_named, hg.fresh_named]
  | .named s, .fresh n => rw [hf.named_fresh, hg.named_fresh]
  | .named s, .named t => rw [hf.named, hg.named, unique hf hg s t]

theorem unique_all (hf : StructuralOrder f) (hg : StructuralOrder g) (xs ys : List Term) :
    List.compareLex f xs ys = List.compareLex g xs ys := by
  match xs, ys with
  | [], [] | [], _ :: _ | _ :: _, [] => rfl
  | x :: xs, y :: ys =>
    rw [List.compareLex_cons_cons, List.compareLex_cons_cons, unique hf hg x y,
      unique_all hf hg xs ys]

theorem unique_entries (hf : StructuralOrder f) (hg : StructuralOrder g)
    (xs ys : List (Term × Term)) :
    List.compareLex (fun x y => (f x.1 y.1).then (f x.2 y.2)) xs ys =
      List.compareLex (fun x y => (g x.1 y.1).then (g x.2 y.2)) xs ys := by
  match xs, ys with
  | [], [] | [], _ :: _ | _ :: _, [] => rfl
  | (k, v) :: xs, (k', v') :: ys =>
    rw [List.compareLex_cons_cons, List.compareLex_cons_cons, unique hf hg k k',
      unique hf hg v v', unique_entries hf hg xs ys]

end

end StructuralOrder

/-! ## The comparison of visits -/

/-- The comparison of two visits is the recursive order. -/
theorem compare_visits (s t : Term) :
    (Cursor.start s).compare (Cursor.start t) = s.order t := by
  have h := Cursor.compare_cons s t [] [] [] []
  rwa [Cursor.compare_end, Ordering.then_eq] at h

/-- The comparison of a term with itself needs no visit. -/
theorem compareSelf_eq_compare (t : Term) : t.compareSelf = t.compare t := by
  rw [compare_self]
  fun_induction compareSelf t with
  | case1 a => exact Atom.order_eq_iff.2 rfl
  | case2 m => exact Std.ReflOrd.compare_self
  | case3 s ih => exact ih
  | case4 => rfl

/-- The comparison of terms is the one comparison part by part, with or without visits for atoms,
for variables and for a term and itself. It is a total order, and only equal terms compare as
equal. -/
theorem compare_structural :
    StructuralOrder Term.compare ∧ (∀ cmp, StructuralOrder cmp → cmp = Term.compare) ∧
      (∀ s t : Term, (Cursor.start s).compare (Cursor.start t) = s.compare t) ∧
      (∀ t : Term, t.compareSelf = t.compare t) ∧
      (∀ s t : Term, s.compare t = (t.compare s).swap) ∧
      (∀ s t : Term, (s.compare t).isLE → (t.compare s).isLE → s = t) ∧
      (∀ s t u : Term, (s.compare t).isLE → (t.compare u).isLE → (s.compare u).isLE) ∧
      (∀ s t : Term, (s.compare t).isLE ∨ (t.compare s).isLE) ∧
      ∀ s t : Term, s.compare t = .eq ↔ s = t := by
  have hcompare : Term.compare = order := by
    funext s t
    exact compare_eq_order s t
  refine ⟨?_, ?_, ?_, compareSelf_eq_compare, ?_, ?_, ?_, ?_, ?_⟩
  · rw [hcompare]
    exact structuralOrder_order
  · intro cmp h
    funext s t
    rw [hcompare]
    exact h.unique structuralOrder_order s t
  · intro s t
    rw [compare_visits, hcompare]
  · intro s t
    exact Std.OrientedCmp.eq_swap
  · intro s t hst hts
    exact compare_eq_iff.1 (Std.OrientedCmp.isLE_antisymm hst hts)
  · intro s t u hst htu
    exact Std.TransCmp.isLE_trans hst htu
  · intro s t
    have hswap : s.compare t = (t.compare s).swap := Std.OrientedCmp.eq_swap
    rw [hswap]
    cases t.compare s <;> simp
  · intro s t
    exact compare_eq_iff

/-- The empty tuple is left before the number that follows it, so that it comes before the tuple of
the number. -/
theorem compare_structural_example :
    ((tuple [tuple [], atom (.int 1)]).compare (tuple [tuple [atom (.int 1)]])).isLE ∧
      ((tuple [tuple [atom (.int 1)]]).compare (list [var (.named (set []))])).isLE ∧
      ((tuple [tuple [], atom (.int 1)]).compare (list [var (.named (set []))])).isLE ∧
      order = Term.compare := by
  obtain ⟨-, hunique, -, -, -, -, htrans, -⟩ := compare_structural
  have hst : ((tuple [tuple [], atom (.int 1)]).compare (tuple [tuple [atom (.int 1)]])).isLE := by
    decide +kernel
  have htu : ((tuple [tuple [atom (.int 1)]]).compare (list [var (.named (set []))])).isLE := by
    decide +kernel
  exact ⟨hst, htu, htrans _ _ _ hst htu, hunique order structuralOrder_order⟩

end LogicTerms.Term
