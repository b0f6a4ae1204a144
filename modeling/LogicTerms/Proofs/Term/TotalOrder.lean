import LogicTerms.Term.Order

/-!
# Terms are totally ordered

The comparison of terms is antisymmetric and transitive. Both are proved of `Term.order`, along the
terms, and hold of `Term.compare` because the two agree.
-/

namespace LogicTerms

/-! ## Antisymmetry -/

mutual

/-- The order is antisymmetric. -/
theorem Term.order_swap (s t : Term) : s.order t = (t.order s).swap := by
  by_cases h : s.shape = t.shape
  · match s, t, h with
    | .atom a, .atom b, _ =>
      simp only [Term.order]
      exact Std.OrientedCmp.eq_swap
    | .var v, .var w, _ => simp only [Term.order, ← Var.order_swap v w]
    | .tuple xs, .tuple ys, _ | .list xs, .list ys, _ | .set xs, .set ys, _ =>
      simp only [Term.order, ← Term.orderAll_swap xs ys]
    | .map xs, .map ys, _ => simp only [Term.order, ← Term.orderEntries_swap xs ys]
    | .slice a b c, .slice a' b' c', _ =>
      simp only [Term.order, Ordering.swap_then, ← Term.order_swap a a', ← Term.order_swap b b',
        ← Term.order_swap c c']
  · rw [Term.order_of_shape_ne h, Term.order_of_shape_ne (Ne.symm h)]
    exact Std.OrientedOrd.eq_swap

theorem Var.order_swap (v w : Var) : v.order w = (w.order v).swap := by
  match v, w with
  | .fresh m, .fresh n =>
    simp only [Var.order]
    exact Std.OrientedOrd.eq_swap
  | .fresh _, .named _ | .named _, .fresh _ => simp only [Var.order]; rfl
  | .named s, .named t => simp only [Var.order, ← Term.order_swap s t]

theorem Term.orderAll_swap (xs ys : List Term) :
    Term.orderAll xs ys = (Term.orderAll ys xs).swap := by
  match xs, ys with
  | [], [] | [], _ :: _ | _ :: _, [] => simp only [Term.orderAll]; rfl
  | x :: xs, y :: ys =>
    simp only [Term.orderAll, Ordering.swap_then, ← Term.order_swap x y, ← Term.orderAll_swap xs ys]

theorem Term.orderEntries_swap (xs ys : List (Term × Term)) :
    Term.orderEntries xs ys = (Term.orderEntries ys xs).swap := by
  match xs, ys with
  | [], [] | [], (_, _) :: _ | (_, _) :: _, [] => simp only [Term.orderEntries]; rfl
  | (k, v) :: xs, (k', v') :: ys =>
    simp only [Term.orderEntries, Ordering.swap_then, ← Term.order_swap k k',
      ← Term.order_swap v v', ← Term.orderEntries_swap xs ys]

end

/-! ## Transitivity -/

/-- A second comparison counts only between things that the first one does not tell apart. -/
theorem then_lt_trans {α : Type} {f : α → α → Ordering} {a b c : α} {o o' o'' : Ordering}
    (heq : ∀ {a b}, f a b = .eq ↔ a = b)
    (hf : f a b = .lt → f b c = .lt → f a c = .lt) (ho : o = .lt → o' = .lt → o'' = .lt)
    (hab : (f a b).then o = .lt) (hbc : (f b c).then o' = .lt) : (f a c).then o'' = .lt := by
  rw [Ordering.then_eq_lt, heq] at *
  rcases hab with hab | ⟨rfl, ho₁⟩
  · rcases hbc with hbc | ⟨rfl, -⟩
    · exact .inl (hf hab hbc)
    · exact .inl hab
  · exact hbc.imp_right fun ⟨hac, ho₂⟩ => ⟨hac, ho ho₁ ho₂⟩

/-- A lesser term has no greater shape. -/
theorem Term.index_le_of_order_lt {s t : Term} (h : s.order t = .lt) :
    s.shape.index ≤ t.shape.index := by
  by_cases hs : s.shape = t.shape
  · exact Nat.le_of_eq (by rw [hs])
  · rw [Term.order_of_shape_ne hs] at h
    exact Nat.le_of_lt (Nat.compare_eq_lt.1 h)

mutual

/-- The order is transitive. Terms of different shapes are compared by their shapes alone, and those
of one shape part by part. -/
theorem Term.order_lt_trans {s t u : Term} (hst : s.order t = .lt) (htu : t.order u = .lt) :
    s.order u = .lt := by
  by_cases h : s.shape = u.shape
  · -- The shape between them is the same one.
    have ht : s.shape = t.shape := by
      have := Term.index_le_of_order_lt hst
      have := Term.index_le_of_order_lt htu
      rw [← Shape.index_inj]
      rw [← h] at this
      omega
    match s, t, u, ht, h with
    | .atom a, .atom b, .atom c, _, _ =>
      simp only [Term.order] at *
      exact Std.TransCmp.lt_trans hst htu
    | .var v, .var w, .var x, _, _ =>
      simp only [Term.order] at *
      exact Var.order_lt_trans hst htu
    | .tuple xs, .tuple ys, .tuple zs, _, _ | .list xs, .list ys, .list zs, _, _
    | .set xs, .set ys, .set zs, _, _ =>
      simp only [Term.order] at *
      exact Term.orderAll_lt_trans hst htu
    | .map xs, .map ys, .map zs, _, _ =>
      simp only [Term.order] at *
      exact Term.orderEntries_lt_trans hst htu
    | .slice a b c, .slice a' b' c', .slice a'' b'' c'', _, _ =>
      simp only [Term.order] at *
      exact then_lt_trans Term.order_eq_iff Term.order_lt_trans
        (then_lt_trans Term.order_eq_iff Term.order_lt_trans Term.order_lt_trans) hst htu
  · rw [Term.order_of_shape_ne h]
    have := Term.index_le_of_order_lt hst
    have := Term.index_le_of_order_lt htu
    have := mt Shape.index_inj.1 h
    exact Nat.compare_eq_lt.2 (by omega)

theorem Var.order_lt_trans {v w x : Var} (hvw : v.order w = .lt) (hwx : w.order x = .lt) :
    v.order x = .lt := by
  match v, w, x with
  | .fresh m, .fresh n, .fresh o =>
    simp only [Var.order] at *
    exact Std.TransCmp.lt_trans hvw hwx
  | .named s, .named t, .named u =>
    simp only [Var.order] at *
    exact Term.order_lt_trans hvw hwx
  | .fresh _, _, .named _ => simp only [Var.order]
  | .fresh _, .named _, .fresh _ | .named _, .fresh _, _ => simp [Var.order] at hvw hwx
  | .named _, .named _, .fresh _ => simp [Var.order] at hwx

theorem Term.orderAll_lt_trans {xs ys zs : List Term} (hxy : Term.orderAll xs ys = .lt)
    (hyz : Term.orderAll ys zs = .lt) : Term.orderAll xs zs = .lt := by
  match xs, ys, zs with
  | x :: xs, y :: ys, z :: zs =>
    simp only [Term.orderAll] at *
    exact then_lt_trans Term.order_eq_iff Term.order_lt_trans Term.orderAll_lt_trans hxy hyz
  | [], _, _ :: _ => simp only [Term.orderAll]
  | _, [], [] | _, _ :: _, [] => simp [Term.orderAll] at hyz
  | _ :: _, [], _ => simp [Term.orderAll] at hxy

theorem Term.orderEntries_lt_trans {xs ys zs : List (Term × Term)}
    (hxy : Term.orderEntries xs ys = .lt) (hyz : Term.orderEntries ys zs = .lt) :
    Term.orderEntries xs zs = .lt := by
  match xs, ys, zs with
  | (k, v) :: xs, (k', v') :: ys, (k'', v'') :: zs =>
    simp only [Term.orderEntries] at *
    exact then_lt_trans Term.order_eq_iff Term.order_lt_trans
      (then_lt_trans Term.order_eq_iff Term.order_lt_trans Term.orderEntries_lt_trans) hxy hyz
  | [], _, (_, _) :: _ => simp only [Term.orderEntries]
  | _, [], [] | _, (_, _) :: _, [] => simp [Term.orderEntries] at hyz
  | (_, _) :: _, [], _ => simp [Term.orderEntries] at hxy

end

namespace Term

instance : Std.LawfulEqCmp Term.compare where
  compare_self := compare_self _
  eq_of_compare := compare_eq_iff.1

instance : Std.TransCmp Term.compare where
  eq_swap {s t} := by
    rw [compare_eq_order, compare_eq_order]
    exact order_swap s t
  isLE_trans {s t u} hst htu := by
    rw [compare_eq_order] at *
    rw [Ordering.isLE_iff_eq_lt_or_eq_eq, order_eq_iff] at *
    rcases hst with hst | rfl
    · rcases htu with htu | rfl
      · exact .inl (order_lt_trans hst htu)
      · exact .inl hst
    · exact htu

end Term

end LogicTerms
