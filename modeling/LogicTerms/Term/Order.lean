import LogicTerms.Term.Traversal

/-!
# The order of terms

Terms are ordered by kind, then by content: variables by number or name, sequences and sets
element by element with the shorter first, maps entry by entry, slices field by field. The order is
found from the visits of both terms, without recursion into parts, and agrees with the one by
recursion on the terms. Equality of terms is decided by it.
-/

namespace LogicTerms

/-! ## By recursion -/

mutual

def Term.order : Term → Term → Ordering
  | .atom a, .atom b => a.order b
  | .var v, .var w => v.order w
  | .tuple xs, .tuple ys => Term.orderAll xs ys
  | .list xs, .list ys => Term.orderAll xs ys
  | .set xs, .set ys => Term.orderAll xs ys
  | .map xs, .map ys => Term.orderEntries xs ys
  | .slice a b c, .slice a' b' c' => (a.order a').then ((b.order b').then (c.order c'))
  | s, t => compare s.shape.index t.shape.index

def Var.order : Var → Var → Ordering
  | .fresh m, .fresh n => compare m n
  | .fresh _, .named _ => .lt
  | .named _, .fresh _ => .gt
  | .named s, .named t => s.order t

def Term.orderAll : List Term → List Term → Ordering
  | [], [] => .eq
  | [], _ :: _ => .lt
  | _ :: _, [] => .gt
  | x :: xs, y :: ys => (x.order y).then (Term.orderAll xs ys)

def Term.orderEntries : List (Term × Term) → List (Term × Term) → Ordering
  | [], [] => .eq
  | [], _ :: _ => .lt
  | _ :: _, [] => .gt
  | (k, v) :: xs, (k', v') :: ys =>
    (k.order k').then ((v.order v').then (Term.orderEntries xs ys))

end

/-! ## By visits -/

namespace Visit

def rank : Visit → Nat
  | leave => 0
  | atom _ => 1
  | var _ => 2
  | enter _ => 3

/-- The order of two visits, unless both are of named variables. The end of a compound comes first,
so that a shorter sequence precedes all that extend it. -/
def order : Visit → Visit → Ordering
  | atom a, atom b => a.order b
  | var (.fresh m), var (.fresh n) => compare m n
  | var (.fresh _), var (.named _) => .lt
  | var (.named _), var (.fresh _) => .gt
  | enter s, enter t => compare s.index t.index
  | v, w => compare v.rank w.rank

end Visit

namespace Cursor

/-- The first difference between two visits decides; names are compared by visits of their own. -/
def compare (c d : Cursor) : Ordering :=
  match _h : c.next, d.next with
  | none, none => .eq
  | none, some _ => .lt
  | some _, none => .gt
  | some (.var (.named m), c'), some (.var (.named n), d') =>
    ((start m).compare (start n)).then (c'.compare d')
  | some (v, c'), some (w, d') => (v.order w).then (c'.compare d')
termination_by c.weight
decreasing_by
  · exact weight_name _h
  · exact weight_next _h
  · exact weight_next _h

end Cursor

/-- The order of two terms; atoms and variables need no visit of their own. -/
def Term.compare : Term → Term → Ordering
  | .atom a, .atom b => a.order b
  | .var (.fresh m), .var (.fresh n) => Ord.compare m n
  | .var (.named s), .var (.named t) => s.compare t
  | s, t => (Cursor.start s).compare (Cursor.start t)

/-- The comparison of a term with itself, when the two are known to be one. Only atoms and numbers
are looked at, and a name is compared with itself. -/
def Term.compareSelf : Term → Ordering
  | .atom a => a.order a
  | .var (.fresh m) => Ord.compare m m
  | .var (.named s) => s.compareSelf
  | _ => .eq

instance : Ord Term := ⟨Term.compare⟩

/-! ## Both agree -/

namespace Cursor

@[simp] theorem compare_end : compare ⟨[], []⟩ ⟨[], []⟩ = .eq := by
  simp [compare, next]

theorem compare_leave (as bs : List Term) (up vp : List (List Term)) :
    compare ⟨[], as :: up⟩ ⟨[], bs :: vp⟩ = compare ⟨as, up⟩ ⟨bs, vp⟩ := by
  rw [compare]; simp [next, Visit.order, Visit.rank]

/-- The side whose compound ends first is the lesser one. -/
theorem compare_leave_cons (as ys : List Term) (y : Term) (up vp : List (List Term)) :
    compare ⟨[], as :: up⟩ ⟨y :: ys, vp⟩ = .lt := by
  rw [compare]; cases y <;> simp [next, Visit.order, Visit.rank] <;> rfl

theorem compare_cons_leave (bs xs : List Term) (x : Term) (up vp : List (List Term)) :
    compare ⟨x :: xs, up⟩ ⟨[], bs :: vp⟩ = .gt := by
  rw [compare]; cases x <;> simp [next, Visit.order, Visit.rank] <;> rfl

/-- Terms of different shapes differ at the first visit. -/
theorem compare_of_shape_ne {s t : Term} (h : s.shape ≠ t.shape) (as bs : List Term)
    (up vp : List (List Term)) :
    compare ⟨s :: as, up⟩ ⟨t :: bs, vp⟩ = Ord.compare s.shape.index t.shape.index := by
  rw [compare]
  cases s <;> cases t
  all_goals first
    | exact absurd rfl h
    | (simp [next, Visit.order, Visit.rank, Term.shape, Shape.index]; rfl)

/-- Two compounds of one shape are compared by what is inside, with the rest after it. -/
theorem compare_enter {s t : Term} (hs : s.isCompound = true) (h : s.shape = t.shape)
    (as bs : List Term) (up vp : List (List Term)) :
    compare ⟨s :: as, up⟩ ⟨t :: bs, vp⟩ = compare ⟨s.parts, as :: up⟩ ⟨t.parts, bs :: vp⟩ := by
  rw [compare]
  cases s <;> cases t <;> simp_all [Term.shape, Term.isCompound, next, Visit.order]

end Cursor

theorem Term.order_of_shape_ne {s t : Term} (h : s.shape ≠ t.shape) :
    s.order t = Ord.compare s.shape.index t.shape.index := by
  cases s <;> cases t <;> first | exact absurd rfl h | simp [order]

theorem Shape.compare_index_ne {s t : Shape} (h : s ≠ t) : compare s.index t.index ≠ .eq :=
  fun e => h (index_inj.1 (Std.LawfulEqOrd.eq_of_compare e))

theorem then_eq_left_of_ne {o : Ordering} (h : o ≠ .eq) (p : Ordering) : o.then p = o := by
  cases o <;> first | rfl | exact absurd rfl h

mutual

/-- Two visits are compared by their next terms, and then by what comes after these. The induction
goes along both terms, together with the lemmas on lists, entries and variables below. -/
theorem Cursor.compare_cons (s t : Term) (as bs : List Term) (up vp : List (List Term)) :
    compare ⟨s :: as, up⟩ ⟨t :: bs, vp⟩ = (s.order t).then (compare ⟨as, up⟩ ⟨bs, vp⟩) := by
  by_cases h : s.shape = t.shape
  · match s, t, h with
    | .atom a, .atom b, _ => rw [compare]; simp [next, Visit.order, Term.order]
    | .var v, .var w, _ => rw [Cursor.compare_var v w, Term.order]
    | .tuple xs, .tuple ys, h | .list xs, .list ys, h | .set xs, .set ys, h =>
      rw [compare_enter rfl h]
      simp [Term.parts, Term.order, Cursor.compare_all xs ys]
    | .map xs, .map ys, h =>
      rw [compare_enter rfl h]
      simp [Term.parts, Term.order, Cursor.compare_entries xs ys]
    | .slice a b c, .slice a' b' c', h =>
      rw [compare_enter rfl h]
      simp [Term.parts, Term.order, Cursor.compare_cons a a', Cursor.compare_cons b b',
        Cursor.compare_cons c c', compare_leave, Ordering.then_assoc]
  · rw [compare_of_shape_ne h, Term.order_of_shape_ne h,
      then_eq_left_of_ne (Shape.compare_index_ne h)]

theorem Cursor.compare_all (xs ys as bs : List Term) (up vp : List (List Term)) :
    compare ⟨xs, as :: up⟩ ⟨ys, bs :: vp⟩ =
      (Term.orderAll xs ys).then (compare ⟨as, up⟩ ⟨bs, vp⟩) := by
  match xs, ys with
  | [], [] => simp [compare_leave, Term.orderAll]
  | [], _ :: _ => simp [compare_leave_cons, Term.orderAll]
  | _ :: _, [] => simp [compare_cons_leave, Term.orderAll]
  | x :: xs, y :: ys =>
    rw [Cursor.compare_cons x y, Cursor.compare_all xs ys, Term.orderAll, Ordering.then_assoc]

theorem Cursor.compare_entries (xs ys : List (Term × Term)) (as bs : List Term)
    (up vp : List (List Term)) :
    compare ⟨Term.flatten xs, as :: up⟩ ⟨Term.flatten ys, bs :: vp⟩ =
      (Term.orderEntries xs ys).then (compare ⟨as, up⟩ ⟨bs, vp⟩) := by
  match xs, ys with
  | [], [] => simp [compare_leave, Term.orderEntries]
  | [], (_, _) :: _ => simp [compare_leave_cons, Term.orderEntries]
  | (_, _) :: _, [] => simp [compare_cons_leave, Term.orderEntries]
  | (k, v) :: xs, (k', v') :: ys =>
    rw [Term.flatten_cons, Term.flatten_cons, Cursor.compare_cons k k', Cursor.compare_cons v v',
      Cursor.compare_entries xs ys, Term.orderEntries, Ordering.then_assoc, Ordering.then_assoc]

theorem Cursor.compare_var (v w : Var) (as bs : List Term) (up vp : List (List Term)) :
    compare ⟨.var v :: as, up⟩ ⟨.var w :: bs, vp⟩ =
      (v.order w).then (compare ⟨as, up⟩ ⟨bs, vp⟩) := by
  rw [compare]
  match v, w with
  | .fresh m, .fresh n => simp [next, Visit.order, Var.order]
  | .fresh _, .named _ | .named _, .fresh _ => simp [next, Visit.order, Var.order]
  | .named s, .named t =>
    have := Cursor.compare_cons s t [] [] [] []
    simp [next, Var.order, start, this]

end

namespace Term

/-- The comparison without recursion is the recursive order. -/
theorem compare_eq_order (s t : Term) : s.compare t = s.order t := by
  fun_induction Term.compare s t with
  | case1 a b => rw [Term.order]
  | case2 m n => rw [Term.order, Var.order]
  | case3 s t ih => rw [ih, Term.order, Var.order]
  | case4 s t => simp [Cursor.start, Cursor.compare_cons]

end Term

/-! ## Only equal terms compare as equal -/

mutual

theorem Term.order_eq_iff {s t : Term} : s.order t = .eq ↔ s = t := by
  by_cases h : s.shape = t.shape
  · match s, t, h with
    | .atom a, .atom b, _ => simp [Term.order]
    | .var v, .var w, _ => simp [Term.order, Var.order_eq_iff (v := v)]
    | .tuple xs, .tuple ys, _ | .list xs, .list ys, _ | .set xs, .set ys, _ =>
      simp [Term.order, Term.orderAll_eq_iff xs]
    | .map xs, .map ys, _ => simp [Term.order, Term.orderEntries_eq_iff xs]
    | .slice a b c, .slice a' b' c', _ =>
      simp [Term.order, Ordering.then_eq_eq, Term.order_eq_iff (s := a),
        Term.order_eq_iff (s := b), Term.order_eq_iff (s := c)]
  · rw [Term.order_of_shape_ne h]
    exact iff_of_false (Shape.compare_index_ne h) fun e => h (congrArg Term.shape e)

theorem Var.order_eq_iff {v w : Var} : v.order w = .eq ↔ v = w := by
  match v, w with
  | .fresh m, .fresh n => simp [Var.order]
  | .fresh _, .named _ | .named _, .fresh _ => simp [Var.order]
  | .named s, .named t => simp [Var.order, Term.order_eq_iff (s := s)]

theorem Term.orderAll_eq_iff (xs ys : List Term) : Term.orderAll xs ys = .eq ↔ xs = ys := by
  match xs, ys with
  | [], [] | [], _ :: _ | _ :: _, [] => simp [Term.orderAll]
  | x :: xs, y :: ys =>
    simp [Term.orderAll, Ordering.then_eq_eq, Term.order_eq_iff (s := x),
      Term.orderAll_eq_iff xs]

theorem Term.orderEntries_eq_iff (xs ys : List (Term × Term)) :
    Term.orderEntries xs ys = .eq ↔ xs = ys := by
  match xs, ys with
  | [], [] | [], (_, _) :: _ | (_, _) :: _, [] => simp [Term.orderEntries]
  | (k, v) :: xs, (k', v') :: ys =>
    simp [Term.orderEntries, Ordering.then_eq_eq, Term.order_eq_iff (s := k),
      Term.order_eq_iff (s := v), Term.orderEntries_eq_iff xs, and_assoc]

end

namespace Term

/-- Only equal terms compare as equal. -/
theorem compare_eq_iff {s t : Term} : s.compare t = .eq ↔ s = t := by
  rw [compare_eq_order, order_eq_iff]

@[simp] theorem compare_self (t : Term) : t.compare t = .eq := compare_eq_iff.2 rfl

instance : DecidableEq Term := fun s t => decidable_of_iff (s.compare t = .eq) compare_eq_iff

end Term

instance : DecidableEq Var := fun v w =>
  decidable_of_iff (Term.var v = Term.var w) (by simp)

end LogicTerms
