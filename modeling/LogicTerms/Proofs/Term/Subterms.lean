import LogicTerms.Proofs.Term.Increasing

/-!
# The terms inside a term

The subterms of a term are the term itself and those of its parts; the names of variables are not
entered. A term is canonical if all collections inside it are in order, those in names included.
-/

namespace LogicTerms

namespace Term

theorem weight_le_weightAll {t : Term} {ts : List Term} (h : t ∈ ts) : t.weight ≤ weightAll ts := by
  induction ts with
  | nil => simp at h
  | cons x xs ih =>
    rw [weightAll]
    obtain rfl | h := List.mem_cons.1 h
    · omega
    · have := ih h
      omega

theorem isCompound_of_mem_parts {p t : Term} (h : p ∈ t.parts) : t.isCompound = true := by
  cases t <;> simp_all [parts, isCompound]

theorem parts_eq_nil_of_isCompound_eq_false {t : Term} (h : t.isCompound = false) :
    t.parts = [] := by
  cases t <;> simp_all [parts, isCompound]

theorem weight_lt_of_mem_parts {p t : Term} (h : p ∈ t.parts) : p.weight < t.weight := by
  have hle := weight_le_weightAll h
  rw [weight_of_isCompound (isCompound_of_mem_parts h)]
  omega

/-- What holds of a term as soon as it holds of its parts holds of every term. -/
@[elab_as_elim] theorem parts_induction {motive : Term → Prop}
    (step : ∀ t, (∀ p ∈ t.parts, motive p) → motive t) (t : Term) : motive t := by
  induction h : t.weight using Nat.strongRecOn generalizing t with
  | ind n ih =>
    subst h
    exact step t fun p hp => ih p.weight (weight_lt_of_mem_parts hp) p rfl

def keys : Term → List Term
  | map entries => Entries.keys entries
  | _ => []

theorem mem_flatten_iff {t : Term} {entries : List (Term × Term)} :
    t ∈ flatten entries ↔ ∃ entry ∈ entries, t = entry.1 ∨ t = entry.2 := by
  induction entries with
  | nil => simp
  | cons entry entries ih =>
    obtain ⟨key, value⟩ := entry
    simp [ih, or_assoc]

theorem forall_mem_flatten_iff {P : Term → Prop} {entries : List (Term × Term)} :
    (∀ t ∈ flatten entries, P t) ↔ ∀ entry ∈ entries, P entry.1 ∧ P entry.2 := by
  induction entries with
  | nil => simp
  | cons entry entries ih =>
    obtain ⟨key, value⟩ := entry
    simp only [flatten_cons, List.forall_mem_cons, ih, and_assoc]

theorem mem_parts_of_mem_keys {key t : Term} (h : key ∈ t.keys) : key ∈ t.parts := by
  cases t with
  | map entries =>
    obtain ⟨entry, hentry, rfl⟩ := List.mem_map.1 h
    exact mem_flatten_iff.2 ⟨entry, hentry, .inl rfl⟩
  | _ => simp [keys] at h

end Term

/-! ## Subterms -/

mutual

def Term.subterms : Term → List Term
  | .atom value => [.atom value]
  | .var name => [.var name]
  | .tuple items => .tuple items :: Term.subtermsAll items
  | .list items => .list items :: Term.subtermsAll items
  | .set elements => .set elements :: Term.subtermsAll elements
  | .map entries => .map entries :: Term.subtermsEntries entries
  | .slice start stop step =>
    .slice start stop step :: (start.subterms ++ (stop.subterms ++ step.subterms))

def Term.subtermsAll : List Term → List Term
  | [] => []
  | t :: ts => t.subterms ++ Term.subtermsAll ts

def Term.subtermsEntries : List (Term × Term) → List Term
  | [] => []
  | (key, value) :: entries => key.subterms ++ (value.subterms ++ Term.subtermsEntries entries)

end

namespace Term

theorem mem_subtermsAll_iff {a : Term} {ts : List Term} :
    a ∈ subtermsAll ts ↔ ∃ t ∈ ts, a ∈ t.subterms := by
  induction ts with
  | nil => simp [subtermsAll]
  | cons t ts ih => simp [subtermsAll, ih]

theorem mem_subtermsEntries_iff {a : Term} {entries : List (Term × Term)} :
    a ∈ subtermsEntries entries ↔ ∃ t ∈ flatten entries, a ∈ t.subterms := by
  induction entries with
  | nil => simp [subtermsEntries]
  | cons entry entries ih =>
    obtain ⟨key, value⟩ := entry
    simp [subtermsEntries, ih]

/-- The subterms of a term are the term itself and those of its parts. -/
theorem mem_subterms_iff {a t : Term} :
    a ∈ t.subterms ↔ a = t ∨ ∃ p ∈ t.parts, a ∈ p.subterms := by
  cases t <;> simp [subterms, parts, mem_subtermsAll_iff, mem_subtermsEntries_iff]

@[simp] theorem self_mem_subterms (t : Term) : t ∈ t.subterms :=
  mem_subterms_iff.2 (.inl rfl)

theorem mem_subterms_of_mem_parts {a p t : Term} (hp : p ∈ t.parts) (h : a ∈ p.subterms) :
    a ∈ t.subterms :=
  mem_subterms_iff.2 (.inr ⟨p, hp, h⟩)

theorem subterms_trans {a b c : Term} (hab : a ∈ b.subterms) (hbc : b ∈ c.subterms) :
    a ∈ c.subterms := by
  induction c using parts_induction with
  | step c ih =>
    obtain rfl | ⟨p, hp, hbp⟩ := mem_subterms_iff.1 hbc
    · exact hab
    · exact mem_subterms_of_mem_parts hp (ih p hp hbp)

end Term

/-! ## Canonical terms -/

mutual

/-- Whether the elements of every set and the keys of every map inside a term are increasing. -/
def Term.isCanonical : Term → Bool
  | .atom _ => true
  | .var name => name.isCanonical
  | .tuple items => Term.areCanonical items
  | .list items => Term.areCanonical items
  | .set elements => decide (Increasing elements) && Term.areCanonical elements
  | .map entries => decide (Increasing (Entries.keys entries)) && Term.entriesCanonical entries
  | .slice start stop step => start.isCanonical && (stop.isCanonical && step.isCanonical)

def Var.isCanonical : Var → Bool
  | .fresh _ => true
  | .named name => name.isCanonical

def Term.areCanonical : List Term → Bool
  | [] => true
  | t :: ts => t.isCanonical && Term.areCanonical ts

def Term.entriesCanonical : List (Term × Term) → Bool
  | [] => true
  | (key, value) :: entries =>
    key.isCanonical && (value.isCanonical && Term.entriesCanonical entries)

end

namespace Term

/-- Canonical terms are those that stand for sets and maps: no other list than the increasing one is
ever built of their elements or keys. -/
abbrev Canonical (t : Term) : Prop := t.isCanonical = true

theorem areCanonical_iff {ts : List Term} :
    areCanonical ts = true ↔ ∀ t ∈ ts, t.Canonical := by
  induction ts with
  | nil => simp [areCanonical]
  | cons t ts ih => simp [areCanonical, ih]

theorem entriesCanonical_iff {entries : List (Term × Term)} :
    entriesCanonical entries = true ↔ ∀ t ∈ flatten entries, t.Canonical := by
  induction entries with
  | nil => simp [entriesCanonical]
  | cons entry entries ih =>
    obtain ⟨key, value⟩ := entry
    simp [entriesCanonical, ih]

theorem Canonical.of_mem_parts {p t : Term} (h : t.Canonical) (hp : p ∈ t.parts) :
    p.Canonical := by
  cases t <;> simp [Canonical, isCanonical, parts, areCanonical_iff, entriesCanonical_iff] at h hp
  case tuple | list => exact h p hp
  case set | map => exact h.2 p hp
  case slice =>
    obtain rfl | rfl | rfl := hp
    · exact h.1
    · exact h.2.1
    · exact h.2.2

theorem canonical_parts (t : Term) (h : t.Canonical) (p : Term) (hp : p ∈ t.parts) : p.Canonical :=
  h.of_mem_parts hp

theorem Canonical.increasing_elements {elements : List Term} (h : (set elements).Canonical) :
    Increasing elements := by
  rw [Canonical, isCanonical, Bool.and_eq_true, decide_eq_true_iff] at h
  exact h.1

theorem Canonical.increasing_keys {entries : List (Term × Term)} (h : (map entries).Canonical) :
    Increasing (Entries.keys entries) := by
  rw [Canonical, isCanonical, Bool.and_eq_true, decide_eq_true_iff] at h
  exact h.1

end Term

end LogicTerms
