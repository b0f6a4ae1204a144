import LogicTerms.Proofs.Term.Subterms
import LogicTerms.Term.Hashing

/-!
# The visits of a term tell which term it is

A visit of a term leaves only brackets where compounds begin and end. They are enough: no visit of a
term is the beginning of the visit of another one, and so it is with all that a hasher is fed.
-/

namespace LogicTerms

/-! ## Iterators -/

section

variable {σ τ β : Type} {next : σ → Option (β × σ)} {place : σ} {items items' : List β}

/-- The items that an iterator gives one after the other, and its place after them. -/
inductive Yields (next : σ → Option (β × σ)) : σ → List β → σ → Prop
  | stop {place : σ} : Yields next place [] place
  | step {place further last : σ} {item : β} {items : List β}
      (h : next place = some (item, further)) (hrest : Yields next further items last) :
      Yields next place (item :: items) last

def Exhausts (next : σ → Option (β × σ)) (place : σ) (items : List β) : Prop :=
  ∃ last, Yields next place items last ∧ next last = none

theorem Exhausts.unique (h : Exhausts next place items) (h' : Exhausts next place items') :
    items = items' := by
  obtain ⟨last, hyields, hend⟩ := h
  obtain ⟨last', hyields', hend'⟩ := h'
  induction hyields generalizing items' with
  | stop =>
    cases hyields' with
    | stop => rfl
    | step hnext => cases hend.symm.trans hnext
  | step hnext _ ih =>
    cases hyields' with
    | stop => cases hend'.symm.trans hnext
    | step hnext' hrest' =>
      cases hnext.symm.trans hnext'
      rw [ih hend hrest']

/-- An iterator that goes along with another one gives the same items. -/
theorem Exhausts.map {next' : τ → Option (β × τ)} {f : σ → τ}
    (hf : ∀ place, next' (f place) = (next place).map (Prod.map id f))
    (h : Exhausts next place items) : Exhausts next' (f place) items := by
  obtain ⟨last, hyields, hend⟩ := h
  refine ⟨f last, ?_, by rw [hf, hend]; rfl⟩
  induction hyields with
  | stop => exact .stop
  | step hnext _ ih => exact .step (by rw [hf, hnext]; rfl) (ih hend)

end

/-- A cursor gives its visits one after the other and then ends. -/
theorem Cursor.exhausts_visits (c : Cursor) : Exhausts next c c.visits := by
  fun_induction visits c with
  | case1 c h => exact ⟨c, .stop, h⟩
  | case2 c v d h ih =>
    obtain ⟨last, hyields, hend⟩ := ih
    exact ⟨last, .step h hyields, hend⟩

/-! ## Visits with a single stack -/

/-- What waits on the stack: a term to visit, or the end of a compound. -/
inductive Pending where
  | enter (t : Term)
  | leave

namespace Pending

def push (ts : List Term) (stack : List Pending) : List Pending :=
  ts.foldl (fun stack t => .enter t :: stack) stack

def pushParts : Term → List Pending → List Pending
  | .atom _, stack | .var _, stack => stack
  | .tuple items, stack | .list items, stack | .set items, stack => push items.reverse stack
  | .map entries, stack =>
    entries.reverse.foldl (fun stack (key, value) => push [value, key] stack) stack
  | .slice start stop step, stack => push [step, stop, start] stack

/-- Takes the topmost item from the stack. A compound leaves its end there, and its parts above. -/
def next : List Pending → Option (Visit × List Pending)
  | [] => none
  | .leave :: stack => some (.leave, stack)
  | .enter (.atom value) :: stack => some (.atom value, stack)
  | .enter (.var name) :: stack => some (.var name, stack)
  | .enter t :: stack => some (.enter t.shape, pushParts t (.leave :: stack))

theorem push_reverse (ts : List Term) (stack : List Pending) :
    push ts.reverse stack = ts.map enter ++ stack := by
  induction ts with
  | nil => rfl
  | cons t ts ih => simp_all [push]

theorem pushParts_eq (t : Term) (stack : List Pending) :
    pushParts t stack = t.parts.map enter ++ stack := by
  cases t with
  | atom value => rfl
  | var name => rfl
  | tuple items | list items | set items => exact push_reverse items stack
  | map entries =>
    rw [pushParts, Term.parts]
    induction entries with
    | nil => rfl
    | cons entry entries ih =>
      obtain ⟨key, value⟩ := entry
      simp_all [push]
  | slice start stop step => rfl

end Pending

/-- The stack at a place: what is ahead, and under it the end of each compound around with what is
ahead there. -/
def Cursor.pending (c : Cursor) : List Pending :=
  c.ahead.map .enter ++ c.above.flatMap fun level => .leave :: level.map .enter

/-- The stack goes along with the cursor. -/
theorem Pending.next_pending (c : Cursor) :
    next c.pending = c.next.map (Prod.map id Cursor.pending) := by
  match c with
  | ⟨[], []⟩ => rfl
  | ⟨[], level :: above⟩ => rfl
  | ⟨t :: ahead, above⟩ =>
    cases t with
    | atom value => rfl
    | var name => rfl
    | _ => simp [Cursor.pending, next, Cursor.next, pushParts_eq]

/-! ## Words tell where they end -/

/-- The words of an atom tell which atom it is and where they end. -/
theorem Atom.words_append_inj {a b : Atom} {u v : List Word}
    (h : a.words ++ u = b.words ++ v) : a = b ∧ u = v := by
  cases a <;> cases b <;> simp_all [words]

namespace Term

/-- No term begins like the end of a compound. -/
theorem words_ne_leave (t : Term) (u v : List Word) : t.words ++ u ≠ .tag 0 :: v := by
  cases t <;> simp [words]

theorem wordsAll_append_inj {xs ys : List Term}
    (hxs : ∀ x ∈ xs, ∀ y u v, x.words ++ u = words y ++ v → x = y ∧ u = v) {u v : List Word}
    (h : wordsAll xs ++ .tag 0 :: u = wordsAll ys ++ .tag 0 :: v) : xs = ys ∧ u = v := by
  induction xs generalizing ys with
  | nil =>
    cases ys with
    | nil => simpa [wordsAll] using h
    | cons y ys =>
      rw [wordsAll, wordsAll, List.append_assoc] at h
      exact absurd h.symm (y.words_ne_leave _ _)
  | cons x xs ih =>
    cases ys with
    | nil =>
      rw [wordsAll, wordsAll, List.append_assoc] at h
      exact absurd h (x.words_ne_leave _ _)
    | cons y ys =>
      rw [wordsAll, wordsAll, List.append_assoc, List.append_assoc] at h
      obtain ⟨rfl, hrest⟩ := hxs x List.mem_cons_self y _ _ h
      obtain ⟨rfl, rfl⟩ := ih (fun z hz => hxs z (List.mem_cons_of_mem x hz)) hrest
      exact ⟨rfl, rfl⟩

/-- If words begin with those of one term and with those of another one, the two terms are equal,
and so is what follows. -/
theorem words_append_inj {s t : Term} {u v : List Word} (h : s.words ++ u = t.words ++ v) :
    s = t ∧ u = v := by
  -- The induction is on the weight, since the name of a variable is no part of it.
  induction hweight : s.weight using Nat.strongRecOn generalizing s t u v with
  | ind n ih =>
    subst hweight
    cases hs : s.isCompound with
    | true =>
      cases ht : t.isCompound with
      | true =>
        rw [words_of_isCompound hs, words_of_isCompound ht] at h
        simp only [List.cons_append, List.append_assoc, List.nil_append, List.cons.injEq,
          Word.tag.injEq, true_and] at h
        obtain ⟨hshape, hwords⟩ := h
        obtain ⟨hparts, rfl⟩ := wordsAll_append_inj
          (fun p hp t u v h => ih p.weight (weight_lt_of_mem_parts hp) h rfl) hwords
        exact ⟨eq_of_parts_eq hs (Shape.index_inj.1 (Fin.ext hshape)) hparts, rfl⟩
      | false =>
        rw [words_of_isCompound hs] at h
        cases t <;> simp [isCompound, words] at ht h
    | false =>
      cases s with
      | atom a =>
        cases t with
        | atom b =>
          obtain ⟨rfl, rfl⟩ := Atom.words_append_inj (List.cons.inj h).2
          exact ⟨rfl, rfl⟩
        | _ => simp [words] at h
      | var x =>
        cases t with
        | var y =>
          cases x with
          | fresh m => cases y <;> simp_all [words, Var.words]
          | named a =>
            cases y with
            | fresh n => simp [words, Var.words] at h
            | named b =>
              simp only [words, Var.words, List.cons_append, List.cons.injEq, true_and] at h
              obtain ⟨rfl, rfl⟩ := ih a.weight (by simp [weight, Var.weight]) h rfl
              exact ⟨rfl, rfl⟩
        | _ => simp [words] at h
      | _ => cases hs

/-! ## Visits -/

end Term

def Visit.code : Visit → List Word
  | .var name => .tag 2 :: name.words
  | v => v.words

namespace Term

theorem wordsAll_eq_flatMap {ts : List Term} (h : ∀ t ∈ ts, t.words = t.visits.flatMap Visit.code) :
    wordsAll ts = (visitsAll ts).flatMap Visit.code := by
  induction ts with
  | nil => rfl
  | cons t ts ih =>
    obtain ⟨ht, hts⟩ := List.forall_mem_cons.1 h
    rw [wordsAll, visitsAll, List.flatMap_append, ht, ih hts]

/-- The words of a term are what its visits feed one by one. -/
theorem words_eq_flatMap (t : Term) : t.words = t.visits.flatMap Visit.code := by
  induction t using parts_induction with
  | step t ih =>
    cases ht : t.isCompound with
    | true =>
      rw [words_of_isCompound ht, visits_of_isCompound ht, wordsAll_eq_flatMap ih]
      simp [Visit.code, Visit.words]
    | false =>
      cases t with
      | atom value => simp [words, visits, Visit.code, Visit.words]
      | var name => simp [words, visits, Visit.code]
      | _ => cases ht

end Term

namespace Cursor

theorem visits_of_next {c d : Cursor} {v : Visit} (h : c.next = some (v, d)) :
    c.visits = v :: d.visits := by
  rw [visits]
  split <;> simp_all

theorem words_eq_flatMap (c : Cursor) : c.words = c.visits.flatMap Visit.code := by
  fun_induction words c with
  | case1 c h =>
    rw [visits]
    split <;> simp_all
  | case2 c name d h ihname ih =>
    rw [visits_of_next h, List.flatMap_cons, ihname, ih, visits_start, ← Term.words_eq_flatMap,
      ← List.append_assoc]
    rfl
  | case3 c v d hname h ih =>
    have hcode : v.code = v.words := by
      cases v with
      | var name =>
        cases name with
        | fresh number => rfl
        | named name => exact absurd rfl (hname name)
      | _ => rfl
    rw [visits_of_next h, List.flatMap_cons, ih, hcode]

/-- Visits feed a hasher the words of the term. -/
@[simp] theorem words_start (t : Term) : (start t).words = t.words := by
  rw [words_eq_flatMap, visits_start, Term.words_eq_flatMap]

end Cursor

namespace Term

/-- No visit of a term is the beginning of the visit of another one. -/
theorem visits_prefix_iff {s t : Term} : s.visits <+: t.visits ↔ s = t := by
  constructor
  · rintro ⟨rest, h⟩
    have hwords : s.words ++ rest.flatMap Visit.code = t.words ++ [] := by
      rw [words_eq_flatMap, words_eq_flatMap, ← h, List.flatMap_append, List.append_nil]
    exact (words_append_inj hwords).1
  · rintro rfl
    exact List.prefix_rfl

theorem words_inj {s t : Term} : s.words = t.words ↔ s = t := by
  constructor
  · intro h
    exact (words_append_inj (congrArg (· ++ []) h)).1
  · rintro rfl
    rfl

/-- A visit ends and gives the brackets and leaves of the term in their order, whether the parts of
a compound are put on a single stack in reverse or are kept as they are. No visit of a term is the
beginning of the visit of another one, so that two terms feed a hasher the same just if they are
equal. -/
theorem visits_faithful (s t : Term) :
    (∀ items, Exhausts Pending.next [.enter s] items ↔ items = s.visits) ∧
      (∀ items, Exhausts Cursor.next (.start s) items ↔ items = s.visits) ∧
      (s.visits <+: t.visits ↔ s = t) ∧
      ((Cursor.start s).words = (Cursor.start t).words ↔ s = t) := by
  have hcursor : Exhausts Cursor.next (.start s) s.visits := by
    have h := (Cursor.start s).exhausts_visits
    rwa [Cursor.visits_start] at h
  -- The stack at the start holds the term and nothing else.
  have hstack : Exhausts Pending.next (Cursor.start s).pending s.visits :=
    hcursor.map Pending.next_pending
  refine ⟨fun items => ?_, fun items => ?_, visits_prefix_iff, ?_⟩
  · constructor
    · intro h
      exact h.unique hstack
    · rintro rfl
      exact hstack
  · constructor
    · intro h
      exact h.unique hcursor
    · rintro rfl
      exact hcursor
  · rw [Cursor.words_start, Cursor.words_start, words_inj]

/-- Only the brackets tell these two tuples apart. -/
example :
    (tuple [tuple [], atom (.int 1)]).visits =
        [.enter .tuple, .enter .tuple, .leave, .atom (.int 1), .leave] ∧
      (tuple [tuple [atom (.int 1)]]).visits =
        [.enter .tuple, .enter .tuple, .atom (.int 1), .leave, .leave] :=
  ⟨rfl, rfl⟩

end Term

end LogicTerms
