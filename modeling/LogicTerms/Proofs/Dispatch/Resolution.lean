import LogicTerms.Proofs.Dispatch
import Mathlib.Algebra.BigOperators.Fin

/-!
# Which algorithm answers

A table keeps the winner for every combination of shapes in a dense vector, and makes this vector
anew with each registration. What a lookup finds there is told by the registrations alone.
-/

namespace LogicTerms.DispatchTable

variable {α : Type} {n : Nat} {registered : List (Vector Pattern n × α)} {shapes : Vector Shape n}
  {patterns : Vector Pattern n} {number : Nat} {winner entry : Vector Pattern n × α}

def Accepts (patterns : Vector Pattern n) (shapes : Vector Shape n) : Prop :=
  ∀ i : Fin n, patterns[i].accepts shapes[i] = true

instance (patterns : Vector Pattern n) (shapes : Vector Shape n) :
    Decidable (Accepts patterns shapes) :=
  inferInstanceAs (Decidable (∀ i : Fin n, patterns[i].accepts shapes[i] = true))

def totalRank (patterns : Vector Pattern n) : Nat := ∑ i : Fin n, patterns[i].rank

/-- The registration with a number wins for given shapes: it accepts them, no other one that does
has a lesser sum of ranks, and none that came before it has the same sum. -/
structure Wins (registered : List (Vector Pattern n × α)) (shapes : Vector Shape n) (number : Nat)
    (winner : Vector Pattern n × α) : Prop where
  found : registered[number]? = some winner
  accepts : Accepts winner.1 shapes
  least : ∀ entry ∈ registered, Accepts entry.1 shapes → totalRank winner.1 ≤ totalRank entry.1
  first : ∀ i < number, ∀ entry, registered[i]? = some entry → Accepts entry.1 shapes →
    totalRank entry.1 ≠ totalRank winner.1

/-! ## Patterns and ranks -/

theorem acceptsAll_iff : acceptsAll patterns shapes = true ↔ Accepts patterns shapes := by
  simp [acceptsAll, Accepts, Fin.forall_iff]

theorem rank_eq_totalRank (patterns : Vector Pattern n) : rank patterns = totalRank patterns := by
  induction n with
  | zero =>
    obtain rfl : patterns = #v[] := Vector.eq_empty
    rfl
  | succ n ih =>
    obtain ⟨rest, pattern, rfl⟩ := @Vector.exists_push _ _ patterns
    have hpush : rank (rest.push pattern) = rank rest + pattern.rank := by simp [rank]
    rw [hpush, ih rest, totalRank, totalRank, Fin.sum_univ_castSucc]
    simp

/-! ## The comparison of all registrations -/

/-- The least sum of ranks of all registrations that accept the shapes, and the number of the first
one with this sum. -/
def best (registered : List (Vector Pattern n × α)) (shapes : Vector Shape n) :
    Option (Nat × Nat) :=
  registered.zipIdx.foldl (fun best entry =>
    if acceptsAll entry.1.1 shapes then prefer best (rank entry.1.1) entry.2 else best) none

theorem mostSpecific_eq_best (entries : Array (Vector Pattern n × α)) (shapes : Vector Shape n) :
    mostSpecific entries shapes = (best entries.toList shapes).map Prod.snd := rfl

/-- One more registration is compared with the best one so far, as the last of all. -/
theorem best_concat (registered : List (Vector Pattern n × α)) (entry : Vector Pattern n × α)
    (shapes : Vector Shape n) :
    best (registered ++ [entry]) shapes =
      if acceptsAll entry.1 shapes then
        prefer (best registered shapes) (rank entry.1) registered.length
      else best registered shapes := by
  simp [best, List.zipIdx_append, List.foldl_append]

theorem Wins.mem (h : Wins registered shapes number winner) : winner ∈ registered :=
  List.mem_of_getElem? h.found

theorem Wins.lt_length (h : Wins registered shapes number winner) : number < registered.length :=
  (List.getElem?_eq_some_iff.1 h.found).1

/-- A winner stays one after a registration that is no more specific, -/
theorem Wins.concat (h : Wins registered shapes number winner)
    (hle : Accepts entry.1 shapes → totalRank winner.1 ≤ totalRank entry.1) :
    Wins (registered ++ [entry]) shapes number winner where
  found := by rw [List.getElem?_append_left h.lt_length, h.found]
  accepts := h.accepts
  least := by
    rw [List.forall_mem_append, List.forall_mem_singleton]
    exact ⟨h.least, hle⟩
  first := by
    intro i hi other hother
    rw [List.getElem?_append_left (hi.trans h.lt_length)] at hother
    exact h.first i hi other hother

/-- and a registration wins if it is more specific than all before it. -/
theorem wins_concat_length (haccepts : Accepts entry.1 shapes)
    (hless : ∀ other ∈ registered, Accepts other.1 shapes →
      totalRank entry.1 < totalRank other.1) :
    Wins (registered ++ [entry]) shapes registered.length entry where
  found := by simp
  accepts := haccepts
  least := by
    rw [List.forall_mem_append, List.forall_mem_singleton]
    exact ⟨fun other hother h => Nat.le_of_lt (hless other hother h), fun _ => Nat.le_refl _⟩
  first := by
    intro i hi other hother haccepts'
    rw [List.getElem?_append_left hi] at hother
    have hlt := hless other (List.mem_of_getElem? hother) haccepts'
    omega

/-- The comparison comes to the winner with its sum of ranks, or no registration accepts the
shapes. One more registration is compared with the best one of those before it. -/
theorem best_registered (registered : List (Vector Pattern n × α)) (shapes : Vector Shape n) :
    (best registered shapes = none ∧ ∀ entry ∈ registered, ¬ Accepts entry.1 shapes) ∨
      ∃ number winner, best registered shapes = some (totalRank winner.1, number) ∧
        Wins registered shapes number winner := by
  induction registered using List.reverseRecOn with
  | nil => exact .inl ⟨rfl, by simp⟩
  | append_singleton registered entry ih =>
    rw [best_concat]
    by_cases haccepts : Accepts entry.1 shapes
    · rw [if_pos (acceptsAll_iff.2 haccepts), rank_eq_totalRank]
      obtain ⟨hbest, hnone⟩ | ⟨number, winner, hbest, hwins⟩ := ih
      · refine .inr ⟨registered.length, entry, by rw [hbest]; rfl, ?_⟩
        exact wins_concat_length haccepts fun other hother h => absurd h (hnone other hother)
      · rw [hbest, prefer]
        split
        next hless =>
          refine .inr ⟨registered.length, entry, rfl, wins_concat_length haccepts ?_⟩
          intro other hother h
          have hle := hwins.least other hother h
          omega
        next hle => exact .inr ⟨number, winner, rfl, hwins.concat fun _ => by omega⟩
    · rw [if_neg (mt acceptsAll_iff.1 haccepts)]
      obtain ⟨hbest, hnone⟩ | ⟨number, winner, hbest, hwins⟩ := ih
      · refine .inl ⟨hbest, ?_⟩
        rw [List.forall_mem_append, List.forall_mem_singleton]
        exact ⟨hnone, haccepts⟩
      · exact .inr ⟨number, winner, hbest, hwins.concat fun h => absurd h haccepts⟩

/-- No two registrations win for the same shapes. -/
theorem Wins.unique {i j : Nat} {v w : Vector Pattern n × α} (h : Wins registered shapes i v)
    (h' : Wins registered shapes j w) : i = j ∧ v = w := by
  have hle := h.least w h'.mem h'.accepts
  have hle' := h'.least v h.mem h.accepts
  have hij : ¬ i < j := fun hlt => h'.first i hlt v h.found h.accepts (by omega)
  have hji : ¬ j < i := fun hlt => h.first j hlt w h'.found h'.accepts (by omega)
  obtain rfl : i = j := by omega
  exact ⟨rfl, Option.some.inj (h.found.symm.trans h'.found)⟩

/-! ## Tables after any registrations -/

def registerAll (registered : List (Vector Pattern n × α)) : DispatchTable α n :=
  registered.foldl (fun table entry => table.register entry.1 entry.2) empty

theorem registerAll_concat (registered : List (Vector Pattern n × α))
    (entry : Vector Pattern n × α) :
    registerAll (registered ++ [entry]) = (registerAll registered).register entry.1 entry.2 := by
  simp [registerAll]

/-- No registration is lost, and none changes its place. -/
@[simp] theorem toList_entries_registerAll (registered : List (Vector Pattern n × α)) :
    (registerAll registered).entries.toList = registered := by
  induction registered using List.reverseRecOn with
  | nil => rfl
  | append_singleton registered entry ih =>
    rw [registerAll_concat, register, Array.toList_push, ih]

/-- The vector of winners is up to date. -/
theorem resolved_registerAll (registered : List (Vector Pattern n × α)) :
    (registerAll registered).resolved = resolveAll (registerAll registered).entries := by
  obtain rfl | ⟨before, last, rfl⟩ := registered.eq_nil_or_concat'
  · ext i hi
    simp [registerAll, empty, resolveAll, mostSpecific]
  · rw [registerAll_concat]
    rfl

/-- If any registration accepts the shapes, one of them wins. -/
theorem exists_wins_or_not (registered : List (Vector Pattern n × α)) (shapes : Vector Shape n) :
    (∀ entry ∈ registered, ¬ Accepts entry.1 shapes) ∨
      ∃ number winner, Wins registered shapes number winner := by
  obtain ⟨-, hnone⟩ | ⟨number, winner, -, hwins⟩ := best_registered registered shapes
  · exact .inl hnone
  · exact .inr ⟨number, winner, hwins⟩

theorem lookup_of_not_accepts (h : ∀ entry ∈ registered, ¬ Accepts entry.1 shapes) :
    (registerAll registered).lookup shapes = .error ⟨shapes.toList⟩ := by
  rw [lookup_of_resolved (resolved_registerAll registered), mostSpecific_eq_best,
    toList_entries_registerAll]
  obtain ⟨hbest, -⟩ | ⟨number, winner, -, hwins⟩ := best_registered registered shapes
  · rw [hbest]
    rfl
  · exact absurd hwins.accepts (h winner hwins.mem)

theorem lookup_of_wins (h : Wins registered shapes number winner) :
    (registerAll registered).lookup shapes = .ok winner.2 := by
  rw [lookup_of_resolved (resolved_registerAll registered), mostSpecific_eq_best,
    toList_entries_registerAll]
  obtain ⟨-, hnone⟩ | ⟨number', winner', hbest, hwins⟩ := best_registered registered shapes
  · exact absurd h.accepts (hnone winner h.mem)
  · obtain ⟨rfl, rfl⟩ := h.unique hwins
    have hfound : (registerAll registered).entries[number]? = some winner := by
      rw [← Array.getElem?_toList, toList_entries_registerAll, h.found]
    rw [hbest, Option.map_some, Option.bind_some, hfound]
    rfl

theorem lookup_eq_ok_iff {algorithm : α} :
    (registerAll registered).lookup shapes = .ok algorithm ↔
      ∃ number winner, Wins registered shapes number winner ∧ winner.2 = algorithm := by
  constructor
  · intro h
    obtain hnone | ⟨number, winner, hwins⟩ := exists_wins_or_not registered shapes
    · cases (lookup_of_not_accepts hnone).symm.trans h
    · exact ⟨number, winner, hwins, Except.ok.inj ((lookup_of_wins hwins).symm.trans h)⟩
  · rintro ⟨number, winner, hwins, rfl⟩
    exact lookup_of_wins hwins

theorem lookup_eq_error_iff {miss : NoAlgorithm} :
    (registerAll registered).lookup shapes = .error miss ↔
      miss.shapes = shapes.toList ∧ ∀ entry ∈ registered, ¬ Accepts entry.1 shapes := by
  constructor
  · intro h
    obtain hnone | ⟨number, winner, hwins⟩ := exists_wins_or_not registered shapes
    · cases (lookup_of_not_accepts hnone).symm.trans h
      exact ⟨rfl, hnone⟩
    · cases (lookup_of_wins hwins).symm.trans h
  · rintro ⟨hshapes, hnone⟩
    rw [lookup_of_not_accepts hnone, ← hshapes]

/-- The numbers in the vector are numbers of registrations. -/
theorem lt_length_of_resolved {slot : Nat} (hslot : slot < slots n)
    (h : (registerAll registered).resolved[slot] = some number) : number < registered.length := by
  simp only [resolved_registerAll, resolveAll, Vector.getElem_ofFn, mostSpecific_eq_best,
    toList_entries_registerAll] at h
  obtain ⟨hbest, -⟩ | ⟨number', winner, hbest, hwins⟩ :=
    best_registered registered (shapesOf n slot)
  · simp [hbest] at h
  · rw [hbest, Option.map_some, Option.some.injEq] at h
    subst h
    exact hwins.lt_length

/-! ## One more registration -/

/-- Patterns override what a table answers for given shapes: they accept the shapes, and they are
more specific than the winner, if there is one. -/
def Overrides (registered : List (Vector Pattern n × α)) (shapes : Vector Shape n)
    (patterns : Vector Pattern n) : Prop :=
  Accepts patterns shapes ∧ ∀ number winner, Wins registered shapes number winner →
    totalRank patterns < totalRank winner.1

/-- A registration that overrides the winner answers from then on. -/
theorem lookup_register_of_overrides (h : Overrides registered shapes patterns) (algorithm : α) :
    ((registerAll registered).register patterns algorithm).lookup shapes = .ok algorithm := by
  have hwins : Wins (registered ++ [(patterns, algorithm)]) shapes registered.length
      (patterns, algorithm) := by
    refine wins_concat_length h.1 fun other hother haccepts => ?_
    obtain hnone | ⟨number, winner, hwins⟩ := exists_wins_or_not registered shapes
    · exact absurd haccepts (hnone other hother)
    · have hle := hwins.least other hother haccepts
      exact Nat.lt_of_lt_of_le (h.2 number winner hwins) hle
  rw [← registerAll_concat registered (patterns, algorithm)]
  exact lookup_of_wins hwins

/-- A registration that does not override changes nothing for the shapes, even with an equal sum of
ranks. -/
theorem lookup_register_of_not_overrides (h : ¬ Overrides registered shapes patterns)
    (algorithm : α) :
    ((registerAll registered).register patterns algorithm).lookup shapes =
      (registerAll registered).lookup shapes := by
  rw [← registerAll_concat registered (patterns, algorithm)]
  obtain hnone | ⟨number, winner, hwins⟩ := exists_wins_or_not registered shapes
  · have haccepts : ¬ Accepts patterns shapes := by
      intro haccepts
      refine h ⟨haccepts, fun number winner hwins => ?_⟩
      exact absurd hwins.accepts (hnone winner hwins.mem)
    rw [lookup_of_not_accepts hnone, lookup_of_not_accepts]
    rw [List.forall_mem_append, List.forall_mem_singleton]
    exact ⟨hnone, haccepts⟩
  · have hle : Accepts patterns shapes → totalRank winner.1 ≤ totalRank patterns := by
      intro haccepts
      by_contra hless
      refine h ⟨haccepts, fun number' winner' hwins' => ?_⟩
      obtain ⟨-, rfl⟩ := hwins.unique hwins'
      omega
    rw [lookup_of_wins hwins, lookup_of_wins (hwins.concat hle)]

/-- After any registrations, a lookup finds the algorithm of the one that wins, and it fails with
the shapes that were asked for just if no registration accepts them. It stays inside the vector of
winners, and the numbers that are kept there stay inside the registrations. One more registration
answers where it overrides the winner and changes nothing elsewhere. -/
theorem lookup_registerAll (registered : List (Vector Pattern n × α)) (shapes : Vector Shape n) :
    (∀ algorithm, (registerAll registered).lookup shapes = .ok algorithm ↔
      ∃ number winner, Wins registered shapes number winner ∧ winner.2 = algorithm) ∧
    (∀ miss, (registerAll registered).lookup shapes = .error miss ↔
      miss.shapes = shapes.toList ∧ ∀ entry ∈ registered, ¬ Accepts entry.1 shapes) ∧
    slot shapes < (registerAll registered).resolved.toArray.size ∧
    (∀ number, some number ∈ (registerAll registered).resolved.toArray →
      number < (registerAll registered).entries.size) ∧
    ∀ patterns algorithm,
      (Overrides registered shapes patterns →
        ((registerAll registered).register patterns algorithm).lookup shapes = .ok algorithm) ∧
      (¬ Overrides registered shapes patterns →
        ((registerAll registered).register patterns algorithm).lookup shapes =
          (registerAll registered).lookup shapes) := by
  refine ⟨fun _ => lookup_eq_ok_iff, fun _ => lookup_eq_error_iff, ?_, fun number hmem => ?_, ?_⟩
  · rw [Vector.size_toArray]
    exact slot_lt shapes
  · obtain ⟨i, hi, hnumber⟩ := Array.mem_iff_getElem.1 hmem
    rw [← Array.length_toList, toList_entries_registerAll]
    exact lt_length_of_resolved (by simpa using hi) hnumber
  · intro patterns algorithm
    exact ⟨fun h => lookup_register_of_overrides h algorithm,
      fun h => lookup_register_of_not_overrides h algorithm⟩

/-- Of two registrations with equal sums the first one wins, until a more specific one is made. -/
theorem lookup_registerAll_example :
    (registerAll [(#v[.any, .exact .atom], 1), (#v[.exact .atom, .any], 2)]).lookup
        #v[.atom, .atom] = .ok 1 ∧
      ((registerAll [(#v[.any, .exact .atom], 1), (#v[.exact .atom, .any], 2)]).register
        #v[.exact .atom, .exact .atom] 3).lookup #v[.atom, .atom] = .ok 3 := by
  have hwins : Wins [(#v[.any, .exact .atom], 1), (#v[.exact .atom, .any], 2)] #v[.atom, .atom] 0
      (#v[.any, .exact .atom], 1) := ⟨rfl, by decide, by decide, by simp⟩
  obtain ⟨hok, -, -, -, hregister⟩ := lookup_registerAll
    [(#v[.any, .exact .atom], 1), (#v[.exact .atom, .any], 2)] #v[.atom, .atom]
  refine ⟨(hok 1).2 ⟨0, _, hwins, rfl⟩, (hregister _ 3).1 ⟨by decide, ?_⟩⟩
  intro number winner hwins'
  obtain ⟨-, rfl⟩ := hwins.unique hwins'
  decide

end LogicTerms.DispatchTable
