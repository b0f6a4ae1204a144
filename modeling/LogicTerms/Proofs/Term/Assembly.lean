import LogicTerms.Proofs.Canonical

/-!
# The places of parts

A compound that is taken apart and built of its own parts is the same compound. Where a form is
given other parts, each of them has a place: items and fields stay where they are given, elements
are put in order, and of parts that come in pairs the first is a key and the second its value.
-/

namespace LogicTerms

variable {parts : List Term} {key value t u : Term} {form : Form}

/-! ## Pairs -/

/-- A map has the entries after which their key does not come again. -/
theorem Entries.mem_ofList_iff_getElem? {entries : List (Term × Term)} :
    (key, value) ∈ ofList entries ↔
      ∃ i : Nat, entries[i]? = some (key, value) ∧
        ∀ j > i, ∀ other, entries[j]? ≠ some (key, other) := by
  rw [mem_iff_lookup (increasing_ofList entries), lookup_ofList_iff]
  constructor
  · rintro ⟨before, after, rfl, hlater⟩
    refine ⟨before.length, by simp, fun j hj other hother => ?_⟩
    obtain ⟨k, rfl⟩ : ∃ k, j = before.length + (k + 1) := ⟨j - before.length - 1, by omega⟩
    have hafter : after[k]? = some (key, other) := by
      simpa [List.getElem?_append_right] using hother
    exact hlater _ (List.mem_of_getElem? hafter) rfl
  · rintro ⟨i, hentry, hlater⟩
    obtain ⟨hi, hget⟩ := List.getElem?_eq_some_iff.1 hentry
    refine ⟨entries.take i, entries.drop (i + 1), ?_, ?_⟩
    · rw [← hget, ← List.drop_eq_getElem_cons hi, List.take_append_drop]
    · rintro ⟨_, other⟩ hmem rfl
      obtain ⟨k, hk⟩ := List.mem_iff_getElem?.1 hmem
      rw [List.getElem?_drop] at hk
      exact hlater (i + 1 + k) (by omega) other hk

theorem Term.length_flatten (entries : List (Term × Term)) :
    (flatten entries).length = 2 * entries.length := by
  induction entries with
  | nil => rfl
  | cons entry entries ih =>
    obtain ⟨key, value⟩ := entry
    simp [ih, Nat.mul_succ]

/-- An entry is made of the parts in two neighbouring places. -/
theorem Term.getElem?_pairUp_eq_some_iff {i : Nat} :
    (Term.pairUp parts)[i]? = some (key, value) ↔
      parts[2 * i]? = some key ∧ parts[2 * i + 1]? = some value := by
  fun_induction Term.pairUp parts generalizing i with
  | case1 k v rest ih =>
    cases i with
    | zero => simp
    | succ i => simpa [Nat.mul_succ] using ih
  | case2 parts hshort =>
    obtain _ | ⟨k, _ | ⟨v, rest⟩⟩ := parts
    · simp
    · simp
    · exact (hshort k v rest rfl).elim

namespace Form

/-- A map takes keys and values in turn, and a slice its three fields. -/
def Fits : Form → List Term → Prop
  | map, parts => parts.length % 2 = 0
  | slice, parts => parts.length = 3
  | _, _ => True

/-- The compounds of a form in which parts are in their places. In a map the parts `2 * i` and
`2 * i + 1` are an entry, unless the key comes again later. -/
inductive Assembles (parts : List Term) : Form → Term → Prop
  | tuple : Assembles parts .tuple (.tuple parts)
  | list : Assembles parts .list (.list parts)
  | set {elements : List Term} (increasing : Increasing elements)
      (mem_iff : ∀ t, t ∈ elements ↔ t ∈ parts) : Assembles parts .set (.set elements)
  | map {entries : List (Term × Term)} (increasing : Increasing (Entries.keys entries))
      (mem_iff : ∀ key value, (key, value) ∈ entries ↔
        ∃ i, parts[2 * i]? = some key ∧ parts[2 * i + 1]? = some value ∧
          ∀ j > i, parts[2 * j]? ≠ some key) : Assembles parts .map (.map entries)
  | slice {start stop step : Term} (hstart : parts[0]? = some start) (hstop : parts[1]? = some stop)
      (hstep : parts[2]? = some step) : Assembles parts .slice (.slice start stop step)

/-- Parts are put together in one way only. -/
theorem Assembles.unique (ht : form.Assembles parts t) (hu : form.Assembles parts u) : t = u := by
  cases ht with
  | tuple | list =>
    cases hu
    rfl
  | set ht hmem =>
    cases hu with
    | set hu hmem' =>
      exact congrArg Term.set (ht.ext hu fun t => (hmem t).trans (hmem' t).symm)
  | map ht hmem =>
    cases hu with
    | map hu hmem' =>
      exact congrArg Term.map (Entries.ext ht hu fun key value =>
        (hmem key value).trans (hmem' key value).symm)
  | slice hstart hstop hstep =>
    cases hu
    simp_all

/-- In pairs, each key has a value. -/
theorem Fits.exists_value (h : map.Fits parts) {i : Nat} (hkey : parts[2 * i]? = some key) :
    ∃ value, parts[2 * i + 1]? = some value := by
  obtain ⟨hlt, -⟩ := List.getElem?_eq_some_iff.1 hkey
  have heven : parts.length % 2 = 0 := h
  have hlt' : 2 * i + 1 < parts.length := by omega
  exact ⟨parts[2 * i + 1], List.getElem?_eq_getElem hlt'⟩

/-- An entry of a built map comes from the last place of its key. -/
theorem Fits.mem_ofList_pairUp_iff (h : map.Fits parts) :
    (key, value) ∈ Entries.ofList (Term.pairUp parts) ↔
      ∃ i, parts[2 * i]? = some key ∧ parts[2 * i + 1]? = some value ∧
        ∀ j > i, parts[2 * j]? ≠ some key := by
  simp only [Entries.mem_ofList_iff_getElem?, ne_eq, Term.getElem?_pairUp_eq_some_iff, and_assoc]
  refine exists_congr fun i => and_congr_right fun _ => and_congr_right fun _ => ?_
  refine forall₂_congr fun j _ => ?_
  constructor
  · intro hlast hkey
    obtain ⟨other, hother⟩ := h.exists_value hkey
    exact hlast other ⟨hkey, hother⟩
  · rintro hlast other ⟨hkey, -⟩
    exact hlast hkey

/-- No key is lost. -/
theorem Fits.mem_keys_ofList_pairUp (h : map.Fits parts) {i : Nat}
    (hkey : parts[2 * i]? = some key) :
    key ∈ Entries.keys (Entries.ofList (Term.pairUp parts)) := by
  obtain ⟨value, hvalue⟩ := h.exists_value hkey
  have hentry := Term.getElem?_pairUp_eq_some_iff.2 ⟨hkey, hvalue⟩
  rw [Entries.keys_ofList, Elements.mem_ofList]
  exact List.mem_map.2 ⟨_, List.mem_of_getElem? hentry, rfl⟩

theorem Fits.assembles_build (h : form.Fits parts) : form.Assembles parts (form.build parts) := by
  cases form with
  | tuple => exact .tuple
  | list => exact .list
  | set => exact .set (Elements.increasing_ofList parts) fun t => Elements.mem_ofList
  | map =>
    exact .map (Entries.increasing_ofList _) fun key value => h.mem_ofList_pairUp_iff
  | slice =>
    obtain ⟨start, stop, step, rfl⟩ := List.length_eq_three.1 h
    exact .slice rfl rfl rfl

/-- What is built of parts has each of them in its place, and nothing else does. -/
theorem build_eq_iff_assembles (h : form.Fits parts) :
    form.build parts = t ↔ form.Assembles parts t := by
  constructor
  · rintro rfl
    exact h.assembles_build
  · intro ht
    exact h.assembles_build.unique ht

/-- A key that comes again stays, as the key of the later value. -/
theorem mem_parts_build_or_replaced (h : form.Fits parts) {i : Nat} {p : Term}
    (hp : parts[i]? = some p) :
    p ∈ (form.build parts).parts ∨
      form = .map ∧ i % 2 = 1 ∧ ∃ j > i / 2, parts[2 * j]? = parts[i - 1]? := by
  cases form with
  | tuple | list => exact .inl (List.mem_of_getElem? hp)
  | set => exact .inl (Elements.mem_ofList.2 (List.mem_of_getElem? hp))
  | slice =>
    obtain ⟨start, stop, step, rfl⟩ := List.length_eq_three.1 h
    exact .inl (List.mem_of_getElem? hp)
  | map =>
    obtain hi | hi := Nat.mod_two_eq_zero_or_one i
    · obtain ⟨m, rfl⟩ : ∃ m, i = 2 * m := ⟨i / 2, by omega⟩
      exact .inl (Term.mem_parts_of_mem_keys (h.mem_keys_ofList_pairUp hp))
    · obtain ⟨m, rfl⟩ : ∃ m, i = 2 * m + 1 := ⟨i / 2, by omega⟩
      obtain ⟨key, hkey⟩ : ∃ key, parts[2 * m]? = some key := by
        obtain ⟨hlt, -⟩ := List.getElem?_eq_some_iff.1 hp
        exact ⟨parts[2 * m], List.getElem?_eq_getElem (by omega)⟩
      by_cases hlast : ∃ j > m, parts[2 * j]? = some key
      · obtain ⟨j, hj, hagain⟩ := hlast
        refine .inr ⟨rfl, hi, j, by omega, ?_⟩
        rw [hagain, Nat.add_sub_cancel, hkey]
      · have hentry : (key, p) ∈ Entries.ofList (Term.pairUp parts) :=
          h.mem_ofList_pairUp_iff.2 ⟨m, hkey, hp, fun j hj hagain => hlast ⟨j, hj, hagain⟩⟩
        exact .inl (Term.mem_flatten_iff.2 ⟨_, hentry, .inr rfl⟩)

theorem Fits.of_decompose (h : t.decompose = some (form, parts)) : form.Fits parts := by
  induction h using Term.decompose_cases with
  | tuple | list | set => trivial
  | map entries => rw [Fits, Term.length_flatten, Nat.mul_mod_right]
  | slice => rfl

/-! ## Taking apart and building anew -/

/-- Just the compounds can be taken apart, and one whose elements or keys are in order is built
again of what it was taken apart into. Elements and keys are in order in everything that is built.
Whatever parts a form is given, if they are as many as it has places for, the compound with each of
them in its place is built and no other one: a part is missing from it only if it is a value in a
map and the key before it comes again later. -/
theorem build_decompose :
    (∀ t : Term, t.isCompound = true ↔ ∃ form parts, t.decompose = some (form, parts)) ∧
    (∀ (t : Term) form parts, t.Ordered → t.decompose = some (form, parts) →
      form.Fits parts ∧ form.build parts = t) ∧
    (∀ (form : Form) parts, (form.build parts).Ordered) ∧
    ∀ (form : Form) parts, form.Fits parts →
      (∀ t, form.build parts = t ↔ form.Assembles parts t) ∧
      ∀ (i : Nat) p, parts[i]? = some p →
        p ∈ (form.build parts).parts ∨
          form = .map ∧ i % 2 = 1 ∧ ∃ j > i / 2, parts[2 * j]? = parts[i - 1]? := by
  refine ⟨fun t => ?_, fun t form parts ht h => ⟨.of_decompose h, ht.build_parts h⟩, ordered_build,
    fun form parts h => ⟨fun t => build_eq_iff_assembles h, fun i p hp =>
      mem_parts_build_or_replaced h hp⟩⟩
  cases t <;> simp [Term.isCompound, Term.decompose]

/-- The first key comes again at the end of the second list, and its first value gives way. -/
theorem build_decompose_example :
    let one := Term.atom (.int 1)
    let two := Term.atom (.int 2)
    let t := Term.map [(one, .set [one, two]), (two, .slice one two .none)]
    let parts := [one, .set [one, two], two, .slice one two .none]
    t.Ordered ∧ t.decompose = some (.map, parts) ∧ Form.map.build parts = t ∧
      Form.map.Fits [one, two, two, two, one, one] ∧
      Form.map.Assembles [one, two, two, two, one, one] (.map [(one, one), (two, two)]) := by
  intro one two t parts
  obtain ⟨-, happart, -, hbuild⟩ := build_decompose
  have ht : t.Ordered := by
    change Increasing [one, two]
    decide +kernel
  have hfits : Form.map.Fits [one, two, two, two, one, one] := by simp [Fits]
  refine ⟨ht, rfl, (happart t .map parts ht rfl).2, hfits, ?_⟩
  exact ((hbuild .map _ hfits).1 _).1 (by decide +kernel)

end Form

end LogicTerms
