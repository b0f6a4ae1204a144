import LogicTerms.Proofs.Registry

/-!
# Scopes

A scope brings back the registry of its entry when it is left, whatever scopes were entered or left
since. Terms may stay registered in this way although no scope is open, or be dropped too early. The
bits of the registry come back together with its terms, so that they always fit each other.

Blocks of code leave their scopes in reverse order of entry, and they leave all of them when they
end, also where they fail and what comes after is skipped. Then just the terms of the open scopes
are registered at any time, beside those that were there at the start: the registry that a scope
remembers has the terms of the scopes that were open at its entry, and these are open still when it
is left.
-/

namespace LogicTerms

/-! ## Any order -/

/-- A registry, and the scopes that are open, latest first. -/
structure Thread where
  registry : Registry
  scopes : List Scope

namespace Thread

/-- A scope is entered, or one of those that are open is left, counted from the latest. -/
inductive Event where
  | enter (terms : List Term)
  | leave (index : Nat)

def initial : Thread := ⟨.empty, []⟩

def after (thread : Thread) : Event → Thread
  | .enter terms =>
    let (scope, inside) := thread.registry.enter terms
    ⟨inside, scope :: thread.scopes⟩
  | .leave index =>
    match thread.scopes[index]? with
    | some scope => ⟨scope.leave, thread.scopes.eraseIdx index⟩
    | none => thread

def run (thread : Thread) (events : List Event) : Thread := events.foldl after thread

/-! ## The bits of all registries -/

/-- The bits are right, now and whenever an open scope is left. -/
structure Sound (thread : Thread) : Prop where
  registry : thread.registry.Exact
  scopes : ∀ scope ∈ thread.scopes, scope.outer.Exact

theorem sound_initial : initial.Sound := ⟨Registry.exact_empty, by simp [initial]⟩

/-- An entry only adds terms together with their bits, and an exit brings both back. -/
theorem Sound.after {thread : Thread} (h : thread.Sound) (event : Event) :
    (thread.after event).Sound := by
  cases event with
  | enter terms =>
    exact ⟨h.registry.extend terms, List.forall_mem_cons.2 ⟨h.registry, h.scopes⟩⟩
  | leave index =>
    simp only [Thread.after]
    split
    next scope hscope =>
      refine ⟨h.scopes scope (List.mem_of_getElem? hscope), fun other hother => ?_⟩
      exact h.scopes other (List.mem_of_mem_eraseIdx hother)
    next => exact h

/-- The bits are right after any sequence of entries and exits. -/
theorem Sound.run {thread : Thread} (h : thread.Sound) (events : List Event) :
    (thread.run events).Sound := by
  induction events generalizing thread with
  | nil => exact h
  | cons event events ih => exact ih (h.after event)

theorem exact_run (events : List Event) : (initial.run events).registry.Exact :=
  (sound_initial.run events).registry

/-- Whatever scopes were entered and left, in whatever order: a bit is set just if a term of its
shape is registered. Hence the terms that are found are those that are registered, and what counts
as a variable are these and the variables. -/
theorem contains_run_iff (events : List Event) :
    let registry := (initial.run events).registry
    (∀ i, registry.shapes.getLsbD i = true ↔ ∃ t ∈ registry.terms, (t.shape.index : Nat) = i) ∧
      ∀ t, (registry.contains t = true ↔ t ∈ registry.terms) ∧
        (registry.isVariable t = true ↔ (∃ name, t = .var name) ∨ t ∈ registry.terms) := by
  intro registry
  have hexact : registry.Exact := exact_run events
  exact ⟨hexact.getLsbD_iff, fun t => ⟨hexact.contains_iff, hexact.isVariable_iff⟩⟩

/-- The scope of `1` is left before the later one of `"a"`, which brings `1` back: then no scope is
open, and `1` is registered for good. -/
example :
    let one := Term.atom (.int 1)
    let thread := initial.run [.enter [one], .enter [.atom (.str "a")], .leave 1, .leave 0]
    thread.scopes.length = 0 ∧ thread.registry.isVariable one = true := by
  decide +kernel

end Thread

/-! ## Blocks -/

/-- What a block of code does with scopes, one thing after the other. It keeps the scopes that it
enters until it leaves them, the latest first. Another block may be run inside a scope of its own,
or be tried; a block that fails ends the blocks around it as well, up to the one that was tried. -/
inductive Block where
  | done
  | fail
  | enter (terms : List Term) (next : Block)
  | leave (next : Block)
  | within (terms : List Term) (inner next : Block)
  | attempt (inner next : Block)

namespace Block

inductive Ending where
  | returned
  | failed

structure Entered where
  terms : List Term
  scope : Scope

/-- The registry at some time, and the terms of each scope that is open then, latest first. -/
structure Moment where
  registry : Registry
  opened : List (List Term)

structure Trace where
  moments : List Moment
  ending : Ending

/-- The terms of all scopes that are open: those of a block, and those around it. -/
def opened (around : List (List Term)) (entered : List Entered) : List (List Term) :=
  entered.map Entered.terms ++ around

theorem opened_cons (around : List (List Term)) (latest : Entered) (entered : List Entered) :
    opened around (latest :: entered) = latest.terms :: opened around entered := rfl

def since (moments : List Moment) (run : Trace × Registry) : Trace × Registry :=
  (⟨moments ++ run.1.moments, run.1.ending⟩, run.2)

/-- The end of a block: the scopes that are still open are left, the latest first. -/
def close (around : List (List Term)) (ending : Ending) :
    List Entered → Registry → Trace × Registry
  | [], registry => (⟨[⟨registry, around⟩], ending⟩, registry)
  | latest :: entered, registry =>
    since [⟨registry, opened around (latest :: entered)⟩]
      (close around ending entered latest.scope.leave)

/-- Runs a block that has entered some scopes, with the scopes around it open as well. A block that
has no scope to leave goes on without. -/
def run (around : List (List Term)) (entered : List Entered) :
    Block → Registry → Trace × Registry
  | done, registry => close around .returned entered registry
  | fail, registry => close around .failed entered registry
  | enter terms next, registry =>
    let (scope, inside) := registry.enter terms
    since [⟨registry, opened around entered⟩] (next.run around (⟨terms, scope⟩ :: entered) inside)
  | leave next, registry =>
    match entered with
    | [] => next.run around [] registry
    | latest :: below =>
      since [⟨registry, opened around entered⟩] (next.run around below latest.scope.leave)
  | within terms inner next, registry =>
    let (trace, left) := registry.within terms fun inside =>
      inner.run (terms :: opened around entered) [] inside
    since (⟨registry, opened around entered⟩ :: trace.moments) <|
      match trace.ending with
      | .returned => next.run around entered left
      | .failed => close around .failed entered left
  | attempt inner next, registry =>
    let (trace, left) := inner.run (opened around entered) [] registry
    since trace.moments (next.run around entered left)

end Block

/-! ## Registries of open scopes -/

namespace Registry

variable {registry : Registry} {scopes : List (List Term)} {a : Term}

def extendAll (registry : Registry) (scopes : List (List Term)) : Registry :=
  scopes.foldr (fun terms registry => registry.extend terms) registry

theorem extendAll_cons (registry : Registry) (terms : List Term) (scopes : List (List Term)) :
    registry.extendAll (terms :: scopes) = (registry.extendAll scopes).extend terms := rfl

theorem mem_terms_extendAll :
    a ∈ (registry.extendAll scopes).terms ↔ a ∈ registry.terms ∨ ∃ terms ∈ scopes, a ∈ terms := by
  induction scopes with
  | nil => simp [extendAll]
  | cons terms scopes ih =>
    rw [extendAll_cons, mem_terms_extend, ih, List.exists_mem_cons_iff, or_right_comm, or_assoc]

theorem Exact.extendAll (h : registry.Exact) (scopes : List (List Term)) :
    (registry.extendAll scopes).Exact := by
  induction scopes with
  | nil => exact h
  | cons terms scopes ih => exact ih.extend terms

end Registry

namespace Block

variable {start registry : Registry} {around : List (List Term)} {entered : List Entered}

/-- Each open scope remembers the registry of the scopes that were open at its entry. -/
inductive Nested (start : Registry) (around : List (List Term)) : List Entered → Registry → Prop
  | nil : Nested start around [] (start.extendAll around)
  | cons {below outer} (terms : List Term) (h : Nested start around below outer) :
      Nested start around (⟨terms, ⟨outer⟩⟩ :: below) (outer.extend terms)

/-- The registry is told by the scopes that are open, without its history. -/
theorem Nested.eq_extendAll (h : Nested start around entered registry) :
    registry = start.extendAll (opened around entered) := by
  induction h with
  | nil => rfl
  | cons terms _ ih => rw [opened_cons, Registry.extendAll_cons, ← ih]

/-- A block inside starts with all these scopes around it, -/
theorem Nested.tried (h : Nested start around entered registry) :
    Nested start (opened around entered) [] registry := by
  rw [h.eq_extendAll]
  exact .nil

/-- and with one more if it has a scope of its own. -/
theorem Nested.inside (h : Nested start around entered registry) (terms : List Term) :
    Nested start (terms :: opened around entered) [] (registry.extend terms) := by
  rw [h.eq_extendAll, ← Registry.extendAll_cons]
  exact .nil

/-! ## The registry of each moment -/

/-- At each moment of a run the registry is that of the scopes that are open then, and in the end
only the scopes around are. -/
structure Tracks (start : Registry) (around : List (List Term)) (run : Trace × Registry) :
    Prop where
  moments : ∀ moment ∈ run.1.moments, moment.registry = start.extendAll moment.opened
  last : run.2 = start.extendAll around

theorem Tracks.since {run : Trace × Registry} (h : Tracks start around run) {moments : List Moment}
    (hmoments : ∀ moment ∈ moments, moment.registry = start.extendAll moment.opened) :
    Tracks start around (since moments run) :=
  ⟨List.forall_mem_append.2 ⟨hmoments, h.moments⟩, h.last⟩

theorem Tracks.next {run : Trace × Registry} (h : Tracks start around run)
    (hnested : Nested start around entered registry) :
    Tracks start around (Block.since [⟨registry, opened around entered⟩] run) :=
  h.since (List.forall_mem_singleton.2 hnested.eq_extendAll)

/-- When a block ends, its scopes are left one by one, and each brings back the registry of the
scopes below it. -/
theorem tracks_close (ending : Ending) (h : Nested start around entered registry) :
    Tracks start around (close around ending entered registry) := by
  induction h with
  | nil => exact ⟨List.forall_mem_singleton.2 rfl, rfl⟩
  | cons terms h ih => exact ih.next (h.cons terms)

/-- However blocks are nested and wherever they fail: the invariant is what the open scopes
remember, and a block that has ended leaves the registry as it was before. -/
theorem tracks_run (block : Block) (h : Nested start around entered registry) :
    Tracks start around (block.run around entered registry) := by
  induction block generalizing around entered registry with
  | done => exact tracks_close .returned h
  | fail => exact tracks_close .failed h
  | enter terms next ih => exact (ih (h.cons terms)).next h
  | leave next ih =>
    cases h with
    | nil => exact ih .nil
    | cons terms h => exact (ih h).next (h.cons terms)
  | within terms inner next ihinner ih =>
    have hinner := ihinner (h.inside terms)
    refine Tracks.since ?_ (List.forall_mem_cons.2 ⟨h.eq_extendAll, hinner.moments⟩)
    -- The scope brings the registry of its entry back, however the inner block has ended.
    split
    next => exact ih h
    next => exact tracks_close .failed h
  | attempt inner next ihinner ih =>
    have hinner := ihinner h.tried
    have hlast : (inner.run (opened around entered) [] registry).2 = registry :=
      hinner.last.trans h.eq_extendAll.symm
    refine Tracks.since ?_ hinner.moments
    rw [hlast]
    exact ih h

/-- Whatever blocks did with scopes before and do now: at each moment of a run the variables count
as variables, and so do the terms that were registered at the start and those of the scopes that
are open, whichever scopes registered them as well. When all scopes of the run are left, the
registry is the one that was there at the start. -/
theorem isVariable_of_moment (history : List Thread.Event) (block : Block) :
    let start := (Thread.initial.run history).registry
    let run := block.run [] [] start
    (∀ moment ∈ run.1.moments,
      (∀ a, moment.registry.isVariable a = true ↔
        (∃ name, a = .var name) ∨ a ∈ start.terms ∨ ∃ terms ∈ moment.opened, a ∈ terms) ∧
      (moment.opened = [] → moment.registry = start)) ∧
    run.2 = start := by
  intro start run
  have htracks : Tracks start [] run := tracks_run block .nil
  refine ⟨fun moment hmoment => ?_, htracks.last⟩
  have hregistry := htracks.moments moment hmoment
  constructor
  · intro a
    have hexact : start.Exact := Thread.exact_run history
    rw [hregistry, (hexact.extendAll moment.opened).isVariable_iff, Registry.mem_terms_extendAll]
  · intro hopened
    rw [hregistry, hopened]
    rfl

/-- At the start `1` is registered for good, since scopes were left in the wrong order before. The
scope of `2` is open around one that registers both again, and a block fails inside a third one. -/
theorem isVariable_of_moment_example :
    let one := Term.atom (.int 1)
    let two := Term.atom (.int 2)
    let three := Term.atom (.int 3)
    let start :=
      (Thread.initial.run [.enter [one], .enter [three], .leave 1, .leave 0]).registry
    let block : Block :=
      .attempt (.within [two] (.enter [one, two] (.within [two, three] .fail .done)) .done) .done
    let run := block.run [] [] start
    (∀ moment ∈ run.1.moments, ∀ a, moment.registry.isVariable a = true ↔
      (∃ name, a = .var name) ∨ a = one ∨ ∃ terms ∈ moment.opened, a ∈ terms) ∧
    run.1.moments.map (fun moment => (moment.opened.length, moment.registry.isVariable one,
      moment.registry.isVariable two, moment.registry.isVariable three)) =
      [(0, true, false, false), (1, true, true, false), (2, true, true, false),
        (3, true, true, true), (2, true, true, false), (1, true, true, false),
        (0, true, false, false), (0, true, false, false)] ∧
    run.2 = start := by
  intro one two three start block run
  obtain ⟨hmoments, hlast⟩ := isVariable_of_moment
    [.enter [one], .enter [three], .leave 1, .leave 0] block
  have hterms : start.terms = [one] := by decide +kernel
  refine ⟨fun moment hmoment a => ?_, by decide +kernel, hlast⟩
  rw [(hmoments moment hmoment).1 a, hterms, List.mem_singleton]

end Block

end LogicTerms
