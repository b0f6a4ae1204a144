import LogicTerms.Proofs.Evaluation.Work
import LogicTerms.Proofs.Reification.Values

/-!
# The work of reification

Reification has no memory: a variable that occurs twice is reified twice, and the elements of a set
are all reified before any of them turn out to be equal. Its work is therefore known from the tree
into which a term unfolds when bound variables give way to their values.
-/

namespace LogicTerms

open Relation Substitution

/-- A term in which all bound variables have given way to their values. The variables that are left
are not entered, and nothing is put in order: sets and maps have all the parts that they had. -/
inductive Unfolding where
  | leaf (t : Term)
  | compound (form : Form) (parts : List Unfolding)

namespace Unfolding

/-- The number of all nodes, that of the compounds among them, and the number of compounds on the
longest way down. -/
structure Size where
  nodes : Nat
  compounds : Nat
  depth : Nat

mutual

def size : Unfolding → Size
  | leaf _ => ⟨1, 0, 0⟩
  | compound _ parts =>
    ⟨(sizeAll parts).nodes + 1, (sizeAll parts).compounds + 1, (sizeAll parts).depth + 1⟩

def sizeAll : List Unfolding → Size
  | [] => ⟨0, 0, 0⟩
  | u :: us => ⟨u.size.nodes + (sizeAll us).nodes, u.size.compounds + (sizeAll us).compounds,
      max u.size.depth (sizeAll us).depth⟩

end

mutual

def build : Unfolding → Term
  | leaf t => t
  | compound form parts => form.build (buildAll parts)

def buildAll : List Unfolding → List Term
  | [] => []
  | u :: us => u.build :: buildAll us

end

theorem buildAll_eq_map (us : List Unfolding) : buildAll us = us.map build := by
  induction us with
  | nil => rfl
  | cons u us ih => rw [buildAll, ih, List.map_cons]

/-- One step for each part of a compound, and two more for each compound. -/
def completion (u : Unfolding) : Completion :=
  ⟨u.size.nodes - 1 + 2 * u.size.compounds, u.size.depth⟩

def work : Unfolding → Option Completion
  | leaf _ => none
  | compound form parts => some (compound form parts).completion

def log : Unfolding → List LogEntry
  | leaf _ => []
  | compound form parts => [.finished (compound form parts).completion]

theorem log_work (u : Unfolding) : Completion.log u.work = u.log := by
  cases u <;> rfl

/-! ## The work of parts -/

/-- The first part of a compound is reified before the others. -/
theorem completion_cons (form : Form) (u : Unfolding) (us : List Unfolding) :
    (compound form (u :: us)).completion = (compound form us).completion.after u.work := by
  cases u with
  | leaf | compound =>
    simp only [completion, work, Completion.after, size, sizeAll, Completion.mk.injEq]
    omega

end Unfolding

/-! ## Trees of terms -/

namespace Substitution.Acyclic

variable {registry : Registry} {s : Substitution} {a b x value : Term}

def unfold (hs : s.Acyclic registry) (a : Term) : Unfolding :=
  if _ha : registry.isVariable a = true then
    match _hvalue : s.lookup a with
    | some value => hs.unfold value
    | none => .leaf a
  else
    match a.decompose with
    | some (form, _) => .compound form (a.parts.attach.map fun ⟨p, _⟩ => hs.unfold p)
    | none => .leaf a
termination_by hs.wellFounded.wrap a
decreasing_by
  · exact leads_of_lookup _ha _hvalue
  · exact leads_of_mem_parts (by simpa using _ha) ‹_›

variable (hs : s.Acyclic registry)

theorem unfold_of_lookup (hx : registry.isVariable x = true) (h : s.lookup x = some value) :
    hs.unfold x = hs.unfold value := by
  rw [unfold, dif_pos hx]
  split <;> simp_all

/-- Resolved variables and atoms stay. -/
theorem unfold_of_resolved (ha : s.Resolved registry a)
    (h : registry.isVariable a = true ∨ a.decompose = none) : hs.unfold a = .leaf a := by
  rw [unfold]
  split
  next hvar =>
    split
    next hvalue => simp [ha hvar] at hvalue
    next => rfl
  next hvar =>
    have hnone : a.decompose = none := by simpa [hvar] using h
    simp only [hnone]

theorem unfold_of_decompose {form : Form} {parts : List Term}
    (ha : registry.isVariable a = false) (h : a.decompose = some (form, parts)) :
    hs.unfold a = .compound form (parts.map hs.unfold) := by
  rw [unfold, dif_neg (by simp [ha]), Term.eq_parts_of_decompose h]
  simp only [h, List.map_subtype, List.unattach_attach]

/-- A term and the end of its chain have the same tree. -/
theorem unfold_of_walk (h : s.walk registry a = some b) : hs.unfold a = hs.unfold b := by
  refine walk_preserves (P := fun c => hs.unfold a = hs.unfold c) ?_ h rfl
  intro x value hx hvalue heq
  rw [heq, hs.unfold_of_lookup hx hvalue]

/-- The tree, put together, is the image. -/
theorem build_unfold (a : Term) : (hs.unfold a).build = hs.image a := by
  induction a using hs.wellFounded.induction with
  | _ a ih =>
    cases hvar : registry.isVariable a with
    | true =>
      cases hlookup : s.lookup a with
      | none =>
        rw [hs.unfold_of_resolved (fun _ => hlookup) (.inl hvar), Unfolding.build,
          hs.image_of_resolved (fun _ => hlookup) (.inl hvar)]
      | some value =>
        rw [hs.unfold_of_lookup hvar hlookup, hs.image_of_lookup hvar hlookup]
        exact ih value (leads_of_lookup hvar hlookup)
    | false =>
      have hresolved := resolved_of_isVariable_eq_false (s := s) hvar
      cases hform : a.decompose with
      | none =>
        rw [hs.unfold_of_resolved hresolved (.inr hform), Unfolding.build,
          hs.image_of_resolved hresolved (.inr hform)]
      | some d =>
        obtain ⟨form, parts⟩ := d
        have hparts : parts.map (Unfolding.build ∘ hs.unfold) = parts.map hs.image := by
          refine List.map_congr_left fun p hp => ?_
          rw [Term.eq_parts_of_decompose hform] at hp
          exact ih p (leads_of_mem_parts hvar hp)
        rw [hs.unfold_of_decompose hvar hform, Unfolding.build, Unfolding.buildAll_eq_map,
          List.map_map, hparts, hs.image_of_decompose hvar hform]

end Substitution.Acyclic

/-! ## The work of frames and terms -/

namespace Reification

variable {ψ : Type} [Extension ψ] {registry : Registry} {s : Substitution}

/-- A frame goes through its pending parts one by one, announces the compound, and builds it. -/
theorem finishesIn_parts (hs : s.Acyclic registry) (form : Form) {pending : List Term}
    (h : ∀ p ∈ pending, ((Table.standard : Table ψ).procedure registry).AnswersIn ⟨p, s⟩
      (hs.image p) (hs.unfold p).work)
    (reified : List Term) :
    ((Table.standard : Table ψ).procedure registry).FinishesIn
      (.inl ⟨s, form, pending, reified, false⟩) none
      (form.build (reified.reverse ++ pending.map hs.image))
      (Unfolding.compound form (pending.map hs.unfold)).completion := by
  induction pending generalizing reified with
  | nil =>
    refine Procedure.finishesIn_of_construct rfl (Procedure.finishesIn_of_finish ?_)
    simp [Table.procedure, resume, Parts.resume]
  | cons p pending ih =>
    have hrest := ih (fun q hq => h q (List.mem_cons_of_mem _ hq)) (hs.image p :: reified)
    rw [List.map_cons, List.map_cons, Unfolding.completion_cons]
    refine Procedure.finishesIn_of_await rfl (h p List.mem_cons_self) ?_
    -- The value of the part goes to the reified ones, whether it was handed over or kept.
    refine Procedure.finishesIn_of_resume_eq ?_ (by simpa using hrest)
    rfl

/-- Under an acyclic substitution the run of the standard table does the work of the tree. -/
theorem answersIn_unfold (hs : s.Acyclic registry) (a : Term) :
    ((Table.standard : Table ψ).procedure registry).AnswersIn ⟨a, s⟩ (hs.image a)
      (hs.unfold a).work := by
  induction a using answer_induction (ψ := ψ) hs with
  | constant a ha hkind hanswer =>
    have hleaf := hkind.imp_right And.right
    rw [hs.image_of_resolved ha hleaf, hs.unfold_of_resolved ha hleaf]
    exact Procedure.answersIn_of_done hanswer
  | delegate a b hwalk hanswer ih =>
    rw [hs.image_of_walk (.refl s) hwalk, hs.unfold_of_walk hwalk]
    exact Procedure.answersIn_of_delegate hanswer ih
  | compound a form hvar hform hanswer ih =>
    rw [hs.image_of_decompose hvar hform, hs.unfold_of_decompose hvar hform]
    exact Procedure.answersIn_of_suspended hanswer (finishesIn_parts hs form ih [])

end Reification

/-! ## Unifiers -/

namespace Unifier

variable {φ ψ : Type} [Reification.Extension ψ] {registry : Registry} {s : Substitution}

/-- Reification logs one line for a term that unfolds into a compound, with the work of its tree,
and nothing for any other term. Only a run that its limit breaks off does not. -/
theorem reify_log (hs : s.Acyclic registry) (t : Term) :
    Settles (fun limit => Completion.log
      ((standard : Unifier φ ψ).reify registry limit t s).completion) (hs.unfold t).log ∧
    ∀ limit, Completion.log ((standard : Unifier φ ψ).reify registry limit t s).completion =
        (hs.unfold t).log ∨
      ((standard : Unifier φ ψ).reify registry limit t s).result = .error .unfinished := by
  have hanswers := Reification.answersIn_unfold (ψ := ψ) hs t
  constructor
  · obtain ⟨enough, hrun⟩ := Procedure.settles_of_answersIn hanswers
    refine ⟨enough, fun limit hle => ?_⟩
    simp only [reify, standard, hrun limit hle]
    exact (hs.unfold t).log_work
  · intro limit
    rw [reify, standard]
    obtain hrun | hfail := Procedure.run_eq_or_unfinished hanswers limit
    · rw [hrun]
      exact .inl (hs.unfold t).log_work
    · right
      rw [Report.answered, hfail]

/-- A variable that occurs twice is reified twice, also if it is bound to a set that shrinks to one
element. A registered list is not entered, and an empty tuple is still announced and built. -/
theorem reify_log_example :
    let registry := Registry.empty.insert (.list [.atom (.int 9)])
    let s := (Substitution.empty.bind (.var (.fresh 0))
      (.set [.atom (.int 1), .var (.fresh 1)])).bind (.var (.fresh 1)) (.atom (.int 1))
    let t : Term := .tuple [.var (.fresh 0), .map [(.list [.atom (.int 9)], .tuple [])],
      .var (.fresh 0)]
    Settles (fun limit => Completion.log
      ((standard : Unifier Empty Empty).reify registry limit t s).completion)
      [.finished ⟨19, 3⟩] := by
  intro registry s t
  have hs : s.Acyclic registry := by
    refine ((acyclic_empty registry).bind_of_subterms ?_).bind_of_subterms ?_
    all_goals decide +kernel
  have hatom : hs.unfold (.atom (.int 1)) = .leaf (.atom (.int 1)) :=
    hs.unfold_of_resolved (resolved_of_isVariable_eq_false (by decide +kernel)) (.inr rfl)
  have hone : s.lookup (.var (.fresh 1)) = some (.atom (.int 1)) := by decide +kernel
  have hzero : s.lookup (.var (.fresh 0)) = some (.set [.atom (.int 1), .var (.fresh 1)]) := by
    decide +kernel
  have hset : hs.unfold (.set [.atom (.int 1), .var (.fresh 1)]) =
      .compound .set [.leaf (.atom (.int 1)), .leaf (.atom (.int 1))] := by
    rw [hs.unfold_of_decompose (a := .set _) (by decide +kernel) rfl]
    simp only [List.map_cons, List.map_nil, hatom, hs.unfold_of_lookup rfl hone]
  have hlist : hs.unfold (.list [.atom (.int 9)]) = .leaf (.list [.atom (.int 9)]) :=
    hs.unfold_of_resolved (fun _ => by decide +kernel) (.inl (by decide +kernel))
  have hempty : hs.unfold (.tuple []) = .compound .tuple ([].map hs.unfold) :=
    hs.unfold_of_decompose (by decide +kernel) rfl
  have hmap : hs.unfold (.map [(.list [.atom (.int 9)], .tuple [])]) =
      .compound .map [.leaf (.list [.atom (.int 9)]), .compound .tuple []] := by
    rw [hs.unfold_of_decompose (a := .map _) (by decide +kernel) rfl]
    simp only [Term.flatten_cons, Term.flatten_nil, List.map_cons, List.map_nil, hlist, hempty]
  have htree : hs.unfold t = .compound .tuple [hs.unfold (.var (.fresh 0)),
      hs.unfold (.map [(.list [.atom (.int 9)], .tuple [])]), hs.unfold (.var (.fresh 0))] :=
    hs.unfold_of_decompose (a := t) (by decide +kernel) rfl
  obtain ⟨hsettles, -⟩ := reify_log (φ := Empty) (ψ := Empty) hs t
  rw [htree, hs.unfold_of_lookup rfl hzero, hset, hmap] at hsettles
  exact hsettles

end Unifier

end LogicTerms
