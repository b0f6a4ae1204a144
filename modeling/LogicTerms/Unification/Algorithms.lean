import LogicTerms.Evaluation.Delegation
import LogicTerms.Substitution
import LogicTerms.Term.Render

/-!
# Unification by shapes

One algorithm for each pair of shapes. An algorithm decides at once, or suspends and asks for the
unification of pairs of smaller terms, from left to right. A table holds the algorithms and answers
what they ask; the first clash is the answer to all that asked for it.
-/

namespace LogicTerms

/-- Why two terms do not unify: different numbers of elements, a key of the left map that the right
one lacks, different atoms, or different shapes. -/
inductive Clash where
  | lengthMismatch (left right : Nat)
  | missingKey (key : Term)
  | atomMismatch (left right : Atom)
  | shapeClash (left right : Shape)
deriving DecidableEq

def Clash.message : Clash → String
  | lengthMismatch left right =>
    "length mismatch: " ++ toString left ++ " elements against " ++ toString right
  | missingKey key => "key " ++ key.dump ++ " is missing from the right-hand mapping"
  | atomMismatch left right => "atoms " ++ left.display ++ " and " ++ right.display ++ " differ"
  | shapeClash left right => "cannot unify a " ++ left.name ++ " with a " ++ right.name

namespace Unification

inductive Task where
  | pair (u v : Term) (under : Substitution)
  | pairs (list : List (Term × Term)) (under : Substitution)

abbrev Result := Except Clash Substitution

/-- The pairs that are still to be unified, and the substitution to start from. -/
structure Pairs where
  pending : List (Term × Term)
  under : Substitution

abbrev Frame (φ : Type) := Pairs ⊕ φ

abbrev Reply (φ : Type) := Query Task (Frame φ) Result (Computation (Frame φ) Result)

abbrev Algorithm (φ : Type) := Registry → Term → Term → Substitution → Reply φ

class Extension (φ : Type) where
  resume : φ → Option Result → Query Task (Frame φ) Result (Step (Frame φ) Result Fault)

instance : Extension Empty := ⟨fun frame => nomatch frame⟩

variable {φ : Type}

/-- Takes over the substitution of the last pair and asks for the next pair. The substitution goes
to that pair, and the frame is left with the empty one. The first clash is the result. -/
def Pairs.resume (frame : Pairs) (input : Option Result) :
    Query Task (Frame φ) Result (Step (Frame φ) Result Fault) :=
  let next (under : Substitution) : Query Task (Frame φ) Result (Step (Frame φ) Result Fault) :=
    match frame.pending with
    | (u, v) :: pending => .await (.pair u v under) (.inl ⟨pending, Substitution.empty⟩)
    | [] => .done (.finish (.ok under))
  match input with
  | some (.ok under) => next under
  | some (.error clash) => .done (.finish (.error clash))
  | none => next frame.under

def resume [Extension φ] : Frame φ → Option Result →
    Query Task (Frame φ) Result (Step (Frame φ) Result Fault)
  | .inl frame, input => frame.resume input
  | .inr frame, input => Extension.resume frame input

/-! ## Algorithms -/

def answer (result : Result) : Reply φ := .done (.done result)

def all (pairs : List (Term × Term)) (under : Substitution) : Reply φ :=
  .done (.suspended (.inl ⟨pairs, under⟩))

/-- Equal terms unify. No other pair of atoms, or of terms of different shapes, does. -/
def rigid : Algorithm φ := fun _ u v under =>
  if u = v then answer (.ok under)
  else
    match u, v with
    | .atom left, .atom right => answer (.error (.atomMismatch left right))
    | _, _ => answer (.error (.shapeClash u.shape v.shape))

/-- Binds the variable `u` unless it is bound; then its value is unified in its place. -/
def variableLeft : Algorithm φ := fun registry u v under =>
  match under.walk registry u, under.walk registry v with
  | some u', some v' =>
    if u' = u then answer (.ok (if u = v' then under else under.bind u v'))
    else .delegate (.pair u' v' under)
  | _, _ => .fail .unfinished

def variableRight : Algorithm φ := fun registry u v under => variableLeft registry v u under

def elementwise (left right : List Term) (under : Substitution) : Reply φ :=
  if left.length = right.length then all (left.zip right) under
  else answer (.error (.lengthMismatch left.length right.length))

def sequences : Algorithm φ := fun registry u v under =>
  match u.items?, v.items? with
  | some left, some right => elementwise left right under
  | _, _ => rigid registry u v under

/-- Elements of both sets are left out, and the others are paired in order. -/
def sets : Algorithm φ := fun registry u v under =>
  match u, v with
  | .set left, .set right =>
    elementwise (Elements.difference left right) (Elements.difference right left) under
  | _, _ => rigid registry u v under

/-- Pairs the values of equal keys; the first key without a partner is the error. -/
def valuePairs (right : List (Term × Term)) :
    List (Term × Term) → Except Clash (List (Term × Term))
  | [] => .ok []
  | (key, value) :: left =>
    match Entries.lookup key right with
    | none => .error (.missingKey key)
    | some other => (valuePairs right left).map ((value, other) :: ·)

def maps : Algorithm φ := fun registry u v under =>
  match u, v with
  | .map left, .map right =>
    if left.length = right.length then
      match valuePairs right left with
      | .ok pairs => all pairs under
      | .error clash => answer (.error clash)
    else answer (.error (.lengthMismatch left.length right.length))
  | _, _ => rigid registry u v under

def slices : Algorithm φ := fun registry u v under =>
  match u, v with
  | .slice start stop step, .slice start' stop' step' =>
    all [(start, start'), (stop, stop'), (step, step')] under
  | _, _ => rigid registry u v under

/-! ## Tables -/

structure Table (φ : Type) where
  dispatch : DispatchTable (Algorithm φ) 2

namespace Table

def empty : Table φ := ⟨DispatchTable.empty⟩

def register (table : Table φ) (left right : Pattern) (algorithm : Algorithm φ) : Table φ :=
  ⟨table.dispatch.register #v[left, right] algorithm⟩

def standard : Table φ :=
  empty
    |>.register (.exact .var) .any variableLeft
    |>.register .any (.exact .var) variableRight
    |>.register (.exact .tuple) (.exact .tuple) sequences
    |>.register (.exact .list) (.exact .list) sequences
    |>.register (.exact .set) (.exact .set) sets
    |>.register (.exact .map) (.exact .map) maps
    |>.register (.exact .slice) (.exact .slice) slices
    |>.register .any .any rigid

/-- Two terms go to the algorithm for their shapes, and pairs to a frame of their own. -/
def reply (table : Table φ) (registry : Registry) : Task → Reply φ
  | .pair u v under =>
    match table.dispatch.lookup #v[registry.dispatchShape u, registry.dispatchShape v] with
    | .ok algorithm => algorithm registry u v under
    | .error miss => .fail (.noAlgorithm miss)
  | .pairs list under => all list under

def procedure [Extension φ] (table : Table φ) (registry : Registry) :
    Procedure Task (Frame φ) Result :=
  ⟨table.reply registry, resume⟩

def dump (table : Table φ) : String := "UnifyTable \x7b table: " ++ table.dispatch.dump ++ " \x7d"

end Table

end Unification

end LogicTerms
