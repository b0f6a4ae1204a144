import LogicTerms.Evaluation.Delegation
import LogicTerms.Substitution

/-!
# Reification by shapes

Reification replaces the bound variables of a term by their values. A compound suspends, asks for
the reification of its parts from left to right, and is then built from the results. Two observers
look for the variables which reification leaves: they drop every compound before it is built.
-/

namespace LogicTerms.Reification

structure Task where
  term : Term
  under : Substitution

/-- The form of a compound, the parts that are still to be reified, and those that are reified
already, latest first. Once `constructing` is set, all parts are there. -/
structure Parts where
  under : Substitution
  form : Form
  pending : List Term
  reified : List Term
  constructing : Bool

/-- The frames of a table whose further algorithms have frames in `φ`. -/
abbrev Frame (φ : Type) := Parts ⊕ φ

abbrev Reply (φ : Type) := Query Task (Frame φ) Term (Computation (Frame φ) Term)

abbrev Algorithm (φ : Type) := Registry → Term → Substitution → Reply φ

class Extension (φ : Type) where
  resume : φ → Option Term → Query Task (Frame φ) Term (Step (Frame φ) Term Fault)

instance : Extension Empty := ⟨fun frame => nomatch frame⟩

variable {φ : Type}

/-- Takes over the last part and asks for the next one. After the last part the compound is
announced, and then it is built. -/
def Parts.resume (frame : Parts) (input : Option Term) :
    Query Task (Frame φ) Term (Step (Frame φ) Term Fault) :=
  let reified := match input with
    | some part => part :: frame.reified
    | none => frame.reified
  match frame.pending with
  | t :: pending => .await ⟨t, frame.under⟩ (.inl { frame with pending, reified })
  | [] =>
    if frame.constructing then .done (.finish (frame.form.build reified.reverse))
    else .done (.construct (.inl { frame with reified, constructing := true }))

def resume [Extension φ] : Frame φ → Option Term →
    Query Task (Frame φ) Term (Step (Frame φ) Term Fault)
  | .inl frame, input => frame.resume input
  | .inr frame, input => Extension.resume frame input

/-! ## Algorithms -/

def answer (t : Term) : Reply φ := .done (.done t)

def constant : Algorithm φ := fun _ t _ => answer t

def resolve : Algorithm φ := fun registry t under =>
  match under.walk registry t with
  | some value => if value = t then answer t else .delegate ⟨value, under⟩
  | none => .fail .unfinished

def compound : Algorithm φ := fun registry t under =>
  match t.decompose with
  | some (form, parts) => .done (.suspended (.inl ⟨under, form, parts, [], false⟩))
  | none => constant registry t under

/-! ## Tables -/

structure Table (φ : Type) where
  dispatch : DispatchTable (Algorithm φ) 1

namespace Table

def empty : Table φ := ⟨DispatchTable.empty⟩

def register (table : Table φ) (pattern : Pattern) (algorithm : Algorithm φ) : Table φ :=
  ⟨table.dispatch.register #v[pattern] algorithm⟩

def standard : Table φ :=
  empty
    |>.register (.exact .var) resolve
    |>.register .sequence compound
    |>.register (.exact .set) compound
    |>.register (.exact .map) compound
    |>.register (.exact .slice) compound
    |>.register .any constant

def reply (table : Table φ) (registry : Registry) (task : Task) : Reply φ :=
  match table.dispatch.lookup #v[registry.dispatchShape task.term] with
  | .ok algorithm => algorithm registry task.term task.under
  | .error miss => .fail (.noAlgorithm miss)

def procedure [Extension φ] (table : Table φ) (registry : Registry) :
    Procedure Task (Frame φ) Term :=
  ⟨table.reply registry, resume⟩

def dump (table : Table φ) : String := "ReifyTable \x7b table: " ++ table.dispatch.dump ++ " \x7d"

end Table

/-! ## Observers -/

/-- Stops at the first variable. No compound is put together. -/
def groundCheck {φ : Type} (registry : Registry) : Observer φ Term Unit where
  resumed _ _ _ := ()
  observe
    | .value t, _ => (if registry.isVariable t then .halt else .proceed, ())
    | .construct, _ => (.abandon, ())
    | .nested, _ => (.proceed, ())

/-- Collects every variable. No compound is put together. -/
def collector {φ : Type} (registry : Registry) : Observer φ Term (List Term) where
  resumed _ _ found := found
  observe
    | .value t, found =>
      (.proceed, if registry.isVariable t then Elements.insert t found else found)
    | .construct, found => (.abandon, found)
    | .nested, found => (.proceed, found)

end LogicTerms.Reification
