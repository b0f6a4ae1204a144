import LogicTerms.Registry

/-!
# Substitutions

Finite maps from variables to terms. A substitution is a value: binding a variable gives a new
substitution and leaves the old one as it was. It has a version, which tells whether anything was
bound since it was copied.
-/

namespace LogicTerms

/-- Bindings in the order of the variables. Copies have the same version, and each new binding
moves on to the next version. -/
structure Substitution where
  bindings : List (Term × Term)
  version : Nat
deriving DecidableEq

namespace Substitution

def empty : Substitution := ⟨[], 0⟩

instance : Inhabited Substitution := ⟨empty⟩

/-- Later bindings of a variable replace earlier ones. -/
def ofList (bindings : List (Term × Term)) : Substitution := ⟨Entries.ofList bindings, 0⟩

def lookup (s : Substitution) (var : Term) : Option Term := Entries.lookup var s.bindings

def bind (s : Substitution) (var value : Term) : Substitution :=
  ⟨Entries.insert var value s.bindings, s.version + 1⟩

def singleton (var value : Term) : Substitution := empty.bind var value

def size (s : Substitution) : Nat := s.bindings.length

def isEmpty (s : Substitution) : Bool := s.bindings.isEmpty

def domain (s : Substitution) : List Term := s.bindings.map Prod.fst

/-- Whether one substitution is a copy of the other, with nothing bound since. -/
def SharesWith (s t : Substitution) : Prop := s.version = t.version

instance (s t : Substitution) : Decidable (s.SharesWith t) :=
  inferInstanceAs (Decidable (s.version = t.version))

@[simp] theorem lookup_empty (var : Term) : empty.lookup var = none := rfl

@[simp] theorem lookup_bind (s : Substitution) (var value t : Term) :
    (s.bind var value).lookup t = if t = var then some value else s.lookup t :=
  Entries.lookup_insert var value t s.bindings

def follow (registry : Registry) (s : Substitution) : Nat → Term → Option Term
  | 0, _ => none
  | limit + 1, t =>
    if registry.isVariable t then
      match s.lookup t with
      | some next => follow registry s limit next
      | none => some t
    else some t

/-- The first term of a chain of bindings that is no bound variable. A chain that is longer than
all bindings together comes back to itself and has no such term. -/
def walk (registry : Registry) (s : Substitution) (t : Term) : Option Term :=
  s.follow registry (s.size + 1) t

end Substitution

end LogicTerms
