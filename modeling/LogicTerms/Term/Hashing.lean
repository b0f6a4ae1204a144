import LogicTerms.Term.Traversal

/-!
# What a hasher is fed

A term is hashed visit by visit. Each visit feeds its kind and its content, and the name of a
variable is hashed like a term of its own. `Term.words` tells the same by recursion on the term
(`LogicTerms.Proofs.Term.Visits`).
-/

namespace LogicTerms

/-- One thing that a hasher is fed: the place of a constructor among those of its type, or a value
that has no constructors. -/
inductive Word where
  | tag (number : Nat)
  | bool (value : Bool)
  | int (value : Int64)
  | char (value : Char)
  | str (value : String)
  | nat (value : Nat)
deriving DecidableEq

def Atom.words : Atom → List Word
  | none => [.tag 0]
  | bool value => [.tag 1, .bool value]
  | int value => [.tag 2, .int value]
  | char value => [.tag 3, .char value]
  | str value => [.tag 4, .str value]

def Visit.words : Visit → List Word
  | leave => [.tag 0]
  | atom value => .tag 1 :: value.words
  | var (.fresh number) => [.tag 2, .tag 0, .nat number]
  | var (.named _) => [.tag 2, .tag 1]
  | enter shape => [.tag 3, .tag shape.index]

def Cursor.words (c : Cursor) : List Word :=
  match _h : c.next with
  | none => []
  | some (.var (.named name), d) =>
    Visit.words (.var (.named name)) ++ ((start name).words ++ d.words)
  | some (v, d) => v.words ++ d.words
termination_by c.weight
decreasing_by
  · exact weight_name _h
  · exact weight_next _h
  · exact weight_next _h

mutual

def Term.words : Term → List Word
  | .atom value => .tag 1 :: value.words
  | .var name => .tag 2 :: name.words
  | .tuple items => .tag 3 :: .tag Shape.tuple.index :: (Term.wordsAll items ++ [.tag 0])
  | .list items => .tag 3 :: .tag Shape.list.index :: (Term.wordsAll items ++ [.tag 0])
  | .set elements => .tag 3 :: .tag Shape.set.index :: (Term.wordsAll elements ++ [.tag 0])
  | .map entries => .tag 3 :: .tag Shape.map.index :: (Term.wordsEntries entries ++ [.tag 0])
  | .slice start stop step =>
    .tag 3 :: .tag Shape.slice.index ::
      (start.words ++ (stop.words ++ (step.words ++ [.tag 0])))

def Var.words : Var → List Word
  | .fresh number => [.tag 0, .nat number]
  | .named name => .tag 1 :: name.words

def Term.wordsAll : List Term → List Word
  | [] => []
  | t :: ts => t.words ++ Term.wordsAll ts

def Term.wordsEntries : List (Term × Term) → List Word
  | [] => []
  | (key, value) :: entries => key.words ++ (value.words ++ Term.wordsEntries entries)

end

namespace Term

@[simp] theorem wordsAll_flatten (entries : List (Term × Term)) :
    wordsAll (flatten entries) = wordsEntries entries := by
  induction entries with
  | nil => rfl
  | cons entry entries ih =>
    obtain ⟨key, value⟩ := entry
    simp [wordsAll, wordsEntries, ih]

/-- A compound feeds its kind, the words of its parts, and a closing mark. -/
theorem words_of_isCompound {t : Term} (h : t.isCompound = true) :
    t.words = .tag 3 :: .tag t.shape.index :: (wordsAll t.parts ++ [.tag 0]) := by
  cases t <;> simp_all [isCompound, words, shape, parts, wordsAll]

end Term

end LogicTerms
