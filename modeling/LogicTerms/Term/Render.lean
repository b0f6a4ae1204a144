import LogicTerms.Term.Basic
import LogicTerms.Text.Printable

/-!
# Terms as text

A term is dumped by its constructors, on one line. Characters and texts stand in quotes there, in
printable characters only. In messages a variable is marked by a tilde.
-/

namespace LogicTerms

namespace Text

def escapeCode (c : Char) : List Char :=
  ['\\', 'u', '\x7b'] ++ Nat.toDigits 16 c.toNat ++ ['\x7d']

/-- Five characters have a short escape, the surrounding quote is marked by a backslash, and what
cannot stand alone is written by its code point. -/
def escape (mark c : Char) : List Char :=
  if c = '\x00' then ['\\', '0']
  else if c = '\t' then ['\\', 't']
  else if c = '\r' then ['\\', 'r']
  else if c = '\n' then ['\\', 'n']
  else if c = '\\' || c = mark then ['\\', c]
  else if standsAlone c then [c]
  else escapeCode c

def quote (text : String) : String :=
  String.ofList ('"' :: text.toList.flatMap (escape '"') ++ ['"'])

def quoteChar (c : Char) : String :=
  String.ofList ('\'' :: escape '\'' c ++ ['\''])

end Text

namespace Atom

def display : Atom → String
  | none => "None"
  | bool true => "true"
  | bool false => "false"
  | int value => toString value.toInt
  | char value => Text.quoteChar value
  | str value => Text.quote value

def dump : Atom → String
  | none => "Atom(None)"
  | bool value => "Atom(Bool(" ++ (bool value).display ++ "))"
  | int value => "Atom(Int(" ++ (int value).display ++ "))"
  | char value => "Atom(Char(" ++ (char value).display ++ "))"
  | str value => "Atom(Str(" ++ (str value).display ++ "))"

end Atom

/-! Each dump is written behind the text that comes before it. -/

mutual

def Term.dumpAfter (before : String) : Term → String
  | .atom value => before ++ value.dump
  | .var name => name.dumpAfter (before ++ "Var(") ++ ")"
  | .tuple items => Term.dumpItemsAfter (before ++ "Tuple([") items ++ "])"
  | .list items => Term.dumpItemsAfter (before ++ "List([") items ++ "])"
  | .set elements => Term.dumpItemsAfter (before ++ "Set(\x7b") elements ++ "\x7d)"
  | .map entries => Term.dumpEntriesAfter (before ++ "Map(\x7b") entries ++ "\x7d)"
  | .slice start stop step =>
    let upToStart := start.dumpAfter (before ++ "Slice(Slice \x7b start: ")
    let upToStop := stop.dumpAfter (upToStart ++ ", stop: ")
    step.dumpAfter (upToStop ++ ", step: ") ++ " \x7d)"

def Var.dumpAfter (before : String) : Var → String
  | .fresh number => before ++ "Var \x7b token: Fresh(" ++ toString number ++ ") \x7d"
  | .named name => name.dumpAfter (before ++ "Var \x7b token: Named(") ++ ") \x7d"

def Term.dumpItemsAfter (before : String) : List Term → String
  | [] => before
  | [t] => t.dumpAfter before
  | t :: ts => Term.dumpItemsAfter (t.dumpAfter before ++ ", ") ts

def Term.dumpEntriesAfter (before : String) : List (Term × Term) → String
  | [] => before
  | [(key, value)] => value.dumpAfter (key.dumpAfter before ++ ": ")
  | (key, value) :: entries =>
    Term.dumpEntriesAfter (value.dumpAfter (key.dumpAfter before ++ ": ") ++ ", ") entries

end

def Term.dump (t : Term) : String := t.dumpAfter ""

/-- A name that is a text is not quoted, and a name that is no atom is dumped. -/
def Var.display : Var → String
  | .fresh number => "~_" ++ toString number
  | .named (.atom (.str name)) => "~" ++ name
  | .named (.atom name) => "~" ++ name.display
  | .named name => "~" ++ name.dump

end LogicTerms
