import LogicTerms.Evaluation.Run

/-!
# Scripted computations

Computations on 64-bit integers that follow a script, to watch runs with. A scripted frame awaits
other scripts, announces a result and finishes as it is told, and adds up what it gets; a link of a
chain waits for the rest of the chain.
-/

namespace LogicTerms

mutual

/-- Work with an integer as its value: the value itself, a chain of nested computations, or a frame
with a name that takes one action after the other. -/
inductive Script where
  | done (value : Int64)
  | chain (length : Nat) (leaf : Int64)
  | frame (name : String) (actions : List Script.Action)

inductive Script.Action where
  | await (work : Script)
  | construct
  | finish (value : Int64)

end

namespace Script

inductive Frame where
  | link (rest : Nat) (leaf : Int64) (waited : Bool)
  | scripted (name : String) (total : Int64) (actions : List Action)

def computation : Script → Computation Frame Int64
  | done value => .done value
  | chain 0 leaf => .done leaf
  | chain (rest + 1) leaf => .suspended (.link rest leaf false)
  | frame name actions => .suspended (.scripted name 0 actions)

/-- A link adds one to the value of the rest, and is -1 if there was none. A scripted frame
without further actions finishes with its total. -/
def Frame.resume {ε : Type} : Frame → Option Int64 → Step Frame Int64 ε
  | link rest leaf false, _ => .await (computation (.chain rest leaf)) (link rest leaf true)
  | link _ _ true, some value => .finish (value + 1)
  | link _ _ true, none => .finish (-1)
  | scripted name total actions, input =>
    let total := total + input.getD 0
    match actions with
    | [] => .finish total
    | .await work :: actions => .await (computation work) (scripted name total actions)
    | .construct :: actions => .construct (scripted name total actions)
    | .finish value :: _ => .finish value

def run {ω : Type} (script : Script) (observer : Observer Frame Int64 ω) (limit : Nat) (seen : ω) :
    Option (Report Int64 Empty ω) :=
  script.computation.run Frame.resume observer limit seen

end Script

end LogicTerms
