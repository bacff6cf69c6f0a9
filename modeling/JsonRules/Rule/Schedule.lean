import JsonRules.Host.Registry
import JsonRules.Rule.Evaluate

/-!
# Rules in post-order

A tree as a list of steps on a stack of values: first the steps of the arguments from left to right,
then the step of their operator. A predicate is no part of the list, since it runs once for every
item.

`Step.visits` carries out steps on a stack, up to and including the first that fails, and keeps what
each of them leaves behind. `Visit.record` is what a step has to record, told by its operator and its
operands alone.
-/

namespace JsonRules

/-- A step of an evaluation on a stack, whose top is the last value. -/
inductive Step where
  | push (value : Json)
  /-- An operator takes so many values from the stack. -/
  | perform (operator : Operator) (count : Nat)
  /-- An iteration takes its source from the stack, and its initial value if it has one. -/
  | iterate (operator : Operator) (predicate : Node) (hasInitial : Bool)

namespace Node

mutual

/-- The steps of a tree. -/
def postorder : Node → List Step
  | .literal v => [.push v]
  | .empty => [.push .null]
  | .operation op args => postorderOfAll args ++ [.perform op args.length]
  | .iteration op source predicate none => source.postorder ++ [.iterate op predicate false]
  | .iteration op source predicate (some initial) =>
    source.postorder ++ initial.postorder ++ [.iterate op predicate true]

def postorderOfAll : List Node → List Step
  | [] => []
  | n :: rest => n.postorder ++ postorderOfAll rest

end

end Node

namespace Step

/-- The program of one step on a stack. -/
def program (data : Json) : List Json → Step → Program (List Json)
  | stack, .push v => .done (v :: stack)
  | stack, .perform op count => do
    let v ← .note (.dispatch op count) (op.perform (stack.take count).reverse data)
    return v :: stack.drop count
  | source :: stack, .iterate op predicate false => do
    return (← op.iterate predicate.evaluate source.items none) :: stack
  | initial :: source :: stack, .iterate op predicate true => do
    return (← op.iterate predicate.evaluate source.items (some initial)) :: stack
  | stack, .iterate _ _ _ => .done stack

/-- The program of steps one after the other. -/
def programOfAll (data : Json) (steps : List Step) (stack : List Json) : Program (List Json) :=
  steps.foldlM (program data) stack

end Step

/-! ## Steps one after the other -/

variable {σ : Type}

/-- A step that was carried out on a stack, and what it has left behind. -/
structure Visit (σ : Type) where
  step : Step
  stack : List Json
  trail : Trail σ (Result (List Json))

/-- Carries out steps one after the other, up to and including the first that fails. -/
def Step.visits (host : Host σ) (data : Json) : List Step → List Json → σ → List (Visit σ)
  | [], _, _ => []
  | step :: rest, stack, s =>
    let t := (program data stack step).run host s
    ⟨step, stack, t⟩ ::
      match t.result with
      | .error _ => []
      | .ok stack => visits host data rest stack t.state

/-- The event of an operator on its operands: `log` passes its operand on, and `apply` calls the
function that its first operand names, if there is one that may be called. -/
def Operator.event? (r : Registry σ) (mode : Mode) : Operator → List Json → Option Event
  | .log, [v] => some (.note (.log v))
  | .apply, .str name :: args => if r.accepts mode name then some (.call name args) else none
  | _, _ => none

namespace Visit

/-- The event of a step. Only the step of an operator has one. -/
def event? (r : Registry σ) (mode : Mode) (v : Visit σ) : Option Event :=
  match v.step with
  | .perform op count => op.event? r mode (v.stack.take count).reverse
  | _ => none

/-- What a step records: that the operands of its operator are there, and its event. -/
def record (r : Registry σ) (mode : Mode) (v : Visit σ) : List Event :=
  match v.step with
  | .perform op count => .note (.dispatch op count) :: (v.event? r mode).toList
  | _ => []

end Visit
end JsonRules
