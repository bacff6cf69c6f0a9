import JsonRules.Rule.Perform
import JsonRules.Rule.Tree

/-!
# Evaluating a rule tree

`Node.evaluate` is the program of a tree on its data. The arguments of an operation are evaluated
from left to right, all of them, before its operator sees them. An iteration evaluates its source and
its initial value and then its predicate on one item after another, as far as the operator needs.

`Node.evaluateWithin` evaluates a tree with a limit on how many nodes are under evaluation at a time.
Past the limit it does something else, which is left open.
-/

namespace JsonRules
namespace Node

mutual

/-- The program of a tree on its data. -/
def evaluate : Node → Json → Program Json
  | .literal v, _ => .done v
  | .empty, _ => .done .null
  | .operation op args, data => do
    let operands ← evaluateAll args data
    .note (.dispatch op operands.length) (op.perform operands data)
  | .iteration op source predicate none, data => do
    let source ← source.evaluate data
    op.iterate predicate.evaluate source.items none
  | .iteration op source predicate (some initial), data => do
    let source ← source.evaluate data
    let initial ← initial.evaluate data
    op.iterate predicate.evaluate source.items (some initial)

/-- The values of arguments, from left to right. -/
def evaluateAll : List Node → Json → Program (List Json)
  | [], _ => .done []
  | n :: rest, data => do
    let v ← n.evaluate data
    let vs ← evaluateAll rest data
    return v :: vs

end

/-! ## Evaluation that nests so deep only -/

/-- The program of a tree where no more than `limit` nodes are under evaluation at a time, each inside
the one before. What is nested deeper is not evaluated: the program `beyond` stands in for it. -/
def evaluateWithin (beyond : Program Json) : Nat → Node → Json → Program Json
  | 0, _, _ => beyond
  | _ + 1, .literal v, _ => .done v
  | _ + 1, .empty, _ => .done .null
  | limit + 1, .operation op args, data => do
    let operands ← args.mapM fun n => evaluateWithin beyond limit n data
    .note (.dispatch op operands.length) (op.perform operands data)
  | limit + 1, .iteration op source predicate none, data => do
    let source ← evaluateWithin beyond limit source data
    op.iterate (evaluateWithin beyond limit predicate) source.items none
  | limit + 1, .iteration op source predicate (some initial), data => do
    let source ← evaluateWithin beyond limit source data
    let initial ← evaluateWithin beyond limit initial data
    op.iterate (evaluateWithin beyond limit predicate) source.items (some initial)

end Node
end JsonRules
