import JsonRules.Rule.Perform

/-!
# Interpreting a rule as it stands

`Rule.interpret` evaluates a rule by recursion on its JSON, without a tree: what is no object stands
for itself, and of an object only the first key counts. It is the meaning of a rule that compiling
has to keep.
-/

namespace JsonRules
namespace Rule

mutual

/-- The program of a rule on its data. A rule that names no operator, or gives one the wrong number
of arguments, has none. -/
def interpret (data : Json) : Json → Program Json
  | .obj [] => .done .null
  | .obj ((name, .arr items) :: _) =>
    match Operator.ofName? name with
    | none => .fail (.unknownOperator name)
    | some op =>
      if op.isIteration then interpretIteration data op items
      else do
        let operands ← interpretAll data items
        .note (.dispatch op operands.length) (op.perform operands data)
  | .obj ((name, v) :: _) =>
    match Operator.ofName? name with
    | none => .fail (.unknownOperator name)
    | some op =>
      if op.isIteration then .fail (.operandCount op 1)
      else do
        let operand ← interpret data v
        .note (.dispatch op 1) (op.perform [operand] data)
  | v => .done v

/-- The values of arguments, from left to right. -/
def interpretAll (data : Json) : List Json → Program (List Json)
  | [] => .done []
  | v :: rest => do
    let v ← interpret data v
    let vs ← interpretAll data rest
    return v :: vs

/-- The program of an operator that applies its second argument to the items of its first: the source
comes first, then the initial value, and then the predicate on every item. -/
def interpretIteration (data : Json) (op : Operator) : List Json → Program Json
  | [source, predicate] => do
    let source ← interpret data source
    op.iterate (fun item => interpret item predicate) source.items none
  | [source, predicate, initial] => do
    let source ← interpret data source
    let initial ← interpret data initial
    op.iterate (fun item => interpret item predicate) source.items (some initial)
  | args => .fail (.operandCount op args.length)

end

end Rule
end JsonRules
