import JsonRules.Run.Program

/-!
# What operators do

`Operator.perform` is the program of an operator on evaluated operands, and `Operator.iterate` that of an
iteration over items, whatever evaluates its predicate on one of them. Neither knows of rules or of trees.

Three of the iterations only ask whether the predicate holds of some item, of every one or of none.
They stop at the item that answers the question.
-/

namespace JsonRules

/-- The items that an iteration runs over: none unless the source is an array. -/
def Json.items : Json → List Json
  | .arr items => items
  | _ => []

/-- What the predicate of a reduction has for its data. -/
def Json.reduction (item accumulator : Json) : Json :=
  .obj [("current", item), ("accumulator", accumulator)]

namespace Operator

/-- The program of an iteration over items, where `step` evaluates the predicate on one of them. The
searches stop at the item that decides them. -/
def iterate (op : Operator) (step : Json → Program Json) (items : List Json)
    (initial : Option Json) : Program Json :=
  match op with
  | .someItem => .bool <$> items.anyM fun v => Json.truthy <$> step v
  | .everyItem => .bool <$> items.allM fun v => Json.truthy <$> step v
  | .noItem => (fun found => .bool !found) <$> items.anyM fun v => Json.truthy <$> step v
  | .map => .arr <$> items.mapM step
  | .filter => .arr <$> items.filterM fun v => Json.truthy <$> step v
  | .reduce =>
    items.foldlM (fun accumulator item => step (Json.reduction item accumulator))
      (initial.getD (.ofInt 0))
  | op => .fail (.notIteration op)

/-- Calls the host function that the first operand names with the other operands. -/
def callHost : List Json → Program Json
  | [] => .fail .missingFunctionName
  | .str name :: args => .call name args .done
  | v :: _ => .fail (.functionNotRegistered v.text)

/-- The program of an operator on evaluated operands. -/
def perform (op : Operator) (operands : List Json) (data : Json) : Program Json :=
  match op with
  | .apply => callHost operands
  | .log =>
    match Operator.log.result operands data with
    | .ok v => .note (.log v) (.done v)
    | .error e => .fail e
  | op => .ofResult (op.result operands data)

end Operator

/-! ## Iterations that search -/

/-- What an iteration looks for. -/
structure Search where
  /-- Whether the value of the predicate on an item settles the answer. -/
  decides : Json → Bool
  /-- The answer where an item settles it. If none does, the answer is the opposite. -/
  verdict : Bool

/-- What an operator looks for, if it searches. -/
def Operator.search? : Operator → Option Search
  | .someItem => some ⟨Json.truthy, true⟩
  | .everyItem => some ⟨fun v => !v.truthy, false⟩
  | .noItem => some ⟨Json.truthy, false⟩
  | _ => none

/-- The answer of a search from the values of the predicate on the items. -/
def Search.answer (q : Search) (values : List Json) : Bool := values.any q.decides == q.verdict

end JsonRules
