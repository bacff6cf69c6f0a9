import JsonRules.Json
import JsonRules.Json.Compare
import JsonRules.Rule.Error
import JsonRules.Text

/-!
# What operators give

`Operator.result` is the value of an operator on operands that are already evaluated, or the reason
why there is none. It depends on the data only through `var`.
-/

namespace JsonRules

/-- The result of a step that can fail. -/
abbrev Result (α : Type) := Except RuleError α

theorem Result.bind_eq_ok {α β : Type} {x : Result α} {f : α → Result β} {b : β} :
    (x >>= f) = .ok b ↔ ∃ a, x = .ok a ∧ f a = .ok b := by
  cases x with
  | error e => exact ⟨nofun, nofun⟩
  | ok a => exact ⟨fun h => ⟨a, rfl, h⟩, fun ⟨_, rfl, h⟩ => h⟩

theorem Result.map_eq_ok {α β : Type} {x : Result α} {f : α → β} {b : β} :
    f <$> x = .ok b ↔ ∃ a, x = .ok a ∧ f a = b := by
  cases x with
  | error e => exact ⟨nofun, nofun⟩
  | ok a => exact ⟨fun h => ⟨a, rfl, Except.ok.inj h⟩, fun ⟨_, rfl, h⟩ => congrArg _ h⟩

theorem Result.map_eq_error {α β : Type} {x : Result α} {f : α → β} {e : RuleError} :
    f <$> x = .error e ↔ x = .error e := by
  cases x with
  | error e' =>
    constructor <;>
    · intro h
      cases h
      rfl
  | ok a => exact ⟨nofun, nofun⟩

namespace Json

/-- The number that an operand counts as, where strings count as none. -/
def asNumber (v : Json) : Result Double :=
  match v.numeric? with
  | some x => .ok x
  | none => .error (.typeMismatch (.notNumber v.kind))

/-- The number that an operand counts as, where a string counts as the number it spells. -/
def coerceNumber (v : Json) : Result Extended :=
  match v with
  | .str s =>
    match Extended.ofText? (trimBlanks s.toList) with
    | some x => .ok x
    | none => .error (.typeMismatch (.notNumeral s))
  | v => v.asNumber.map .finite

/-- The result of arithmetic as a value: an integer wherever it is one. -/
def ofArithmetic (x : Extended) : Result Json :=
  match Number.ofExtended? x with
  | some n => .ok (.num n)
  | none => .error (.typeMismatch (.notFinite x))

/-- The order of two values that must have one. -/
def compareValues (a b : Json) : Result Ordering :=
  match a.order? b with
  | .ok o => .ok o
  | .error (j, k) => .error (.typeMismatch (.incomparable j k))

/-- The path that an operand gives: null is the empty path, numbers and booleans their text. -/
def asPath (v : Json) : Result String :=
  match v with
  | .null => .ok ""
  | .str s => .ok s
  | .num _ | .bool _ => .ok v.text
  | v => .error (.typeMismatch (.notPath v.kind))

end Json

namespace Operator

/-- Whether each two neighbours are in an accepted order. Fewer than two values are not. -/
def chained (accept : Ordering → Bool) : List Json → Bool
  | [] => false
  | [_] => false
  | [a, b] => a.ordered accept b
  | a :: b :: rest => a.ordered accept b && chained accept (b :: rest)

/-- Adds up or multiplies from the left, strings being read as numbers. -/
def accumulate (op : Extended → Extended → Extended) (start : Int) (operands : List Json) :
    Result Json := do
  let total ← operands.foldlM (fun total v => (op total ·) <$> v.coerceNumber)
    (Extended.finite (.ofInt start))
  Json.ofArithmetic total

/-- The quotient of two operands, strings being read as numbers. -/
def quotient (a b : Json) : Result Json := do
  let dividend ← a.coerceNumber
  let divisor ← b.coerceNumber
  if divisor.isZero then .error .divisionByZero else Json.ofArithmetic (dividend / divisor)

/-- The remainder of signed words with the sign of the divisor, which is not zero. Where the signs
differ, the divisor is added to the remainder, and a remainder by -1 is zero for every word. -/
def wordRemainder (x y : Int64) : Int64 :=
  let r := x % y
  if r != 0 && decide (r < 0) != decide (y < 0) then r + y else r

/-- The remainder with the sign of the divisor. Integers of signed words are divided as words, all
else as doubles. -/
def remainder (a b : Json) : Result Json :=
  match a, b with
  | .num m, .num n =>
    match m.toSigned?, n.toSigned? with
    | some x, some y =>
      if y = 0 then .error .divisionByZero
      else .ok (.ofInt (wordRemainder (.ofInt x) (.ofInt y)).toInt)
    | _, _ => ofDoubles m.toDouble n.toDouble
  | a, b => do ofDoubles (← a.asNumber) (← b.asNumber)
where
  ofDoubles (x y : Double) : Result Json :=
    if y.isZero then .error .divisionByZero else Json.ofArithmetic (x.floorMod y)

/-- The operand that no other comes before, where `replaces` says which orders make a later operand
take the place of the best so far. -/
def extremum (replaces : Ordering → Bool) (first : Json) (others : List Json) : Result Json :=
  others.foldlM (fun best v => do
    return if replaces (← v.compareValues best) then v else best) first

/-- Whether a value is an item of an array, the name of a field, or a part of a string. -/
def isMember (needle container : Json) : Result Bool :=
  match container with
  | .arr items => .ok (items.any (needle.equal ·))
  | .obj fields =>
    match needle with
    | .str name => .ok (Json.field? name fields).isSome
    | _ => .ok false
  | .str text =>
    match needle with
    | .str part => .ok (occursIn part.toList text.toList)
    | v => .error (.typeMismatch (.notString v.kind))
  | _ => .ok false

/-- The items of all arrays among the operands. -/
def merged (operands : List Json) : List Json :=
  operands.flatMap fun
    | .arr items => items
    | _ => []

/-- The value at a path of the data, or `missing` where there is none. -/
def lookup (path missing data : Json) : Result Json := do
  return data.atOr (← path.asPath) missing

/-- The value of an operator on its operands, if their number is right. -/
def value? (data : Json) : Operator → List Json → Result Json
  | .equal, [a, b] => .ok (a.equal b)
  | .notEqual, [a, b] => .ok (!a.equal b)
  | .same, [a, b] => .ok (a.same b)
  | .notSame, [a, b] => .ok (!a.same b)
  | .greater, [a, b] => (fun o => .bool o.isGT) <$> a.compareValues b
  | .greaterOrEqual, [a, b] => (fun o => .bool o.isGE) <$> a.compareValues b
  | .less, operands => .ok (chained Ordering.isLT operands)
  | .lessOrEqual, operands => .ok (chained Ordering.isLE operands)
  | .not, [a] => .ok (!a.truthy)
  | .all, operands => .ok (operands.all Json.truthy)
  | .any, operands => .ok (operands.any Json.truthy)
  | .choose, [condition, yes, no] => .ok (if condition.truthy then yes else no)
  | .add, operands => accumulate Extended.add 0 operands
  | .multiply, operands => accumulate Extended.mul 1 operands
  | .subtract, [a] => do Json.ofArithmetic (.finite (← a.asNumber).neg)
  | .subtract, [a, b] => do
    Json.ofArithmetic (.sub (.finite (← a.asNumber)) (.finite (← b.asNumber)))
  | .divide, [a] => .ok a
  | .divide, [a, b] => quotient a b
  | .modulo, [a, b] => remainder a b
  | .min, first :: others => extremum Ordering.isLT first others
  | .max, first :: others => extremum Ordering.isGT first others
  | .var, [path] => lookup path .null data
  | .var, [path, missing] => lookup path missing data
  | .contains, [needle, container] => .bool <$> isMember needle container
  | .count, operands => .ok (.ofInt (operands.countP Json.truthy))
  | .merge, operands => .ok (.arr (merged operands))
  | .concat, operands => .ok (.str (String.join (operands.map Json.display)))
  | .log, [a] => .ok a
  | op, operands => .error (.operandCount op operands.length)

/-- The value of an operator on evaluated operands. Host functions and iterations have none. -/
def result (op : Operator) (operands : List Json) (data : Json) : Result Json :=
  if !op.arity.accepts operands.length then .error (.operandCount op operands.length)
  else if op.isIteration || op == .apply then .error (.needsRun op)
  else op.value? data operands

end Operator
end JsonRules
