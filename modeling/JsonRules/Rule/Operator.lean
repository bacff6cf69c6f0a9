/-!
# Operators

The operators of rules with their names, and how many operands each takes. `Operator.ofName?` knows
one more name, `if` for `?:`.
-/

namespace JsonRules

/-- The operators of rules. -/
inductive Operator where
  | equal
  | same
  | notEqual
  | notSame
  | greater
  | greaterOrEqual
  | less
  | lessOrEqual
  | not
  | all
  | any
  | choose
  | add
  | multiply
  | subtract
  | divide
  | modulo
  | min
  | max
  | var
  | contains
  | count
  | merge
  | someItem
  | everyItem
  | noItem
  | map
  | filter
  | reduce
  | concat
  | log
  | apply
deriving DecidableEq, Repr

/-- How many operands an operator takes. -/
inductive Arity where
  | exactly (n : Nat)
  | between (low high : Nat)
  | atLeast (n : Nat)
  | any
deriving DecidableEq, Repr

namespace Arity

def accepts : Arity → Nat → Bool
  | .exactly k, n => n == k
  | .between low high, n => low ≤ n && n ≤ high
  | .atLeast k, n => k ≤ n
  | .any, _ => true

/-- The text of an arity in messages. -/
def text : Arity → String
  | .exactly k => toString k
  | .between low high => s!"{low}..={high}"
  | .atLeast k => s!">= {k}"
  | .any => "任意"

end Arity

namespace Operator

/-- All operators. -/
def values : List Operator :=
  [.equal, .same, .notEqual, .notSame, .greater, .greaterOrEqual, .less, .lessOrEqual, .not, .all,
    .any, .choose, .add, .multiply, .subtract, .divide, .modulo, .min, .max, .var, .contains,
    .count, .merge, .someItem, .everyItem, .noItem, .map, .filter, .reduce, .concat, .log, .apply]

/-- The name of an operator in rules and messages. -/
def name : Operator → String
  | .equal => "=="
  | .same => "==="
  | .notEqual => "!="
  | .notSame => "!=="
  | .greater => ">"
  | .greaterOrEqual => ">="
  | .less => "<"
  | .lessOrEqual => "<="
  | .not => "!"
  | .all => "and"
  | .any => "or"
  | .choose => "?:"
  | .add => "+"
  | .multiply => "*"
  | .subtract => "-"
  | .divide => "/"
  | .modulo => "%"
  | .min => "min"
  | .max => "max"
  | .var => "var"
  | .contains => "in"
  | .count => "count"
  | .merge => "merge"
  | .someItem => "some"
  | .everyItem => "every"
  | .noItem => "none"
  | .map => "map"
  | .filter => "filter"
  | .reduce => "reduce"
  | .concat => "cat"
  | .log => "log"
  | .apply => "apply"

/-- The operator that a rule names. Names are taken as they are spelled. -/
def ofName? (s : String) : Option Operator :=
  if s = "if" then some .choose else values.find? (·.name == s)

/-- How many operands an operator takes. The comparisons in chains take any number: they are false
of fewer than two. -/
def arity : Operator → Arity
  | .equal | .same | .notEqual | .notSame | .greater | .greaterOrEqual | .modulo | .contains =>
    .exactly 2
  | .not | .log => .exactly 1
  | .choose => .exactly 3
  | .subtract | .divide | .var => .between 1 2
  | .min | .max => .atLeast 1
  | .someItem | .everyItem | .noItem | .map | .filter => .exactly 2
  | .reduce => .between 2 3
  | .less | .lessOrEqual | .all | .any | .add | .multiply | .count | .merge | .concat | .apply =>
    .any

/-- Whether an operator applies its second argument to the items of its first. -/
def isIteration : Operator → Bool
  | .someItem | .everyItem | .noItem | .map | .filter | .reduce => true
  | _ => false

end Operator
end JsonRules
