import JsonRules.Rule.Error

/-!
# Positions of a rule

A position is a place of a rule where a rule may stand: the root, and the arguments of every object
that stands at a position. `Rule.firstOffence?` goes through them in the order of the text, a parent
before its children, and gives the first thing that is wrong.

Compiling looks at the positions of a rule up to the first with a flaw, which is one that no limit on depths
would mend. `Rule.threshold` is the depth of the deepest of these: the least limit that lets it get there.

A rule can be spelled in several ways: its object may have more keys than the first, a single argument
needs no brackets, and `if` is another name of `?:`. `Rule.normal` is the spelling that uses none of
these freedoms.
-/

namespace JsonRules
namespace Rule

/-- A place where a rule stands, and how deep it is below the root. -/
structure Position where
  depth : Nat
  rule : Json

mutual

/-- The positions of a rule at some depth. -/
def positionsAt (depth : Nat) : Json → List Position
  | .obj [] => [⟨depth, .obj []⟩]
  | .obj ((name, .arr items) :: others) =>
    ⟨depth, .obj ((name, .arr items) :: others)⟩ :: positionsOfAll (depth + 1) items
  | .obj ((name, v) :: others) =>
    ⟨depth, .obj ((name, v) :: others)⟩ :: positionsAt (depth + 1) v
  | v => [⟨depth, v⟩]

def positionsOfAll (depth : Nat) : List Json → List Position
  | [] => []
  | v :: rest => positionsAt depth v ++ positionsOfAll depth rest

end

/-- All positions of a rule, a parent before its children and those from left to right. -/
def positions (rule : Json) : List Position := positionsAt 0 rule

/-- How many arguments the value of an operator's key holds. -/
def argumentCount : Json → Nat
  | .arr items => items.length
  | _ => 1

/-- What is wrong at a position, apart from its children: it is too deep, its operator is unknown, or
the operator does not take so many arguments. -/
def offence? (maxDepth : Nat) (p : Position) : Option RuleError :=
  if maxDepth < p.depth then some (.depthLimitExceeded maxDepth)
  else match p.rule with
    | .obj ((name, args) :: _) =>
      match Operator.ofName? name with
      | none => some (.unknownOperator name)
      | some op =>
        if op.arity.accepts (argumentCount args) then none
        else some (.operandCount op (argumentCount args))
    | _ => none

/-- The first thing that is wrong with a rule. -/
def firstOffence? (maxDepth : Nat) (rule : Json) : Option RuleError :=
  (positions rule).findSome? (offence? maxDepth)

/-! ## The limit that a rule needs -/

/-- What is wrong at a position, however deep rules may be. -/
def flaw? (p : Position) : Option RuleError := offence? p.depth p

/-- The depth of the deepest position up to and including the first with a flaw. -/
def depthToFlaw : List Position → Nat
  | [] => 0
  | p :: rest => if (flaw? p).isSome then p.depth else max p.depth (depthToFlaw rest)

/-- The least limit at which a rule is not refused for its depth. -/
def threshold (rule : Json) : Nat := depthToFlaw (positions rule)

/-! ## Normal spelling -/

/-- The name under which an operator is listed. -/
def listedName (name : String) : String := if name = "if" then "?:" else name

mutual

/-- The normal spelling of a rule. What is no rule stays as it is, arrays with all they hold. -/
def normal : Json → Json
  | .obj [] => .obj []
  | .obj ((name, .arr items) :: _) => .obj [(listedName name, .arr (normalAll items))]
  | .obj ((name, v) :: _) => .obj [(listedName name, .arr [normal v])]
  | v => v

def normalAll : List Json → List Json
  | [] => []
  | v :: rest => normal v :: normalAll rest

end

/-- A rule has the normal spelling, apart from its arguments: what is an object has at most one key, which
is no other name of a listed one, and over it stands a list. -/
def IsNormal : Json → Prop
  | .obj fields => fields = [] ∨ ∃ name items, fields = [(name, .arr items)] ∧ name ≠ "if"
  | _ => True

end Rule
end JsonRules
