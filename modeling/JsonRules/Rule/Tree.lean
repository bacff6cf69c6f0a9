import JsonRules.Json
import JsonRules.Rule.Operator
import Std.Data.TreeSet

/-!
# Rule trees

A `Node` is a rule whose operators are known. `Node.references` are the paths and the host functions
that it names by literal text, in the order of the tree.

`Node.children` are the nodes right below a node, in the order of its arguments. `Node.rule` writes a
tree down as a rule, and `Operator.rule` an operator on arguments that are rules already.

`Node.WellFormed` says which trees rules have, `Node.height` how deep one is, and `Node.Holds` which
nodes stand in it, inside a predicate or outside of all. `Node.NamesVariables` and
`Node.NamesFunctions` hold of trees that name by literal text what they refer to, `Node.Avoids` of
those without an operator, `Node.NoIteration` of those whose nodes are evaluated once each.
-/

namespace JsonRules

/-- A rule as a tree. -/
inductive Node where
  /-- A value that stands for itself. -/
  | literal (value : Json)
  /-- The rule without an operator. -/
  | empty
  /-- An operator and its arguments, all of which are evaluated first. -/
  | operation (operator : Operator) (args : List Node)
  /-- An operator on the items of `source`, each of which is the data of `predicate` in turn. -/
  | iteration (operator : Operator) (source predicate : Node) (initial : Option Node)
deriving Inhabited

/-- Something that a rule names by literal text. -/
inductive Reference where
  | path (path : String)
  | function (name : String)
deriving DecidableEq, Repr

namespace Node

/-- The operator at the root. -/
def operator? : Node → Option Operator
  | .operation op _ => some op
  | .iteration op _ _ _ => some op
  | _ => none

def isLiteral : Node → Bool
  | .literal _ => true
  | _ => false

/-- What an operation refers to by its first argument. A path inside a predicate is one into an item
and not counted; the empty path is none. -/
def reference? (inPredicate : Bool) : Operator → List Node → Option Reference
  | .var, .literal (.str path) :: _ =>
    if inPredicate || path.isEmpty then none else some (.path path)
  | .apply, .literal (.str name) :: _ => some (.function name)
  | _, _ => none

mutual

/-- All references of a tree; `inPredicate` says whether it stands inside a predicate. -/
def references (inPredicate : Bool) : Node → List Reference
  | .literal _ => []
  | .empty => []
  | .operation op args =>
    (reference? inPredicate op args).toList ++ referencesOfArgs inPredicate args
  | .iteration _ source predicate none =>
    source.references inPredicate ++ predicate.references true
  | .iteration _ source predicate (some initial) =>
    source.references inPredicate ++ predicate.references true ++ initial.references inPredicate

def referencesOfArgs (inPredicate : Bool) : List Node → List Reference
  | [] => []
  | n :: rest => n.references inPredicate ++ referencesOfArgs inPredicate rest

end

/-- The paths into the data that a rule names. -/
def paths (n : Node) : Std.TreeSet String :=
  .ofList ((n.references false).filterMap fun
    | .path p => some p
    | .function _ => none)

/-- The host functions that a rule names. -/
def functions (n : Node) : Std.TreeSet String :=
  .ofList ((n.references false).filterMap fun
    | .path _ => none
    | .function f => some f)

end Node

/-! ## Trees written as rules -/

/-- The rule of an operator on a list of arguments. -/
def Operator.rule (op : Operator) (args : List Json) : Json := .obj [(op.name, .arr args)]

/-- The reduction that takes items together with an operator, one after another, from an initial value. -/
def Operator.fold (op : Operator) (items : List Json) (initial : Json) : Json :=
  Operator.reduce.rule
    [.arr items,
      op.rule [.obj [(Operator.var.name, .str "accumulator")], .obj [(Operator.var.name, .str "current")]],
      initial]

namespace Node

/-- The arguments of an operation, and the parts of an iteration in the order of its arguments. -/
def children : Node → List Node
  | .literal _ => []
  | .empty => []
  | .operation _ args => args
  | .iteration _ source predicate initial => source :: predicate :: initial.toList

mutual

/-- A tree as a rule, where the listed name of an operator stands over the list of its arguments. -/
def rule : Node → Json
  | .literal v => v
  | .empty => .obj []
  | .operation op args => .obj [(op.name, .arr (rules args))]
  | .iteration op source predicate none => .obj [(op.name, .arr [source.rule, predicate.rule])]
  | .iteration op source predicate (some initial) =>
    .obj [(op.name, .arr [source.rule, predicate.rule, initial.rule])]

def rules : List Node → List Json
  | [] => []
  | n :: rest => n.rule :: rules rest

end

/-! ## The shape of trees -/

mutual

/-- Literals are no objects, operators have as many arguments as they take, and only a reduction has
an initial value. -/
def WellFormed : Node → Prop
  | .literal v => v.kind ≠ .object
  | .empty => True
  | .operation op args =>
    op.isIteration = false ∧ op.arity.accepts args.length = true ∧ AllWellFormed args
  | .iteration op source predicate none =>
    op.isIteration = true ∧ source.WellFormed ∧ predicate.WellFormed
  | .iteration op source predicate (some initial) =>
    op = .reduce ∧ source.WellFormed ∧ predicate.WellFormed ∧ initial.WellFormed

def AllWellFormed : List Node → Prop
  | [] => True
  | n :: rest => n.WellFormed ∧ AllWellFormed rest

end

mutual

/-- The depth of the deepest node, where the root has depth zero. -/
def height : Node → Nat
  | .literal _ => 0
  | .empty => 0
  | .operation _ args => heightOfAll args
  | .iteration _ source predicate none => max source.height predicate.height + 1
  | .iteration _ source predicate (some initial) =>
    max (max source.height predicate.height) initial.height + 1

/-- The depth of the deepest node among arguments and below them; zero without arguments. -/
def heightOfAll : List Node → Nat
  | [] => 0
  | n :: rest => max (n.height + 1) (heightOfAll rest)

end

/-- A node stands in a tree. The flag says whether it is inside a predicate. -/
inductive Holds : Node → Bool → Node → Prop where
  | self (n : Node) : Holds n false n
  | arg {op : Operator} {args : List Node} {n m : Node} {b : Bool} (hn : n ∈ args)
      (h : Holds n b m) : Holds (.operation op args) b m
  | source {op : Operator} {source predicate : Node} {initial : Option Node} {m : Node} {b : Bool}
      (h : Holds source b m) : Holds (.iteration op source predicate initial) b m
  | predicate {op : Operator} {source predicate : Node} {initial : Option Node} {m : Node} {b : Bool}
      (h : Holds predicate b m) : Holds (.iteration op source predicate initial) true m
  | initial {op : Operator} {source predicate initial m : Node} {b : Bool}
      (h : Holds initial b m) : Holds (.iteration op source predicate (some initial)) b m

variable {op : Operator} {args : List Node} {source predicate m : Node} {initial : Option Node}
  {b : Bool} {v : Json}

theorem holds_literal : Holds (.literal v) b m ↔ b = false ∧ m = .literal v :=
  ⟨fun h => by cases h; exact ⟨rfl, rfl⟩, fun ⟨hb, hm⟩ => hb ▸ hm ▸ .self _⟩

theorem holds_empty : Holds .empty b m ↔ b = false ∧ m = .empty :=
  ⟨fun h => by cases h; exact ⟨rfl, rfl⟩, fun ⟨hb, hm⟩ => hb ▸ hm ▸ .self _⟩

theorem holds_operation : Holds (.operation op args) b m ↔
    b = false ∧ m = .operation op args ∨ ∃ n ∈ args, Holds n b m := by
  constructor
  · intro h
    cases h with
    | self => exact .inl ⟨rfl, rfl⟩
    | arg hn h => exact .inr ⟨_, hn, h⟩
  · rintro (⟨rfl, rfl⟩ | ⟨n, hn, h⟩)
    · exact .self _
    · exact .arg hn h

theorem holds_iteration : Holds (.iteration op source predicate initial) b m ↔
    b = false ∧ m = .iteration op source predicate initial ∨ Holds source b m ∨
      (b = true ∧ ∃ c, Holds predicate c m) ∨ ∃ n ∈ initial, Holds n b m := by
  constructor
  · intro h
    cases h with
    | self => exact .inl ⟨rfl, rfl⟩
    | source h => exact .inr (.inl h)
    | predicate h => exact .inr (.inr (.inl ⟨rfl, _, h⟩))
    | initial h => exact .inr (.inr (.inr ⟨_, rfl, h⟩))
  · rintro (⟨rfl, rfl⟩ | h | ⟨rfl, c, h⟩ | ⟨n, hn, h⟩)
    · exact .self _
    · exact .source h
    · exact .predicate h
    · cases hn
      exact .initial h

/-- Every variable outside of all predicates has a literal text for its path, and not the empty
one. -/
def NamesVariables (n : Node) : Prop :=
  ∀ args, n.Holds false (.operation .var args) →
    ∃ path rest, args = .literal (.str path) :: rest ∧ path ≠ ""

/-- Every call of a host function has a literal for the name, if it has any argument. -/
def NamesFunctions (n : Node) : Prop :=
  ∀ inPredicate first rest, n.Holds inPredicate (.operation .apply (first :: rest)) →
    first.isLiteral = true

/-- No node applies the operator to arguments, neither inside a predicate nor outside of all. -/
def Avoids (n : Node) (op : Operator) : Prop :=
  ∀ inPredicate args, ¬ n.Holds inPredicate (.operation op args)

/-- There is no iteration, neither inside a predicate nor outside of all. -/
def NoIteration (n : Node) : Prop :=
  ∀ inPredicate op source predicate initial,
    ¬ n.Holds inPredicate (.iteration op source predicate initial)

end Node
end JsonRules
