import JsonRules.Rule.Position
import JsonRules.Rule.Result
import JsonRules.Rule.Tree
import JsonRules.Run.Event

/-!
# Compiling a rule

A rule is a JSON value. An object is an operation: its first key is the operator and the value of
that key the arguments, one or a list of them. All other values stand for themselves.
`Rule.compile` makes the tree, `Rule.notes` is what it records on the way.

`Rule.collect` makes the tree of a rule and collects on the way what the rule names, with a set of paths and
a set of functions that go from node to node. A flag goes down with them: inside a predicate paths are those
of an item and left out.
-/

namespace JsonRules

/-- How deep a rule may nest unless it is said otherwise. -/
def defaultMaxDepth : Nat := 256

namespace Rule

/-- The operator of a rule at some depth, if the depth, the name and the number of arguments are all
right. They are checked in this order. -/
def operatorAt (maxDepth depth : Nat) (name : String) (count : Nat) : Result Operator :=
  if maxDepth < depth then .error (.depthLimitExceeded maxDepth)
  else match Operator.ofName? name with
    | none => .error (.unknownOperator name)
    | some op => if op.arity.accepts count then .ok op else .error (.operandCount op count)

/-- A rule without an operator at some depth. -/
def leaf (maxDepth depth : Nat) (n : Node) : Result Node :=
  if maxDepth < depth then .error (.depthLimitExceeded maxDepth) else .ok n

/-- The node of an operator with its arguments. -/
def assemble (op : Operator) (args : List Node) : Node :=
  if op.isIteration then
    match args with
    | [source, predicate] => .iteration op source predicate none
    | [source, predicate, initial] => .iteration op source predicate (some initial)
    | _ => .operation op args
  else .operation op args

mutual

/-- The tree of a rule at some depth. -/
def compileAt (maxDepth depth : Nat) : Json → Result Node
  | .obj [] => leaf maxDepth depth .empty
  | .obj ((name, .arr items) :: _) => do
    let op ← operatorAt maxDepth depth name items.length
    return assemble op (← compileAll maxDepth (depth + 1) items)
  | .obj ((name, v) :: _) => do
    let op ← operatorAt maxDepth depth name 1
    return assemble op [← compileAt maxDepth (depth + 1) v]
  | v => leaf maxDepth depth (.literal v)

def compileAll (maxDepth depth : Nat) : List Json → Result (List Node)
  | [] => .ok []
  | v :: rest => do
    return (← compileAt maxDepth depth v) :: (← compileAll maxDepth depth rest)

end

/-- The tree of a rule, or the first thing that is wrong with it, from the root downwards and from
left to right. -/
def compile (maxDepth : Nat) (rule : Json) : Result Node := compileAt maxDepth 0 rule

/-- The tree of a rule that is given as JSON text. -/
def compileText (maxDepth : Nat) (text : String) : Result Node :=
  match Json.read? text with
  | some rule => compile maxDepth rule
  | none => .error .unreadable

/-- The note on a position whose object has more keys than its first one. -/
def ignoredKeys? (maxDepth : Nat) (p : Position) : Option Note :=
  match p.rule with
  | .obj ((name, _) :: others) =>
    if maxDepth < p.depth ∨ others = [] then none else some (.ignoredKeys name others.length)
  | _ => none

/-- The notes on positions up to and including the first at which something is wrong. -/
def notesOn (maxDepth : Nat) : List Position → List Note
  | [] => []
  | p :: rest =>
    (ignoredKeys? maxDepth p).toList ++
      if (offence? maxDepth p).isSome then [] else notesOn maxDepth rest

/-- What compiling a rule records: a note for each object with ignored keys that it reaches. -/
def notes (maxDepth : Nat) (rule : Json) : List Note := notesOn maxDepth (positions rule)

end Rule

/-! ## Compiling and collecting -/

/-- What a rule names, as far as it has been read. -/
structure Collected where
  paths : Std.TreeSet String := ∅
  functions : Std.TreeSet String := ∅

/-- Adds what an operation refers to. -/
def Collected.add (c : Collected) : Option Reference → Collected
  | some (.path p) => { c with paths := c.paths.insert p }
  | some (.function f) => { c with functions := c.functions.insert f }
  | none => c

/-- A rule that has been compiled: its tree, and the paths and functions that it names in ascending
order. -/
structure Compiled where
  tree : Node
  paths : List String
  functions : List String

namespace Rule

/-- Says of each argument of an operator whether it stands inside a predicate. The second one of an iteration
is the predicate. -/
def insides (op : Operator) (inPredicate : Bool) (index : Nat) : Bool :=
  inPredicate || op.isIteration && index == 1

mutual

/-- The tree of a rule at some depth, and what is named up to its end. An operation is counted after its
arguments. -/
def collectAt (maxDepth depth : Nat) (inPredicate : Bool) (c : Collected) : Json → Result (Node × Collected)
  | .obj [] => do
    return (← leaf maxDepth depth .empty, c)
  | .obj ((name, .arr items) :: _) => do
    let op ← operatorAt maxDepth depth name items.length
    let (args, c) ← collectAll maxDepth (depth + 1) (insides op inPredicate) c items
    return (assemble op args, c.add (Node.reference? inPredicate op args))
  | .obj ((name, v) :: _) => do
    let op ← operatorAt maxDepth depth name 1
    let (n, c) ← collectAt maxDepth (depth + 1) (insides op inPredicate 0) c v
    return (assemble op [n], c.add (Node.reference? inPredicate op [n]))
  | v => do
    return (← leaf maxDepth depth (.literal v), c)

def collectAll (maxDepth depth : Nat) (inside : Nat → Bool) (c : Collected) :
    List Json → Result (List Node × Collected)
  | [] => .ok ([], c)
  | v :: rest => do
    let (n, c) ← collectAt maxDepth depth (inside 0) c v
    let (ns, c) ← collectAll maxDepth depth (fun i => inside (i + 1)) c rest
    return (n :: ns, c)

end

/-- The tree of a rule and what it names, or the first thing that is wrong with the rule. -/
def collect (maxDepth : Nat) (rule : Json) : Result Compiled := do
  let (tree, c) ← collectAt maxDepth 0 false {} rule
  return ⟨tree, c.paths.toList, c.functions.toList⟩

end Rule
end JsonRules
