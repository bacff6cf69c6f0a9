import JsonRules.Engine

/-!
# Stock host functions

Ready-made functions for trying out rules. The host that they run on counts calls: its state is the
list of counts, one for each counting function that was ever made.
-/

namespace JsonRules

/-- How often each counting function has been called. -/
abbrev Tally := List Nat

/-- What a stock function does with its arguments. -/
inductive Stock where
  /-- Gives its arguments as an array. -/
  | arguments
  /-- Gives always the same value. -/
  | constant (value : Json)
  /-- Gives one of its arguments. -/
  | argument (index : Nat)
  /-- Multiplies its first two arguments; what is no number counts as zero. -/
  | area
  /-- Counts its calls, at a place of the tally. -/
  | counter (place : Nat)
  /-- Fails. -/
  | failing (message : String)
  /-- Evaluates a rule on its arguments. -/
  | subrule (rule : Json)

namespace Stock

/-- The side of a rectangle that an argument gives. -/
def side (args : List Json) (index : Nat) : Extended :=
  match args[index]? with
  | some (.num n) => .finite n.toDouble
  | _ => .finite (.zero false)

/-- What a stock function does. -/
def body : Stock → List Json → Tally → Answer Tally
  | .arguments, args, t => { result := .ok (.arr args), state := t }
  | .constant v, _, t => { result := .ok v, state := t }
  | .argument i, args, t =>
    match args[i]? with
    | some v => { result := .ok v, state := t }
    | none => { result := .error s!"argument {i} missing", state := t }
  | .area, args, t =>
    match side args 0 * side args 1 with
    | .finite x => { result := .ok (.num (.double x)), state := t }
    | _ => { result := .ok .null, state := t }
  | .counter place, _, t =>
    let calls := t.getD place 0 + 1
    { result := .ok (.ofInt calls), state := t.set place calls }
  | .failing message, _, t => { result := .error message, state := t }
  | .subrule rule, args, t =>
    let inner := Engine.evaluate {} .sync (Registry.empty : Registry Tally) rule (.arr args) t
    ⟨inner.result.mapError RuleError.message, inner.state, inner.journal.filterMap Event.note?⟩

end Stock
end JsonRules
