import JsonRules.Host.Stock
import JsonRules.Proofs.Engine.Iteration
import JsonRules.Proofs.Engine.Session
import JsonRules.Proofs.Rule.Compile

/-!
# Rules that agree

Two rules agree if their evaluations differ by traces only, whatever the host does. They do so if they
are interpreted as the same program up to traces (`agree_of_interpret`); by this the negated searches
agree with their duals (`agree_deMorgan`).

Four operators give the same whether some of their operands stand on their own or in a nested use of the
operator (`Operator.Flattens`). As arguments are evaluated from left to right in either case, the two rules
agree (`agree_flatten`).
-/

namespace JsonRules
namespace Rule

open Program

variable {op : Operator} {args : List Json}

theorem interpret_iteration (hop : op.isIteration = true) (data source predicate : Json) :
    interpret data (op.rule [source, predicate]) = (interpret data source).bind fun v =>
      op.iterate (fun item => interpret item predicate) v.items none := by
  rw [Operator.rule, interpret_operation, Operator.ofName?_name]
  simp only [hop, if_true]
  rfl

theorem interpret_rule (hop : op.isIteration = false) (data : Json) :
    interpret data (op.rule args) = (interpretAll data args).bind fun operands =>
      .note (.dispatch op operands.length) (op.perform operands data) := by
  rw [Operator.rule, interpret_operation, Operator.ofName?_name]
  simp only [hop]
  rfl

/-- Up to traces a negation evaluates its argument and nothing else. -/
theorem untraced_interpret_not (data rule : Json) :
    (interpret data (Operator.not.rule [rule])).untraced =
      (interpret data rule).untraced.bind fun v => .done (.bool !v.truthy) := by
  rw [interpret_rule rfl, interpretAll]
  simp only [bind_eq, untraced_bind, bind_assoc]
  rfl

/-- Up to traces a search evaluates its source and then its predicate on the items. -/
theorem untraced_interpret_search {q : Search} (h : op.search? = some q) (data source predicate : Json) :
    (interpret data (op.rule [source, predicate])).untraced =
      (interpret data source).untraced.bind fun v =>
        op.iterate (fun item => (interpret item predicate).untraced) v.items none := by
  rw [interpret_iteration (Operator.isIteration_of_search? h), untraced_bind]
  simp only [Operator.untraced_iterate h]

end Rule

namespace Engine

open Program

/-- Two rules agree if, where both compile, they give the same result, leave the same state and have the
same effects, in both modes, with every registry, on all data and from every state. -/
def Agree (e : Engine) (rule rule' : Json) : Prop :=
  ∀ tree tree', e.compile rule = .ok tree → e.compile rule' = .ok tree' →
    ∀ (σ : Type) (mode : Mode) (r : Registry σ) (data : Json) (s : σ),
      (e.evaluate mode r rule data s).Alike (e.evaluate mode r rule' data s)

theorem agree_of_interpret {rule rule' : Json}
    (h : ∀ data, (Rule.interpret data rule).untraced = (Rule.interpret data rule').untraced)
    (e : Engine) : e.Agree rule rule' := by
  intro tree tree' htree htree' σ mode r data s
  have hrun : (run mode r tree data s).Alike (run mode r tree' data s) := by
    rw [run_eq, run_eq, Rule.evaluate_of_compileAt htree, Rule.evaluate_of_compileAt htree']
    exact run_alike (h data) _ s
  have hrule := evaluate_alike htree mode r data s
  have hrule' := evaluate_alike htree' mode r data s
  exact (hrule.trans hrun).trans hrule'.symm

/-- That some item passes agrees with the negation of that none does, and that every item passes with
that none passes the negated predicate. -/
theorem agree_deMorgan (e : Engine) (source predicate : Json) :
    e.Agree (Operator.someItem.rule [source, predicate])
      (Operator.not.rule [Operator.noItem.rule [source, predicate]]) ∧
    e.Agree (Operator.everyItem.rule [source, predicate])
      (Operator.noItem.rule [source, Operator.not.rule [predicate]]) := by
  refine ⟨agree_of_interpret (fun data => ?_) e, agree_of_interpret (fun data => ?_) e⟩
  · rw [Rule.untraced_interpret_not, Rule.untraced_interpret_search rfl,
      Rule.untraced_interpret_search rfl, bind_assoc]
    simp only [Operator.iterate_someItem]
  · rw [Rule.untraced_interpret_search rfl, Rule.untraced_interpret_search rfl]
    simp only [Operator.iterate_everyItem, Rule.untraced_interpret_not]

/-- The search stops at the second of three items, in each of its two forms. -/
theorem agree_deMorgan_tick :
    let r : Registry Tally := Registry.empty.register "tick" ⟨.async 1, Stock.body (.counter 0)⟩
    let source : Json := .arr [.null, .null, .null]
    let second : Json := Operator.same.rule [Operator.apply.rule [.str "tick"], .ofInt 2]
    let some := Operator.someItem.rule [source, second]
    let notNone := Operator.not.rule [Operator.noItem.rule [source, second]]
    let every := Operator.everyItem.rule [source, Operator.not.rule [second]]
    let none := Operator.noItem.rule [source, Operator.not.rule [Operator.not.rule [second]]]
    (∃ tree tree', compile {} some = .ok tree ∧ compile {} notNone = .ok tree') ∧
    (evaluate {} .async r some .null [0]).Alike (evaluate {} .async r notNone .null [0]) ∧
    (∃ tree tree', compile {} every = .ok tree ∧ compile {} none = .ok tree') ∧
    (evaluate {} .async r every .null [0]).Alike (evaluate {} .async r none .null [0]) ∧
    (evaluate {} .async r every .null [0]).state = [2] := by
  intro r source second some notNone every none
  have hsome := (agree_deMorgan {} source second).1 _ _ rfl rfl Tally .async r .null [0]
  have hevery :=
    (agree_deMorgan {} source (Operator.not.rule [second])).2 _ _ rfl rfl Tally .async r .null [0]
  exact ⟨⟨_, _, rfl, rfl⟩, hsome, ⟨_, _, rfl, rfl⟩, hevery, by cbv⟩

end Engine

/-! ## Nested operators that can be flattened -/

namespace Operator

variable {op : Operator} {value : List Json → Json}

/-- An operator has a value on all operands, and some of them may be replaced by their value. -/
structure Flattens (op : Operator) (value : List Json → Json) : Prop where
  perform : ∀ operands data, op.perform operands data = .done (value operands)
  nested : ∀ before inner after, value (before ++ value inner :: after) = value (before ++ inner ++ after)

theorem flattens_all : Flattens .all fun operands => .bool (operands.all Json.truthy) := by
  refine ⟨fun _ _ => rfl, fun before inner after => ?_⟩
  simp [Json.truthy]

theorem flattens_any : Flattens .any fun operands => .bool (operands.any Json.truthy) := by
  refine ⟨fun _ _ => rfl, fun before inner after => ?_⟩
  simp [Json.truthy]

theorem flattens_merge : Flattens .merge fun operands => .arr (merged operands) := by
  refine ⟨fun _ _ => rfl, fun before inner after => ?_⟩
  simp [merged]

theorem flattens_concat :
    Flattens .concat fun operands => .str (String.join (operands.map Json.display)) := by
  refine ⟨fun _ _ => rfl, fun before inner after => ?_⟩
  simp [Json.display]

theorem exists_flattens (h : op ∈ [.concat, .merge, .all, .any]) : ∃ value, op.Flattens value := by
  simp only [List.mem_cons, List.not_mem_nil, or_false] at h
  rcases h with rfl | rfl | rfl | rfl
  · exact ⟨_, flattens_concat⟩
  · exact ⟨_, flattens_merge⟩
  · exact ⟨_, flattens_all⟩
  · exact ⟨_, flattens_any⟩

theorem Flattens.isIteration (h : op.Flattens value) : op.isIteration = false := by
  have hperform := h.perform [.null, .null] .null
  cases op <;> first | rfl | cases hperform

end Operator

namespace Rule

open Program

variable {op : Operator} {value : List Json → Json}

theorem interpretAll_append (data : Json) (xs ys : List Json) :
    interpretAll data (xs ++ ys) = (interpretAll data xs).bind fun vs =>
      (interpretAll data ys).bind fun ws => .done (vs ++ ws) := by
  induction xs with
  | nil =>
    rw [List.nil_append, interpretAll, Program.bind]
    exact (bind_done _).symm
  | cons v rest ih =>
    rw [List.cons_append, interpretAll, interpretAll, ih]
    simp only [bind_eq, pure_eq, bind_assoc, Program.bind, List.cons_append]

theorem untraced_interpret_flattens (h : op.Flattens value) (data : Json) (args : List Json) :
    (interpret data (op.rule args)).untraced =
      (interpretAll data args).untraced.bind fun operands => .done (value operands) := by
  rw [interpret_rule h.isIteration, untraced_bind]
  simp only [h.perform]
  rfl

theorem untraced_interpret_nested (h : op.Flattens value) (data : Json) (before inner after : List Json) :
    (interpret data (op.rule (before ++ op.rule inner :: after))).untraced =
      (interpret data (op.rule (before ++ inner ++ after))).untraced := by
  rw [untraced_interpret_flattens h, untraced_interpret_flattens h, List.append_assoc, interpretAll_append,
    interpretAll_append, interpretAll_append, interpretAll]
  simp only [bind_eq, pure_eq, untraced_bind, bind_assoc, untraced_interpret_flattens h, Program.bind, untraced,
    h.nested, List.append_assoc]

end Rule

namespace Engine

/-- A nested use of one of these operators, among other arguments of the operator before and after it, agrees
with its arguments in its place. -/
theorem agree_flatten {op : Operator} (h : op ∈ [.concat, .merge, .all, .any]) (before inner after : List Json)
    (e : Engine) :
    e.Agree (op.rule (before ++ op.rule inner :: after)) (op.rule (before ++ inner ++ after)) := by
  obtain ⟨value, hvalue⟩ := Operator.exists_flattens h
  exact agree_of_interpret (fun data => Rule.untraced_interpret_nested hvalue data before inner after) e

/-- Arrays and calls in the three parts, and a call that fails in the nested part: there the call after it is
not made in either rule. -/
theorem agree_flatten_tick :
    let r : Registry Tally := Registry.empty.register "tick" ⟨.async 1, Stock.body (.counter 0)⟩
    let tick : Json := Operator.apply.rule [.str "tick"]
    let absent : Json := Operator.apply.rule [.str "absent"]
    let one : Json := .arr [.ofInt 1]
    let two : Json := .arr [.ofInt 2]
    let nested := Operator.merge.rule ([one] ++ Operator.merge.rule [tick, two] :: [tick, one])
    let flat := Operator.merge.rule ([one] ++ [tick, two] ++ [tick, one])
    let nested' := Operator.all.rule ([tick] ++ Operator.all.rule [absent] :: [tick])
    let flat' := Operator.all.rule ([tick] ++ [absent] ++ [tick])
    (∃ tree tree', compile {} nested = .ok tree ∧ compile {} flat = .ok tree') ∧
    (evaluate {} .async r nested .null [0]).Alike (evaluate {} .async r flat .null [0]) ∧
    (evaluate {} .async r flat .null [0]).result = .ok (.arr [.ofInt 1, .ofInt 2, .ofInt 1]) ∧
    (∃ tree tree', compile {} nested' = .ok tree ∧ compile {} flat' = .ok tree') ∧
    (evaluate {} .async r nested' .null [0]).Alike (evaluate {} .async r flat' .null [0]) ∧
    (evaluate {} .async r flat' .null [0]).state = [1] := by
  intro r tick absent one two nested flat nested' flat'
  have hmerge := agree_flatten (by decide : Operator.merge ∈ [.concat, .merge, .all, .any]) [one] [tick, two]
    [tick, one] {} _ _ rfl rfl Tally .async r .null [0]
  have hall := agree_flatten (by decide : Operator.all ∈ [.concat, .merge, .all, .any]) [tick] [absent] [tick] {} _ _
    rfl rfl Tally .async r .null [0]
  exact ⟨⟨_, _, rfl, rfl⟩, hmerge, by cbv, ⟨_, _, rfl, rfl⟩, hall, by cbv⟩

end Engine
end JsonRules
