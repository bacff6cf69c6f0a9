import JsonRules.Host.Stock
import JsonRules.Proofs.Rule.Compile
import JsonRules.Proofs.Run.Closed

/-!
# Why rules fail

An operator on as many operands as it takes fails for its operands only (`result_failsOnly`): the
causes that say that something is wrong with the tree do not arise. So a well-formed tree fails only
as a run may (`evaluate_failsOnly`), and a rule that does not compile for one of three causes that no
run has (`compile_failsOnly`).

The run of a rule that compiles gives a value or fails with one of few causes: a cause of compiling,
an operator in the wrong place or an unexpected pause is none of them. So an evaluation that fails
with a cause of compiling has not begun to run (`evaluate_rejects`).
-/

namespace JsonRules

/-! ## Operators, trees and rules -/

namespace RuleError

/-- The operands of an operator have no value under it. -/
def OfOperands : RuleError → Prop
  | .typeMismatch _ | .divisionByZero => True
  | _ => False

/-- The run of a tree in a mode fails. -/
def OfRun (mode : Mode) : RuleError → Prop
  | .functionNotRegistered _ | .missingFunctionName | .host _ | .typeMismatch _
  | .divisionByZero => True
  | .asyncFunctionInSyncRun _ => mode = .sync
  | _ => False

/-- A rule does not compile. -/
def OfCompiling (maxDepth : Nat) : RuleError → Prop
  | .unknownOperator _ | .operandCount _ _ => True
  | .depthLimitExceeded limit => limit = maxDepth
  | _ => False

theorem OfOperands.ofRun {e : RuleError} (h : e.OfOperands) (mode : Mode) : e.OfRun mode := by
  cases e <;> first | exact h | trivial

end RuleError

open RuleError

/-! ### Operators -/

theorem Json.asNumber_failsOnly (v : Json) : v.asNumber.FailsOnly OfOperands := by
  unfold asNumber
  split <;> trivial

theorem Json.coerceNumber_failsOnly (v : Json) : v.coerceNumber.FailsOnly OfOperands := by
  unfold coerceNumber
  split
  · split <;> trivial
  · exact v.asNumber_failsOnly.map Extended.finite

theorem Json.ofArithmetic_failsOnly (x : Extended) : (Json.ofArithmetic x).FailsOnly OfOperands := by
  unfold ofArithmetic
  split <;> trivial

theorem Json.compareValues_failsOnly (a b : Json) : (a.compareValues b).FailsOnly OfOperands := by
  unfold compareValues
  split <;> trivial

theorem Json.asPath_failsOnly (v : Json) : v.asPath.FailsOnly OfOperands := by
  unfold asPath
  split <;> trivial

namespace Operator

theorem accumulate_failsOnly (f : Extended → Extended → Extended) (start : Int)
    (operands : List Json) : (accumulate f start operands).FailsOnly OfOperands :=
  (Result.FailsOnly.foldlM (fun _ v => v.coerceNumber_failsOnly.map _) _ operands).bind
    Json.ofArithmetic_failsOnly

theorem quotient_failsOnly (a b : Json) : (quotient a b).FailsOnly OfOperands := by
  refine a.coerceNumber_failsOnly.bind fun x => b.coerceNumber_failsOnly.bind fun y => ?_
  split
  · trivial
  · exact Json.ofArithmetic_failsOnly _

theorem remainder_failsOnly (a b : Json) : (remainder a b).FailsOnly OfOperands := by
  have hdoubles : ∀ x y, (remainder.ofDoubles x y).FailsOnly OfOperands := fun x y => by
    unfold remainder.ofDoubles
    split
    · trivial
    · exact Json.ofArithmetic_failsOnly _
  unfold remainder
  split
  · split
    · split <;> trivial
    · exact hdoubles _ _
  · exact a.asNumber_failsOnly.bind fun x => b.asNumber_failsOnly.bind fun y => hdoubles x y

theorem extremum_failsOnly (replaces : Ordering → Bool) (first : Json) (others : List Json) :
    (extremum replaces first others).FailsOnly OfOperands :=
  Result.FailsOnly.foldlM (fun best v => (v.compareValues_failsOnly best).bind fun _ => trivial) _ _

theorem isMember_failsOnly (needle container : Json) :
    (isMember needle container).FailsOnly OfOperands := by
  unfold isMember
  split
  · trivial
  · split <;> trivial
  · split <;> trivial
  · trivial

theorem lookup_failsOnly (path missing data : Json) :
    (lookup path missing data).FailsOnly OfOperands :=
  path.asPath_failsOnly.bind fun _ => trivial

/-- On as many operands as it takes an operator has a value, or they have none under it. -/
theorem value?_failsOnly {op : Operator} {operands : List Json} (data : Json)
    (hcount : op.arity.accepts operands.length = true) (hop : op.isIteration = false)
    (happly : op ≠ .apply) : (op.value? data operands).FailsOnly OfOperands := by
  cases op with
  | someItem | everyItem | noItem | map | filter | reduce => cases hop
  | apply => exact absurd rfl happly
  | less | lessOrEqual | all | any | count | merge | concat => trivial
  | add => exact accumulate_failsOnly _ _ operands
  | multiply => exact accumulate_failsOnly _ _ operands
  | equal | same | notEqual | notSame =>
    obtain ⟨a, b, rfl⟩ := List.length_eq_two.1 (eq_of_beq hcount)
    trivial
  | greater | greaterOrEqual =>
    obtain ⟨a, b, rfl⟩ := List.length_eq_two.1 (eq_of_beq hcount)
    exact (a.compareValues_failsOnly b).map _
  | modulo =>
    obtain ⟨a, b, rfl⟩ := List.length_eq_two.1 (eq_of_beq hcount)
    exact remainder_failsOnly a b
  | contains =>
    obtain ⟨a, b, rfl⟩ := List.length_eq_two.1 (eq_of_beq hcount)
    exact (isMember_failsOnly a b).map _
  | not | log =>
    obtain ⟨a, rfl⟩ := List.length_eq_one_iff.1 (eq_of_beq hcount)
    trivial
  | choose =>
    obtain ⟨a, b, c, rfl⟩ := List.length_eq_three.1 (eq_of_beq hcount)
    trivial
  | min | max =>
    obtain ⟨first, others, rfl⟩ := List.exists_cons_of_length_pos (of_decide_eq_true hcount)
    exact extremum_failsOnly _ first others
  | subtract =>
    match operands, hcount with
    | [a], _ => exact a.asNumber_failsOnly.bind fun _ => Json.ofArithmetic_failsOnly _
    | [a, b], _ =>
      exact a.asNumber_failsOnly.bind fun _ => b.asNumber_failsOnly.bind fun _ =>
        Json.ofArithmetic_failsOnly _
  | divide =>
    match operands, hcount with
    | [a], _ => trivial
    | [a, b], _ => exact quotient_failsOnly a b
  | var =>
    match operands, hcount with
    | [path], _ => exact lookup_failsOnly path .null data
    | [path, missing], _ => exact lookup_failsOnly path missing data

theorem result_failsOnly {op : Operator} {operands : List Json} (data : Json)
    (hcount : op.arity.accepts operands.length = true) (hop : op.isIteration = false)
    (happly : op ≠ .apply) : (op.result operands data).FailsOnly OfOperands := by
  have h := value?_failsOnly data hcount hop happly
  simpa [result, hcount, hop, happly] using h

variable {mode : Mode}

theorem callHost_failsOnly (operands : List Json) : (callHost operands).FailsOnly (OfRun mode) := by
  unfold callHost
  split
  · trivial
  · exact fun _ => trivial
  · trivial

theorem perform_failsOnly {op : Operator} {operands : List Json} (data : Json)
    (hcount : op.arity.accepts operands.length = true) (hop : op.isIteration = false) :
    (op.perform operands data).FailsOnly (OfRun mode) := by
  have hresult : op ≠ .apply → (op.result operands data).FailsOnly (OfRun mode) := fun h =>
    (result_failsOnly data hcount hop h).mono fun e he => he.ofRun mode
  unfold perform
  split
  · exact callHost_failsOnly operands
  · have h := hresult nofun
    split
    · trivial
    · rename_i e he
      rw [he] at h
      exact h
  · exact .ofResult (hresult ‹_›)

end Operator

/-! ### Trees -/

namespace Node

variable {mode : Mode}

/-- Arguments fail as the first of them that does, and otherwise there are as many values. -/
theorem evaluateAll_ends {P : RuleError → Prop} {args : List Node} {data : Json}
    (h : ∀ n ∈ args, (n.evaluate data).FailsOnly P) :
    (evaluateAll args data).Ends P fun operands => operands.length = args.length := by
  induction args with
  | nil => rfl
  | cons n rest ih =>
    rw [evaluateAll]
    refine Program.Ends.bind (h n List.mem_cons_self) fun v _ => ?_
    refine (ih fun m hm => h m (List.mem_cons_of_mem n hm)).bind fun operands hlen => ?_
    exact congrArg (· + 1) hlen

/-- A well-formed tree fails only as a run may. -/
theorem evaluate_failsOnly {n : Node} (h : n.WellFormed) (data : Json) :
    (n.evaluate data).FailsOnly (OfRun mode) := by
  induction n using Node.induction generalizing data with
  | literal | empty => trivial
  | operation op args ih =>
    obtain ⟨hop, hcount, hargs⟩ := h
    have hargs := allWellFormed_iff.1 hargs
    rw [evaluate]
    refine (evaluateAll_ends fun n hn => ih n hn (hargs n hn) data).bind fun operands hlen => ?_
    exact Operator.perform_failsOnly data (hlen ▸ hcount) hop
  | iteration op source predicate initial ihs ihp ihi =>
    cases initial with
    | none =>
      obtain ⟨hop, hs, hp⟩ := h
      rw [evaluate]
      exact (ihs hs data).bind fun v => .iterate hop (ihp hp) v.items none
    | some initial =>
      obtain ⟨rfl, hs, hp, hi⟩ := h
      rw [evaluate]
      exact (ihs hs data).bind fun v => (ihi initial rfl hi data).bind fun w =>
        .iterate rfl (ihp hp) v.items (some w)

end Node

/-! ### Rules that do not compile -/

namespace Rule

variable {maxDepth depth : Nat}

theorem leaf_failsOnly (n : Node) : (leaf maxDepth depth n).FailsOnly (OfCompiling maxDepth) := by
  unfold leaf
  split
  · exact rfl
  · trivial

theorem operatorAt_failsOnly (name : String) (count : Nat) :
    (operatorAt maxDepth depth name count).FailsOnly (OfCompiling maxDepth) := by
  unfold operatorAt
  split
  · exact rfl
  · split
    · trivial
    · split <;> trivial

theorem compileAll_failsOnly {P : RuleError → Prop} {items : List Json}
    (h : ∀ a ∈ items, (compileAt maxDepth depth a).FailsOnly P) :
    (compileAll maxDepth depth items).FailsOnly P := by
  induction items with
  | nil => trivial
  | cons v rest ih =>
    rw [compileAll]
    exact (h v List.mem_cons_self).bind fun _ =>
      (ih fun a ha => h a (List.mem_cons_of_mem v ha)).bind fun _ => trivial

theorem compileAt_failsOnly (rule : Json) :
    (compileAt maxDepth depth rule).FailsOnly (OfCompiling maxDepth) := by
  induction rule using Rule.induction generalizing depth with
  | literal v hv =>
    rw [compileAt_literal hv]
    exact leaf_failsOnly _
  | empty => exact leaf_failsOnly _
  | operation name v others ih =>
    rw [compileAt_operation]
    exact (operatorAt_failsOnly name _).bind fun _ =>
      (compileAll_failsOnly fun a ha => ih a ha).bind fun _ => trivial

theorem compile_failsOnly (rule : Json) :
    (compile maxDepth rule).FailsOnly (OfCompiling maxDepth) :=
  compileAt_failsOnly rule

end Rule

/-! ## Evaluations -/

/-- A host fails with an error of its functions or because it has no function of the name that a run
in this mode may call. -/
theorem Registry.host_failsOnly {σ : Type} (r : Registry σ) (mode : Mode) (name : String)
    (args : List Json) (s : σ) : (r.host mode name args s).result.FailsOnly (OfRun mode) := by
  rw [host_eq]
  cases r.get? name with
  | none => trivial
  | some f =>
    by_cases h : mode = .sync ∧ f.isAsync
    · simp only [if_pos h]
      exact h.1
    · simp only [if_neg h]
      cases (f.body args s).result <;> trivial

theorem RuleError.OfRun.kind_not_mem {mode : Mode} {e : RuleError} (h : e.OfRun mode) :
    e.kind ∉ ["unknown_operator", "invalid_arguments", "depth_limit_exceeded"] := by
  cases e with
  | unknownOperator | operandCount | notIteration | needsRun | paused | depthLimitExceeded
  | unreadable => exact h.elim
  | _ => simp [kind]

namespace Rule

theorem isTrace_of_mem_notesOn {maxDepth : Nat} {positions : List Position} {n : Note}
    (h : n ∈ notesOn maxDepth positions) : n.isTrace = true := by
  induction positions with
  | nil => cases h
  | cons p rest ih =>
    rw [notesOn] at h
    rcases List.mem_append.1 h with h | h
    · unfold ignoredKeys? at h
      split at h
      · split at h
        · cases h
        · rw [List.mem_singleton.1 h]
          rfl
      · cases h
    · split at h
      · cases h
      · exact ih h

theorem isTrace_of_mem_notes {maxDepth : Nat} {rule : Json} {n : Note}
    (h : n ∈ notes maxDepth rule) : n.isTrace = true :=
  isTrace_of_mem_notesOn h

end Rule

namespace Engine

variable {σ : Type}

theorem run_failsOnly {e : Engine} {rule : Json} {tree : Node} (h : e.compile rule = .ok tree)
    (mode : Mode) (r : Registry σ) (data : Json) (s : σ) :
    (run mode r tree data s).result.FailsOnly (OfRun mode) := by
  rw [run_eq]
  exact (Node.evaluate_failsOnly (Rule.compile_wellFormed h) data).run (r.host_failsOnly mode) s

theorem evaluate_failsOnly (e : Engine) (mode : Mode) (r : Registry σ) (rule data : Json) (s : σ) :
    (e.evaluate mode r rule data s).result.FailsOnly
      fun err => err.OfCompiling e.maxDepth ∨ err.OfRun mode := by
  cases h : e.compile rule with
  | ok tree =>
    rw [evaluate_of_compile h]
    exact (run_failsOnly h mode r data s).mono fun _ => .inr
  | error err =>
    have hcompile : (e.compile rule).FailsOnly (OfCompiling e.maxDepth) :=
      Rule.compile_failsOnly rule
    rw [h] at hcompile
    rw [evaluate_of_compile_error h]
    exact .inl hcompile

/-- The run of a rule that compiles gives a value or fails as runs may, and a synchronous one never
pauses. An evaluation that fails with a cause of compiling is over before anything runs, wherever in
the rule the cause lies. -/
theorem evaluate_rejects (e : Engine) (mode : Mode) (r : Registry σ) (rule data : Json) (s : σ) :
    (∀ tree, e.compile rule = .ok tree →
      ((∃ v, (run mode r tree data s).result = .ok v) ∨
        ∃ err, (run mode r tree data s).result = .error err ∧ err.OfRun mode) ∧
      ((tree.evaluate data).course (r.invoke .sync) s).pauses = 0) ∧
    ∀ err, (e.evaluate mode r rule data s).result = .error err →
      err.kind ∈ ["unknown_operator", "invalid_arguments", "depth_limit_exceeded"] →
      e.compile rule = .error err ∧ (e.evaluate mode r rule data s).state = s ∧
        ∀ event ∈ (e.evaluate mode r rule data s).journal, event.isTrace = true := by
  refine ⟨fun tree h => ⟨?_, Program.pauses_course _ r.pauses_invoke_sync _ s⟩, fun err herr hk => ?_⟩
  · have hrun := run_failsOnly h mode r data s
    cases hres : (run mode r tree data s).result with
    | ok v => exact .inl ⟨v, rfl⟩
    | error err =>
      rw [hres] at hrun
      exact .inr ⟨err, rfl, hrun⟩
  · cases h : e.compile rule with
    | ok tree =>
      have hrun := run_failsOnly h mode r data s
      rw [evaluate_of_compile h] at herr
      simp only at herr
      rw [herr] at hrun
      exact absurd hk (OfRun.kind_not_mem hrun)
    | error err' =>
      rw [evaluate_of_compile_error h] at herr ⊢
      cases herr
      refine ⟨rfl, rfl, fun event hevent => ?_⟩
      rcases List.mem_cons.1 hevent with rfl | hevent
      · rfl
      · obtain ⟨n, hn, rfl⟩ := List.mem_map.1 hevent
        exact Rule.isTrace_of_mem_notes hn

theorem evaluate_rejects_inner :
    let r : Registry Tally := Registry.empty.register "tick" ⟨.sync, Stock.body (.counter 0)⟩
    let tick : Json := .obj [("apply", .arr [.str "tick"])]
    (∃ tree, compile {} tick = .ok tree ∧
      ((tree.evaluate .null).course (r.invoke .sync) [0]).pauses = 0) ∧
    (evaluate {} .sync r (.obj [("and", .arr [tick, .obj [("xor", tick)]])]) .null [0]).state =
      [0] := by
  intro r tick
  exact ⟨⟨_, rfl, ((evaluate_rejects {} .sync r tick .null [0]).1 _ rfl).2⟩,
    ((evaluate_rejects {} .sync r _ .null [0]).2 (.unknownOperator "xor") (by cbv) (by decide)).2.1⟩

end Engine
end JsonRules
