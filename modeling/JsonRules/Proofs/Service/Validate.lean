import JsonRules.Proofs.List
import JsonRules.Proofs.Service.Process

/-!
# Validating rules

Validating compiles a rule and runs its tree on the empty object, and processing evaluates the rule.
The verdict is the reply to processing the rule on that object all the same, and so is what is left
behind (`Service.validate_agrees`).
-/

namespace JsonRules

variable {σ : Type}

namespace Service

/-- A verdict on a rule agrees with a reply: valid for success, and otherwise with the same words. The
same is left behind up to traces. -/
structure Agrees (t : Trail σ ValidationReply) (u : Trail σ ProcessReply) : Prop where
  valid_iff : t.result.valid = true ↔ u.result.isSuccess = true
  error : t.result.error = u.result.error?
  state : t.state = u.state
  effects : t.effects = u.effects

variable {v : Service σ} {rule : Json} {tree : Node} {s : σ}

/-! ### Verdicts -/

theorem validate_of_falsy (h : rule.truthy = false) :
    v.validate ⟨rule⟩ s = ⟨.invalid ruleNotProvided, s, [.note (.start .validate)]⟩ := by
  simp only [validate, h]
  rfl

theorem validate_of_compile_error {e : RuleError} (htruthy : rule.truthy = true)
    (h : v.engine.compile rule = .error e) :
    v.validate ⟨rule⟩ s =
      ⟨.invalid e.message, s, .note (.start .validate) ::
        (Rule.notes v.engine.maxDepth rule).map .note ++ [.note (.validationRefused e)]⟩ := by
  simp only [validate, htruthy, if_pos, h]
  rfl

theorem validate_of_compile (htruthy : rule.truthy = true) (h : v.engine.compile rule = .ok tree) :
    v.validate ⟨rule⟩ s =
      let t := v.check tree s
      { t with
        journal := .note (.start .validate) ::
          (Rule.notes v.engine.maxDepth rule).map .note ++ t.journal } := by
  simp only [validate, htruthy, if_pos, h]
  rfl

theorem check_of_ok {value : Json}
    (h : (Engine.run v.functions.mode v.functions tree (.obj []) s).result = .ok value) :
    v.check tree s =
      let t := Engine.run v.functions.mode v.functions tree (.obj []) s
      ⟨⟨true, some "规则有效", none, tree.paths.toList, tree.functions.toList⟩, t.state,
        t.journal⟩ := by
  simp only [check, Engine.resolve_execute, h]

theorem check_of_error {e : RuleError}
    (h : (Engine.run v.functions.mode v.functions tree (.obj []) s).result = .error e) :
    v.check tree s =
      let t := Engine.run v.functions.mode v.functions tree (.obj []) s
      ⟨⟨false, none, some e.message, tree.paths.toList, tree.functions.toList⟩, t.state,
        t.journal ++ [.note (.validationFailed e)]⟩ := by
  simp only [check, Engine.resolve_execute, h]
  rfl

/-- A tree is listed with what it refers to whether or not it has a value. -/
theorem lists_check : (v.check tree s).result.paths = tree.paths.toList ∧
    (v.check tree s).result.functions = tree.functions.toList := by
  cases h : (Engine.run v.functions.mode v.functions tree (.obj []) s).result with
  | ok value => simp only [check_of_ok h, and_self]
  | error e => simp only [check_of_error h, and_self]

theorem effects_check : (v.check tree s).effects =
    (Engine.run v.functions.mode v.functions tree (.obj []) s).effects := by
  cases h : (Engine.run v.functions.mode v.functions tree (.obj []) s).result with
  | ok value => rw [check_of_ok h]; rfl
  | error e =>
    rw [check_of_error h]
    simp [Trail.effects, Event.isTrace, Note.isTrace]

/-! ### Verdicts and replies -/

theorem processAsync_mirrors (v : Service σ) {q : ProcessRequest} (s : σ)
    (htruthy : q.rule.truthy = true) :
    Mirrors .processAsync q (v.processAsync q s)
      (v.engine.evaluate v.functions.mode v.functions q.rule q.data s) := by
  rw [← Engine.resolve_evaluateAuto]
  exact answer_mirrors htruthy

theorem agrees_of_falsy (h : rule.truthy = false) :
    Agrees (v.validate ⟨rule⟩ s) (v.processAsync ⟨rule, .obj []⟩ s) := by
  have hprocess : v.processAsync ⟨rule, .obj []⟩ s = _ := answer_of_falsy h
  rw [validate_of_falsy h, hprocess]
  exact ⟨Iff.rfl, rfl, rfl, rfl⟩

theorem agrees_of_compile_error {e : RuleError} (htruthy : rule.truthy = true)
    (h : v.engine.compile rule = .error e) :
    Agrees (v.validate ⟨rule⟩ s) (v.processAsync ⟨rule, .obj []⟩ s) := by
  obtain ⟨hresult, hstate, hnothing⟩ :=
    Engine.evaluate_of_compile_error_effects h v.functions.mode v.functions (.obj []) s
  have hprocess := v.processAsync_mirrors (q := ⟨rule, .obj []⟩) s htruthy
  have heffects : (v.validate ⟨rule⟩ s).effects = (v.processAsync ⟨rule, .obj []⟩ s).effects := by
    rw [hprocess.effects, hnothing, validate_of_compile_error htruthy h]
    exact Engine.effects_noted v.engine .validate rule [.note (.validationRefused e)]
  rw [validate_of_compile_error htruthy h, hprocess.of_error e hresult] at heffects ⊢
  exact ⟨Iff.rfl, rfl, hstate.symm, heffects⟩

theorem agrees_of_compile (htruthy : rule.truthy = true) (h : v.engine.compile rule = .ok tree) :
    Agrees (v.validate ⟨rule⟩ s) (v.processAsync ⟨rule, .obj []⟩ s) := by
  have halike := Engine.evaluate_alike h v.functions.mode v.functions (.obj []) s
  have hprocess := v.processAsync_mirrors (q := ⟨rule, .obj []⟩) s htruthy
  -- the journals themselves differ by the note on the mode, so no equation of trails carries this
  have heffects : (v.validate ⟨rule⟩ s).effects = (v.processAsync ⟨rule, .obj []⟩ s).effects := by
    rw [hprocess.effects, ← halike.effects, ← effects_check, validate_of_compile htruthy h]
    exact Engine.effects_noted v.engine .validate rule _
  cases hrun : (Engine.run v.functions.mode v.functions tree (.obj []) s).result with
  | ok value =>
    rw [validate_of_compile htruthy h, check_of_ok hrun,
      hprocess.of_ok value (halike.result.symm.trans hrun)] at heffects ⊢
    exact ⟨Iff.rfl, rfl, halike.state, heffects⟩
  | error e =>
    rw [validate_of_compile htruthy h, check_of_error hrun,
      hprocess.of_error e (halike.result.symm.trans hrun)] at heffects ⊢
    exact ⟨Iff.rfl, rfl, halike.state, heffects⟩

/-- Validating a rule agrees with processing it on the empty object, whatever the rule, the limit on
its depth, the functions and the state of the host. What the rule refers to is listed in ascending
order if there is a rule and it compiles, even if it then has no value, and otherwise nothing is. -/
theorem validate_agrees (v : Service σ) (rule : Json) (s : σ) :
    let t := v.validate ⟨rule⟩ s
    Agrees t (v.processAsync ⟨rule, .obj []⟩ s) ∧
    t.result.paths.Pairwise (· < ·) ∧ t.result.functions.Pairwise (· < ·) ∧
    (∀ tree, rule ∉ Json.falsyValues → v.engine.compile rule = .ok tree →
      t.result.paths = tree.paths.toList ∧ t.result.functions = tree.functions.toList) ∧
    ((rule ∈ Json.falsyValues ∨ ∃ e, v.engine.compile rule = .error e) →
      t.result.paths = [] ∧ t.result.functions = []) := by
  intro t
  cases htruthy : rule.truthy with
  | false =>
    have hfalsy := Json.truthy_eq_false_iff.1 htruthy
    refine ⟨agrees_of_falsy htruthy, ?_⟩
    have ht : t = _ := validate_of_falsy htruthy
    rw [ht]
    exact ⟨.nil, .nil, fun tree hnot => absurd hfalsy hnot, fun _ => ⟨rfl, rfl⟩⟩
  | true =>
    have hnot : rule ∉ Json.falsyValues := by
      rw [← Json.truthy_eq_false_iff, htruthy]
      intro hfalsy
      cases hfalsy
    cases h : v.engine.compile rule with
    | error e =>
      refine ⟨agrees_of_compile_error htruthy h, ?_⟩
      have ht : t = _ := validate_of_compile_error htruthy h
      rw [ht]
      exact ⟨.nil, .nil, nofun, fun _ => ⟨rfl, rfl⟩⟩
    | ok tree =>
      refine ⟨agrees_of_compile htruthy h, ?_⟩
      have ht : t = _ := validate_of_compile htruthy h
      have hpaths : t.result.paths = tree.paths.toList := by rw [ht]; exact lists_check.1
      have hfunctions : t.result.functions = tree.functions.toList := by rw [ht]; exact lists_check.2
      rw [hpaths, hfunctions]
      refine ⟨Std.TreeSet.pairwise_lt_toList _, Std.TreeSet.pairwise_lt_toList _, fun tree' _ htree => ?_, ?_⟩
      · cases htree
        exact ⟨rfl, rfl⟩
      · rintro (hfalsy | ⟨e, he⟩)
        · exact absurd hfalsy hnot
        · cases he

theorem validate_agrees_absent :
    let r : Registry Tally := Registry.empty.register "tick" ⟨.async 1, Stock.body (.counter 0)⟩
    let v : Service Tally := ⟨{}, r⟩
    let rule : Json := .obj [("merge", .arr [.obj [("apply", .arr [.str "tick"])],
      .obj [("apply", .arr [.str "absent"])], .obj [("var", .str "b")], .obj [("var", .str "a")]])]
    let t := v.validate ⟨rule⟩ [0]
    (∃ tree, v.engine.compile rule = .ok tree) ∧ rule ∉ Json.falsyValues ∧
    t.result.valid = false ∧ t.result.error = some (RuleError.functionNotRegistered "absent").message ∧
    t.state = [1] ∧ t.result.paths = ["a", "b"] ∧ t.result.functions = ["absent", "tick"] ∧
    (v.validate ⟨.obj []⟩ [0]).result.paths = [] := by
  intro r v rule t
  have hrule : rule ∉ Json.falsyValues := by simp [rule, Json.falsyValues]
  have hempty : Json.obj [] ∈ Json.falsyValues := by simp [Json.falsyValues]
  have htree : v.engine.compile rule = .ok (.operation .merge [
      .operation .apply [.literal (.str "tick")], .operation .apply [.literal (.str "absent")],
      .operation .var [.literal (.str "b")], .operation .var [.literal (.str "a")]]) := rfl
  have hresult : (v.engine.evaluate .async v.functions rule (.obj []) [0]).result =
      .error (.functionNotRegistered "absent") := by cbv
  have hstate : (v.engine.evaluate .async v.functions rule (.obj []) [0]).state = [1] := by cbv
  have hreply := (v.processAsync_mirrors (q := ⟨rule, .obj []⟩) [0] rfl).of_error _ hresult
  obtain ⟨hagrees, -, -, hlists, -⟩ := validate_agrees v rule [0]
  obtain ⟨-, -, -, -, hnothing⟩ := validate_agrees v (.obj []) [0]
  obtain ⟨hpaths, hfunctions⟩ := hlists _ hrule htree
  rw [hreply] at hagrees
  refine ⟨⟨_, htree⟩, hrule, ?_, hagrees.error, hagrees.state.trans hstate, hpaths.trans ?_,
    hfunctions.trans ?_, (hnothing (.inl hempty)).1⟩
  · rw [← Bool.not_eq_true, hagrees.valid_iff]
    intro h
    cases h
  · decide +kernel
  · decide +kernel

end Service
end JsonRules
