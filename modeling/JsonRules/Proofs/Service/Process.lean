import JsonRules.Host.Stock
import JsonRules.Proofs.Engine.References
import JsonRules.Proofs.Engine.Session
import JsonRules.Proofs.Json.Number
import JsonRules.Service

/-!
# Processing requests

The service refuses a rule that does not count as true, and otherwise replies with what the engine
makes of it (`Service.answer_mirrors`). It adds traces only. Both ways to process a request give the
same reply and leave the same behind, unless the one that does not wait is refused an asynchronous
function (`Service.process_mirrors`).
-/

namespace JsonRules

variable {σ : Type}

/-- An evaluation that is refused no function differs by traces only from the one that goes by the
registry. -/
theorem Engine.evaluate_sync_alike {e : Engine} {r : Registry σ} {rule data : Json} {s : σ}
    (h : ∀ name, (e.evaluate .sync r rule data s).result ≠ .error (.asyncFunctionInSyncRun name)) :
    (e.evaluate .sync r rule data s).Alike ((e.evaluateAuto r rule data s).resolve s) := by
  rw [evaluate_eq_cons] at h
  rw [resolve_evaluateAuto, evaluate_eq_cons, evaluate_eq_cons, Registry.run_eq_run_sync h r.mode]
  exact ⟨rfl, rfl, rfl⟩

namespace Service

/-- What answering a request leaves behind is what the evaluation of its rule does: the reply says
how that has ended, and only traces are added to the journal. -/
structure Mirrors (task : Task) (q : ProcessRequest) (t : Trail σ ProcessReply)
    (u : Trail σ (Result Json)) : Prop where
  isSuccess_iff : t.result.isSuccess = true ↔ ∃ value, u.result = .ok value
  of_ok : ∀ value, u.result = .ok value →
    t = ⟨.success true value q.rule q.data, u.state, .note (.start task) :: u.journal⟩
  of_error : ∀ e, u.result = .error e →
    t = ⟨.failure false e.message (some e.kind), u.state,
      .note (.start task) :: u.journal ++ [.note (.processingFailed e)]⟩
  effects : t.effects = u.effects

variable {task task' : Task} {evaluate evaluate' : σ → Trail σ (Result Json)} {q : ProcessRequest}
  {s : σ}

/-! ### Answers -/

theorem answer_of_falsy (h : q.rule.truthy = false) :
    answer task evaluate q s =
      ⟨.failure false ruleNotProvided none, s, [.note (.start task)]⟩ := by
  rw [answer, h]
  rfl

theorem answer_of_ok {value : Json} (htruthy : q.rule.truthy = true)
    (h : (evaluate s).result = .ok value) :
    answer task evaluate q s =
      ⟨.success true value q.rule q.data, (evaluate s).state,
        .note (.start task) :: (evaluate s).journal⟩ := by
  rw [answer, htruthy, if_pos rfl, respond, h]
  rfl

theorem answer_of_error {e : RuleError} (htruthy : q.rule.truthy = true)
    (h : (evaluate s).result = .error e) :
    answer task evaluate q s =
      ⟨.failure false e.message (some e.kind), (evaluate s).state,
        .note (.start task) :: (evaluate s).journal ++ [.note (.processingFailed e)]⟩ := by
  rw [answer, htruthy, if_pos rfl, respond, h]
  rfl

theorem answer_mirrors (htruthy : q.rule.truthy = true) :
    Mirrors task q (answer task evaluate q s) (evaluate s) := by
  cases h : (evaluate s).result with
  | ok value =>
    rw [answer_of_ok htruthy h]
    refine ⟨?_, fun value' h' => ?_, fun e he => ?_, rfl⟩
    · simp [ProcessReply.isSuccess, h]
    · cases h.symm.trans h'
      rfl
    · cases h.symm.trans he
  | error e =>
    rw [answer_of_error htruthy h]
    refine ⟨?_, fun value h' => ?_, fun e' he => ?_, ?_⟩
    · simp [ProcessReply.isSuccess, h]
    · cases h.symm.trans h'
    · cases h.symm.trans he
      rfl
    · simp [Trail.effects, Event.isTrace, Note.isTrace]

/-- Evaluations that differ by traces only are answered alike. They do not matter if there is no
rule. -/
theorem answer_alike (h : q.rule.truthy = true → (evaluate s).Alike (evaluate' s)) :
    (answer task evaluate q s).Alike (answer task' evaluate' q s) := by
  cases htruthy : q.rule.truthy with
  | false =>
    rw [answer_of_falsy htruthy, answer_of_falsy htruthy]
    exact ⟨rfl, rfl, rfl⟩
  | true =>
    have h := h htruthy
    have heffects : (answer task' evaluate' q s).effects = (answer task evaluate q s).effects := by
      rw [(answer_mirrors htruthy).effects, (answer_mirrors htruthy).effects, h.effects]
    cases hresult : (evaluate s).result with
    | ok value =>
      rw [answer_of_ok htruthy hresult, answer_of_ok htruthy (h.result.trans hresult)] at heffects ⊢
      exact ⟨rfl, h.state, heffects⟩
    | error e =>
      rw [answer_of_error htruthy hresult, answer_of_error htruthy (h.result.trans hresult)]
        at heffects ⊢
      exact ⟨rfl, h.state, heffects⟩

/-! ### Both ways to process a request -/

/-- Processing a rule that does not count as true fails and does nothing else. Of any other rule the
reply tells what the engine makes of it, with the request's own rule and data or with the text and the
kind of the error. A request that is not refused an asynchronous function is processed alike whether
or not the service waits. -/
theorem process_mirrors (v : Service σ) (q : ProcessRequest) (s : σ) :
    let t := v.process q s
    let t' := v.processAsync q s
    (q.rule ∈ Json.falsyValues →
      t = ⟨.failure false ruleNotProvided none, s, [.note (.start .process)]⟩ ∧
      t' = ⟨.failure false ruleNotProvided none, s, [.note (.start .processAsync)]⟩ ∧
      t.effects = [] ∧ t'.effects = []) ∧
    (q.rule ∉ Json.falsyValues →
      Mirrors .process q t (v.engine.evaluate .sync v.functions q.rule q.data s) ∧
      Mirrors .processAsync q t' ((v.engine.evaluateAuto v.functions q.rule q.data s).resolve s)) ∧
    (t.result.kind? ≠ some "async_function_in_sync_context" →
      t'.result = t.result ∧ t'.state = t.state ∧ t'.effects = t.effects) := by
  intro t t'
  refine ⟨fun hfalsy => ?_, fun htruthy => ?_, fun hkind => ?_⟩
  · have hfalsy := Json.truthy_eq_false_iff.2 hfalsy
    have ht : t = _ := answer_of_falsy hfalsy
    have ht' : t' = _ := answer_of_falsy hfalsy
    rw [ht, ht']
    exact ⟨rfl, rfl, rfl, rfl⟩
  · rw [← Json.truthy_eq_false_iff, Bool.not_eq_false] at htruthy
    exact ⟨answer_mirrors htruthy, answer_mirrors htruthy⟩
  · have hrefused : q.rule.truthy = true → ∀ name,
        (v.engine.evaluate .sync v.functions q.rule q.data s).result ≠
          .error (.asyncFunctionInSyncRun name) := by
      -- a refusal would be told by the kind of the reply
      intro htruthy name h
      refine hkind ?_
      have ht : t = _ := answer_of_error htruthy h
      rw [ht]
      rfl
    obtain ⟨hresult, hstate, heffects⟩ : t.Alike t' :=
      answer_alike fun htruthy => Engine.evaluate_sync_alike (hrefused htruthy)
    exact ⟨hresult, hstate, heffects⟩

theorem process_mirrors_tick :
    let r : Registry Tally :=
      (Registry.empty.register "tick" ⟨.sync, Stock.body (.counter 0)⟩).register "fetch"
        ⟨.async 1, Stock.body .arguments⟩
    let v : Service Tally := ⟨{}, r⟩
    let tick : ProcessRequest := { rule := .obj [("apply", .arr [.str "tick"])], data := .null }
    let fetch : ProcessRequest := { rule := .obj [("apply", .arr [.str "fetch"])] }
    let zero : ProcessRequest := { rule := .num (.double (.zero true)) }
    (v.process tick [0]).result = .success true (.ofInt 1) tick.rule .null ∧
    (v.processAsync tick [0]).result = (v.process tick [0]).result ∧
    (v.processAsync tick [0]).state = (v.process tick [0]).state ∧
    (v.process fetch [0]).result.kind? = some "async_function_in_sync_context" ∧
    (v.processAsync fetch [0]).result = .success true (.arr []) fetch.rule (.obj []) ∧
    (v.process zero [0]).effects = [] := by
  intro r v tick fetch zero
  have htick : tick.rule ∉ Json.falsyValues := by simp [tick, Json.falsyValues]
  have hfetch : fetch.rule ∉ Json.falsyValues := by simp [fetch, Json.falsyValues]
  have hzero : zero.rule ∈ Json.falsyValues := by simp [zero, Json.falsyValues]
  have hvalue : (v.engine.evaluate .sync v.functions tick.rule tick.data [0]).result =
      .ok (.ofInt 1) := by cbv
  have hrefused : (v.engine.evaluate .sync v.functions fetch.rule fetch.data [0]).result =
      .error (.asyncFunctionInSyncRun "fetch") := by cbv
  have hwaits : ((v.engine.evaluateAuto v.functions fetch.rule fetch.data [0]).resolve [0]).result =
      .ok (.arr []) := by cbv
  obtain ⟨-, hmirrors, hsame⟩ := process_mirrors v tick [0]
  have hprocess := (hmirrors htick).1.of_ok _ hvalue
  have hkind : (v.process tick [0]).result.kind? ≠ some "async_function_in_sync_context" := by
    rw [hprocess]
    intro h
    cases h
  obtain ⟨-, hmirrors', -⟩ := process_mirrors v fetch [0]
  obtain ⟨hfalsy, -, -⟩ := process_mirrors v zero [0]
  refine ⟨congrArg Trail.result hprocess, (hsame hkind).1, (hsame hkind).2.1, ?_, ?_,
    (hfalsy hzero).2.2.1⟩
  · rw [(hmirrors' hfetch).1.of_error _ hrefused]
    rfl
  · rw [(hmirrors' hfetch).2.of_ok _ hwaits]

end Service
end JsonRules
