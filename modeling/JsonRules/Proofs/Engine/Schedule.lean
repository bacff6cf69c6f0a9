import JsonRules.Host.Stock
import JsonRules.Proofs.Engine.Failure
import JsonRules.Proofs.Engine.Session
import JsonRules.Rule.Schedule

/-!
# The schedule of an evaluation

The program of a tree is that of its steps in post-order, which leave its value on the stack
(`programOfAll_postorder`).

A run of steps visits them in their order, up to the first that fails: with it the run fails
(`visits_prefix`, `isOk_of_mem_dropLast_visits`, `result_eq_error_iff`). What the run records is what
the visits record (`journal_programOfAll`), and a step without an iteration records what its operator
and operands tell, but for pauses (`Visit.journal_eq_record`).

Without iterations the nodes of a tree are visited in post-order, arguments from left to right and
then their operator, each once and up to the first that fails. `evaluate_schedule` says so of results
and of journals.
-/

namespace JsonRules

/-! ## Trees in post-order -/

variable {data : Json}

namespace Step

theorem programOfAll_append (steps others : List Step) (stack : List Json) :
    programOfAll data (steps ++ others) stack =
      (programOfAll data steps stack).bind (programOfAll data others) :=
  List.foldlM_append

theorem programOfAll_single (step : Step) :
    programOfAll data [step] = fun stack => program data stack step := by
  funext stack
  exact Program.bind_done _

/-- The step of an operator takes its operands off the stack. -/
theorem program_perform (op : Operator) (operands stack : List Json) :
    program data (operands.reverse ++ stack) (.perform op operands.length) =
      (Program.note (.dispatch op operands.length) (op.perform operands data)).bind fun v =>
        .done (v :: stack) := by
  have htake : (operands.reverse ++ stack).take operands.length = operands.reverse :=
    List.take_left' List.length_reverse
  have hdrop : (operands.reverse ++ stack).drop operands.length = stack :=
    List.drop_left' List.length_reverse
  rw [program, htake, hdrop, List.reverse_reverse]
  rfl

end Step

namespace Node

theorem programOfAll_postorderOfAll {args : List Node}
    (h : ∀ n ∈ args, ∀ stack, Step.programOfAll data n.postorder stack =
      (n.evaluate data).bind fun v => .done (v :: stack)) (stack : List Json) :
    Step.programOfAll data (postorderOfAll args) stack =
      (evaluateAll args data).bind fun vs => .done (vs.reverse ++ stack) := by
  induction args generalizing stack with
  | nil => rfl
  | cons n rest ih =>
    have hrest := ih fun m hm => h m (List.mem_cons_of_mem n hm)
    rw [postorderOfAll, Step.programOfAll_append, h n List.mem_cons_self, evaluateAll]
    simp only [Program.bind_eq, Program.pure_eq, Program.bind_assoc, Program.bind, hrest,
      List.reverse_cons, List.append_assoc, List.singleton_append]

/-- The steps of a tree put its value on the stack. -/
theorem programOfAll_postorder (n : Node) (stack : List Json) :
    Step.programOfAll data n.postorder stack =
      (n.evaluate data).bind fun v => .done (v :: stack) := by
  induction n using Node.induction generalizing stack with
  | literal | empty => rfl
  | operation op args ih =>
    -- the step counts the arguments, and takes that many values: there are no fewer
    have hlength : (evaluateAll args data).Ends (fun _ => True) fun vs =>
        vs.length = args.length := evaluateAll_ends fun n _ => (n.evaluate data).failsOnly_true
    rw [postorder, Step.programOfAll_append, programOfAll_postorderOfAll ih, evaluate,
      Step.programOfAll_single]
    simp only [Program.bind_eq, Program.bind_assoc]
    refine hlength.bind_congr fun vs hvs => ?_
    rw [Program.bind, ← hvs]
    exact Step.program_perform op vs stack
  | iteration op source predicate initial ihs _ ihi =>
    cases initial with
    | none =>
      rw [postorder, Step.programOfAll_append, ihs, evaluate, Step.programOfAll_single]
      simp only [Program.bind_eq, Program.bind_assoc]
      rfl
    | some initial =>
      rw [postorder, Step.programOfAll_append, Step.programOfAll_append, ihs, evaluate,
        Step.programOfAll_single]
      simp only [Program.bind_eq, Program.bind_assoc, Program.bind, ihi initial rfl]
      rfl

end Node

/-! ## Runs of steps -/

variable {σ α : Type}

namespace Step

variable {host : Host σ}

theorem programOfAll_cons (step : Step) (rest : List Step) (stack : List Json) :
    programOfAll data (step :: rest) stack =
      (program data stack step).bind (programOfAll data rest) :=
  rfl

section
variable {step : Step} {stack : List Json} {s : σ}

theorem visits_cons_of_ok {top : List Json}
    (h : ((program data stack step).run host s).result = .ok top) (rest : List Step) :
    visits host data (step :: rest) stack s =
      ⟨step, stack, (program data stack step).run host s⟩ ::
        visits host data rest top ((program data stack step).run host s).state := by
  simp only [visits, h]

theorem visits_cons_of_error {e : RuleError}
    (h : ((program data stack step).run host s).result = .error e) (rest : List Step) :
    visits host data (step :: rest) stack s =
      [⟨step, stack, (program data stack step).run host s⟩] := by
  simp only [visits, h]

end

variable (host data) in
theorem visits_prefix (steps : List Step) (stack : List Json) (s : σ) :
    (visits host data steps stack s).map Visit.step <+: steps := by
  induction steps generalizing stack s with
  | nil => exact List.nil_prefix
  | cons step rest ih =>
    cases hres : ((program data stack step).run host s).result with
    | error e =>
      rw [visits_cons_of_error hres]
      exact (List.prefix_cons_inj step).2 List.nil_prefix
    | ok top =>
      rw [visits_cons_of_ok hres]
      exact (List.prefix_cons_inj step).2 (ih top _)

theorem exists_of_mem_visits {steps : List Step} {stack : List Json} {s : σ} {v : Visit σ}
    (h : v ∈ visits host data steps stack s) :
    v.step ∈ steps ∧ ∃ s', v.trail = (program data v.stack v.step).run host s' := by
  induction steps generalizing stack s with
  | nil => cases h
  | cons step rest ih =>
    cases hres : ((program data stack step).run host s).result with
    | error e =>
      rw [visits_cons_of_error hres, List.mem_singleton] at h
      subst h
      exact ⟨List.mem_cons_self, s, rfl⟩
    | ok top =>
      rw [visits_cons_of_ok hres] at h
      rcases List.mem_cons.1 h with rfl | h
      · exact ⟨List.mem_cons_self, s, rfl⟩
      · obtain ⟨hstep, hrun⟩ := ih h
        exact ⟨List.mem_cons_of_mem step hstep, hrun⟩

/-- Only the last visit can fail. -/
theorem isOk_of_mem_dropLast_visits {steps : List Step} {stack : List Json} {s : σ} {v : Visit σ}
    (h : v ∈ (visits host data steps stack s).dropLast) : ∃ top, v.trail.result = .ok top := by
  induction steps generalizing stack s with
  | nil => cases h
  | cons step rest ih =>
    cases hres : ((program data stack step).run host s).result with
    | error e =>
      rw [visits_cons_of_error hres] at h
      cases h
    | ok top =>
      rw [visits_cons_of_ok hres] at h
      cases hrest : visits host data rest top ((program data stack step).run host s).state with
      | nil =>
        rw [hrest] at h
        cases h
      | cons w others =>
        rw [hrest, List.dropLast_cons_cons] at h
        rcases List.mem_cons.1 h with rfl | h
        · exact ⟨top, hres⟩
        · exact ih (hrest ▸ h)

/-! ### The run and its visits -/

theorem journal_programOfAll (steps : List Step) (stack : List Json) (s : σ) :
    ((programOfAll data steps stack).run host s).journal =
      (visits host data steps stack s).flatMap fun v => v.trail.journal := by
  induction steps generalizing stack s with
  | nil => rfl
  | cons step rest ih =>
    rw [programOfAll_cons]
    cases hres : ((program data stack step).run host s).result with
    | error e =>
      rw [Program.run_bind_of_error hres, visits_cons_of_error hres, List.flatMap_singleton]
    | ok top =>
      rw [Program.run_bind_of_ok hres, visits_cons_of_ok hres, List.flatMap_cons, ← ih]

theorem result_eq_error_iff {steps : List Step} {stack : List Json} {s : σ} {e : RuleError} :
    ((programOfAll data steps stack).run host s).result = .error e ↔
      ∃ v ∈ visits host data steps stack s, v.trail.result = .error e := by
  induction steps generalizing stack s with
  | nil =>
    constructor
    · intro h
      cases h
    · rintro ⟨v, hv, -⟩
      cases hv
  | cons step rest ih =>
    rw [programOfAll_cons]
    cases hres : ((program data stack step).run host s).result with
    | error e' =>
      rw [Program.run_bind_of_error hres, visits_cons_of_error hres]
      constructor
      · intro h
        exact ⟨_, List.mem_singleton_self _, hres.trans h⟩
      · rintro ⟨v, hv, h⟩
        rw [List.mem_singleton.1 hv] at h
        exact hres.symm.trans h
    | ok top =>
      rw [Program.run_bind_of_ok hres, visits_cons_of_ok hres]
      constructor
      · intro h
        obtain ⟨v, hv, hresult⟩ := ih.1 h
        exact ⟨v, List.mem_cons_of_mem _ hv, hresult⟩
      · rintro ⟨v, hv, h⟩
        rcases List.mem_cons.1 hv with rfl | hv
        · cases hres.symm.trans h
        · exact ih.2 ⟨v, hv, h⟩

theorem visits_of_result_eq_ok {steps : List Step} {stack top : List Json} {s : σ}
    (h : ((programOfAll data steps stack).run host s).result = .ok top) :
    (visits host data steps stack s).map Visit.step = steps ∧
      (steps = [] ∧ top = stack ∨
        ∃ v, (visits host data steps stack s).getLast? = some v ∧ v.trail.result = .ok top) := by
  induction steps generalizing stack s with
  | nil =>
    cases h
    exact ⟨rfl, .inl ⟨rfl, rfl⟩⟩
  | cons step rest ih =>
    rw [programOfAll_cons] at h
    cases hres : ((program data stack step).run host s).result with
    | error e =>
      rw [Program.run_bind_of_error hres] at h
      cases h
    | ok next =>
      rw [Program.run_bind_of_ok hres] at h
      obtain ⟨hall, hlast⟩ := ih h
      rw [visits_cons_of_ok hres]
      refine ⟨congrArg (step :: ·) hall, .inr ?_⟩
      rcases hlast with ⟨rfl, rfl⟩ | ⟨v, hv, hresult⟩
      · exact ⟨_, rfl, hres⟩
      · exact ⟨v, by rw [List.getLast?_cons, hv]; rfl, hresult⟩

end Step

/-! ### What steps record -/

variable {r : Registry σ} {mode : Mode}

theorem Registry.journal_of_quiet (hquiet : r.Quiet) (name : String) (args : List Json) (s : σ) :
    (r.host mode name args s).journal.filter (!·.isWait) =
      if r.accepts mode name then [.call name args] else [] := by
  rw [host_eq, accepts]
  cases hget : r.get? name with
  | none => rfl
  | some f =>
    have hnotes := hquiet name f hget args s
    cases mode <;> cases hf : f.isAsync <;>
      simp [hf, hnotes, HostFunction.pauses_of_not_isAsync, Event.isWait]

theorem Operator.journal_perform (hquiet : r.Quiet) (op : Operator) (operands : List Json)
    (data : Json) (s : σ) :
    ((op.perform operands data).run (r.host mode) s).journal.filter (!·.isWait) =
      (op.event? r mode operands).toList := by
  unfold perform
  split
  · rcases operands with _ | ⟨v, args⟩
    · rfl
    · cases v with
      | str name =>
        rw [callHost, Program.run_call_done, Registry.journal_of_quiet hquiet, event?]
        split <;> rfl
      | null | bool _ | num _ | arr _ | obj _ => rfl
  · rcases operands with _ | ⟨v, _ | ⟨w, rest⟩⟩ <;> rfl
  · rename_i happly hlog
    have hevent : op.event? r mode operands = none := by
      unfold event?
      split
      · exact absurd rfl hlog
      · exact absurd rfl happly
      · rfl
    rw [Program.run_ofResult, hevent]
    rfl

namespace Node

theorem mem_postorderOfAll {args : List Node} {step : Step} :
    step ∈ postorderOfAll args ↔ ∃ n ∈ args, step ∈ n.postorder := by
  induction args with
  | nil => simp [postorderOfAll]
  | cons n rest ih => simp [postorderOfAll, ih]

theorem ne_iterate_of_mem_postorder {n : Node} (h : n.NoIteration) {step : Step}
    (hstep : step ∈ n.postorder) (op : Operator) (predicate : Node) (b : Bool) :
    step ≠ .iterate op predicate b := by
  induction n using Node.induction with
  | literal | empty =>
    rw [List.mem_singleton.1 hstep]
    intro h
    cases h
  | operation op args ih =>
    rw [postorder, List.mem_append, mem_postorderOfAll, List.mem_singleton] at hstep
    rcases hstep with ⟨n, hn, hstep⟩ | rfl
    · exact ih n hn (fun b op s p i hm => h b op s p i (.arg hn hm)) hstep
    · intro h
      cases h
  | iteration op source predicate initial => exact absurd (.self _) (h false op source predicate initial)

end Node

/-- The visit of a step without an iteration records what its operator and operands tell, and
pauses. -/
theorem Visit.journal_eq_record (hquiet : r.Quiet) {data : Json} {v : Visit σ} {s : σ}
    (hv : v.trail = (Step.program data v.stack v.step).run (r.host mode) s)
    (hstep : ∀ op predicate b, v.step ≠ .iterate op predicate b) :
    v.trail.journal.filter (!·.isWait) = v.record r mode := by
  rw [hv, record, event?]
  cases h : v.step with
  | push value => rfl
  | perform op count =>
    have hprogram : Step.program data v.stack (.perform op count) =
        (Program.note (.dispatch op count)
          (op.perform (v.stack.take count).reverse data)).bind fun w =>
            .done (w :: v.stack.drop count) := rfl
    rw [hprogram, Program.run_map]
    exact congrArg (Event.note (.dispatch op count) :: ·)
      (Operator.journal_perform hquiet op (v.stack.take count).reverse data s)
  | iterate op predicate b => exact absurd h (hstep op predicate b)

theorem Operator.isTrace_of_event? {op : Operator} {operands : List Json} {event : Event}
    (h : op.event? r mode operands = some event) : event.isTrace = false := by
  unfold event? at h
  split at h
  · cases h
    rfl
  · split at h
    · cases h
      rfl
    · cases h
  · cases h

theorem Visit.filter_record (v : Visit σ) :
    (v.record r mode).filter (!·.isTrace) = (v.event? r mode).toList := by
  rw [record, event?]
  cases v.step with
  | push value => rfl
  | perform op count =>
    refine (List.filter_cons_of_neg (by simp [Event.isTrace, Note.isTrace])).trans ?_
    refine List.filter_eq_self.2 fun event hevent => ?_
    rw [Operator.isTrace_of_event? (Option.mem_toList.1 hevent)]
    rfl
  | iterate op predicate b => rfl

/-! ## The schedule -/

namespace Engine

/-- The run of a tree is that of its steps on an empty stack. -/
theorem run_programOfAll (mode : Mode) (r : Registry σ) (tree : Node) (data : Json) (s : σ) :
    (Step.programOfAll data tree.postorder []).run (r.host mode) s =
      let t := run mode r tree data s
      { t with result := (fun v => [v]) <$> t.result } := by
  rw [Node.programOfAll_postorder, Program.run_map, run_eq]

/-- An evaluation without iterations visits the nodes of its tree in post-order, each once, up to the
first whose step fails. It fails just if a step does, with the error of this step, and records, pauses
apart, what the visited operators record: calls that fail are recorded too. -/
theorem evaluate_schedule (e : Engine) (mode : Mode) {r : Registry σ} (hquiet : r.Quiet)
    {rule : Json} {tree : Node} (h : e.compile rule = .ok tree) (hplain : tree.NoIteration)
    (data : Json) (s : σ) :
    let visits := Step.visits (r.host mode) data tree.postorder [] s
    let t := run mode r tree data s
    let u := e.evaluate mode r rule data s
    visits.map Visit.step <+: tree.postorder ∧
    (∀ v ∈ visits.dropLast, ∃ stack, v.trail.result = .ok stack) ∧
    (∀ err, t.result = .error err ↔ ∃ v ∈ visits, v.trail.result = .error err) ∧
    (∀ value, t.result = .ok value →
      visits.map Visit.step = tree.postorder ∧
        ∃ v, visits.getLast? = some v ∧ v.trail.result = .ok [value]) ∧
    t.journal.filter (!·.isWait) = visits.flatMap (Visit.record r mode) ∧
    u.result = t.result ∧ u.state = t.state ∧
      u.effects.filter (!·.isWait) = visits.filterMap (Visit.event? r mode) := by
  intro visits t u
  have hrun := run_programOfAll mode r tree data s
  have hresult : ((Step.programOfAll data tree.postorder []).run (r.host mode) s).result =
      (fun v => [v]) <$> t.result := congrArg Trail.result hrun
  have hjournal : t.journal.filter (!·.isWait) = visits.flatMap (Visit.record r mode) := by
    have hall : t.journal = visits.flatMap fun v => v.trail.journal :=
      (congrArg Trail.journal hrun).symm.trans (Step.journal_programOfAll tree.postorder [] s)
    rw [hall, List.filter_flatMap]
    refine List.flatMap_congr fun v hv => ?_
    obtain ⟨hstep, s', hv⟩ := Step.exists_of_mem_visits hv
    exact Visit.journal_eq_record hquiet hv (Node.ne_iterate_of_mem_postorder hplain hstep)
  have hevents : t.effects.filter (!·.isWait) = visits.filterMap (Visit.event? r mode) := by
    rw [Trail.effects, List.filter_comm, hjournal, List.filter_flatMap]
    simp only [Visit.filter_record, List.filterMap_eq_flatMap_toList]
  have halike := evaluate_alike h mode r data s
  refine ⟨Step.visits_prefix _ _ _ _ _, fun v => Step.isOk_of_mem_dropLast_visits, fun err => ?_,
    fun value hvalue => ?_, hjournal, halike.result.symm, halike.state.symm, ?_⟩
  · rw [← Step.result_eq_error_iff, hresult, Result.map_eq_error]
  · have hok : ((Step.programOfAll data tree.postorder []).run (r.host mode) s).result =
        .ok [value] := by
      rw [hresult, hvalue]
      rfl
    obtain ⟨hall, ⟨-, hnil⟩ | hlast⟩ := Step.visits_of_result_eq_ok hok
    · cases hnil
    · exact ⟨hall, hlast⟩
  · rw [← hevents, halike.effects]

theorem evaluate_schedule_fail :
    let r : Registry Tally :=
      (Registry.empty.register "tick" ⟨.async 1, Stock.body (.counter 0)⟩).register "fail"
        ⟨.sync, Stock.body (.failing "no")⟩
    let tick : Json := .obj [("apply", .arr [.str "tick"])]
    let rule : Json := .obj [("and", .arr [.obj [("log", .bool false)],
      .obj [("if", .arr [.bool true, .null, tick])], .obj [("apply", .arr [.str "fail"])], tick])]
    r.Quiet ∧ (∃ tree, compile {} rule = .ok tree ∧ tree.NoIteration) ∧
    (evaluate {} .async r rule .null [0]).effects.filter (!·.isWait) =
      [.note (.log (.bool false)), .call "tick" [], .call "fail" []] := by
  intro r tick rule
  let tick' : Node := .operation .apply [.literal (.str "tick")]
  let tree : Node := .operation .all [.operation .log [.literal (.bool false)],
    .operation .choose [.literal (.bool true), .literal .null, tick'],
    .operation .apply [.literal (.str "fail")], tick']
  have hquiet : r.Quiet :=
    (Registry.quiet_empty.register (fun _ _ => rfl) "tick").register (fun _ _ => rfl) "fail"
  have htree : compile {} rule = .ok tree := rfl
  have hplain : tree.NoIteration := by
    intro inPredicate op source predicate initial h
    simp [tree, tick', Node.holds_operation, Node.holds_literal] at h
  obtain ⟨-, -, -, -, -, -, -, hevents⟩ :=
    evaluate_schedule {} .async hquiet htree hplain .null [0]
  refine ⟨hquiet, ⟨tree, htree, hplain⟩, ?_⟩
  rw [hevents]
  cbv

end Engine
end JsonRules
