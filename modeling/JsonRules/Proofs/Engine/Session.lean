import JsonRules.Engine
import JsonRules.Proofs.Engine.Failure
import JsonRules.Proofs.Host.Registry
import JsonRules.Proofs.List
import JsonRules.Proofs.Run.Related

/-!
# Evaluation in both modes

An asynchronous evaluation is a synchronous one with the pauses put in (`evaluate_async_eq`). With
asynchronous functions registered a synchronous evaluation is the asynchronous one, cut before the
first call of such a function (`evaluate_sync_eq`). The evaluations differ by their first note, which
names the mode, so both are about what comes after it.

An evaluation that goes by its registry is over at once without asynchronous functions and has not
begun with them. Up to traces it is the same for a rule and for the tree of that rule
(`execute_alike`), so a client that compiles a rule once and one that never does get the same answers
in every session (`Session.replies_alike`). `evaluateAuto_transparent` puts this together.
-/

namespace JsonRules

/-! ## Both modes -/

namespace Engine

variable {σ : Type}

/-- An evaluation runs the program of its rule after the note on the mode. -/
theorem evaluate_eq_cons (e : Engine) (mode : Mode) (r : Registry σ) (rule data : Json) (s : σ) :
    e.evaluate mode r rule data s =
      let t := (e.program rule data).run (r.host mode) s
      { t with journal := .note (.start (.evaluate mode)) :: t.journal } :=
  e.evaluate_eq mode r rule data s

/-- An asynchronous evaluation ends as the synchronous one where no function pauses, and leaves the
same behind but for the pauses. Without asynchronous functions there are none. -/
theorem evaluate_async_eq (e : Engine) (r : Registry σ) (rule data : Json) (s : σ) :
    ∃ t : Trail σ (Result Json),
      e.evaluate .sync r.toSync rule data s =
        { t with journal := .note (.start (.evaluate .sync)) :: t.journal } ∧
      e.evaluate .async r rule data s =
        { t with
          journal := .note (.start (.evaluate .async)) :: t.journal.flatMap r.pausesBefore } ∧
      (r.hasAsync = false →
        e.evaluate .sync r rule data s = e.evaluate .sync r.toSync rule data s ∧
        t.journal.flatMap r.pausesBefore = t.journal ∧ (∀ name, .wait name ∉ t.journal) ∧
        (e.course .async r rule data s).pauses = 0) := by
  refine ⟨(e.program rule data).run (r.toSync.host .sync) s,
    e.evaluate_eq_cons .sync r.toSync rule data s, ?_,
    fun h => ⟨?_, ?_, fun name hname => ?_, ?_⟩⟩
  · rw [evaluate_eq_cons, Registry.run_async]
  · have hhost : r.host .sync = r.toSync.host .sync := funext fun name =>
      Registry.host_congr (r.get?_toSync_of_hasAsync h name).symm .sync
    rw [evaluate_eq_cons, evaluate_eq_cons, hhost]
  · rw [funext (Registry.pausesBefore_of_hasAsync h), List.flatMap_singleton']
  · exact (Registry.mem_journal_run_sync _ s _ hname).1 name rfl
  · refine Program.pauses_course _ (fun name args s => ?_) _ s
    rw [← Registry.invoke_sync_eq_async (Registry.isAsync_of_hasAsync h name)]
    exact r.pauses_invoke_sync name args s

theorem evaluate_async_eq_tick :
    let r : Registry Tally := Registry.empty.register "tick" ⟨.sync, Stock.body (.counter 0)⟩
    let rule : Json :=
      .obj [("map", .arr [.arr [.null, .bool true], .obj [("apply", .arr [.str "tick"])]])]
    r.hasAsync = false ∧ (course {} .async r rule .null [0]).pauses = 0 := by
  intro r rule
  have hsync : r.hasAsync = false := by cbv
  obtain ⟨t, -, -, h⟩ := evaluate_async_eq {} r rule .null [0]
  exact ⟨hsync, (h hsync).2.2.2⟩

theorem result_async_ne (e : Engine) (r : Registry σ) (rule data : Json) (s : σ) (name : String) :
    ((e.program rule data).run (r.host .async) s).result ≠ .error (.asyncFunctionInSyncRun name) := by
  intro h
  have hends := e.evaluate_failsOnly .async r rule data s
  rw [evaluate_eq_cons] at hends
  simp only [h] at hends
  rcases hends with hends | hends
  · exact hends
  · cases hends

/-- With asynchronous functions registered a synchronous evaluation is the asynchronous one, if that
calls none of them, and does not depend on what they are. Otherwise it is refused the first one that
the asynchronous evaluation calls, and leaves behind what that has done until then. -/
theorem evaluate_sync_eq (e : Engine) (r : Registry σ) (rule data : Json) (s : σ) :
    ∃ a b : Trail σ (Result Json),
      e.evaluate .async r rule data s =
        { a with journal := .note (.start (.evaluate .async)) :: a.journal } ∧
      e.evaluate .sync r rule data s =
        { b with journal := .note (.start (.evaluate .sync)) :: b.journal } ∧
      (r.firstAsync? a.journal = none →
        b = a ∧ ∀ r' : Registry σ, (∀ name, r.isAsync name = false → r'.get? name = r.get? name) →
          ∀ mode, e.evaluate mode r' rule data s = e.evaluate mode r rule data s) ∧
      ∀ name,
        (b.result = .error (.asyncFunctionInSyncRun name) ↔ r.firstAsync? a.journal = some name) ∧
        (r.firstAsync? a.journal = some name →
          r.firstAsync? b.journal = none ∧
          (∃ args after, a.journal = b.journal ++ r.pausesBefore (.call name args) ++ after) ∧
          (e.program rule data).firstCall? (r.host .async) r.isAsync s =
            some ⟨name, b.state, b.journal⟩) := by
  refine ⟨_, _, e.evaluate_eq_cons .async r rule data s, e.evaluate_eq_cons .sync r rule data s, ?_⟩
  have hfirst := Registry.firstAsync?_run_async (r := r) (e.program rule data) s
  -- the journal and the program agree on the first asynchronous call, so split on the program's
  cases h : (e.program rule data).firstCall? (r.host .async) r.isAsync s with
  | none =>
    rw [h, Option.map_none] at hfirst
    have hsync := Registry.run_of_firstCall?_eq_none (fun _ _ => rfl) .sync h
    refine ⟨fun _ => ⟨hsync, fun r' hsame mode => ?_⟩, fun name => ⟨⟨fun hb => ?_, fun hname => ?_⟩,
      fun hname => ?_⟩⟩
    · rw [evaluate_eq_cons, evaluate_eq_cons, Registry.run_of_firstCall?_eq_none hsame mode h,
        Registry.run_of_firstCall?_eq_none (fun _ _ => rfl) mode h]
    · -- the result is that of an asynchronous run, which refuses nothing
      rw [hsync] at hb
      exact absurd hb (result_async_ne e r rule data s name)
    · cases hfirst.symm.trans hname
    · cases hfirst.symm.trans hname
  | some t =>
    rw [h, Option.map_some] at hfirst
    have hsync := Registry.run_sync_of_firstCall?_eq_some h
    refine ⟨fun hnone => ?_, fun name => ⟨?_, fun hname => ?_⟩⟩
    · cases hfirst.symm.trans hnone
    · rw [hsync, hfirst]
      simp
    · rw [hfirst, Option.some.injEq] at hname
      subst hname
      refine ⟨Registry.firstAsync?_run_sync _ s, ?_, ?_⟩
      · rw [hsync]
        exact Registry.journal_run_async_of_firstCall?_eq_some h
      · rw [hsync]

theorem evaluate_sync_eq_fetch :
    let r : Registry Tally :=
      (Registry.empty.register "tick" ⟨.sync, Stock.body (.counter 0)⟩).register "fetch"
        ⟨.async 1, Stock.body .arguments⟩
    let tick : Json := .obj [("apply", .arr [.str "tick"])]
    let rule : Json := .obj [("and", .arr [tick, .obj [("apply", .arr [.str "fetch", tick])], tick])]
    (evaluate {} .sync r rule .null [0]).result = .error (.asyncFunctionInSyncRun "fetch") ∧
    ∃ args after, (evaluate {} .async r rule .null [0]).journal.tail =
      (evaluate {} .sync r rule .null [0]).journal.tail ++ r.pausesBefore (.call "fetch" args) ++
        after := by
  intro r tick rule
  have hresult : (evaluate {} .sync r rule .null [0]).result =
      .error (.asyncFunctionInSyncRun "fetch") := by cbv
  obtain ⟨a, b, ha, hb, -, hcut⟩ := evaluate_sync_eq {} r rule .null [0]
  refine ⟨hresult, ?_⟩
  rw [hb] at hresult
  rw [ha, hb]
  exact ((hcut "fetch").2 ((hcut "fetch").1.1 hresult)).2.1

end Engine

/-! ## Evaluations that choose their mode -/

variable {σ : Type}

/-- Two evaluations differ by traces only: both are over, or both have not begun. -/
inductive Evaluation.Alike : Evaluation σ → Evaluation σ → Prop where
  | ready {t t' : Trail σ (Result Json)} (h : t.Alike t') : Alike (.ready t) (.ready t')
  | pending {resume resume' : σ → Trail σ (Result Json)} (h : ∀ s, (resume s).Alike (resume' s)) :
    Alike (.pending resume) (.pending resume')

/-- Two sessions are in the same state of the host with evaluations that differ by traces only. -/
structure Session.Alike (c c' : Session σ) : Prop where
  state : c'.state = c.state
  evaluations : List.Forall₂ Evaluation.Alike c.evaluations c'.evaluations

namespace Evaluation

variable {ev ev' : Evaluation σ}

theorem Alike.handed (h : ev.Alike ev') (s : σ) : (ev.handed s).Alike (ev'.handed s) := by
  cases h with
  | ready h => exact ⟨congrArg some h.result, h.state, h.effects⟩
  | pending h => exact ⟨rfl, rfl, rfl⟩

theorem Alike.rest (h : ev.Alike ev') (s : σ) : (ev.rest s).Alike (ev'.rest s) := by
  cases h with
  | ready h => exact ⟨h.result, rfl, rfl⟩
  | pending h => exact h s

end Evaluation

/-! ### Sessions -/

namespace Session

variable {evaluate evaluate' : Registry σ → Json → σ → Evaluation σ} {c c' : Session σ}

theorem reply_alike (hev : ∀ r data s, (evaluate r data s).Alike (evaluate' r data s))
    (h : c.Alike c') (q : Request σ) :
    let t := c.reply evaluate q
    let t' := c'.reply evaluate' q
    t'.result = t.result ∧ t.state.Alike t'.state ∧ t'.effects = t.effects := by
  obtain ⟨s, evaluations⟩ := c
  obtain ⟨s', evaluations'⟩ := c'
  obtain ⟨hstate, hall⟩ := h
  obtain rfl : s' = s := hstate
  cases q with
  | start r data =>
    have hboth := hev r data s'
    have hhanded := hboth.handed s'
    exact ⟨hhanded.result, ⟨hhanded.state, List.rel_append hall (.cons hboth .nil)⟩, hhanded.effects⟩
  | resolve i =>
    rcases hall.getElem?_cases i with ⟨hnone, hnone'⟩ | ⟨ev, ev', hsome, hsome', hboth⟩
    · simp only [reply, hnone, hnone']
      exact ⟨trivial, ⟨rfl, hall⟩, rfl⟩
    · -- what is resolved is over from then on, in both sessions
      have hrest := hboth.rest s'
      simp only [reply, hsome, hsome']
      exact ⟨congrArg some hrest.result,
        ⟨hrest.state, hall.set (.ready hrest) i⟩, hrest.effects⟩

theorem replies_alike (hev : ∀ r data s, (evaluate r data s).Alike (evaluate' r data s))
    (h : c.Alike c') (requests : List (Request σ)) :
    List.Forall₂ (fun t t' => t'.result = t.result ∧ t'.state.state = t.state.state ∧
        t'.effects = t.effects)
      (replies evaluate requests c) (replies evaluate' requests c') := by
  induction requests generalizing c c' with
  | nil => exact .nil
  | cons q rest ih =>
    obtain ⟨hresult, hsession, heffects⟩ := reply_alike hev h q
    exact .cons ⟨hresult, hsession.state, heffects⟩ (ih hsession)

end Session

namespace Engine

/-! ### A rule and its tree -/

/-- The note on a task and the notes on a rule are traces. -/
theorem effects_noted (e : Engine) (task : Task) (rule : Json) (journal : List Event) :
    (Event.note (.start task) :: (Rule.notes e.maxDepth rule).map .note ++
      journal).filter (!·.isTrace) = journal.filter (!·.isTrace) := by
  have hnotes : ((Rule.notes e.maxDepth rule).map Event.note).filter (!·.isTrace) = [] := by
    rw [List.filter_eq_nil_iff]
    intro event hevent
    obtain ⟨n, hn, rfl⟩ := List.mem_map.1 hevent
    simpa [Event.isTrace] using Rule.isTrace_of_mem_notes hn
  rw [List.cons_append, List.filter_cons_of_neg (by simp [Event.isTrace, Note.isTrace]),
    List.filter_append, hnotes, List.nil_append]

theorem evaluate_alike {e : Engine} {rule : Json} {tree : Node} (h : e.compile rule = .ok tree)
    (mode : Mode) (r : Registry σ) (data : Json) (s : σ) :
    (e.evaluate mode r rule data s).Alike (run mode r tree data s) := by
  rw [evaluate_of_compile h]
  exact ⟨rfl, rfl, (effects_noted e (.evaluate mode) rule _).symm⟩

theorem evaluateAuto_of_async {r : Registry σ} (h : r.hasAsync = true) (e : Engine) (rule data : Json)
    (s : σ) : e.evaluateAuto r rule data s = .pending (e.evaluate .async r rule data) :=
  if_pos h

theorem evaluateAuto_of_sync {r : Registry σ} (h : r.hasAsync = false) (e : Engine)
    (rule data : Json) (s : σ) :
    e.evaluateAuto r rule data s = .ready (e.evaluate .sync r rule data s) :=
  if_neg (Bool.eq_false_iff.1 h)

theorem isPending_evaluateAuto (e : Engine) (r : Registry σ) (rule data : Json) (s : σ) :
    (e.evaluateAuto r rule data s).isPending = r.hasAsync := by
  cases h : r.hasAsync with
  | true => rw [evaluateAuto_of_async h]; rfl
  | false => rw [evaluateAuto_of_sync h]; rfl

theorem execute_alike {e : Engine} {rule : Json} {tree : Node} (h : e.compile rule = .ok tree)
    (r : Registry σ) (data : Json) (s : σ) :
    (e.evaluateAuto r rule data s).Alike (execute r tree data s) := by
  unfold evaluateAuto execute
  split
  · exact .pending (evaluate_alike h .async r data)
  · exact .ready (evaluate_alike h .sync r data s)

theorem evaluate_of_compile_error_effects {e : Engine} {rule : Json} {err : RuleError}
    (h : e.compile rule = .error err) (mode : Mode) (r : Registry σ) (data : Json) (s : σ) :
    let t := e.evaluate mode r rule data s
    t.result = .error err ∧ t.state = s ∧ t.effects = [] := by
  rw [evaluate_of_compile_error h, ← List.append_nil (_ :: _)]
  exact ⟨rfl, rfl, effects_noted e (.evaluate mode) rule []⟩

/-- An evaluation that goes by its registry has not begun when it is handed out just if some function
is asynchronous; otherwise it is over and is the synchronous one. Resolving one that has not begun is
the asynchronous evaluation. In every session a client gets the same answers from a rule and from its
tree, and from a rule that does not compile the cause and no effects. -/
theorem evaluateAuto_transparent (e : Engine) (rule : Json) :
    (∀ (r : Registry σ) (data : Json) (s : σ),
      let ev := e.evaluateAuto r rule data s
      (ev.isPending = true ↔ ∃ name f, r.get? name = some f ∧ f.isAsync = true) ∧
      (ev.isPending = false →
        let t := e.evaluate .sync r rule data s
        ev.ready? = some t ∧ ev.handed s = ⟨some t.result, t.state, t.journal⟩ ∧
          ∀ s', ev.rest s' = ⟨t.result, s', []⟩) ∧
      (ev.isPending = true →
        ev.ready? = none ∧ ev.handed s = ⟨none, s, []⟩ ∧
          ∀ s', ev.rest s' = e.evaluate .async r rule data s')) ∧
    (∀ tree, e.compile rule = .ok tree → ∀ (requests : List (Request σ)) (s : σ),
      List.Forall₂ (fun t t' => t'.result = t.result ∧ t'.state.state = t.state.state ∧
          t'.effects = t.effects)
        (Session.replies (fun r data s => e.evaluateAuto r rule data s) requests ⟨s, []⟩)
        (Session.replies (fun r data s => execute r tree data s) requests ⟨s, []⟩)) ∧
    ∀ err, e.compile rule = .error err → ∀ (r : Registry σ) (data : Json) (s : σ),
      (∀ mode, let t := e.evaluate mode r rule data s
        t.result = .error err ∧ t.state = s ∧ t.effects = []) ∧
      let ev := e.evaluateAuto r rule data s
      ((ev.handed s).state = s ∧ (ev.handed s).effects = []) ∧
        ∀ s', let t := ev.rest s'
          t.result = .error err ∧ t.state = s' ∧ t.effects = [] := by
  refine ⟨fun r data s => ⟨?_, fun hready => ?_, fun hpending => ?_⟩,
    fun tree h requests s => ?_, fun err h r data s => ?_⟩
  · rw [isPending_evaluateAuto, Registry.hasAsync_iff]
  · rw [evaluateAuto_of_sync (isPending_evaluateAuto e r rule data s ▸ hready)]
    exact ⟨rfl, rfl, fun s' => rfl⟩
  · rw [evaluateAuto_of_async (isPending_evaluateAuto e r rule data s ▸ hpending)]
    exact ⟨rfl, rfl, fun s' => rfl⟩
  · exact Session.replies_alike (execute_alike h) ⟨rfl, .nil⟩ requests
  · have hfails := fun mode s => evaluate_of_compile_error_effects h mode r data s
    refine ⟨fun mode => hfails mode s, ?_⟩
    cases hasync : r.hasAsync with
    | true =>
      rw [evaluateAuto_of_async hasync]
      exact ⟨⟨rfl, rfl⟩, hfails .async⟩
    | false =>
      obtain ⟨hresult, hstate, heffects⟩ := hfails .sync s
      rw [evaluateAuto_of_sync hasync]
      exact ⟨⟨hstate, heffects⟩, fun s' => ⟨hresult, rfl, rfl⟩⟩

theorem evaluateAuto_transparent_tick :
    let r : Registry Tally := Registry.empty.register "tick" ⟨.sync, Stock.body (.counter 0)⟩
    let r' := r.register "fetch" ⟨.async 1, Stock.body .arguments⟩
    let rule : Json := .obj [("or", .arr [.obj [("apply", .arr [.str "tick"])], .obj [("log", .str "x")]])]
    let wrong : Json := .obj [("or", .arr [.obj [("apply", .arr [.str "tick"])], .obj [("xor", .null)]])]
    let requests : List (Request Tally) :=
      [.start r' .null, .start r .null, .resolve 0, .start r' .null, .resolve 2]
    (∃ tree, compile {} rule = .ok tree ∧
      List.Forall₂ (fun t t' => t'.result = t.result ∧ t'.state.state = t.state.state ∧
          t'.effects = t.effects)
        (Session.replies (fun r data s => evaluateAuto {} r rule data s) requests ⟨[0], []⟩)
        (Session.replies (fun r data s => execute r tree data s) requests ⟨[0], []⟩)) ∧
    (evaluateAuto {} r rule .null [0]).isPending = false ∧
    (evaluateAuto {} r rule .null [0]).ready? = some (evaluate {} .sync r rule .null [0]) ∧
    (evaluateAuto {} r' rule .null [0]).isPending = true ∧
    (evaluateAuto {} r' rule .null [0]).handed [0] = ⟨none, [0], []⟩ ∧
    compile {} wrong = .error (.unknownOperator "xor") ∧
    ((evaluateAuto {} r' wrong .null [0]).rest [0]).effects = [] := by
  intro r r' rule wrong requests
  obtain ⟨hmode, hsession, -⟩ := @evaluateAuto_transparent Tally {} rule
  obtain ⟨-, -, hwrong⟩ := @evaluateAuto_transparent Tally {} wrong
  have hready : (evaluateAuto {} r rule .null [0]).isPending = false := rfl
  have hpending : (evaluateAuto {} r' rule .null [0]).isPending = true := rfl
  have herror : compile {} wrong = .error (.unknownOperator "xor") := rfl
  exact ⟨⟨_, rfl, hsession _ rfl requests [0]⟩, hready, ((hmode r .null [0]).2.1 hready).1, hpending,
    ((hmode r' .null [0]).2.2 hpending).2.1, herror, ((hwrong _ herror r' .null [0]).2.2 [0]).2.2⟩

end Engine
end JsonRules
