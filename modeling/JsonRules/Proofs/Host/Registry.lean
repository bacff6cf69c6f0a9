import JsonRules.Host.Registry
import JsonRules.Proofs.Run.Closed
import JsonRules.Run.Course

/-!
# The hosts of a registry in both modes

What runs of a program with two hosts have in common follows from what the answers of the hosts have
in common. Hosts that differ by what they record give runs that differ by that (`run_flatMap`). Hosts
that differ on some names only give the same run up to the first call of such a name
(`run_eq_of_firstCall?_eq_none`, `run_of_firstCall?_eq_some`).

What the two hosts of a registry answer differs on asynchronous functions only. The asynchronous one
does what the synchronous one of the registry without pauses does, and records the pauses as well
(`host_async`). So do runs (`run_async`), and a synchronous run is the asynchronous one up to the
first call of an asynchronous function (`run_of_firstCall?_eq_none`, `run_sync_of_firstCall?_eq_some`).
-/

namespace JsonRules

/-! ## One program, two hosts -/

namespace Program

variable {σ α : Type} {host host' : Host σ} {accept : String → Bool}

/-- What a run records comes from the notes and from the host. -/
theorem forall_mem_journal {Q : Event → Prop} (hnote : ∀ n, Q (.note n))
    (hhost : ∀ name args s, ∀ event ∈ (host name args s).journal, Q event) (p : Program α) (s : σ) :
    ∀ event ∈ (p.run host s).journal, Q event :=
  (callsOnly_true p).forall_mem_journal hnote (fun name _ => hhost name) s

/-- If a host does what another does and records its events as `f` has them, so does every run. -/
theorem run_flatMap {f : Event → List Event} (hnote : ∀ n, f (.note n) = [.note n])
    (hhost : ∀ name args s, host' name args s =
      let t := host name args s
      { t with journal := t.journal.flatMap f }) (p : Program α) (s : σ) :
    p.run host' s =
      let t := p.run host s
      { t with journal := t.journal.flatMap f } := by
  induction p generalizing s with
  | done | fail => rfl
  | note n rest ih => simp [run, ih, hnote]
  | call name args rest ih =>
    have ha := hhost name args s
    cases hres : (host name args s).result with
    | error e =>
      rw [run_call_of_error hres, run_call_of_error ((congrArg Trail.result ha).trans hres), ha]
    | ok v =>
      rw [run_call_of_ok hres, run_call_of_ok ((congrArg Trail.result ha).trans hres), ha]
      simp [ih]

/-! ### Up to the first call of a kind -/

/-- A run without calls of a kind is the same for every answer to such calls. -/
theorem run_eq_of_firstCall?_eq_none
    (hhost : ∀ name, accept name = false → host' name = host name)
    {p : Program α} {s : σ} (h : p.firstCall? host accept s = none) :
    p.run host' s = p.run host s := by
  induction p generalizing s with
  | done | fail => rfl
  | note n rest ih =>
    rw [firstCall?, Option.map_eq_none_iff] at h
    rw [run, run, ih h]
  | call name args rest ih =>
    obtain ⟨hname, hrest⟩ := firstCall?_call_eq_none.1 h
    cases hres : (host name args s).result with
    | error e =>
      rw [run_call_of_error hres, run_call_of_error (hhost name hname ▸ hres), hhost name hname]
    | ok v =>
      rw [run_call_of_ok hres, run_call_of_ok (hhost name hname ▸ hres), hhost name hname,
        ih v (hrest v hres)]

/-- Where calls of a kind are refused a run ends just before the first of them. -/
theorem run_of_firstCall?_eq_some {refusal : String → RuleError}
    (hhost : ∀ name, accept name = false → host' name = host name)
    (hrefuse : ∀ name args s, accept name = true →
      host' name args s = ⟨.error (refusal name), s, []⟩)
    {p : Program α} {s : σ} {t : Trail σ String} (h : p.firstCall? host accept s = some t) :
    p.run host' s = ⟨.error (refusal t.result), t.state, t.journal⟩ := by
  induction p generalizing s t with
  | done | fail => cases h
  | note n rest ih =>
    rw [firstCall?, Option.map_eq_some_iff] at h
    obtain ⟨u, hu, rfl⟩ := h
    rw [run, ih hu]
  | call name args rest ih =>
    obtain ⟨hname, rfl⟩ | ⟨hname, v, u, hres, hu, rfl⟩ := firstCall?_call_eq_some.1 h
    · have href := hrefuse name args s hname
      rw [run_call_of_error (congrArg Trail.result href), href]
    · rw [run_call_of_ok (hhost name hname ▸ hres), hhost name hname, ih v hu]

/-- From its first call of a kind on, a run records what this call records and more. -/
theorem journal_of_firstCall?_eq_some {p : Program α} {s : σ} {t : Trail σ String}
    (h : p.firstCall? host accept s = some t) :
    accept t.result = true ∧ ∃ args after, (p.run host s).journal =
      t.journal ++ (host t.result args t.state).journal ++ after := by
  induction p generalizing s t with
  | done | fail => cases h
  | note n rest ih =>
    rw [firstCall?, Option.map_eq_some_iff] at h
    obtain ⟨u, hu, rfl⟩ := h
    obtain ⟨haccept, args, after, hjournal⟩ := ih hu
    exact ⟨haccept, args, after, by simp [run, hjournal]⟩
  | call name args rest ih =>
    obtain ⟨hname, rfl⟩ | ⟨hname, v, u, hres, hu, rfl⟩ := firstCall?_call_eq_some.1 h
    · refine ⟨hname, args, ?_⟩
      cases hres : (host name args s).result with
      | error e => exact ⟨[], by simp [run_call_of_error hres]⟩
      | ok v => exact ⟨_, by rw [run_call_of_ok hres]; rfl⟩
    · obtain ⟨haccept, args', after, hjournal⟩ := ih v hu
      exact ⟨haccept, args', after, by simp [run_call_of_ok hres, hjournal]⟩

end Program

/-! ## The two hosts of a registry -/

namespace Registry

variable {σ α : Type} {r : Registry σ} {name : String}

theorem mem_values_iff {f : HostFunction σ} :
    f ∈ r.entries.values ↔ ∃ name, r.get? name = some f := by
  have hvalues : r.entries.values = r.entries.toList.map Prod.snd :=
    (Std.TreeMap.foldr_eq_foldr_toList (t := r.entries)).trans List.map_eq_foldr.symm
  simp only [hvalues, List.mem_map, Prod.exists, exists_eq_right, get?,
    Std.TreeMap.mem_toList_iff_getElem?_eq_some]

theorem get?_empty : (empty : Registry σ).get? name = none := Std.TreeMap.getElem?_emptyc

theorem get?_register {f : HostFunction σ} {other : String} :
    (r.register other f).get? name = if other = name then some f else r.get? name := by
  unfold get? register
  rw [Std.TreeMap.getElem?_insert]
  simp only [Std.LawfulEqCmp.compare_eq_iff_eq]

theorem quiet_empty : (empty : Registry σ).Quiet := by
  intro name f h
  rw [get?_empty] at h
  cases h

theorem Quiet.register (hquiet : r.Quiet) {f : HostFunction σ}
    (hf : ∀ args s, (f.body args s).notes = []) (name : String) : (r.register name f).Quiet := by
  intro other g h
  rw [get?_register] at h
  split at h
  · cases h
    exact hf
  · exact hquiet other g h

theorem isAsync_of_get? {f : HostFunction σ} (h : r.get? name = some f) :
    r.isAsync name = f.isAsync := by
  rw [isAsync, h, Option.any_some]

theorem isAsync_of_hasAsync (h : r.hasAsync = false) (name : String) : r.isAsync name = false := by
  cases hget : r.get? name with
  | none => rw [isAsync, hget, Option.any_none]
  | some f =>
    rw [isAsync_of_get? hget]
    exact Bool.eq_false_iff.2 (List.any_eq_false.1 h f (mem_values_iff.2 ⟨name, hget⟩))

theorem hasAsync_iff :
    r.hasAsync = true ↔ ∃ name f, r.get? name = some f ∧ f.isAsync = true := by
  rw [hasAsync, List.any_eq_true]
  constructor
  · rintro ⟨f, hf, hasync⟩
    obtain ⟨name, hget⟩ := mem_values_iff.1 hf
    exact ⟨name, f, hget, hasync⟩
  · rintro ⟨name, f, hget, hasync⟩
    exact ⟨f, mem_values_iff.2 ⟨name, hget⟩, hasync⟩

theorem pausesBefore_of_hasAsync (h : r.hasAsync = false) (event : Event) :
    r.pausesBefore event = [event] := by
  cases event with
  | wait | note => rfl
  | call name args =>
    cases hget : r.get? name with
    | none => simp [pausesBefore, hget]
    | some f =>
      have hf : f.isAsync = false := isAsync_of_get? hget ▸ isAsync_of_hasAsync h name
      simp [pausesBefore, hget, HostFunction.pauses_of_not_isAsync hf]

theorem get?_toSync : r.toSync.get? name = (r.get? name).map HostFunction.toSync :=
  Std.TreeMap.getElem?_map

theorem get?_toSync_of_hasAsync (h : r.hasAsync = false) (name : String) :
    r.toSync.get? name = r.get? name := by
  rw [get?_toSync]
  cases hget : r.get? name with
  | none => rfl
  | some f =>
    have hf : f.isAsync = false := isAsync_of_get? hget ▸ isAsync_of_hasAsync h name
    rw [Option.map_some, HostFunction.toSync_of_not_isAsync hf]

/-! ### Answers -/

theorem invoke_sync_eq_async (h : r.isAsync name = false) :
    r.invoke .sync name = r.invoke .async name := by
  funext args s
  unfold invoke
  cases hget : r.get? name with
  | none => rfl
  | some f => simp [isAsync_of_get? hget ▸ h]

theorem host_sync_eq_async (h : r.isAsync name = false) : r.host .sync name = r.host .async name := by
  unfold host
  rw [invoke_sync_eq_async h]

theorem host_eq_async (h : r.isAsync name = false) (mode : Mode) :
    r.host mode name = r.host .async name := by
  cases mode with
  | sync => exact host_sync_eq_async h
  | async => rfl

theorem host_congr {r' : Registry σ} (h : r'.get? name = r.get? name) (mode : Mode) :
    r'.host mode name = r.host mode name := by
  funext args s
  rw [host_eq, host_eq, h]

/-- Where two registries have the same function they answer the same in the mode that each asks for,
even if these are not the same. -/
theorem host_mode_congr {r' : Registry σ} (h : r'.get? name = r.get? name) :
    r'.host r'.mode name = r.host r.mode name := by
  have hsame : r'.isAsync name = r.isAsync name := congrArg (Option.any HostFunction.isAsync) h
  cases hasync : r.isAsync name with
  | false => rw [host_eq_async hasync, host_eq_async (hsame.trans hasync), host_congr h]
  | true =>
    have hmode : ∀ q : Registry σ, q.isAsync name = true → q.mode = .async := by
      intro q hq
      obtain ⟨f, hget, hf⟩ := (Option.any_eq_true _ _).1 hq
      exact if_pos (hasAsync_iff.2 ⟨name, f, hget, hf⟩)
    rw [hmode r hasync, hmode r' (hsame.trans hasync), host_congr h]

theorem host_sync_of_isAsync (h : r.isAsync name = true) (args : List Json) (s : σ) :
    r.host .sync name args s = ⟨.error (.asyncFunctionInSyncRun name), s, []⟩ := by
  obtain ⟨f, hget, hf⟩ := (Option.any_eq_true _ _).1 h
  simp [host_eq, hget, hf]

/-- An asynchronous run does what a synchronous one does without the pauses, and pauses. -/
theorem host_async (args : List Json) (s : σ) :
    r.host .async name args s =
      let t := r.toSync.host .sync name args s
      { t with journal := t.journal.flatMap r.pausesBefore } := by
  have hnotes : ∀ notes : List Note,
      (notes.map Event.note).flatMap r.pausesBefore = notes.map Event.note := fun notes => by
    rw [List.flatMap_map, List.map_eq_flatMap]
    rfl
  rw [host_eq, host_eq, get?_toSync]
  cases hget : r.get? name with
  | none => rfl
  | some f =>
    simp [HostFunction.toSync, HostFunction.isAsync, HostFunction.pauses, pausesBefore, hget, hnotes]

theorem journal_async_of_isAsync (h : r.isAsync name = true) (args : List Json) (s : σ) :
    ∃ notes, (r.host .async name args s).journal = r.pausesBefore (.call name args) ++ notes := by
  obtain ⟨f, hget, -⟩ := (Option.any_eq_true _ _).1 h
  exact ⟨(f.body args s).notes.map .note, by simp [host_eq, hget, pausesBefore]⟩

/-- What a synchronous run records of its calls: no pause, and no call of an asynchronous function. -/
theorem mem_journal_sync {args : List Json} {s : σ} {event : Event}
    (h : event ∈ (r.host .sync name args s).journal) :
    (∀ n, event ≠ .wait n) ∧ ∀ n, event.called? = some n → r.isAsync n = false := by
  rw [host_eq] at h
  cases hget : r.get? name with
  | none => simp [hget] at h
  | some f =>
    cases hf : f.isAsync with
    | true => simp [hget, hf] at h
    | false =>
      simp only [hget, hf, Bool.false_eq_true, and_false, if_false,
        HostFunction.pauses_of_not_isAsync hf, List.replicate_zero, List.nil_append] at h
      obtain rfl | h := List.mem_cons.1 h
      · refine ⟨nofun, fun n hn => ?_⟩
        cases hn
        rw [isAsync_of_get? hget, hf]
      · obtain ⟨note, -, rfl⟩ := List.mem_map.1 h
        exact ⟨nofun, nofun⟩

theorem function?_of_mem_journal {mode : Mode} {args : List Json} {s : σ} {event : Event}
    {other : String} (h : event ∈ (r.host mode name args s).journal)
    (hother : event.function? = some other) : other = name := by
  rw [host_eq] at h
  cases hget : r.get? name with
  | none => simp [hget] at h
  | some f =>
    by_cases hrefused : mode = .sync ∧ f.isAsync
    · simp [hget, hrefused] at h
    · simp only [hget, if_neg hrefused, List.mem_append, List.mem_cons, List.mem_map] at h
      rcases h with hwait | rfl | ⟨note, -, rfl⟩
      · rw [List.eq_of_mem_replicate hwait] at hother
        cases hother
        rfl
      · cases hother
        rfl
      · cases hother

/-! ### Runs in both modes -/

theorem function?_of_mem_journal_run {S : String → Prop} {p : Program α} (hp : p.CallsOnly S)
    (mode : Mode) (s : σ) : ∀ event ∈ (p.run (r.host mode) s).journal,
      ∀ name, event.function? = some name → S name := by
  refine hp.forall_mem_journal ?_ ?_ s
  · intro n name hname
    cases hname
  · intro name hname args s event hevent other hother
    rw [function?_of_mem_journal hevent hother]
    exact hname

theorem firstAsync?_eq_none {journal : List Event} :
    r.firstAsync? journal = none ↔
      ∀ event ∈ journal, ∀ name, event.called? = some name → r.isAsync name = false := by
  simp only [firstAsync?, List.find?_eq_none, List.mem_filterMap, Bool.not_eq_true]
  exact ⟨fun h event hevent name hname => h name ⟨event, hevent, hname⟩,
    fun h name ⟨event, hevent, hname⟩ => h event hevent name hname⟩

theorem firstAsync?_append_call {before : List Event} {name : String}
    (hbefore : r.firstAsync? before = none) (hname : r.isAsync name = true) (args : List Json)
    (after : List Event) :
    r.firstAsync? (before ++ r.pausesBefore (.call name args) ++ after) = some name := by
  have hwait : ∀ n, (List.replicate n (Event.wait name)).filterMap Event.called? = [] := fun n => by
    simp [List.filterMap_replicate, Event.called?]
  unfold firstAsync? at hbefore ⊢
  simp [pausesBefore, hwait, hbefore, hname, List.filterMap_append, List.find?_append, Event.called?]

theorem mem_journal_run_sync (p : Program α) (s : σ) :
    ∀ event ∈ (p.run (r.host .sync) s).journal,
      (∀ n, event ≠ .wait n) ∧ ∀ n, event.called? = some n → r.isAsync n = false :=
  Program.forall_mem_journal (fun _ => ⟨nofun, nofun⟩) (fun _ _ _ _ => mem_journal_sync) p s

theorem firstAsync?_run_sync (p : Program α) (s : σ) :
    r.firstAsync? (p.run (r.host .sync) s).journal = none :=
  firstAsync?_eq_none.2 fun event hevent => (mem_journal_run_sync p s event hevent).2

theorem run_async (p : Program α) (s : σ) :
    p.run (r.host .async) s =
      let t := p.run (r.toSync.host .sync) s
      { t with journal := t.journal.flatMap r.pausesBefore } :=
  Program.run_flatMap (fun _ => rfl) (fun _ => host_async) p s

/-- A run that calls no asynchronous function is the same in both modes and whatever is registered
in the place of such functions. -/
theorem run_of_firstCall?_eq_none {r' : Registry σ}
    (hsame : ∀ name, r.isAsync name = false → r'.get? name = r.get? name) (mode : Mode)
    {p : Program α} {s : σ} (h : p.firstCall? (r.host .async) r.isAsync s = none) :
    p.run (r'.host mode) s = p.run (r.host .async) s := by
  refine Program.run_eq_of_firstCall?_eq_none (fun name hname => ?_) h
  rw [host_congr (hsame name hname), host_eq_async hname]

theorem run_sync_of_firstCall?_eq_some {p : Program α} {s : σ} {t : Trail σ String}
    (h : p.firstCall? (r.host .async) r.isAsync s = some t) :
    p.run (r.host .sync) s = ⟨.error (.asyncFunctionInSyncRun t.result), t.state, t.journal⟩ :=
  Program.run_of_firstCall?_eq_some (fun _ => host_sync_eq_async)
    (fun _ args s hname => host_sync_of_isAsync hname args s) h

theorem run_eq_run_sync {p : Program α} {s : σ}
    (h : ∀ name, (p.run (r.host .sync) s).result ≠ .error (.asyncFunctionInSyncRun name))
    (mode : Mode) : p.run (r.host mode) s = p.run (r.host .sync) s := by
  cases hfirst : p.firstCall? (r.host .async) r.isAsync s with
  | none =>
    rw [run_of_firstCall?_eq_none (fun _ _ => rfl) mode hfirst,
      run_of_firstCall?_eq_none (fun _ _ => rfl) .sync hfirst]
  | some t => exact absurd (congrArg Trail.result (run_sync_of_firstCall?_eq_some hfirst)) (h t.result)

/-- Where the journal of an asynchronous run comes to the first call of an asynchronous function. -/
theorem journal_run_async_of_firstCall?_eq_some {p : Program α} {s : σ} {t : Trail σ String}
    (h : p.firstCall? (r.host .async) r.isAsync s = some t) :
    ∃ args after, (p.run (r.host .async) s).journal =
      t.journal ++ r.pausesBefore (.call t.result args) ++ after := by
  obtain ⟨hname, args, after, hjournal⟩ := Program.journal_of_firstCall?_eq_some h
  obtain ⟨notes, hnotes⟩ := journal_async_of_isAsync hname args t.state
  exact ⟨args, notes ++ after, by simp [hjournal, hnotes]⟩

/-- The journal of an asynchronous run tells the first asynchronous function that is called. -/
theorem firstAsync?_run_async (p : Program α) (s : σ) :
    r.firstAsync? (p.run (r.host .async) s).journal =
      (p.firstCall? (r.host .async) r.isAsync s).map Trail.result := by
  cases h : p.firstCall? (r.host .async) r.isAsync s with
  | none =>
    rw [← run_of_firstCall?_eq_none (fun _ _ => rfl) .sync h, firstAsync?_run_sync, Option.map_none]
  | some t =>
    obtain ⟨args, after, hjournal⟩ := journal_run_async_of_firstCall?_eq_some h
    have hbefore := firstAsync?_run_sync (r := r) p s
    rw [run_sync_of_firstCall?_eq_some h] at hbefore
    rw [hjournal, firstAsync?_append_call hbefore (Program.journal_of_firstCall?_eq_some h).1,
      Option.map_some]

end Registry
end JsonRules
