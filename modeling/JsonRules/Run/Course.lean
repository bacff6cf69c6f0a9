import JsonRules.Run.Program

/-!
# Runs that pause

Where a run waits for a host function it pauses, and goes on when it is resumed. A `Course` is a run
in stretches from one pause to the next, and `Program.course` is the course of a program with a host
that may pause. `Course.drain` resumes a run until it is over. `Course.finish` does so in an
asynchronous run only: a synchronous one is left at its first pause and counts as failed.

`Program.firstCall?` is the call where a run first calls one of certain host functions, with what it has
left behind until then.
-/

namespace JsonRules

/-- A run in stretches. -/
inductive Course (σ α : Type) where
  /-- The run is over. -/
  | ended (trail : Trail σ α)
  /-- The run has come to a pause, and `rest` is how it goes on. -/
  | paused (state : σ) (journal : List Event) (rest : Course σ α)

namespace Course

variable {σ α β : Type}

/-- Puts events before all that a run records. -/
def record (events : List Event) : Course σ α → Course σ α
  | .ended t => .ended { t with journal := events ++ t.journal }
  | .paused s journal rest => .paused s (events ++ journal) rest

/-- Goes on with `f` once a run is over. -/
def bind (f : α → σ → Course σ β) : Course σ α → Course σ β
  | .ended t => (f t.result t.state).record t.journal
  | .paused s journal rest => .paused s journal (rest.bind f)

/-- A course after so many pauses of a function. -/
def pausing (name : String) (s : σ) (c : Course σ α) : Nat → Course σ α
  | 0 => c
  | n + 1 => .paused s [.wait name] (pausing name s c n)

/-- How often a run pauses. -/
def pauses : Course σ α → Nat
  | .ended _ => 0
  | .paused _ _ rest => rest.pauses + 1

/-- What a run leaves behind that is resumed until it is over. -/
def drain : Course σ α → Trail σ α
  | .ended t => t
  | .paused _ journal rest =>
    let t := rest.drain
    { t with journal := journal ++ t.journal }

/-- What a run leaves behind in a mode. -/
def finish : Mode → Course σ (Result α) → Trail σ (Result α)
  | .async, c => c.drain
  | .sync, .ended t => t
  | .sync, .paused s journal _ => ⟨.error .paused, s, journal⟩

@[simp] theorem drain_record (events : List Event) (c : Course σ α) :
    (c.record events).drain = { c.drain with journal := events ++ c.drain.journal } := by
  cases c <;> simp [record, drain]

@[simp] theorem drain_bind (f : α → σ → Course σ β) (c : Course σ α) :
    (c.bind f).drain =
      let t := c.drain
      let u := (f t.result t.state).drain
      ⟨u.result, u.state, t.journal ++ u.journal⟩ := by
  induction c with
  | ended t => simp [bind, drain]
  | paused s journal rest ih => simp [bind, drain, ih]

@[simp] theorem drain_pausing (name : String) (s : σ) (c : Course σ α) (n : Nat) :
    (c.pausing name s n).drain =
      { c.drain with journal := List.replicate n (.wait name) ++ c.drain.journal } := by
  induction n with
  | zero => simp [pausing]
  | succ n ih => simp [pausing, drain, ih, List.replicate_succ]

@[simp] theorem pauses_pausing (name : String) (s : σ) (c : Course σ α) (n : Nat) :
    (c.pausing name s n).pauses = c.pauses + n := by
  induction n with
  | zero => rfl
  | succ n ih => simp [pausing, pauses, ih, Nat.add_assoc]

@[simp] theorem pauses_record (events : List Event) (c : Course σ α) :
    (c.record events).pauses = c.pauses := by
  cases c <;> rfl

theorem eq_ended_drain {c : Course σ α} (h : c.pauses = 0) : c = .ended c.drain := by
  cases c with
  | ended t => rfl
  | paused s journal rest => simp [pauses] at h

/-- A run that never pauses leaves the same behind in both modes. -/
theorem finish_eq_drain {c : Course σ (Result α)} (mode : Mode) (h : c.pauses = 0) :
    c.finish mode = c.drain := by
  cases mode with
  | async => rfl
  | sync => rw [eq_ended_drain h]; rfl

end Course

/-- How calls by name are answered by a host that may pause. -/
abbrev PausingHost (σ : Type) := String → List Json → σ → Course σ (Result Json)

namespace Program

variable {σ α : Type}

/-- The course of a program with a host that may pause. -/
def course (host : PausingHost σ) : Program α → σ → Course σ (Result α)
  | .done a, s => .ended ⟨.ok a, s, []⟩
  | .fail e, s => .ended ⟨.error e, s, []⟩
  | .note n rest, s => (rest.course host s).record [.note n]
  | .call name args rest, s =>
    (host name args s).bind fun answer s =>
      match answer with
      | .error e => .ended ⟨.error e, s, []⟩
      | .ok v => (rest v).course host s

/-- A run that is resumed until it is over leaves behind what it leaves behind with a host that never
pauses and gives the same answers. -/
theorem drain_course (host : PausingHost σ) (p : Program α) (s : σ) :
    (p.course host s).drain = p.run (fun name args s => (host name args s).drain) s := by
  induction p generalizing s with
  | done | fail => rfl
  | note n rest ih => simp [course, run, ih]
  | call name args rest ih =>
    simp only [course, run, Course.drain_bind]
    cases (host name args s).drain.result with
    | error e => simp [Course.drain]
    | ok v => simp [ih]

/-- With a host that never pauses no run does. -/
theorem pauses_course (host : PausingHost σ) (h : ∀ name args s, (host name args s).pauses = 0)
    (p : Program α) (s : σ) : (p.course host s).pauses = 0 := by
  induction p generalizing s with
  | done | fail => rfl
  | note n rest ih => simp [course, ih]
  | call name args rest ih =>
    rw [course, Course.eq_ended_drain (h name args s), Course.bind, Course.pauses_record]
    split
    · rfl
    · exact ih _ _

/-! ## The first call of a kind -/

/-- The first call of a run by a name that `accept` takes: the name, and the state and the journal
just before the call. -/
def firstCall? (host : Host σ) (accept : String → Bool) : Program α → σ → Option (Trail σ String)
  | .done _, _ => none
  | .fail _, _ => none
  | .note n rest, s =>
    (rest.firstCall? host accept s).map fun t => { t with journal := .note n :: t.journal }
  | .call name args rest, s =>
    if accept name then some ⟨name, s, []⟩
    else
      let t := host name args s
      match t.result with
      | .error _ => none
      | .ok v =>
        ((rest v).firstCall? host accept t.state).map fun u =>
          { u with journal := t.journal ++ u.journal }

variable {host : Host σ} {accept : String → Bool} {name : String} {args : List Json}
  {rest : Json → Program α} {s : σ}

theorem firstCall?_call_eq_none :
    (call name args rest).firstCall? host accept s = none ↔
      accept name = false ∧ ∀ v, (host name args s).result = .ok v →
        (rest v).firstCall? host accept (host name args s).state = none := by
  rw [firstCall?]
  cases accept name with
  | true => simp
  | false => cases hres : (host name args s).result <;> simp [hres]

theorem firstCall?_call_eq_some {t : Trail σ String} :
    (call name args rest).firstCall? host accept s = some t ↔
      accept name = true ∧ t = ⟨name, s, []⟩ ∨
      accept name = false ∧ ∃ v u, (host name args s).result = .ok v ∧
        (rest v).firstCall? host accept (host name args s).state = some u ∧
        t = { u with journal := (host name args s).journal ++ u.journal } := by
  rw [firstCall?]
  cases accept name with
  | true => simp [@eq_comm _ t]
  | false => cases hres : (host name args s).result <;> simp [hres, @eq_comm _ t]

end Program
end JsonRules
