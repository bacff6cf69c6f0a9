import JsonRules.Rule.Result
import JsonRules.Run.Event

/-!
# Programs and their runs

Evaluating a rule gives a `Program`: a value, an error, a note to record, or a host call whose
answer decides how it goes on. `Program.run` carries a program out with a host. What a rule does
is thus settled before any host is known, and two hosts are compared on the same program.
-/

namespace JsonRules

/-- What remains of an evaluation. -/
inductive Program (α : Type) where
  | done (value : α)
  | fail (error : RuleError)
  | note (note : Note) (rest : Program α)
  | call (name : String) (args : List Json) (rest : Json → Program α)

namespace Program

variable {α β : Type}

/-- Goes on with `f` once there is a value. -/
def bind : Program α → (α → Program β) → Program β
  | .done a, f => f a
  | .fail e, _ => .fail e
  | .note n rest, f => .note n (rest.bind f)
  | .call name args rest, f => .call name args fun v => (rest v).bind f

instance : Monad Program where
  pure := .done
  bind := bind

def ofResult : Result α → Program α
  | .ok a => .done a
  | .error e => .fail e

@[simp] theorem pure_eq (a : α) : (pure a : Program α) = .done a := rfl

@[simp] theorem bind_eq (p : Program α) (f : α → Program β) : p >>= f = p.bind f := rfl

@[simp] theorem map_eq (f : α → β) (p : Program α) : f <$> p = p.bind fun a => .done (f a) := rfl

@[simp] theorem bind_done (p : Program α) : p.bind .done = p := by
  induction p with
  | done | fail => rfl
  | note _ _ ih => simp [bind, ih]
  | call _ _ _ ih => simp [bind, ih]

theorem bind_assoc {γ : Type} (p : Program α) (f : α → Program β) (g : β → Program γ) :
    (p.bind f).bind g = p.bind fun a => (f a).bind g := by
  induction p with
  | done | fail => rfl
  | note _ _ ih => simp [bind, ih]
  | call _ _ _ ih => simp [bind, ih]

instance : LawfulMonad Program := .mk' _ bind_done (fun _ _ => rfl) bind_assoc

end Program

/-- What a run leaves behind: a result, the state of the host, and the journal. -/
structure Trail (σ α : Type) where
  result : α
  state : σ
  journal : List Event

/-- What a journal holds apart from traces. -/
def Trail.effects {σ α : Type} (t : Trail σ α) : List Event := t.journal.filter (!·.isTrace)

/-- How calls by name are answered. -/
abbrev Host (σ : Type) := String → List Json → σ → Trail σ (Result Json)

namespace Program

variable {σ α β : Type}

/-- Records notes before a program. -/
def noting (notes : List Note) (p : Program α) : Program α := notes.foldr .note p

/-- Carries a program out. A host call that fails ends it. -/
def run (host : Host σ) : Program α → σ → Trail σ (Result α)
  | .done a, s => ⟨.ok a, s, []⟩
  | .fail e, s => ⟨.error e, s, []⟩
  | .note n rest, s =>
    let t := rest.run host s
    ⟨t.result, t.state, .note n :: t.journal⟩
  | .call name args rest, s =>
    let t := host name args s
    match t.result with
    | .error e => ⟨.error e, t.state, t.journal⟩
    | .ok v =>
      let u := (rest v).run host t.state
      ⟨u.result, u.state, t.journal ++ u.journal⟩

theorem run_ofResult (host : Host σ) (x : Result α) (s : σ) : (ofResult x).run host s = ⟨x, s, []⟩ := by
  cases x <;> rfl

theorem run_call_of_ok {host : Host σ} {name : String} {args : List Json} {s : σ} {v : Json}
    (h : (host name args s).result = .ok v) (rest : Json → Program α) :
    (call name args rest).run host s =
      let u := (rest v).run host (host name args s).state
      ⟨u.result, u.state, (host name args s).journal ++ u.journal⟩ := by
  simp only [run, h]

theorem run_call_of_error {host : Host σ} {name : String} {args : List Json} {s : σ} {e : RuleError}
    (h : (host name args s).result = .error e) (rest : Json → Program α) :
    (call name args rest).run host s =
      ⟨.error e, (host name args s).state, (host name args s).journal⟩ := by
  simp only [run, h]

theorem run_call_done (host : Host σ) (name : String) (args : List Json) (s : σ) :
    (call name args .done).run host s = host name args s := by
  cases hres : (host name args s).result with
  | error e => rw [run_call_of_error hres, ← hres]
  | ok v =>
    rw [run_call_of_ok hres]
    simp only [run, List.append_nil, ← hres]

theorem run_bind_of_ok {host : Host σ} {p : Program α} {s : σ} {a : α}
    (h : (p.run host s).result = .ok a) (f : α → Program β) :
    (p.bind f).run host s =
      let t := p.run host s
      let u := (f a).run host t.state
      ⟨u.result, u.state, t.journal ++ u.journal⟩ := by
  induction p generalizing s with
  | done b =>
    cases h
    rfl
  | fail e => cases h
  | note n rest ih => simp only [run, bind, ih h, List.cons_append]
  | call name args rest ih =>
    cases hres : (host name args s).result with
    | error e => simp [run_call_of_error hres] at h
    | ok v =>
      rw [run_call_of_ok hres] at h
      simp only [bind, run_call_of_ok hres, ih v h, List.append_assoc]

theorem run_bind_of_error {host : Host σ} {p : Program α} {s : σ} {e : RuleError}
    (h : (p.run host s).result = .error e) (f : α → Program β) :
    (p.bind f).run host s = ⟨.error e, (p.run host s).state, (p.run host s).journal⟩ := by
  induction p generalizing s with
  | done b => cases h
  | fail e' =>
    cases h
    rfl
  | note n rest ih => simp only [run, bind, ih h]
  | call name args rest ih =>
    cases hres : (host name args s).result with
    | error e' =>
      rw [run_call_of_error hres] at h
      cases h
      rw [bind, run_call_of_error hres, run_call_of_error hres]
    | ok v =>
      rw [run_call_of_ok hres] at h
      simp only [bind, run_call_of_ok hres, ih v h]

theorem run_map (host : Host σ) (f : α → β) (p : Program α) (s : σ) :
    (p.bind fun a => .done (f a)).run host s =
      let t := p.run host s
      { t with result := f <$> t.result } := by
  cases hres : (p.run host s).result with
  | error e =>
    rw [run_bind_of_error hres]
    simp only [hres]
    rfl
  | ok a =>
    rw [run_bind_of_ok hres]
    simp only [run, hres, List.append_nil]
    rfl

theorem run_noting (host : Host σ) (notes : List Note) (p : Program α) (s : σ) :
    (noting notes p).run host s =
      let t := p.run host s
      { t with journal := notes.map .note ++ t.journal } := by
  induction notes with
  | nil => rfl
  | cons n rest ih =>
    show (Program.note n (noting rest p)).run host s = _
    rw [run, ih]
    rfl

end Program
end JsonRules
