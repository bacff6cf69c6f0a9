import JsonRules.Rule.Evaluate

/-!
# What holds of all runs of a program

A property of programs that values have and that goes through `bind` goes through the loops of
iterations (`Program.Closed.iterate`) and through the evaluation of arguments
(`Program.Closed.evaluateAll`). Which property it is does not matter there.

`Program.Ends P Q`: however its host calls are answered, a failure of the program itself satisfies `P`
and a value satisfies `Q`. It goes through `bind`, and `Program.Ends.run` takes it to runs, where the
failures of the host come in.

`Program.CallsOnly S`: however its calls are answered, a program calls functions of `S` only. Its runs
then depend on what the host does for these (`run_eq_of_callsOnly`), and what they record comes from
these (`CallsOnly.forall_mem_journal`).
-/

namespace JsonRules

/-! ## Properties that go through loops -/

namespace Program

/-- Values have a property of programs, and it goes through `bind`. -/
structure Closed (P : (α : Type) → Program α → Prop) : Prop where
  done {α : Type} (a : α) : P α (.done a)
  bind {α β : Type} {p : Program α} {f : α → Program β} (hp : P α p) (hf : ∀ a, P β (f a)) :
    P β (p.bind f)

namespace Closed

variable {P : (α : Type) → Program α → Prop} {α β : Type} {f : α → Program β}
  {g : α → Program Bool} {h : β → α → Program β}

theorem map (hP : Closed P) (f : α → β) {p : Program α} (hp : P α p) : P β (f <$> p) :=
  hP.bind hp fun a => hP.done (f a)

theorem mapM (hP : Closed P) (hf : ∀ a, P β (f a)) (items : List α) :
    P (List β) (items.mapM f) := by
  induction items with
  | nil => exact hP.done []
  | cons a rest ih =>
    rw [List.mapM_cons]
    exact hP.bind (hf a) fun b => hP.bind ih fun bs => hP.done (b :: bs)

theorem foldlM (hP : Closed P) (hh : ∀ b a, P β (h b a)) (b : β) (items : List α) :
    P β (items.foldlM h b) := by
  induction items generalizing b with
  | nil => exact hP.done b
  | cons a rest ih =>
    rw [List.foldlM_cons]
    exact hP.bind (hh b a) ih

theorem anyM (hP : Closed P) (hg : ∀ a, P Bool (g a)) (items : List α) :
    P Bool (items.anyM g) := by
  induction items with
  | nil => exact hP.done false
  | cons a rest ih =>
    rw [List.anyM_cons]
    refine hP.bind (hg a) fun b => ?_
    cases b with
    | false => exact ih
    | true => exact hP.done true

theorem allM (hP : Closed P) (hg : ∀ a, P Bool (g a)) (items : List α) :
    P Bool (items.allM g) := by
  induction items with
  | nil => exact hP.done true
  | cons a rest ih =>
    rw [List.allM_cons]
    refine hP.bind (hg a) fun b => ?_
    cases b with
    | false => exact hP.done false
    | true => exact ih

theorem filterAuxM (hP : Closed P) (hg : ∀ a, P Bool (g a)) (items kept : List α) :
    P (List α) (items.filterAuxM g kept) := by
  induction items generalizing kept with
  | nil => exact hP.done kept
  | cons a rest ih => exact hP.bind (hg a) fun b => ih _

theorem filterM (hP : Closed P) (hg : ∀ a, P Bool (g a)) (items : List α) :
    P (List α) (items.filterM g) :=
  hP.bind (hP.filterAuxM hg items []) fun kept => hP.done kept.reverse

/-- What holds of the predicate on every item holds of an iteration. -/
theorem iterate (hP : Closed P) {op : Operator} (hop : op.isIteration = true)
    {step : Json → Program Json} (hstep : ∀ v, P Json (step v)) (items : List Json)
    (initial : Option Json) : P Json (op.iterate step items initial) := by
  have htest : ∀ v, P Bool (Json.truthy <$> step v) := fun v => hP.map _ (hstep v)
  cases op with
  | someItem => exact hP.map _ (hP.anyM htest items)
  | everyItem => exact hP.map _ (hP.allM htest items)
  | noItem => exact hP.map _ (hP.anyM htest items)
  | map => exact hP.map _ (hP.mapM hstep items)
  | filter => exact hP.map _ (hP.filterM htest items)
  | reduce => exact hP.foldlM (fun _ _ => hstep _) _ items
  | _ => cases hop

/-- What holds of each argument holds of all of them together. -/
theorem evaluateAll (hP : Closed P) {args : List Node} {data : Json}
    (hargs : ∀ n ∈ args, P Json (n.evaluate data)) :
    P (List Json) (Node.evaluateAll args data) := by
  induction args with
  | nil => exact hP.done []
  | cons n rest ih =>
    rw [Node.evaluateAll]
    exact hP.bind (hargs n List.mem_cons_self) fun v =>
      hP.bind (ih fun m hm => hargs m (List.mem_cons_of_mem n hm)) fun vs => hP.done (v :: vs)

end Closed
end Program

/-! ## How programs can end -/

variable {α β : Type} {P : RuleError → Prop} {Q : α → Prop} {R : β → Prop}

/-- An error satisfies `P`, a value `Q`. -/
def Result.Ends (P : RuleError → Prop) (Q : α → Prop) : Result α → Prop
  | .ok a => Q a
  | .error e => P e

/-- An error satisfies `P`. -/
abbrev Result.FailsOnly (P : RuleError → Prop) (x : Result α) : Prop := x.Ends P fun _ => True

namespace Result

theorem Ends.bind {x : Result α} {f : α → Result β} (hx : x.Ends P Q)
    (hf : ∀ a, Q a → (f a).Ends P R) : Ends P R (x >>= f) := by
  cases x with
  | ok a => exact hf a hx
  | error e => exact hx

theorem FailsOnly.bind {x : Result α} {f : α → Result β} (hx : x.FailsOnly P)
    (hf : ∀ a, (f a).FailsOnly P) : FailsOnly P (x >>= f) :=
  Ends.bind hx fun a _ => hf a

theorem FailsOnly.mono {P' : RuleError → Prop} {x : Result α} (hx : x.FailsOnly P)
    (h : ∀ e, P e → P' e) : x.FailsOnly P' := by
  cases x with
  | ok a => trivial
  | error e => exact h e hx

theorem FailsOnly.map {x : Result α} (f : α → β) (hx : x.FailsOnly P) :
    FailsOnly P (f <$> x) := by
  cases x with
  | ok a => trivial
  | error e => exact hx

theorem FailsOnly.foldlM {f : β → α → Result β} (hf : ∀ b a, (f b a).FailsOnly P) (b : β)
    (items : List α) : FailsOnly P (items.foldlM f b) := by
  induction items generalizing b with
  | nil => trivial
  | cons a rest ih =>
    rw [List.foldlM_cons]
    exact (hf b a).bind ih

end Result

namespace Program

/-- However the calls are answered, a failure satisfies `P` and a value `Q`. -/
def Ends (P : RuleError → Prop) (Q : α → Prop) : Program α → Prop
  | .done a => Q a
  | .fail e => P e
  | .note _ rest => rest.Ends P Q
  | .call _ _ rest => ∀ v, (rest v).Ends P Q

/-- However the calls are answered, a failure satisfies `P`. -/
abbrev FailsOnly (P : RuleError → Prop) (p : Program α) : Prop := p.Ends P fun _ => True

theorem Ends.bind {p : Program α} {f : α → Program β} (hp : p.Ends P Q)
    (hf : ∀ a, Q a → (f a).Ends P R) : (p.bind f).Ends P R := by
  induction p with
  | done a => exact hf a hp
  | fail e => exact hp
  | note n rest ih => exact ih hp
  | call name args rest ih => exact fun v => ih v (hp v)

theorem FailsOnly.bind {p : Program α} {f : α → Program β} (hp : p.FailsOnly P)
    (hf : ∀ a, (f a).FailsOnly P) : (p.bind f).FailsOnly P :=
  Ends.bind hp fun a _ => hf a

theorem FailsOnly.ofResult {x : Result α} (hx : x.FailsOnly P) :
    FailsOnly P (Program.ofResult x) := by
  cases x with
  | ok a => trivial
  | error e => exact hx

theorem failsOnly_closed : Closed fun _ p => FailsOnly P p :=
  ⟨fun _ => trivial, FailsOnly.bind⟩

/-- An iteration fails only as its predicate does. -/
theorem FailsOnly.iterate {op : Operator} (hop : op.isIteration = true)
    {step : Json → Program Json} (hstep : ∀ v, (step v).FailsOnly P) (items : List Json)
    (initial : Option Json) : (op.iterate step items initial).FailsOnly P :=
  failsOnly_closed.iterate hop hstep items initial

/-- A run ends as its program does, if the host fails no otherwise. -/
theorem Ends.run {σ : Type} {host : Host σ}
    (hhost : ∀ name args s, (host name args s).result.FailsOnly P) {p : Program α}
    (hp : p.Ends P Q) (s : σ) : (p.run host s).result.Ends P Q := by
  induction p generalizing s with
  | done a => exact hp
  | fail e => exact hp
  | note n rest ih => exact ih hp s
  | call name args rest ih =>
    have ha := hhost name args s
    cases hres : (host name args s).result with
    | error e =>
      rw [run_call_of_error hres]
      rw [hres] at ha
      exact ha
    | ok v =>
      rw [run_call_of_ok hres]
      exact ih v (hp v) _

theorem failsOnly_true (p : Program α) : p.FailsOnly fun _ => True := by
  induction p with
  | done | fail => trivial
  | note n rest ih => exact ih
  | call name args rest ih => exact ih

/-- How a program goes on matters only for the values that it can have. -/
theorem Ends.bind_congr {p : Program α} (hp : p.Ends P Q) {f g : α → Program β}
    (h : ∀ a, Q a → f a = g a) : p.bind f = p.bind g := by
  induction p with
  | done a => exact h a hp
  | fail e => rfl
  | note n rest ih => exact congrArg (Program.note n) (ih hp)
  | call name args rest ih => exact congrArg (Program.call name args) (funext fun v => ih v (hp v))

/-! ## Which functions a program calls -/

variable {σ : Type} {S : String → Prop}

/-- However the calls are answered, all of them are by names of `S`. -/
def CallsOnly (S : String → Prop) : Program α → Prop
  | .done _ => True
  | .fail _ => True
  | .note _ rest => rest.CallsOnly S
  | .call name _ rest => S name ∧ ∀ v, (rest v).CallsOnly S

theorem CallsOnly.bind {p : Program α} {f : α → Program β} (hp : p.CallsOnly S)
    (hf : ∀ a, (f a).CallsOnly S) : (p.bind f).CallsOnly S := by
  induction p with
  | done a => exact hf a
  | fail e => trivial
  | note n rest ih => exact ih hp
  | call name args rest ih => exact ⟨hp.1, fun v => ih v (hp.2 v)⟩

theorem callsOnly_closed : Closed fun _ p => CallsOnly S p :=
  ⟨fun _ => trivial, CallsOnly.bind⟩

theorem callsOnly_ofResult (x : Result α) : (ofResult x).CallsOnly S := by
  cases x <;> trivial

theorem callsOnly_noting (notes : List Note) {p : Program α} (hp : p.CallsOnly S) :
    (noting notes p).CallsOnly S := by
  induction notes with
  | nil => exact hp
  | cons n rest ih => exact ih

theorem callsOnly_true (p : Program α) : p.CallsOnly fun _ => True := by
  induction p with
  | done | fail => trivial
  | note n rest ih => exact ih
  | call name args rest ih => exact ⟨trivial, ih⟩

/-- Hosts that do the same for the names that a program calls give the same run. -/
theorem run_eq_of_callsOnly {host host' : Host σ} (hhost : ∀ name, S name → host' name = host name)
    {p : Program α} (hp : p.CallsOnly S) (s : σ) : p.run host' s = p.run host s := by
  induction p generalizing s with
  | done | fail => rfl
  | note n rest ih => rw [run, run, ih hp]
  | call name args rest ih =>
    have hname := hhost name hp.1
    cases hres : (host name args s).result with
    | error e => rw [run_call_of_error hres, run_call_of_error (hname ▸ hres), hname]
    | ok v => rw [run_call_of_ok hres, run_call_of_ok (hname ▸ hres), hname, ih v (hp.2 v)]

/-- A run records notes and what its calls record. -/
theorem CallsOnly.forall_mem_journal {Q : Event → Prop} {host : Host σ} {p : Program α}
    (hp : p.CallsOnly S) (hnote : ∀ n, Q (.note n))
    (hhost : ∀ name, S name → ∀ args s, ∀ event ∈ (host name args s).journal, Q event) (s : σ) :
    ∀ event ∈ (p.run host s).journal, Q event := by
  induction p generalizing s with
  | done | fail => exact List.forall_mem_nil Q
  | note n rest ih => exact List.forall_mem_cons.2 ⟨hnote n, ih hp s⟩
  | call name args rest ih =>
    have ha := hhost name hp.1 args s
    cases hres : (host name args s).result with
    | error e =>
      rw [run_call_of_error hres]
      exact ha
    | ok v =>
      rw [run_call_of_ok hres]
      exact List.forall_mem_append.2 ⟨ha, ih v (hp.2 v) _⟩

end Program
end JsonRules
