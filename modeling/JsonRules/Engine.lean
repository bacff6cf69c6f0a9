import JsonRules.Host.Registry
import JsonRules.Rule.Compile
import JsonRules.Rule.Evaluate

/-!
# The engine

`Engine.evaluate` compiles a rule and runs it in a given mode. `Engine.evaluateAuto` chooses the mode
by the registry, and with asynchronous functions registered it runs nothing until it is resolved.

A client begins evaluations on data and registries of its choice and resolves them when it likes, in
any order. `Evaluation.handed` is what there is of an evaluation when the client gets it, and
`Evaluation.rest` what resolving it does from then on. `Session.replies` are the answers to a sequence
of requests, where `evaluate` says how an evaluation is begun.
-/

namespace JsonRules

/-- The engine has no state of its own: its limit on the depth of rules is all there is to it. -/
structure Engine where
  maxDepth : Nat := defaultMaxDepth
deriving DecidableEq, Repr

/-- An evaluation that is over, or one that has not begun. -/
inductive Evaluation (σ : Type) where
  | ready (trail : Trail σ (Result Json))
  | pending (resume : σ → Trail σ (Result Json))

namespace Evaluation

variable {σ : Type}

def isPending : Evaluation σ → Bool
  | .ready _ => false
  | .pending _ => true

/-- What an evaluation that is over has left behind. -/
def ready? : Evaluation σ → Option (Trail σ (Result Json))
  | .ready t => some t
  | .pending _ => none

/-- What an evaluation leaves behind in the end, where one that has not begun starts from `s`. -/
def resolve : Evaluation σ → σ → Trail σ (Result Json)
  | .ready t, _ => t
  | .pending resume, s => resume s

end Evaluation

namespace Engine

variable {σ : Type}

/-- The tree of a rule. -/
def compile (e : Engine) (rule : Json) : Result Node := Rule.compile e.maxDepth rule

/-- The notes of compiling a rule and then the program of its tree. -/
def program (e : Engine) (rule data : Json) : Program Json :=
  .noting (Rule.notes e.maxDepth rule)
    (match e.compile rule with
      | .ok tree => tree.evaluate data
      | .error err => .fail err)

/-- How compiling and running a rule goes on. Nothing is run of a rule that does not compile. -/
def course (e : Engine) (mode : Mode) (r : Registry σ) (rule data : Json) (s : σ) :
    Course σ (Result Json) :=
  (Program.note (.start (.evaluate mode)) (e.program rule data)).course (r.invoke mode) s

/-- Compiles and runs a rule. -/
def evaluate (e : Engine) (mode : Mode) (r : Registry σ) (rule data : Json) (s : σ) :
    Trail σ (Result Json) :=
  (e.course mode r rule data s).finish mode

/-- Runs a tree. -/
def run (mode : Mode) (r : Registry σ) (tree : Node) (data : Json) (s : σ) :
    Trail σ (Result Json) :=
  ((tree.evaluate data).course (r.invoke mode) s).finish mode

theorem evaluate_eq (e : Engine) (mode : Mode) (r : Registry σ) (rule data : Json) (s : σ) :
    e.evaluate mode r rule data s =
      (Program.note (.start (.evaluate mode)) (e.program rule data)).run (r.host mode) s :=
  r.finish_course mode _ s

theorem run_eq (mode : Mode) (r : Registry σ) (tree : Node) (data : Json) (s : σ) :
    run mode r tree data s = (tree.evaluate data).run (r.host mode) s :=
  r.finish_course mode _ s

/-- A rule that compiles is run after the notes on it. -/
theorem evaluate_of_compile {e : Engine} {rule : Json} {tree : Node} (h : e.compile rule = .ok tree)
    (mode : Mode) (r : Registry σ) (data : Json) (s : σ) :
    e.evaluate mode r rule data s =
      let t := run mode r tree data s
      { t with
        journal := .note (.start (.evaluate mode)) ::
          (Rule.notes e.maxDepth rule).map .note ++ t.journal } := by
  rw [evaluate_eq, run_eq, program, h, Program.run, Program.run_noting]
  rfl

/-- A rule that does not compile leaves the notes on it behind and nothing else. -/
theorem evaluate_of_compile_error {e : Engine} {rule : Json} {err : RuleError}
    (h : e.compile rule = .error err) (mode : Mode) (r : Registry σ) (data : Json) (s : σ) :
    e.evaluate mode r rule data s =
      ⟨.error err, s, .note (.start (.evaluate mode)) ::
        (Rule.notes e.maxDepth rule).map .note⟩ := by
  rw [evaluate_eq, program, h, Program.run, Program.run_noting]
  simp [Program.run]

/-- Evaluates a rule at once if all functions are synchronous, and later otherwise. -/
def evaluateAuto (e : Engine) (r : Registry σ) (rule data : Json) (s : σ) : Evaluation σ :=
  if r.hasAsync then .pending (e.evaluate .async r rule data)
  else .ready (e.evaluate .sync r rule data s)

/-- The same of a tree that is compiled already. -/
def execute (r : Registry σ) (tree : Node) (data : Json) (s : σ) : Evaluation σ :=
  if r.hasAsync then .pending (run .async r tree data) else .ready (run .sync r tree data s)

end Engine

/-! ## Sessions -/

variable {σ : Type}

namespace Evaluation

/-- What there is of an evaluation that was begun in a state: its result if it is over, and what it
has left behind. -/
def handed (s : σ) : Evaluation σ → Trail σ (Option (Result Json))
  | .ready t => ⟨some t.result, t.state, t.journal⟩
  | .pending _ => ⟨none, s, []⟩

/-- What resolving an evaluation in a state does from then on. -/
def rest : Evaluation σ → σ → Trail σ (Result Json)
  | .ready t, s => ⟨t.result, s, []⟩
  | .pending resume, s => resume s

end Evaluation

/-- What a client asks for. -/
inductive Request (σ : Type) where
  /-- An evaluation is to begin. -/
  | start (registry : Registry σ) (data : Json)
  /-- An evaluation that was begun is to be resolved. They are counted from zero. -/
  | resolve (index : Nat)

/-- The state of the host and the evaluations that the client has got. -/
structure Session (σ : Type) where
  state : σ
  evaluations : List (Evaluation σ)

namespace Session

/-- The answer to a request: a result, if there is one yet, and what is left behind. An evaluation
that was resolved is over from then on. -/
def reply (evaluate : Registry σ → Json → σ → Evaluation σ) (c : Session σ) :
    Request σ → Trail (Session σ) (Option (Result Json))
  | .start r data =>
    let ev := evaluate r data c.state
    let t := ev.handed c.state
    ⟨t.result, ⟨t.state, c.evaluations ++ [ev]⟩, t.journal⟩
  | .resolve i =>
    match c.evaluations[i]? with
    | none => ⟨none, c, []⟩
    | some ev =>
      let t := ev.rest c.state
      ⟨some t.result, ⟨t.state, c.evaluations.set i (.ready t)⟩, t.journal⟩

/-- The answers to requests one after the other. -/
def replies (evaluate : Registry σ → Json → σ → Evaluation σ) :
    List (Request σ) → Session σ → List (Trail (Session σ) (Option (Result Json)))
  | [], _ => []
  | q :: rest, c =>
    let t := c.reply evaluate q
    t :: replies evaluate rest t.state

end Session
end JsonRules
