import JsonRules.Engine
import JsonRules.Service.Message

/-!
# The rule service

Answers requests with the engine and the functions of a registry. A rule that does not count as true
is no rule: such a request is refused before anything is compiled.
-/

namespace JsonRules

/-- An engine and the functions that its rules may call. -/
structure Service (σ : Type) where
  engine : Engine
  functions : Registry σ

namespace Service

variable {σ : Type}

/-- What a request without a rule is told. -/
def ruleNotProvided : String := "未提供规则"

/-- The reply to a request once its rule has been evaluated. A failure is recorded. -/
def respond (request : ProcessRequest) (t : Trail σ (Result Json)) : Trail σ ProcessReply :=
  match t.result with
  | .ok v => ⟨.ofResult v request, t.state, t.journal⟩
  | .error e => ⟨.ofError e, t.state, t.journal ++ [.note (.processingFailed e)]⟩

/-- Answers a request to process a rule, which `evaluate` evaluates. -/
def answer (task : Task) (evaluate : σ → Trail σ (Result Json)) (request : ProcessRequest) (s : σ) :
    Trail σ ProcessReply :=
  let t := if request.rule.truthy then respond request (evaluate s)
    else ⟨.failure false ruleNotProvided none, s, []⟩
  { t with journal := .note (.start task) :: t.journal }

/-- Processes a request without waiting: asynchronous functions fail. -/
def process (v : Service σ) (request : ProcessRequest) : σ → Trail σ ProcessReply :=
  answer .process (v.engine.evaluate .sync v.functions request.rule request.data) request

/-- Processes a request, waiting if there are asynchronous functions. -/
def processAsync (v : Service σ) (request : ProcessRequest) : σ → Trail σ ProcessReply :=
  answer .processAsync
    (fun s => (v.engine.evaluateAuto v.functions request.rule request.data s).resolve s) request

/-- Evaluates a tree on the empty object, to learn whether its rule is valid. -/
def check (v : Service σ) (tree : Node) (s : σ) : Trail σ ValidationReply :=
  let t := (Engine.execute v.functions tree (.obj []) s).resolve s
  let paths := tree.paths.toList
  let functions := tree.functions.toList
  match t.result with
  | .ok _ =>
    ⟨{ valid := true, message := some "规则有效", paths, functions }, t.state, t.journal⟩
  | .error e =>
    ⟨{ ValidationReply.invalid e.message with paths, functions }, t.state,
      t.journal ++ [.note (.validationFailed e)]⟩

/-- Says whether a rule is valid: it compiles, and it has a value on the empty object. What it refers
to is listed if it compiles. -/
def validate (v : Service σ) (request : ValidateRequest) (s : σ) : Trail σ ValidationReply :=
  let t : Trail σ ValidationReply :=
    if request.rule.truthy then
      let notes := (Rule.notes v.engine.maxDepth request.rule).map Event.note
      match v.engine.compile request.rule with
      | .ok tree =>
        let t := v.check tree s
        { t with journal := notes ++ t.journal }
      | .error e => ⟨.invalid e.message, s, notes ++ [.note (.validationRefused e)]⟩
    else ⟨.invalid ruleNotProvided, s, []⟩
  { t with journal := .note (.start .validate) :: t.journal }

def health : HealthReply := ⟨"healthy", "JSON Logic 规则服务运行正常"⟩

end Service
end JsonRules
