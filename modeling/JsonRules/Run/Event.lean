import JsonRules.Rule.Error

/-!
# What a run records

A journal is a list of events. A host call and a pause of a host function come from the host, a
`Note` from the engine. Of the notes only the one of the operator `log` belongs to what a rule does;
the others trace how the engine went about it.
-/

namespace JsonRules

/-- Whether a run waits for host functions that pause. -/
inductive Mode where
  | sync
  | async
deriving DecidableEq, Repr

def Mode.name : Mode → String
  | .sync => "sync"
  | .async => "async"

/-- A task that the journal marks the beginning of. -/
inductive Task where
  | evaluate (mode : Mode)
  | process
  | processAsync
  | validate
deriving DecidableEq, Repr

def Task.text : Task → String
  | .evaluate mode => "json_logic.evaluate mode=" ++ mode.name
  | .process => "process"
  | .processAsync => "process_async"
  | .validate => "validate"

/-- What the engine records. -/
inductive Note where
  /-- The operator `log` passes a value on. -/
  | log (value : Json)
  /-- A task begins. -/
  | start (task : Task)
  /-- A rule has more keys than its operator. -/
  | ignoredKeys (operator : String) (count : Nat)
  /-- The operands of an operator are evaluated. -/
  | dispatch (operator : Operator) (operands : Nat)
  /-- Processing a request failed. -/
  | processingFailed (error : RuleError)
  /-- A rule to be validated does not compile. -/
  | validationRefused (error : RuleError)
  /-- A rule to be validated fails on empty data. -/
  | validationFailed (error : RuleError)

/-- One entry of a journal. -/
inductive Event where
  /-- A host function is called. -/
  | call (name : String) (args : List Json)
  /-- A host function pauses before it runs. -/
  | wait (name : String)
  | note (note : Note)

namespace Note

/-- Whether a note only tells how the engine went about its task. -/
def isTrace : Note → Bool
  | .log _ => false
  | _ => true

/-- The line of a note. -/
def text : Note → String
  | .log v => "INFO log value=" ++ v.text
  | .start task => "SPAN " ++ task.text
  | .ignoredKeys op n =>
    "DEBUG 节点包含多个键，仅使用第一个 operator=" ++ op ++ " ignored=" ++ toString n
  | .dispatch op n => "TRACE dispatch operator=" ++ op.name ++ " operands=" ++ toString n
  | .processingFailed e => "WARN 规则求值失败 error=" ++ e.message ++ " kind=" ++ e.kind
  | .validationRefused e => "INFO 规则解析失败 error=" ++ e.message
  | .validationFailed e => "INFO 规则校验未通过 error=" ++ e.message

end Note

namespace Event

/-- Whether an event only tells how the engine went about its task. -/
def isTrace : Event → Bool
  | .note n => n.isTrace
  | _ => false

/-- The note that an event is, if it is one. -/
def note? : Event → Option Note
  | .note n => some n
  | _ => none

/-- The function that an event is a call of. -/
def called? : Event → Option String
  | .call name _ => some name
  | _ => none

/-- The function that an event is a call or a pause of. -/
def function? : Event → Option String
  | .call name _ => some name
  | .wait name => some name
  | .note _ => none

def isWait : Event → Bool
  | .wait _ => true
  | _ => false

/-- The line of an event. -/
def text : Event → String
  | .call name args => "call " ++ name ++ " " ++ (Json.arr args).text
  | .wait name => "wait " ++ name
  | .note n => n.text

end Event
end JsonRules
