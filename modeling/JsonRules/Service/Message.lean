import JsonRules.Json.Compare
import JsonRules.Json.Document
import JsonRules.Rule.Error

/-!
# Messages of the rule service

Requests and replies, the value that each is written as, and how each is read from a document. A
message that is read may have members of other names, which are passed over as they are written; a
member of its own may not be repeated. Members that are absent are not written.
-/

namespace JsonRules

/-- How deep the values within a message may nest. -/
def maxMemberNesting : Nat := Json.maxNesting - 1

/-- A rule and the data to evaluate it on. -/
structure ProcessRequest where
  rule : Json := .null
  data : Json := .obj []

/-- A rule to be validated. -/
structure ValidateRequest where
  rule : Json := .null

/-- What became of a request. The flag is a part of either form. -/
inductive ProcessReply where
  | success (success : Bool) (result rule data : Json)
  | failure (success : Bool) (error : String) (kind : Option String)

/-- Whether a rule is valid, and what it refers to. -/
structure ValidationReply where
  valid : Bool
  message : Option String := none
  error : Option String := none
  paths : List String := []
  functions : List String := []
deriving DecidableEq, Repr

/-- The state of the service. -/
structure HealthReply where
  status : String
  message : String
deriving DecidableEq, Repr

namespace Json
namespace Document

/-- The value of a member, or `default` if it is absent. -/
def valueOr? (default : Json) : Option Document → Option Json
  | none => some default
  | some d => d.value? maxMemberNesting

def asBool? : Document → Option Bool
  | .bool b => some b
  | _ => none

def asString? : Document → Option String
  | .string us => decodeString? us
  | _ => none

/-- A text that may be absent or null. -/
def optionalString? : Option Document → Option (Option String)
  | none => some none
  | some .null => some none
  | some d => d.asString?.map some

/-- A list of texts that may be absent. -/
def strings? : Option Document → Option (List String)
  | none => some []
  | some (.array items) => items.mapM asString?
  | some _ => none

end Document

/-- The field of a text that may be absent. -/
def optionalField (name : String) : Option String → List (String × Json)
  | none => []
  | some s => [(name, .str s)]

/-- The field of a list of texts, left out when it is empty. -/
def listField (name : String) : List String → List (String × Json)
  | [] => []
  | texts => [(name, .arr (texts.map .str))]

end Json

open Json

namespace ProcessRequest

def toJson (r : ProcessRequest) : Json := .obj [("rule", r.rule), ("data", r.data)]

/-- Reads a request. An absent rule is null and absent data the empty object. -/
def ofDocument? (d : Document) : Option ProcessRequest := do
  let members ← d.members? ["rule", "data"]
  return {
    rule := ← Document.valueOr? .null (← Document.member? "rule" members)
    data := ← Document.valueOr? (.obj []) (← Document.member? "data" members) }

/-- Reads a request from its text. -/
def read? (text : String) : Option ProcessRequest := (Document.read? text).bind ofDocument?

end ProcessRequest

namespace ValidateRequest

/-- Reads a request. An absent rule is null. -/
def ofDocument? (d : Document) : Option ValidateRequest := do
  let members ← d.members? ["rule"]
  return { rule := ← Document.valueOr? .null (← Document.member? "rule" members) }

/-- Reads a request from its text. -/
def read? (text : String) : Option ValidateRequest := (Document.read? text).bind ofDocument?

end ValidateRequest

namespace ProcessReply

/-- The reply to a request whose rule has a value. -/
def ofResult (result : Json) (request : ProcessRequest) : ProcessReply :=
  .success true result request.rule request.data

/-- The reply to a request whose rule fails. -/
def ofError (e : RuleError) : ProcessReply := .failure false e.message (some e.kind)

def isSuccess : ProcessReply → Bool
  | .success .. => true
  | .failure .. => false

def result? : ProcessReply → Option Json
  | .success _ result _ _ => some result
  | .failure .. => none

/-- What is told of a failure. -/
def error? : ProcessReply → Option String
  | .success .. => none
  | .failure _ error _ => some error

def kind? : ProcessReply → Option String
  | .success .. => none
  | .failure _ _ kind => kind

def toJson : ProcessReply → Json
  | .success flag result rule data =>
    .obj [("success", flag), ("result", result), ("rule", rule), ("data", data)]
  | .failure flag error kind =>
    .obj (("success", .bool flag) :: ("error", .str error) :: optionalField "kind" kind)

/-- Reads the form with a result, all of whose members must be present. -/
def successOf? (members : List (String × Document)) : Option ProcessReply := do
  let flag ← (← Document.member? "success" members).bind Document.asBool?
  let result ← (← Document.member? "result" members).bind (·.value? maxMemberNesting)
  let rule ← (← Document.member? "rule" members).bind (·.value? maxMemberNesting)
  let data ← (← Document.member? "data" members).bind (·.value? maxMemberNesting)
  return .success flag result rule data

/-- Reads the form with an error, whose kind may be absent. -/
def failureOf? (members : List (String × Document)) : Option ProcessReply := do
  let flag ← (← Document.member? "success" members).bind Document.asBool?
  let error ← (← Document.member? "error" members).bind Document.asString?
  let kind ← Document.optionalString? (← Document.member? "kind" members)
  return .failure flag error kind

/-- Reads a reply from an object that is a value as a whole: with a result if it can be read so, and
otherwise with an error. -/
def ofDocument? (d : Document) : Option ProcessReply :=
  match d with
  | .object _ => do
    let _ ← d.value? maxNesting
    let members ← d.members? []
    successOf? members <|> failureOf? members
  | _ => none

/-- Reads a reply from its text. -/
def read? (text : String) : Option ProcessReply := (Document.read? text).bind ofDocument?

end ProcessReply

namespace ValidationReply

/-- The reply on a rule that is not valid. -/
def invalid (error : String) : ValidationReply := { valid := false, error := some error }

def toJson (r : ValidationReply) : Json :=
  .obj (("valid", .bool r.valid) :: optionalField "message" r.message ++
    optionalField "error" r.error ++ listField "variables" r.paths ++
    listField "functions" r.functions)

/-- Reads a reply. Only the flag must be present. -/
def ofDocument? (d : Document) : Option ValidationReply := do
  let members ← d.members? ["valid", "message", "error", "variables", "functions"]
  return {
    valid := ← (← Document.member? "valid" members).bind Document.asBool?
    message := ← Document.optionalString? (← Document.member? "message" members)
    error := ← Document.optionalString? (← Document.member? "error" members)
    paths := ← Document.strings? (← Document.member? "variables" members)
    functions := ← Document.strings? (← Document.member? "functions" members) }

/-- Reads a reply from its text. -/
def read? (text : String) : Option ValidationReply := (Document.read? text).bind ofDocument?

end ValidationReply

namespace HealthReply

def toJson (r : HealthReply) : Json := .obj [("status", .str r.status), ("message", .str r.message)]

end HealthReply
end JsonRules
