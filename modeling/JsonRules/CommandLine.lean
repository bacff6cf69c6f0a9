import JsonRules.Service
import JsonRules.Settings

/-!
# The command line

What the arguments of the program ask for. A flag may be given once before the command and once after
it; short flags may be joined, and after `--` every argument is the name of a file.

The program answers one request from a file or from the standard input. `CommandLine.run` says what it
prints and how it ends; reading files is left to its surroundings.
-/

namespace JsonRules

/-! ## Arguments -/

/-- The commands of the program. -/
inductive Command where
  | eval
  | validate
deriving DecidableEq, Repr

/-- What a command line asks for. -/
inductive Invocation where
  /-- Answer the request in a file or, without one, on the standard input. -/
  | run (command : Command) (file : Option String) (pretty : Bool)
  | version
  /-- Explain the program or one of its commands. -/
  | help (command : Option Command)
  /-- The command line is not understood. -/
  | misuse
deriving DecidableEq, Repr

namespace Command

def ofName? (s : String) : Option Command :=
  if s = "eval" then some .eval else if s = "validate" then some .validate else none

end Command

namespace Invocation

/-- What one argument that begins with a dash does: it sets the flag, or it settles the whole command
line. -/
inductive Flag where
  | pretty
  | settled (invocation : Invocation)

/-- Reads short flags that are joined in one argument. `given` says whether the flag is set. -/
def shortFlags (help : Invocation) (version : Option Invocation) :
    (given : Bool) → List Char → Flag
  | _, [] => .pretty
  | given, 'p' :: rest => if given then .settled .misuse else shortFlags help version true rest
  | _, 'h' :: _ => .settled help
  | _, 'V' :: _ => .settled (version.getD .misuse)
  | _, _ => .settled .misuse

/-- Reads an argument that begins with a dash and is not a dash alone. -/
def flag (help : Invocation) (version : Option Invocation) (given : Bool) (arg : String) : Flag :=
  match arg.toList with
  | '-' :: '-' :: _ =>
    if arg = "--pretty" then if given then .settled .misuse else .pretty
    else if arg = "--help" then .settled help
    else if arg = "--version" then .settled (version.getD .misuse)
    else .settled .misuse
  | _ => shortFlags help version given (arg.toList.drop 1)

def isFlag (arg : String) : Bool := arg.startsWith "-" && arg != "-"

/-- Reads what follows a command. `outer` is the flag before the command, `given` the one after. -/
def ofCommand (command : Command) (outer : Bool) :
    (given : Bool) → (file : Option String) → (escaped : Bool) → List String → Invocation
  | given, file, _, [] => .run command file (outer || given)
  | given, file, escaped, arg :: rest =>
    if !escaped && arg == "--" then ofCommand command outer given file true rest
    else if !escaped && isFlag arg then
      match flag (.help (some command)) none given arg with
      | .pretty => ofCommand command outer true file escaped rest
      | .settled invocation => invocation
    else if file.isSome || arg.isEmpty then .misuse
    else ofCommand command outer given (some arg) escaped rest

/-- What the command `help` explains. -/
def ofHelp : List String → Invocation
  | [] => .help none
  | [name] =>
    if name = "help" then .help none
    else match Command.ofName? name with
      | some command => .help (some command)
      | none => .misuse
  | _ => .misuse

/-- Reads a command line. `given` says whether the flag is set. -/
def ofArgs (given : Bool) : List String → Invocation
  | [] => .misuse
  | arg :: rest =>
    if arg = "--" then .misuse
    else if isFlag arg then
      match flag (.help none) (some .version) given arg with
      | .pretty => ofArgs true rest
      | .settled invocation => invocation
    else if arg = "help" then ofHelp rest
    else match Command.ofName? arg with
      | some command => ofCommand command given false none false rest
      | none => .misuse

end Invocation

/-! ## The program -/

/-- What the program finds around it. A file that cannot be read has no text. -/
structure Surroundings (m : Type → Type) where
  environment : Environment
  readFile : String → m (Option String)
  readInput : m (Option String)

/-- How the program ends. -/
structure Report where
  exitCode : Nat
  output : String := ""
  /-- Why the request could not be read. -/
  error : Option String := none
  /-- The settings could not be loaded, so that those built in were used. -/
  settingsFailed : Bool := false
deriving DecidableEq, Repr

namespace CommandLine

/-- The name that the program has in its settings. -/
def serviceName : String := "json-logic"

def versionLine : String := "json-logic 0.1.0\n"

/-- The text that explains the program or a command. -/
def helpText : Option Command → String
  | none => "对 JSON 数据求值 JSON 逻辑规则\n\nUsage: json-logic [OPTIONS] <COMMAND>\n\nCommands:\n" ++
      "  eval      对数据求值规则\n  validate  校验规则\n" ++
      "  help      Print this message or the help of the given subcommand(s)\n\nOptions:\n" ++
      "  -p, --pretty   美化输出\n  -h, --help     Print help\n  -V, --version  Print version\n"
  | some .eval => "对数据求值规则\n\nUsage: json-logic eval [OPTIONS] [FILE]\n" ++ commandOptions
  | some .validate => "校验规则\n\nUsage: json-logic validate [OPTIONS] [FILE]\n" ++ commandOptions
where
  commandOptions : String :=
    "\nArguments:\n  [FILE]  请求文件（省略时读取标准输入）\n\nOptions:\n" ++
      "  -p, --pretty  美化输出\n  -h, --help    Print help\n"

/-- The line of a reply. -/
def line (pretty : Bool) (reply : Json) : String :=
  (if pretty then reply.indented else reply.text) ++ "\n"

/-- Answers the text of a request: the line to print and whether the rule is good. There is no answer
to a text that is no request. -/
def answer? (command : Command) (pretty : Bool) (service : Service Unit) (text : String) :
    Option (String × Bool) := do
  match command with
  | .eval =>
    let request ← ProcessRequest.read? text
    let reply := (service.processAsync request ()).result
    return (line pretty reply.toJson, reply.isSuccess)
  | .validate =>
    let request ← ValidateRequest.read? text
    let reply := (service.validate request ()).result
    return (line pretty reply.toJson, reply.valid)

/-- Answers a request whose text may not have been readable. -/
def respond (command : Command) (file : Option String) (pretty : Bool) (service : Service Unit)
    (input : Option String) : Report :=
  match input with
  | none =>
    { exitCode := 1
      error := some (match file with
        | some path => "无法读取文件 " ++ path
        | none => "无法读取标准输入") }
  | some text =>
    match answer? command pretty service text with
    | none => { exitCode := 1, error := some "请求不是合法的 JSON" }
    | some (output, good) => { exitCode := if good then 0 else 1, output }

/-- Runs the program on its arguments. -/
def run {m : Type → Type} [Monad m] (around : Surroundings m) (args : List String) : m Report := do
  match Invocation.ofArgs false args with
  | .misuse => return { exitCode := 2 }
  | .version => return { exitCode := 0, output := versionLine }
  | .help command => return { exitCode := 0, output := helpText command }
  | .run command file pretty =>
    let settings ← Settings.load? around.readFile around.environment serviceName
    let service : Service Unit := ⟨⟨(settings.getD {}).maxDepth⟩, .empty⟩
    let input ← match file with
      | some path => around.readFile path
      | none => around.readInput
    return { respond command file pretty service input with settingsFailed := settings.isNone }

end CommandLine
end JsonRules
