import JsonRules.Json.Document
import JsonRules.Rule.Compile
import JsonRules.Settings.Ini
import JsonRules.Settings.Json5
import JsonRules.Settings.Ron
import JsonRules.Settings.Toml
import JsonRules.Settings.Tree
import JsonRules.Settings.Yaml

/-!
# Settings

The settings of a program come in layers, each of which overrides the ones before it key by key: what
is built in, three optional files, and environment variables. `Settings.load?` reads them all.

A file of settings is in TOML, or in the format that a further ending of its name tells. `Format.read?`
gives the settings of a text, which must be a table.
-/

namespace JsonRules

/-! ## Formats -/

namespace Setting

mutual

/-- The setting that a JSON value is. A number that no signed word holds is a real. -/
def ofJson : Json → Setting
  | .null => .absent
  | .bool b => .flag b
  | .num n =>
    match n.toSigned? with
    | some i => .integer i
    | none => .real (.finite n.toDouble)
  | .str s => .text s
  | .arr items => .list (ofItems items)
  | .obj fields => .table (ofFields fields)

def ofItems : List Json → List Setting
  | [] => []
  | v :: rest => ofJson v :: ofItems rest

def ofFields : List (String × Json) → List (String × Setting)
  | [] => []
  | (name, v) :: rest => (name, ofJson v) :: ofFields rest

end

/-- The entries of a table. -/
def table? : Setting → Option (List (String × Setting))
  | .table es => some es
  | _ => none

end Setting

/-- A format of settings. -/
inductive Format where
  | toml
  | json
  | yaml
  | ini
  | ron
  | json5
deriving DecidableEq, Repr

namespace Format

/-- The endings of files with their formats. -/
def endings : List (String × Format) :=
  [("toml", .toml), ("json", .json), ("yaml", .yaml), ("yml", .yaml), ("ini", .ini), ("ron", .ron),
    ("json5", .json5)]

/-- The format that the name of a file tells. A name that begins with its only point has no ending. -/
def ofPath? (path : String) : Option Format :=
  let name := path.toList.reverse.takeWhile (· != '/')
  match name.dropWhile (· != '.') with
  | '.' :: _ :: _ => endings.lookup (String.ofList (name.takeWhile (· != '.')).reverse)
  | _ => none

/-- The settings of a text. A byte order mark at its beginning is passed over. -/
def read? (format : Format) (text : String) : Option (List (String × Setting)) :=
  let text := match text.toList with
    | '\ufeff' :: rest => String.ofList rest
    | _ => text
  match format with
  | .toml => Toml.read? text
  | .json => (Json.read? text).bind fun v => (Setting.ofJson v).table?
  | .yaml => (Yaml.read? text).bind Setting.table?
  | .ini => Ini.read? text
  | .ron => (Ron.read? text).bind Setting.table?
  | .json5 => (Json5.read? text).bind Setting.table?

end Format

/-! ## Layers -/

/-- The settings of a program. -/
structure Settings where
  serviceName : String := "json-logic"
  environment : String := "development"
  maxDepth : Nat := defaultMaxDepth
  logLevel : String := "info"
  logFormat : String := "pretty"
deriving DecidableEq, Repr, Inhabited

namespace Settings

/-- Whether the environment is the one of production. -/
def isProduction (s : Settings) : Bool := s.environment == "production"

/-- Whether log lines are to be JSON. -/
def logsJson (s : Settings) : Bool := s.logFormat.toLower == "json"

/-- The text of a member, or `default` if it is absent. -/
def textOr? (default name : String) (members : List (String × Setting)) : Option String :=
  match members.lookup name with
  | none => some default
  | some s => s.asText?

/-- The limit on depth. Where there are settings of the engine, it must be among them. -/
def engineOf? : Option Setting → Option Nat
  | none => some defaultMaxDepth
  | some s => do
    let members ← s.members? ["max_depth"]
    (← members.lookup "max_depth").asCount?

/-- The level and the format of log lines. -/
def observabilityOf? : Option Setting → Option (String × String)
  | none => some ("info", "pretty")
  | some s => do
    let members ← s.members? ["log_level", "log_format"]
    return (← textOr? "info" "log_level" members, ← textOr? "pretty" "log_format" members)

/-- The settings of a tree, if each that is there can be read. -/
def ofSetting? (root : Setting) : Option Settings := do
  let members := root.entries
  let (logLevel, logFormat) ← observabilityOf? (members.lookup "observability")
  return {
    serviceName := ← textOr? "json-logic" "service_name" members
    environment := ← textOr? "development" "environment" members
    maxDepth := ← engineOf? (members.lookup "engine")
    logLevel, logFormat }

/-- The layer below all others. -/
def builtIn (service environment : String) : List (String × Setting) :=
  [("service_name", .text service), ("environment", .text environment)]

/-- The settings of layers, the lowest first. -/
def ofLayers? (layers : List (List (String × Setting))) : Option Settings :=
  ofSetting? (layers.foldl (fun root layer => Setting.overlay layer root) (.table []))

/-- The path of a name within a directory. -/
def pathIn (directory name : String) : String :=
  if name.startsWith "/" || directory.isEmpty then name
  else if directory.endsWith "/" then directory ++ name
  else directory ++ "/" ++ name

/-- The environment that the variables select. -/
def environmentOf (env : Environment) : String :=
  (env.lookup "JSONLOGIC_ENV").getD "development"

/-- The paths of the files of settings, the lowest layer first. -/
def paths (env : Environment) (service : String) : List String :=
  let directory := (env.lookup "CONFIG_DIR").getD "config"
  ["default", environmentOf env, service].map fun stem => pathIn directory (stem ++ ".toml")

/-- Where a file of settings may be found: at its path, or else with a further ending. -/
def candidates (path : String) : List (Option Format × String) :=
  (Format.ofPath? path, path) ::
    Format.endings.map fun (ending, format) => (some format, path ++ "." ++ ending)

/-- The first file that is there. `readFile` gives the text of a file that is there. -/
def firstFile? {m : Type → Type} [Monad m] (readFile : String → m (Option String)) :
    List (Option Format × String) → m (Option (Option Format × String))
  | [] => return none
  | (format, path) :: rest => do
    match ← readFile path with
    | some text => return some (format, text)
    | none => firstFile? readFile rest

/-- The settings of files and of the variables, unless some file cannot be read or some setting is
of the wrong kind. A file without a format is passed over. -/
def ofFiles? (env : Environment) (service : String) (files : List (Option Format × String)) :
    Option Settings := do
  let known := files.filterMap fun (format, text) => format.map (·, text)
  let layers ← known.mapM fun (format, text) => format.read? text
  ofLayers? (builtIn service (environmentOf env) :: layers ++ [env.layer])

/-- Loads the settings of a service. -/
def load? {m : Type → Type} [Monad m] (readFile : String → m (Option String))
    (env : Environment) (service : String) : m (Option Settings) := do
  let files ← (paths env service).filterMapM fun path => firstFile? readFile (candidates path)
  return ofFiles? env service files

end Settings
end JsonRules
