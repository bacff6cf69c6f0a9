import JsonRules.Settings

/-!
# Layers one by one

What a layer sets is read off the tree that it makes on its own, `Setting.ofLayer`. `Settings.layers?` are the
layers that a program starts with, and `Settings.TakenFrom` says that each setting is the value of one of them, or the
one that is built in.
-/

namespace JsonRules
namespace Setting

/-- The tree of a layer that nothing lies below. -/
def ofLayer (layer : List (String × Setting)) : Setting := overlay layer (.table [])

/-- What a tree has at a place that is given by the keys on the way. -/
def at? : List String → Setting → Option Setting
  | [], s => some s
  | key :: rest, s => (s.entries.lookup key).bind (at? rest)

def IsTable (s : Setting) : Prop := ∃ entries, s = .table entries

instance (s : Setting) : Decidable s.IsTable :=
  match s with
  | .table entries => .isTrue ⟨entries, rfl⟩
  | .absent | .flag _ | .integer _ | .real _ | .text _ | .list _ => .isFalse fun ⟨_, h⟩ => nomatch h

/-- An entry gives tables under some names, if it gives anything there. -/
def GivesTables (names : List String) (entry : String × Setting) : Prop :=
  ∀ name ∈ names, ∀ s ∈ (ofLayer [entry]).at? [name], s.IsTable

instance (names : List String) (entry : String × Setting) : Decidable (GivesTables names entry) :=
  inferInstanceAs (Decidable (∀ name ∈ names, ∀ s ∈ (ofLayer [entry]).at? [name], s.IsTable))

end Setting

namespace Settings

/-- The layer of an optional file: nothing if there is none, or none of a known format. -/
def fileLayer? (readFile : String → Option String) (path : String) : Option (List (String × Setting)) :=
  match firstFile? (m := Id) readFile (candidates path) with
  | some (some format, text) => format.read? text
  | _ => some []

/-- The layers that a service starts with, the highest first: the variables, its own file, the file of the
environment and the default file. -/
def layers? (readFile : String → Option String) (env : Environment) (service : String) :
    Option (List (List (String × Setting))) := do
  let files ← (paths env service).mapM (fileLayer? readFile)
  return env.layer :: files.reverse

/-- The value of the highest layer that sets a place. -/
def highest? (layers : List (List (String × Setting))) (place : List String) : Option Setting :=
  layers.findSome? fun layer => (Setting.ofLayer layer).at? place

/-- The names under which settings stand in tables. -/
def tableNames : List String := ["engine", "observability"]

/-- The places of the settings that are texts. -/
def textPlaces : List (List String) :=
  [["service_name"], ["environment"], ["observability", "log_level"], ["observability", "log_format"]]

/-- A layer gives tables where settings stand in tables, and settings of the right kind. Each entry is looked at on its
own, since one that gives no table would take away what others have put there. -/
structure Fits (layer : List (String × Setting)) : Prop where
  tables : ∀ entry ∈ layer, Setting.GivesTables tableNames entry
  depth : ∀ s ∈ (Setting.ofLayer layer).at? ["engine", "max_depth"], s.asCount?.isSome
  texts : ∀ place ∈ textPlaces, ∀ s ∈ (Setting.ofLayer layer).at? place, s.asText?.isSome

instance (layer : List (String × Setting)) : Decidable (Fits layer) :=
  decidable_of_iff ((∀ entry ∈ layer, Setting.GivesTables tableNames entry) ∧
      (∀ s ∈ (Setting.ofLayer layer).at? ["engine", "max_depth"], s.asCount?.isSome) ∧
      ∀ place ∈ textPlaces, ∀ s ∈ (Setting.ofLayer layer).at? place, s.asText?.isSome)
    ⟨fun ⟨tables, depth, texts⟩ => ⟨tables, depth, texts⟩, fun h => ⟨h.tables, h.depth, h.texts⟩⟩

/-- Each setting is the value of the highest layer that sets it, or the one that is built in. -/
structure TakenFrom (layers : List (List (String × Setting))) (service environment : String) (s : Settings) :
    Prop where
  serviceName : ((highest? layers ["service_name"]).getD (.text service)).asText? = some s.serviceName
  environment : ((highest? layers ["environment"]).getD (.text environment)).asText? = some s.environment
  maxDepth : ((highest? layers ["engine", "max_depth"]).getD (.integer 256)).asCount? = some s.maxDepth
  logLevel : ((highest? layers ["observability", "log_level"]).getD (.text "info")).asText? = some s.logLevel
  logFormat : ((highest? layers ["observability", "log_format"]).getD (.text "pretty")).asText? = some s.logFormat

end Settings
end JsonRules
