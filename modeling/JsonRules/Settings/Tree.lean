import JsonRules.Double.Decimal
import JsonRules.Json

/-!
# Trees of settings

A layer of configuration is a tree of settings. `Setting.put` writes a setting at a place of a tree.
Tables that meet are merged key by key, anything else is replaced, so that of two layers put one
after the other the later one wins in each key.

A variable whose name begins with `JSONLOGIC_`, in any case, is a setting: the rest of its name in
small letters is the place, where two underscores separate a key from the next.
-/

namespace JsonRules

/-- A setting as a layer gives it. -/
inductive Setting where
  /-- Nothing, where a list was made longer. -/
  | absent
  | flag (b : Bool)
  | integer (n : Int)
  | real (x : Extended)
  | text (s : String)
  | list (items : List Setting)
  | table (entries : List (String × Setting))
deriving Repr, Inhabited

/-- A step to a place within a setting. -/
inductive SettingStep where
  | key (name : String)
  /-- A place in a list. Below zero it counts from the end. -/
  | index (i : Int)
deriving DecidableEq, Repr

/-- A signed integer of 64 bits in decimal digits. -/
def Setting.integer? (s : List Char) : Option Int := do
  let (sign, digits) := Numeral.scanSign s
  let n ← Json.index? digits
  let i : Int := if sign == some '-' then -n else n
  if IsSigned i then some i else none

/-- Changes the entry of a name, which goes to the end if there was none. -/
def alterEntry {α : Type} (name : String) (f : Option α → α) : List (String × α) → List (String × α)
  | [] => [(name, f none)]
  | (k, v) :: rest =>
    if k = name then (k, f (some v)) :: rest else (k, v) :: alterEntry name f rest

namespace SettingStep

/-- The characters of keys in a place that is spelled out. -/
def inKey (c : Char) : Bool := c.isAlphanum || c == '_' || c == '-'

def isSpace (c : Char) : Bool := c == ' ' || c == '\t'

/-- An index from after its opening bracket, and the text after the closing one. There may be spaces
around it and a minus before it. -/
def index? (s : List Char) : Option (Int × List Char) := do
  let number := (s.dropWhile isSpace).takeWhile fun c => c.isDigit || c == '-'
  let i ← Setting.integer? number
  match ((s.dropWhile isSpace).drop number.length).dropWhile isSpace with
  | ']' :: rest => some (i, rest)
  | _ => none

/-- The steps of a text: keys, each after a point, and indices in brackets. -/
def steps? : (fuel : Nat) → List Char → Option (List SettingStep)
  | _, [] => some []
  | fuel + 1, '.' :: rest => do
    let key := rest.takeWhile inKey
    if key.isEmpty then none
    else return .key (String.ofList key) :: (← steps? fuel (rest.dropWhile inKey))
  | fuel + 1, '[' :: rest => do
    let (i, rest) ← index? rest
    return .index i :: (← steps? fuel rest)
  | _, _ => none

/-- The place that a text spells. It begins with a key. -/
def read? (text : List Char) : Option (List SettingStep) := steps? (text.length + 1) ('.' :: text)

/-- The place of a name: what it spells, or else the key of that name. -/
def ofName (name : String) : List SettingStep := (read? name.toList).getD [.key name]

end SettingStep

namespace Setting

def entries : Setting → List (String × Setting)
  | .table es => es
  | _ => []

def items : Setting → List Setting
  | .list items => items
  | _ => []

mutual

/-- A setting in the place of an older one. A table is merged into it. -/
def above : Setting → Option Setting → Setting
  | .table es, old => .table (entriesAbove es (old.getD .absent).entries)
  | s, _ => s

/-- Entries in the place of older ones. Where both have a name the newer is put above the older. -/
def entriesAbove : (new old : List (String × Setting)) → List (String × Setting)
  | [], old => old
  | (name, s) :: rest, old => entriesAbove rest (alterEntry name s.above old)

end

/-- A list made long enough for an index, and the place that the index then has. What is missing is
put at the end, or at the front of a list that is counted from its end. -/
def stretch (i : Int) (items : List Setting) : List Setting × Nat :=
  if 0 ≤ i then (items ++ List.replicate (i.toNat + 1 - items.length) .absent, i.toNat)
  else (List.replicate (i.natAbs - items.length) .absent ++ items, items.length - i.natAbs)

/-- Writes a setting at a place. What stands in the way of the place gives way to tables and lists. -/
def put (new : Setting) : List SettingStep → Option Setting → Setting
  | [], old => new.above old
  | .key name :: rest, old => .table (alterEntry name (put new rest) (old.getD .absent).entries)
  | .index i :: rest, old =>
    let (items, place) := stretch i (old.getD .absent).items
    .list (items.set place (put new rest items[place]?))

/-- A layer above others: its entries are put one after the other, at the places they spell. -/
def overlay (layer : List (String × Setting)) (root : Setting) : Setting :=
  layer.foldl (fun acc (name, s) => put s (SettingStep.ofName name) (some acc)) root

/-- The members of a record with the given names: the entries of a table, or the items of a list in
the order of the names. -/
def members? (names : List String) : Setting → Option (List (String × Setting))
  | .table es => some es
  | .list items => some (names.zip items)
  | _ => none

/-- A setting as text. Numbers and flags are written out. -/
def asText? : Setting → Option String
  | .flag b => some (if b then "true" else "false")
  | .integer n => some (toString n)
  | .real x => some (Layout.plain.text x)
  | .text s => some s
  | _ => none

/-- The bound of counts. -/
def countLimit : Nat := 18446744073709551616

/-- A number rounded to a count, halves upwards. What is out of range goes to the nearest count, and
not-a-number to zero. -/
def roundCount : Extended → Nat
  | .finite x =>
    if x.negative then 0
    else min ((2 * x.magnitude + unitsPerOne) / (2 * unitsPerOne)) (countLimit - 1)
  | .infinite negative => if negative then 0 else countLimit - 1
  | .nan => 0

/-- A setting as a count. Texts may say yes or no or spell the number. -/
def asCount? : Setting → Option Nat
  | .flag b => some b.toNat
  | .integer n => if 0 ≤ n then some n.toNat else none
  | .real x => some (roundCount x)
  | .text s =>
    let word := s.toLower
    if word = "true" ∨ word = "on" ∨ word = "yes" then some 1
    else if word = "false" ∨ word = "off" ∨ word = "no" then some 0
    else match Numeral.scanSign s.toList with
      | (some '-', _) => none
      | (_, digits) => (Json.index? digits).filter (· < countLimit)
  | _ => none

end Setting

/-! ## Environment variables -/

/-- The variables of a process with their texts. -/
abbrev Environment := List (String × String)

namespace Environment

/-- The variables of a block of bytes, which holds an entry `name=value` for each and a zero byte
after every entry. Entries that are no text are left out. -/
def ofBlock (block : ByteArray) : Environment :=
  (block.toList.splitBy fun a b => a != 0 && b != 0).filterMap fun entry => do
    let text := (← String.fromUTF8? ⟨entry.toArray⟩).toList
    match text.dropWhile (· != '=') with
    | _ :: value => some (String.ofList (text.takeWhile (· != '=')), String.ofList value)
    | [] => none

/-- What the names of settings begin with. -/
def marker : List Char := "jsonlogic_".toList

/-- A name with points for pairs of underscores. -/
def separate : List Char → List Char
  | '_' :: '_' :: rest => '.' :: separate rest
  | c :: rest => c :: separate rest
  | [] => []

/-- The place that the name of a variable gives, if it gives one. -/
def placeName? (name : String) : Option String :=
  let small := name.toList.map Char.toLower
  if marker.isPrefixOf small then
    some (String.ofList (separate (small.drop marker.length)))
  else none

/-- The setting that the text of a variable gives: a flag, an integer, a float, or else the text. -/
def setting (text : String) : Setting :=
  let word := text.toLower
  if word = "true" then .flag true
  else if word = "false" then .flag false
  else match Setting.integer? text.toList with
    | some n => .integer n
    | none =>
      match Extended.ofText? text.toList with
      | some x => .real x
      | none => .text text

/-- The layer that an environment gives. -/
def layer (env : Environment) : List (String × Setting) :=
  env.filterMap fun (name, text) => (placeName? name).map (·, setting text)

end Environment
end JsonRules
