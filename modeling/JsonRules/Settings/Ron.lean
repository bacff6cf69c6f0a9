import JsonRules.Settings.Ron.Token

/-!
# Settings in RON

Reads records `Name(field: value)`, whose name may be missing, maps with texts as keys, lists, tuples,
options, texts, numbers and flags. Records and maps are tables, tuples are lists. Values nest only to
a bounded depth.
-/

namespace JsonRules
namespace Ron

/-- How many collections, their members and options may stand around a place. -/
def depthLimit : Nat := 128

/-- The setting that a word stands for which is no name of a record. -/
def word? (word : String) : Option Setting :=
  if word = "true" then some (.flag true)
  else if word = "false" then some (.flag false)
  else if word = "None" then some .absent
  else (wordFloat? word.toList).map .real

/-- Whether fields begin here and not items. -/
def beginsField (s : List Char) : Bool := (name? s).any (·.2.head? == some ':')

/-- The room within a place that is left for the next. -/
def inner? : (room : Nat) → Option Nat
  | 0 => none
  | room + 1 => some room

/-- A key of a map, and the text after it. Bytes must be UTF-8. -/
def key? (s : List Char) : Option (String × List Char) :=
  text? s <|> do
    let (bytes, rest) ← byteText? s
    return (← String.fromUTF8? bytes.toByteArray, rest)

/-- A value without inner ones, and the text after it. Bytes are a list of integers. -/
def leaf? (s : List Char) : Option (Setting × List Char) :=
  (text? s).map (fun (t, rest) => (.text t, rest)) <|>
    (byteText? s).map (fun (bs, rest) => (.list (bs.map (.integer ·.toNat)), rest)) <|>
    (byte? s).map (fun (b, rest) => (.integer b.toNat, rest)) <|>
    (word? (String.ofList (s.takeWhile inName))).map (·, s.dropWhile inName) <|>
    (number? (s.takeWhile inNumber)).map (·, s.dropWhile inNumber)

mutual

/-- A value and the text after it and its gap. -/
def value? (extensions : List Extension) : (fuel room : Nat) → List Char →
    Option (Setting × List Char)
  | 0, _, _ => none
  | fuel + 1, room, s => do
    let (setting, rest) ← match s with
      | '[' :: rest => do
        items? extensions fuel (← inner? room) ']' [] (← gap.skip? .blanks rest)
      | '\x7b' :: rest => do
        pairs? extensions fuel (← inner? room) [] (← gap.skip? .blanks rest)
      | '(' :: ')' :: rest => some (.absent, rest)
      | '(' :: rest => do group? extensions fuel (← inner? room) (← gap.skip? .blanks rest)
      | s =>
        if s.takeWhile inName = "Some".toList then do
          some? extensions fuel (← inner? room) (← gap.skip? .blanks (s.dropWhile inName))
        else
          match leaf? s, name? s with
          | some leaf, _ => some leaf
          | none, some (_, '(' :: rest) => do
            group? extensions fuel (← inner? room) (← gap.skip? .blanks rest)
          | none, some (_, rest) => some (.absent, rest)
          | none, none => none
    return (setting, ← gap.skip? .blanks rest)

/-- The value of an option, from after its `Some`. -/
def some? (extensions : List Extension) : (fuel room : Nat) → List Char →
    Option (Setting × List Char)
  | 0, _, _ => none
  | fuel + 1, room, '(' :: s => do
    let (setting, rest) ← value? extensions fuel room (← gap.skip? .blanks s)
    let rest ← match rest with
      | ',' :: rest => gap.skip? .blanks rest
      | rest => some rest
    match rest with
    | ')' :: rest => some (setting, rest)
    | _ => none
  | fuel + 1, room, s =>
    if extensions.contains .implicitSome then value? extensions fuel room s else none

/-- What stands in round brackets: fields or items. -/
def group? (extensions : List Extension) : (fuel room : Nat) → List Char →
    Option (Setting × List Char)
  | 0, _, _ => none
  | fuel + 1, room, s =>
    if beginsField s then fields? extensions fuel room [] s
    else items? extensions fuel room ')' [] s

/-- Items up to a closing bracket, before which a comma may stand. -/
def items? (extensions : List Extension) : (fuel room : Nat) → (close : Char) →
    (read : List Setting) → List Char → Option (Setting × List Char)
  | 0, _, _, _, _ => none
  | fuel + 1, room, close, read, s =>
    if s.head? = some close then some (.list read.reverse, s.drop 1)
    else do
      let (item, rest) ← value? extensions fuel (← inner? room) s
      match rest with
      | ',' :: rest => items? extensions fuel room close (item :: read) (← gap.skip? .blanks rest)
      | c :: rest => if c = close then some (.list (item :: read).reverse, rest) else none
      | [] => none

/-- The fields of a record. -/
def fields? (extensions : List Extension) : (fuel room : Nat) →
    (read : List (String × Setting)) → List Char → Option (Setting × List Char)
  | 0, _, _, _ => none
  | _, _, read, ')' :: rest => some (.table read, rest)
  | fuel + 1, room, read, s => do
    match ← name? s with
    | (name, ':' :: rest) => do
      let (setting, rest) ← value? extensions fuel (← inner? room) (← gap.skip? .blanks rest)
      let read := alterEntry name (fun _ => setting) read
      match rest with
      | ',' :: rest => fields? extensions fuel room read (← gap.skip? .blanks rest)
      | ')' :: rest => some (.table read, rest)
      | _ => none
    | _ => none

/-- The pairs of a map. -/
def pairs? (extensions : List Extension) : (fuel room : Nat) →
    (read : List (String × Setting)) → List Char → Option (Setting × List Char)
  | 0, _, _, _ => none
  | _, _, read, '\x7d' :: rest => some (.table read, rest)
  | fuel + 1, room, read, s => do
    let (name, rest) ← key? s
    match ← gap.skip? .blanks rest with
    | ':' :: rest => do
      let (setting, rest) ← value? extensions fuel (← inner? room) (← gap.skip? .blanks rest)
      let read := alterEntry name (fun _ => setting) read
      match rest with
      | ',' :: rest => pairs? extensions fuel room read (← gap.skip? .blanks rest)
      | '\x7d' :: rest => some (.table read, rest)
      | _ => none
    | _ => none

end

/-- The setting of a text. -/
def read? (text : String) : Option Setting := do
  let s ← gap.skip? .blanks text.toList
  let (extensions, s) ← Extension.attributes? s.length s
  match ← value? extensions (4 * text.length + 4) depthLimit s with
  | (setting, []) => some setting
  | _ => none

end Ron
end JsonRules
