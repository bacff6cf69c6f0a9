import JsonRules.Settings.Toml.Scalar
import JsonRules.Settings.Toml.Text
import JsonRules.Settings.Tree

/-!
# Settings in TOML

Reads a configuration file: comments, tables and lists of tables, dotted keys, inline tables, lists,
the four kinds of strings, integers, floats, booleans, dates and times. `Toml.read?` fails on a text
that is not in the grammar, on one that defines a key or a table twice, and on one that nests too
deep.

What has been defined while a file is read is kept as tables, each of which remembers how it came about,
since that settles what may still be added to it: `define` refuses a key that is there, `openTable` a
second header.
-/

namespace JsonRules

/-! ## Tables -/

namespace Toml

/-- How a table came about, which settles what may still be added to it. -/
inductive Origin where
  /-- It is the parent of a table with a header. -/
  | parent
  /-- It has a header of its own. -/
  | header
  /-- It is named within a dotted key. -/
  | dotted
deriving DecidableEq

/-- What stands under a key while a file is read. -/
inductive Item where
  | value (s : Setting)
  | table (origin : Origin) (entries : List (String × Item))
  /-- A list of tables, the last one first. -/
  | tables (last : List (String × Item)) (others : List (List (String × Item)))

abbrev Entries := List (String × Item)

/-- Sets the entry of a key. -/
def setEntry (name : String) (item : Item) (entries : Entries) : Entries :=
  alterEntry name (fun _ => item) entries

/-- Defines a key within a table. Its parts extend tables that have no header, and go on in the last
table of a list, where the key itself must be in a table of its own. -/
def define (s : Setting) : List String → Entries → Option Entries
  | [], _ => none
  | [name], es => if (es.lookup name).isSome then none else some (setEntry name (.value s) es)
  | name :: rest, es => do
    let item ← match es.lookup name with
      | none => (define s rest []).map (.table .dotted)
      | some (.table .header _) => none
      | some (.table origin inner) => (define s rest inner).map (.table origin)
      | some (.tables last others) =>
        if rest.length = 1 then none else (define s rest last).map (.tables · others)
      | some (.value _) => none
    return setEntry name item es

/-- Opens the table of a header. A table has one header at most. -/
def openTable : List String → Entries → Option Entries
  | [], _ => none
  | [name], es =>
    match es.lookup name with
    | none => some (setEntry name (.table .header []) es)
    | some (.table .parent inner) => some (setEntry name (.table .header inner) es)
    | some _ => none
  | name :: rest, es => do
    let item ← match es.lookup name with
      | none => (openTable rest []).map (.table .parent)
      | some (.table origin inner) => (openTable rest inner).map (.table origin)
      | some (.tables last others) => (openTable rest last).map (.tables · others)
      | some (.value _) => none
    return setEntry name item es

/-- Opens a further table of a list of tables. -/
def openNext : List String → Entries → Option Entries
  | [], _ => none
  | [name], es =>
    match es.lookup name with
    | none => some (setEntry name (.tables [] []) es)
    | some (.tables last others) => some (setEntry name (.tables [] (last :: others)) es)
    | some _ => none
  | name :: rest, es => do
    let item ← match es.lookup name with
      | none => (openNext rest []).map (.table .parent)
      | some (.table origin inner) => (openNext rest inner).map (.table origin)
      | some (.tables last others) => (openNext rest last).map (.tables · others)
      | some (.value _) => none
    return setEntry name item es

/-- Changes the table that is open, at the given path. -/
def within (f : Entries → Option Entries) : List String → Entries → Option Entries
  | [], es => f es
  | name :: rest, es => do
    let item ← match es.lookup name with
      | some (.table origin inner) => (within f rest inner).map (.table origin)
      | some (.tables last others) => (within f rest last).map (.tables · others)
      | _ => none
    return setEntry name item es

mutual

def settingOf : Item → Setting
  | .value s => s
  | .table _ es => .table (settingsOf es)
  | .tables last others => .list (tablesOf others [.table (settingsOf last)])

def settingsOf : Entries → List (String × Setting)
  | [] => []
  | (name, item) :: rest => (name, settingOf item) :: settingsOf rest

/-- The tables of a list in order, before those in `after`. -/
def tablesOf : List Entries → List Setting → List Setting
  | [], after => after
  | es :: rest, after => tablesOf rest (.table (settingsOf es) :: after)

end

/-! ## The reader -/

mutual

/-- A value and the text after it. Within it lists and inline tables may nest `room` deep. -/
def value? : (fuel room : Nat) → List Char → Option (Setting × List Char)
  | 0, _, _ => none
  | fuel + 1, room, s =>
    match s, room with
    | '"' :: _, _ => (string? s).map fun (text, rest) => (.text text, rest)
    | '\'' :: _, _ => (string? s).map fun (text, rest) => (.text text, rest)
    | '[' :: _, 0 => none
    | '\x7b' :: _, 0 => none
    | '[' :: rest, room + 1 => do items? fuel room [] (← skipGap false rest)
    | '\x7b' :: rest, room + 1 => do fields? fuel room [] (← skipGap false rest)
    | s, _ => do
      let (scalar, rest) := scalarChars s
      return (← scalarValue? scalar, rest)

/-- The items of a list and the text after it. A comma may stand before the end. -/
def items? : (fuel room : Nat) → (read : List Setting) → List Char → Option (Setting × List Char)
  | 0, _, _, _ => none
  | fuel + 1, room, read, s =>
    match s with
    | ']' :: rest => some (.list read.reverse, rest)
    | s => do
      let (item, rest) ← value? fuel room s
      match ← skipGap false rest with
      | ',' :: rest => items? fuel room (item :: read) (← skipGap false rest)
      | ']' :: rest => some (.list (item :: read).reverse, rest)
      | _ => none

/-- The fields of an inline table and the text after it. A comma may stand before the end. -/
def fields? : (fuel room : Nat) → (read : Entries) → List Char → Option (Setting × List Char)
  | 0, _, _, _ => none
  | fuel + 1, room, read, s =>
    match s with
    | '\x7d' :: rest => some (.table (settingsOf read), rest)
    | s => do
      let (key, rest) ← key? s
      match ← skipGap false rest with
      | '=' :: rest => do
        let (setting, rest) ← value? fuel room (← skipGap false rest)
        let read ← define setting key read
        match ← skipGap false rest with
        | ',' :: rest => fields? fuel room read (← skipGap false rest)
        | '\x7d' :: rest => some (.table (settingsOf read), rest)
        | _ => none
      | _ => none

end

/-- Reads statements one after the other. `current` is the path of the table that is open. -/
def statements? : (fuel : Nat) → (current : List String) → Entries → List Char → Option Entries
  | 0, _, _, _ => none
  | fuel + 1, current, es, s => do
    match ← skipGap false s with
    | [] => some es
    | '[' :: '[' :: rest =>
      match ← key? (skipSpaces rest) with
      | (path, ']' :: ']' :: rest) =>
        statements? fuel path (← openNext path es) (← skipLineEnd? rest)
      | _ => none
    | '[' :: rest =>
      match ← key? (skipSpaces rest) with
      | (path, ']' :: rest) =>
        statements? fuel path (← openTable path es) (← skipLineEnd? rest)
      | _ => none
    | s =>
      match ← key? s with
      | (key, '=' :: rest) => do
        let (setting, rest) ← value? (rest.length + 1) depthLimit (skipSpaces rest)
        statements? fuel current (← within (define setting key) current es) (← skipLineEnd? rest)
      | _ => none

/-- The entries of a file. A byte order mark at its beginning is passed over. -/
def read? (text : String) : Option (List (String × Setting)) :=
  let s := match text.toList with
    | '\ufeff' :: rest => rest
    | s => s
  (statements? (s.length + 1) [] [] s).map settingsOf

end Toml
end JsonRules
