import JsonRules.Json.Token
import JsonRules.Settings.Tree
import JsonRules.Text

/-!
# Settings in JSON5

Reads JSON with comments, names without quotes, strings in either quotes, a comma before the end of
a list or an object, and more ways to write numbers.
-/

namespace JsonRules
namespace Json5

def isLineEnd (c : Char) : Bool := c == '\n' || c == '\r' || c == '\u2028' || c == '\u2029'

/-- Comments do not nest. -/
def gap : Gap := ⟨fun c => (isBlank c && c != '\x85') || c == '\ufeff', isLineEnd, false⟩

/-! ### Strings and names -/

/-- The units that an escape stands for, from after its backslash, and the text after it. A line end
stands for nothing. -/
def escape? : List Char → Option (List Json.StringUnit × List Char)
  | 'x' :: a :: b :: rest => do return ([.code (← Json.Token.hexValue? [a, b])], rest)
  | 'u' :: a :: b :: c :: d :: rest => do
    return ([.code (← Json.Token.hexValue? [a, b, c, d])], rest)
  | '\r' :: '\n' :: rest => some ([], rest)
  | 'b' :: rest => some ([.char '\x08'], rest)
  | 'f' :: rest => some ([.char '\x0c'], rest)
  | 'n' :: rest => some ([.char '\n'], rest)
  | 'r' :: rest => some ([.char '\r'], rest)
  | 't' :: rest => some ([.char '\t'], rest)
  | 'v' :: rest => some ([.char '\x0b'], rest)
  | '0' :: rest => some ([.char '\x00'], rest)
  | c :: rest =>
    if isLineEnd c then some ([], rest)
    else if c.isDigit ∨ c = 'x' ∨ c = 'u' then none
    else some ([.char c], rest)
  | [] => none

/-- A string from after its first quote, and the text after its last. -/
def string? (quote : Char) :
    (fuel : Nat) → (read : List Json.StringUnit) → List Char → Option (String × List Char)
  | 0, _, _ => none
  | _, _, [] => none
  | fuel + 1, read, c :: rest =>
    if c = quote then
      (Json.StringUnit.decode? read.reverse).map fun chars => (String.ofList chars, rest)
    else if c = '\\' then do
      let (units, rest) ← escape? rest
      string? quote fuel (units.reverse ++ read) rest
    else if isLineEnd c then none
    else string? quote fuel (.char c :: read) rest

/-- The characters of names. -/
def inName (c : Char) : Bool :=
  c.isAlphanum || c == '$' || c == '_' || c == '\u200c' || c == '\u200d' || isForeignLetter c

/-- The units of a name without quotes, and the text after it. Escapes give any character. -/
def bareName : (read : List Json.StringUnit) → List Char → List Json.StringUnit × List Char
  | read, '\\' :: 'u' :: a :: b :: c :: d :: rest =>
    match Json.Token.hexValue? [a, b, c, d] with
    | some n => bareName (.code n :: read) rest
    | none => (read.reverse, '\\' :: 'u' :: a :: b :: c :: d :: rest)
  | read, c :: rest =>
    if inName c then bareName (.char c :: read) rest else (read.reverse, c :: rest)
  | read, [] => (read.reverse, [])

/-- The name of a field, in quotes or not, and the text after it. -/
def name? (s : List Char) : Option (String × List Char) :=
  match s with
  | '"' :: rest => string? '"' (rest.length + 1) [] rest
  | '\'' :: rest => string? '\'' (rest.length + 1) [] rest
  | s =>
    let (units, rest) := bareName [] s
    if units.isEmpty ∨ s.head?.any Char.isDigit then none
    else (Json.StringUnit.decode? units).map fun chars => (String.ofList chars, rest)

/-! ### Numbers and words -/

/-- A decimal number: an integer if it has neither fraction nor exponent. A fraction may have no
digits, and so may what is before it, but not both. -/
def decimal? (s : List Char) : Option Setting := do
  let n ← Numeral.scan? s
  if n.fraction.isNone ∧ n.exponent.isNone then
    if Json.index? n.whole ≠ none ∧ (n.whole = ['0'] ∨ n.whole.head? ≠ some '0') then
      (Setting.integer? s).map .integer
    else none
  else if !n.exponentComplete ∨ (n.whole.isEmpty ∧ (n.fraction.getD []).isEmpty) ∨
      (n.whole ≠ ['0'] ∧ n.whole.head? = some '0') then none
  else match n.value with
    | .finite x => some (.real (.finite x))
    | _ => none

/-- An integer of 32 bits in hexadecimal digits. -/
def hex? (digits : List Char) : Option Setting := do
  let n ← Json.Token.hexValue? digits
  if digits.isEmpty ∨ 4294967296 ≤ n then none else some (.integer n)

/-- What is written without brackets and quotes. -/
def scalar? (s : List Char) : Option Setting :=
  let (sign, word) := Numeral.scanSign s
  if s = "null".toList then some .absent
  else if s = "true".toList then some (.flag true)
  else if s = "false".toList then some (.flag false)
  else if sign ≠ some '+' ∧ word = "Infinity".toList then some (.real (.infinite (sign == some '-')))
  else if sign ≠ some '+' ∧ word = "NaN".toList then some (.real .nan)
  else match s with
    | '0' :: 'x' :: digits => hex? digits
    | '0' :: 'X' :: digits => hex? digits
    | s => decimal? s

/-- The characters of numbers and words. -/
def inScalar (c : Char) : Bool := c.isAlphanum || c == '+' || c == '-' || c == '.'

/-! ### Values -/

mutual

/-- A value and the text after it and its gap. -/
def value? : (fuel : Nat) → List Char → Option (Setting × List Char)
  | 0, _ => none
  | fuel + 1, s => do
    let (setting, rest) ← match s with
      | '"' :: rest => (string? '"' (rest.length + 1) [] rest).map fun (t, rest) => (.text t, rest)
      | '\'' :: rest => (string? '\'' (rest.length + 1) [] rest).map fun (t, rest) => (.text t, rest)
      | '[' :: rest => do items? fuel [] (← gap.skip? .blanks rest)
      | '\x7b' :: rest => do fields? fuel [] (← gap.skip? .blanks rest)
      | s => do return (← scalar? (s.takeWhile inScalar), s.dropWhile inScalar)
    return (setting, ← gap.skip? .blanks rest)

/-- The items of a list and the text after it. A comma may stand before the end. -/
def items? : (fuel : Nat) → (read : List Setting) → List Char → Option (Setting × List Char)
  | 0, _, _ => none
  | fuel + 1, read, s =>
    match s with
    | ']' :: rest => some (.list read.reverse, rest)
    | s => do
      match ← value? fuel s with
      | (item, ',' :: rest) => items? fuel (item :: read) (← gap.skip? .blanks rest)
      | (item, ']' :: rest) => some (.list (item :: read).reverse, rest)
      | _ => none

/-- The fields of an object and the text after it. Of fields with one name the last one counts. -/
def fields? : (fuel : Nat) → (read : List (String × Setting)) → List Char →
    Option (Setting × List Char)
  | 0, _, _ => none
  | fuel + 1, read, s =>
    match s with
    | '\x7d' :: rest => some (.table read, rest)
    | s => do
      let (name, rest) ← name? s
      match ← gap.skip? .blanks rest with
      | ':' :: rest => do
        let (setting, rest) ← value? fuel (← gap.skip? .blanks rest)
        let read := alterEntry name (fun _ => setting) read
        match rest with
        | ',' :: rest => fields? fuel read (← gap.skip? .blanks rest)
        | '\x7d' :: rest => some (.table read, rest)
        | _ => none
      | _ => none

end

/-- The setting of a text. -/
def read? (text : String) : Option Setting := do
  match ← value? (2 * text.length + 2) (← gap.skip? .blanks text.toList) with
  | (setting, []) => some setting
  | _ => none

end Json5
end JsonRules
