import JsonRules.Double.Decimal
import JsonRules.Double.Interchange
import JsonRules.Json.Token
import JsonRules.Settings.Tree
import JsonRules.Text

/-!
# Names, numbers and texts in RON

Names stand before round brackets and before the values of fields. A name of letters, digits and
underscores may stand alone; after `r#` it may also hold points and signs. Attributes at the top of a
file name the extensions that it uses.

An integer has a sign, a base, digits with underscores between them and a suffix, which gives its range;
all but the digits may be missing. A float has a sign, a decimal without underscores and a suffix. A
decimal integer that is out of range and has no suffix is read as a float.

A text stands in quotes with escapes, or is raw and ends at a quote with as many `#` after it as stand
before it. Escapes may give single bytes, so a text is read as bytes, which must then be UTF-8. After
a `b` the bytes themselves are meant.
-/

namespace JsonRules

/-! ## Names -/

namespace Ron

/-- The characters with the property `Pattern_White_Space`. -/
def isWhite (c : Char) : Bool :=
  ('\t' ≤ c && c ≤ '\r') || c == ' ' || c == '\x85' || c == '\u200e' || c == '\u200f' ||
    c == '\u2028' || c == '\u2029'

/-- Comments nest. -/
def gap : Gap := ⟨isWhite, (· == '\n'), true⟩

/-- The characters of names. -/
def inName (c : Char) : Bool := c.isAlphanum || c == '_' || isForeignLetter c

/-- The characters of names after `r#`. -/
def inRawName (c : Char) : Bool := inName c || c == '.' || c == '+' || c == '-'

/-- A name and the text after it and its gap. A name that only goes on after `r#` is none. -/
def name? : List Char → Option (String × List Char)
  | 'r' :: '#' :: s => do
    let name := s.takeWhile inRawName
    if name.isEmpty then none
    else return (String.ofList name, ← gap.skip? .blanks (s.drop name.length))
  | s => do
    let name := s.takeWhile inName
    if name.head?.all Char.isDigit ∨ inRawName ((s.drop name.length).headD ' ') then none
    else return (String.ofList name, ← gap.skip? .blanks (s.drop name.length))

/-- What may be left out of the text of a value. -/
inductive Extension where
  | unwrapNewtypes
  | implicitSome
  | unwrapVariantNewtypes
  | explicitStructNames
deriving DecidableEq, Repr

namespace Extension

def ofName? : String → Option Extension
  | "unwrap_newtypes" => some .unwrapNewtypes
  | "implicit_some" => some .implicitSome
  | "unwrap_variant_newtypes" => some .unwrapVariantNewtypes
  | "explicit_struct_names" => some .explicitStructNames
  | _ => none

/-- The text after words, each with its gap. -/
def skipWords? : (words : List String) → List Char → Option (List Char)
  | [], s => some s
  | word :: words, s =>
    if word.toList.isPrefixOf s then do skipWords? words (← gap.skip? .blanks (s.drop word.length))
    else none

/-- The names of an attribute, each but the last before a comma, and the text after them. -/
def names? : (fuel : Nat) → List Char → Option (List Extension × List Char)
  | 0, _ => none
  | fuel + 1, s => do
    let (name, rest) ← name? s
    let extension ← ofName? name
    match rest with
    | ',' :: rest =>
      let rest ← gap.skip? .blanks rest
      if rest.head?.any inName then
        let (others, rest) ← names? fuel rest
        return (extension :: others, rest)
      else return ([extension], rest)
    | rest => return ([extension], rest)

/-- The extensions of attributes `#![enable(…)]`, and the text after them. -/
def attributes? : (fuel : Nat) → List Char → Option (List Extension × List Char)
  | fuel + 1, '#' :: s => do
    let s ← skipWords? ["#", "!", "[", "enable", "("] ('#' :: s)
    let (extensions, s) ← names? s.length s
    let (others, s) ← attributes? fuel (← skipWords? [")", "]"] s)
    return (extensions ++ others, s)
  | _, s => some ([], s)

end Extension
/-! ## Numbers -/

/-! ### Integers -/

/-- The base of an integer and the text after its mark. -/
def base : List Char → Nat × List Char
  | '0' :: 'b' :: rest => (2, rest)
  | '0' :: 'o' :: rest => (8, rest)
  | '0' :: 'x' :: rest => (16, rest)
  | rest => (10, rest)

/-- The characters between which an integer ends. Digits of a larger base than its own are wrong. -/
def inDigits (c : Char) : Bool := (Json.Token.hexDigit? c).isSome || c == '_'

/-- The number that digits of a base spell. No underscore may come first. -/
def digits? (base : Nat) (s : List Char) : Option Nat :=
  if s.head?.all (· == '_') then none
  else (s.filter (· != '_')).foldlM
    (fun n c => ((Json.Token.hexDigit? c).filter (· < base)).map (base * n + ·)) 0

/-- The number of bits that a suffix ends with. -/
def width? : List Char → Option Nat
  | ['8'] => some 8
  | ['1', '6'] => some 16
  | ['3', '2'] => some 32
  | ['6', '4'] => some 64
  | _ => none

/-- The integers that a suffix allows, from the first to before the second. Without a suffix they are
those of 64 bits, with or without a sign. -/
def range? : (suffix : List Char) → Option (Int × Int)
  | [] => some (-Nat.pow 2 63, Nat.pow 2 64)
  | 'u' :: bits => (width? bits).map fun w => (0, Nat.pow 2 w)
  | 'i' :: bits => (width? bits).map fun w => (-Nat.pow 2 (w - 1), Nat.pow 2 (w - 1))
  | _ => none

def integer? (s : List Char) : Option Int := do
  let (sign, s) := Numeral.scanSign s
  let (base, s) := base s
  let n ← digits? base (s.takeWhile inDigits)
  let (low, high) ← range? (s.dropWhile inDigits)
  let i : Int := if sign == some '-' then -n else n
  if low ≤ i ∧ i < high then some i else none

/-! ### Floats -/

/-- The width of floats. -/
inductive Precision where
  | single
  | double

/-- The width that a suffix stands for. -/
def precision? : (suffix : List Char) → Option Precision
  | [] => some .double
  | ['f', '6', '4'] => some .double
  | ['f', '3', '2'] => some .single
  | _ => none

/-- A numeral rounded to a width. -/
def Precision.value (n : Numeral) : Precision → Extended
  | .double => n.value
  | .single => .ofSingle n.negative n.decimal

/-- The characters of decimals. -/
def inDecimal (c : Char) : Bool := c.isDigit || ['e', 'E', '.', '+', '-'].contains c

/-- A float that is a word and no decimal. -/
def wordFloat? : List Char → Option Extended
  | 'i' :: 'n' :: 'f' :: suffix => (precision? suffix).map fun _ => .infinite false
  | 'N' :: 'a' :: 'N' :: suffix => (precision? suffix).map fun _ => .nan
  | _ => none

def float? (s : List Char) : Option Extended := do
  let (sign, digits) := Numeral.scanSign s
  match wordFloat? digits with
  | some (.infinite _) => return .infinite (sign == some '-')
  | some x => return x
  | none =>
    let n ← Numeral.complete? (s.takeWhile inDecimal)
    return (← precision? (s.dropWhile inDecimal)).value n

/-- A number of either kind. -/
def number? (s : List Char) : Option Setting :=
  (integer? s).map .integer <|> (float? s).map .real

/-- The characters of numbers. -/
def inNumber (c : Char) : Bool := c.isAlphanum || c == '_' || c == '.' || c == '+' || c == '-'

/-! ## Texts -/

/-- What an escape stands for. -/
inductive Escape where
  | byte (b : UInt8)
  | char (c : Char)

/-- The escape from after its backslash, and the text after it. -/
def escape? : List Char → Option (Escape × List Char)
  | '\\' :: rest => some (.byte 92, rest)
  | '"' :: rest => some (.byte 34, rest)
  | '\'' :: rest => some (.byte 39, rest)
  | 'n' :: rest => some (.byte 10, rest)
  | 'r' :: rest => some (.byte 13, rest)
  | 't' :: rest => some (.byte 9, rest)
  | '0' :: rest => some (.byte 0, rest)
  | 'x' :: a :: b :: rest => (Json.Token.hexValue? [a, b]).map (.byte ·.toUInt8, rest)
  | 'u' :: '\x7b' :: rest => do
    let digits := rest.takeWhile (· != '\x7d')
    let n ← Json.Token.hexValue? digits
    if digits.isEmpty ∨ 6 < digits.length ∨ ¬ n.isValidChar then none
    else some (.char (Char.ofNat n), rest.drop (digits.length + 1))
  | _ => none

/-- The bytes from after a quote, and what comes after the next one. -/
def bytes? : (fuel : Nat) → (read : List UInt8) → List Char → Option (List UInt8 × List Char)
  | 0, _, _ => none
  | _, _, [] => none
  | _, read, '"' :: rest => some (read.reverse, rest)
  | fuel + 1, read, '\\' :: rest => do
    match ← escape? rest with
    | (.byte b, rest) => bytes? fuel (b :: read) rest
    | (.char c, rest) => bytes? fuel ((String.utf8EncodeChar c).reverse ++ read) rest
  | fuel + 1, read, c :: rest => bytes? fuel ((String.utf8EncodeChar c).reverse ++ read) rest

/-- The characters of what is raw, up to a quote and the given marks. -/
def rawUntil? (marks : List Char) : (read : List Char) → List Char → Option (List Char × List Char)
  | read, '"' :: rest =>
    if marks.isPrefixOf rest then some (read.reverse, rest.drop marks.length)
    else rawUntil? marks ('"' :: read) rest
  | read, c :: rest => rawUntil? marks (c :: read) rest
  | _, [] => none

/-- What is raw, from after its `r`. -/
def raw? (s : List Char) : Option (List Char × List Char) :=
  match s.dropWhile (· == '#') with
  | '"' :: rest => rawUntil? (s.takeWhile (· == '#')) [] rest
  | _ => none

/-- A text from after its first quote. -/
def string? (s : List Char) : Option (String × List Char) := do
  let (bytes, rest) ← bytes? (s.length + 1) [] s
  return (← String.fromUTF8? bytes.toByteArray, rest)

/-- A character in single quotes, from after the first. Of single bytes only those of ASCII are
characters. -/
def character? : List Char → Option (Char × List Char)
  | '\\' :: rest => do
    match ← escape? rest with
    | (.byte b, '\'' :: rest) => if b < 128 then some (Char.ofNat b.toNat, rest) else none
    | (.char c, '\'' :: rest) => some (c, rest)
    | _ => none
  | c :: '\'' :: rest => some (c, rest)
  | _ => none

/-- A text in any of its forms. A single character is one too. -/
def text? : List Char → Option (String × List Char)
  | '"' :: s => string? s
  | '\'' :: s => (character? s).map fun (c, rest) => (c.toString, rest)
  | 'r' :: s => (raw? s).map fun (cs, rest) => (String.ofList cs, rest)
  | _ => none

/-- Bytes in either of their forms. -/
def byteText? : List Char → Option (List UInt8 × List Char)
  | 'b' :: '"' :: s => bytes? (s.length + 1) [] s
  | 'b' :: 'r' :: s => (raw? s).map fun (cs, rest) => (cs.flatMap String.utf8EncodeChar, rest)
  | _ => none

/-- A single byte. -/
def byte? : List Char → Option (UInt8 × List Char)
  | 'b' :: '\'' :: '\\' :: s => do
    match ← escape? s with
    | (.byte b, '\'' :: rest) => some (b, rest)
    | _ => none
  | 'b' :: '\'' :: c :: '\'' :: rest =>
    if c.toNat < 128 then some (c.toNat.toUInt8, rest) else none
  | _ => none

end Ron
end JsonRules
