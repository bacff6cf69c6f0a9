import JsonRules.Double.Decimal
import JsonRules.Json

/-!
# Tokens of a JSON text

A token keeps the spelling: a number its characters, a string the units between its quotes.
`Token.chars` writes one token, and `Token.scan?` cuts a text into tokens, refusing every character
that the grammar has no place for.
-/

namespace JsonRules
namespace Json

/-- What a string literal holds between its quotes: a character, or a code written as `\u` and four
hexadecimal digits. -/
inductive StringUnit where
  | char (c : Char)
  | code (n : Nat)
deriving DecidableEq, Repr

/-- A token of a JSON text. -/
inductive Token where
  | openArray
  | closeArray
  | openObject
  | closeObject
  | comma
  | colon
  | null
  | bool (b : Bool)
  | number (chars : List Char)
  | string (units : List StringUnit)
deriving DecidableEq, Repr

/-- The text of doubles: written out for exponents from -5 to 15, whole numbers with a fraction. -/
def doubleLayout : Layout := ⟨fun e => -5 ≤ e && e ≤ 15, true, .toEven⟩

end Json

namespace Number

/-- The text of a number. -/
def chars : Number → List Char
  | .int n => (if n < 0 then ['-'] else []) ++ Nat.toDigits 10 n.natAbs
  | .double x => Json.doubleLayout.chars x

/-- The grammar of JSON numbers: a minus at most, no zero in front of other digits, and no part that
is begun without a digit. -/
def inGrammar (n : Numeral) : Bool :=
  n.sign != some '+' && n.exponentComplete && n.fraction.all (!·.isEmpty) &&
    match n.whole with
    | [] => false
    | c :: rest => c != '0' || rest.isEmpty

/-- The number that a text in the grammar spells: an integer when there is neither fraction nor
exponent and it is in range, otherwise the nearest double. The integer `-0` is the double, and what
rounds to an infinity is no number. -/
def ofChars? (text : List Char) : Option Number := do
  let n ← (Numeral.scan? text).filter inGrammar
  let i : Int := if n.negative then -n.decimal.digits else n.decimal.digits
  if n.fraction.isNone && n.exponent.isNone && !(n.negative && i == 0) &&
      decide (Number.int i).InRange then
    some (.int i)
  else match n.value with
    | .finite x => some (.double x)
    | _ => none

end Number

namespace Json
namespace StringUnit

/-- The unit that a character is written as: a code for control characters that have no escape of their
own. -/
def ofChar (c : Char) : StringUnit :=
  if c < ' ' ∧ c ∉ ['\x08', '\x0c', '\n', '\r', '\t'] then .code c.toNat else .char c

/-- The character that a code of sixteen bits is on its own; halves of a pair are none. -/
def single? (n : Nat) : Option Char :=
  if 0xD800 ≤ n ∧ n < 0xE000 then none else some (Char.ofNat n)

/-- The character that two codes make: the upper half of a pair and then the lower. -/
def pair? (high low : Nat) : Option Char :=
  if (0xD800 ≤ high ∧ high < 0xDC00) ∧ 0xDC00 ≤ low ∧ low < 0xE000 then
    some (Char.ofNat (0x10000 + (high - 0xD800) * 0x400 + (low - 0xDC00)))
  else none

/-- The text of a string literal. A half of a pair without its partner spells nothing. -/
def decode? : List StringUnit → Option (List Char)
  | [] => some []
  | .char c :: rest => (decode? rest).map (c :: ·)
  | .code high :: .code low :: rest =>
    match pair? high low, single? high with
    | some c, _ => (decode? rest).map (c :: ·)
    | none, some c => (decode? (.code low :: rest)).map (c :: ·)
    | none, none => none
  | .code n :: rest => (single? n).bind fun c => (decode? rest).map (c :: ·)

/-- The four hexadecimal digits of a code. -/
def hex4 (n : Nat) : List Char :=
  [n / 4096 % 16, n / 256 % 16, n / 16 % 16, n % 16].map Nat.digitChar

/-- The spelling of a unit. Quotes, backslashes and control characters are escaped. -/
def chars : StringUnit → List Char
  | .code n => '\\' :: 'u' :: hex4 n
  | .char '"' => ['\\', '"']
  | .char '\\' => ['\\', '\\']
  | .char '\x08' => ['\\', 'b']
  | .char '\x0c' => ['\\', 'f']
  | .char '\n' => ['\\', 'n']
  | .char '\r' => ['\\', 'r']
  | .char '\t' => ['\\', 't']
  | .char c => if c < ' ' then '\\' :: 'u' :: hex4 c.toNat else [c]

end StringUnit

namespace Token

def ofString (s : String) : Token := .string (s.toList.map .ofChar)

/-- The spelling of a token. -/
def chars : Token → List Char
  | .openArray => ['[']
  | .closeArray => [']']
  | .openObject => ['\x7b']
  | .closeObject => ['\x7d']
  | .comma => [',']
  | .colon => [':']
  | .null => ['n', 'u', 'l', 'l']
  | .bool true => ['t', 'r', 'u', 'e']
  | .bool false => ['f', 'a', 'l', 's', 'e']
  | .number cs => cs
  | .string units => '"' :: units.flatMap StringUnit.chars ++ ['"']

/-- Where in a token the scanner is. What has been read is kept in reverse. -/
inductive Mode where
  | between
  | word (read : List Char)
  | number (read : List Char)
  | string (read : List StringUnit)
  | escape (read : List StringUnit)
  | code (read : List StringUnit) (digits value : Nat)

/-- The scanner: its place and the tokens so far, in reverse. -/
structure Scanner where
  mode : Mode
  tokens : List Token

/-- The character after a backslash, where it stands for itself or for a control character. -/
def escaped? : Char → Option Char
  | '"' => some '"'
  | '\\' => some '\\'
  | '/' => some '/'
  | 'b' => some '\x08'
  | 'f' => some '\x0c'
  | 'n' => some '\n'
  | 'r' => some '\r'
  | 't' => some '\t'
  | _ => none

def hexDigit? (c : Char) : Option Nat :=
  if c.isDigit then some (c.toNat - '0'.toNat)
  else if 'a' ≤ c ∧ c ≤ 'f' then some (c.toNat - 'a'.toNat + 10)
  else if 'A' ≤ c ∧ c ≤ 'F' then some (c.toNat - 'A'.toNat + 10)
  else none

/-- The number that hexadecimal digits spell. -/
def hexValue? (digits : List Char) : Option Nat :=
  digits.foldlM (fun n c => (hexDigit? c).map (16 * n + ·)) 0

def ofWord? : List Char → Option Token
  | ['n', 'u', 'l', 'l'] => some .null
  | ['t', 'r', 'u', 'e'] => some (.bool true)
  | ['f', 'a', 'l', 's', 'e'] => some (.bool false)
  | _ => none

/-- A number token, if the characters are in the grammar of numbers. -/
def ofNumber? (chars : List Char) : Option Token :=
  if (Numeral.scan? chars).any Number.inGrammar then some (.number chars) else none

/-- Begins a token at a character that belongs to none before it. -/
def begin? (tokens : List Token) (c : Char) : Option Scanner :=
  if c = ' ' ∨ c = '\t' ∨ c = '\n' ∨ c = '\r' then some ⟨.between, tokens⟩
  else if c = '[' then some ⟨.between, .openArray :: tokens⟩
  else if c = ']' then some ⟨.between, .closeArray :: tokens⟩
  else if c = '\x7b' then some ⟨.between, .openObject :: tokens⟩
  else if c = '\x7d' then some ⟨.between, .closeObject :: tokens⟩
  else if c = ',' then some ⟨.between, .comma :: tokens⟩
  else if c = ':' then some ⟨.between, .colon :: tokens⟩
  else if c = '"' then some ⟨.string [], tokens⟩
  else if c = '-' ∨ c.isDigit then some ⟨.number [c], tokens⟩
  else if c.isLower then some ⟨.word [c], tokens⟩
  else none

def inNumber (c : Char) : Bool :=
  c.isDigit || c == '-' || c == '+' || c == '.' || c == 'e' || c == 'E'

/-- Reads one character. -/
def step? (s : Scanner) (c : Char) : Option Scanner :=
  match s.mode with
  | .between => begin? s.tokens c
  | .word read =>
    if c.isLower then some { s with mode := .word (c :: read) }
    else (ofWord? read.reverse).bind fun t => begin? (t :: s.tokens) c
  | .number read =>
    if inNumber c then some { s with mode := .number (c :: read) }
    else (ofNumber? read.reverse).bind fun t => begin? (t :: s.tokens) c
  | .string read =>
    if c = '"' then some ⟨.between, .string read.reverse :: s.tokens⟩
    else if c = '\\' then some { s with mode := .escape read }
    else if c < ' ' then none
    else some { s with mode := .string (.char c :: read) }
  | .escape read =>
    if c = 'u' then some { s with mode := .code read 0 0 }
    else (escaped? c).map fun e => { s with mode := .string (.char e :: read) }
  | .code read digits value =>
    (hexDigit? c).map fun d =>
      if digits = 3 then { s with mode := .string (.code (16 * value + d) :: read) }
      else { s with mode := .code read (digits + 1) (16 * value + d) }

/-- The tokens at the end of the text, unless a string is still open. -/
def finish? (s : Scanner) : Option (List Token) :=
  match s.mode with
  | .between => some s.tokens.reverse
  | .word read => (ofWord? read.reverse).map fun t => (t :: s.tokens).reverse
  | .number read => (ofNumber? read.reverse).map fun t => (t :: s.tokens).reverse
  | _ => none

/-- The tokens of a text. -/
def scan? (text : List Char) : Option (List Token) :=
  (text.foldlM step? ⟨.between, []⟩).bind finish?

end Token
end Json
end JsonRules
