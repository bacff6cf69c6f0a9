import JsonRules.Json.Token
import JsonRules.Settings.Tree

/-!
# Texts and keys of TOML

Readers of what stands at the beginning of a text: gaps, ends of lines, the four kinds of strings and
keys. Each gives what it has read and the text after it.
-/

namespace JsonRules
namespace Toml

/-! ### Blanks and comments -/

/-- Whether a character may stand in comments and strings of one line. -/
def isPlain (c : Char) : Bool := c == '\t' || ' ' ≤ c && c != '\x7f'

def skipSpaces (s : List Char) : List Char := s.dropWhile SettingStep.isSpace

/-- Skips spaces, line ends and comments. A comment must be plain. -/
def skipGap : (inComment : Bool) → List Char → Option (List Char)
  | _, [] => some []
  | _, '\n' :: rest => skipGap false rest
  | _, '\r' :: '\n' :: rest => skipGap false rest
  | true, c :: rest => if isPlain c then skipGap true rest else none
  | false, '#' :: rest => skipGap true rest
  | false, c :: rest => if SettingStep.isSpace c then skipGap false rest else some (c :: rest)

/-- Skips the end of a line, which may hold a comment. -/
def skipLineEnd? (s : List Char) : Option (List Char) :=
  match skipSpaces s with
  | '#' :: rest =>
    match rest.dropWhile isPlain with
    | [] => some []
    | '\n' :: after => some after
    | '\r' :: '\n' :: after => some after
    | _ => none
  | [] => some []
  | '\n' :: after => some after
  | '\r' :: '\n' :: after => some after
  | _ => none

/-! ### Strings -/

/-- The character that an escape of hexadecimal digits stands for. -/
def scalar? (digits : List Char) : Option Char := do
  let n ← Json.Token.hexValue? digits
  if n < 0xD800 ∨ 0xE000 ≤ n ∧ n < 0x110000 then some (Char.ofNat n) else none

/-- The character that so many hexadecimal digits stand for, and the rest of the text. -/
def coded? (digits : Nat) (s : List Char) : Option (Char × List Char) :=
  if s.length < digits then none else (scalar? (s.take digits)).map (·, s.drop digits)

/-- The character after a backslash and the rest of the text. -/
def escape? : List Char → Option (Char × List Char)
  | 'b' :: rest => some ('\x08', rest)
  | 't' :: rest => some ('\t', rest)
  | 'n' :: rest => some ('\n', rest)
  | 'f' :: rest => some ('\x0c', rest)
  | 'r' :: rest => some ('\r', rest)
  | 'e' :: rest => some ('\x1b', rest)
  | '"' :: rest => some ('"', rest)
  | '\\' :: rest => some ('\\', rest)
  | 'x' :: rest => coded? 2 rest
  | 'u' :: rest => coded? 4 rest
  | 'U' :: rest => coded? 8 rest
  | _ => none

/-- A string in double quotes, from after the first. -/
def basic? : (fuel : Nat) → (read : List Char) → List Char → Option (String × List Char)
  | 0, _, _ => none
  | _, _, [] => none
  | _, read, '"' :: rest => some (String.ofList read.reverse, rest)
  | fuel + 1, read, '\\' :: rest => do
    let (c, after) ← escape? rest
    basic? fuel (c :: read) after
  | fuel + 1, read, c :: rest => if isPlain c then basic? fuel (c :: read) rest else none

/-- A string in single quotes, from after the first. It has no escapes. -/
def literal? (s : List Char) : Option (String × List Char) :=
  let read := s.takeWhile fun c => isPlain c && c != '\''
  match s.dropWhile fun c => isPlain c && c != '\'' with
  | '\'' :: rest => some (String.ofList read, rest)
  | _ => none

/-- A line end directly after the quotes that open a string of several lines is no part of it. -/
def skipFirstLineEnd : List Char → List Char
  | '\n' :: rest => rest
  | '\r' :: '\n' :: rest => rest
  | rest => rest

/-- Skips spaces and line ends. -/
def skipBlankLines : List Char → List Char
  | '\n' :: rest => skipBlankLines rest
  | '\r' :: '\n' :: rest => skipBlankLines rest
  | c :: rest => if SettingStep.isSpace c then skipBlankLines rest else c :: rest
  | [] => []

/-- A string of several lines from after its opening quotes. Up to two quotes may stand directly
before the three that close it. Between double quotes there are escapes, and a backslash at the end
of a line joins it to the next text. -/
def multiline? (quote : Char) :
    (fuel : Nat) → (read : List Char) → List Char → Option (String × List Char)
  | 0, _, _ => none
  | _, _, [] => none
  | fuel + 1, read, c :: rest =>
    if c = quote then
      let quotes := 1 + (rest.takeWhile (· == quote)).length
      let after := rest.dropWhile (· == quote)
      if quotes < 3 then multiline? quote fuel (List.replicate quotes quote ++ read) after
      else if quotes ≤ 5 then
        some (String.ofList (List.replicate (quotes - 3) quote ++ read).reverse, after)
      else none
    else if c = '\\' ∧ quote = '"' then
      match skipSpaces rest with
      | '\n' :: after => multiline? quote fuel read (skipBlankLines after)
      | '\r' :: '\n' :: after => multiline? quote fuel read (skipBlankLines after)
      | _ => do
        let (e, after) ← escape? rest
        multiline? quote fuel (e :: read) after
    else if c = '\r' then
      match rest with
      | '\n' :: after => multiline? quote fuel ('\n' :: '\r' :: read) after
      | _ => none
    else if isPlain c ∨ c = '\n' then multiline? quote fuel (c :: read) rest
    else none

/-- A string in any quotes. -/
def string? (s : List Char) : Option (String × List Char) :=
  match s with
  | '"' :: '"' :: '"' :: rest =>
    multiline? '"' (rest.length + 1) [] (skipFirstLineEnd rest)
  | '\'' :: '\'' :: '\'' :: rest =>
    multiline? '\'' (rest.length + 1) [] (skipFirstLineEnd rest)
  | '"' :: rest => basic? (rest.length + 1) [] rest
  | '\'' :: rest => literal? rest
  | _ => none

/-! ### Keys -/

/-- A key of one part, bare or in quotes on one line. -/
def simpleKey? (s : List Char) : Option (String × List Char) :=
  match s with
  | '"' :: rest => basic? (rest.length + 1) [] rest
  | '\'' :: rest => literal? rest
  | s =>
    let key := s.takeWhile SettingStep.inKey
    if key.isEmpty then none else some (String.ofList key, s.dropWhile SettingStep.inKey)

/-- A key of parts with points between, so many at most, and the text after it and its spaces. -/
def keyOf? : (parts : Nat) → List Char → Option (List String × List Char)
  | 0, _ => none
  | parts + 1, s => do
    let (part, rest) ← simpleKey? s
    match skipSpaces rest with
    | '.' :: after => do
      let (others, rest) ← keyOf? parts (skipSpaces after)
      return (part :: others, rest)
    | rest => return ([part], rest)

/-- How many parts a key has, and how deep lists and inline tables nest, at most. -/
def depthLimit : Nat := 80

/-- A key and the text after it and its spaces. -/
def key? (s : List Char) : Option (List String × List Char) := keyOf? depthLimit s

end Toml
end JsonRules
