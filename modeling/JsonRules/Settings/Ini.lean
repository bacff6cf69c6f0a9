import JsonRules.Json.Token
import JsonRules.Settings.Tree
import JsonRules.Text

/-!
# Settings in INI

Reads a file of properties `key = value` in sections, each after its name in square brackets. What
comes before the first section belongs to the whole. All values are texts, and of properties or
sections with one name the last one counts.
-/

namespace JsonRules
namespace Ini

/-- What an escape stands for, which is nothing at the end of a line, and the text after it. -/
def escape? : List Char → Option (List Char × List Char)
  | '0' :: rest => some (['\x00'], rest)
  | 'a' :: rest => some (['\x07'], rest)
  | 'b' :: rest => some (['\x08'], rest)
  | 't' :: rest => some (['\t'], rest)
  | 'r' :: rest => some (['\r'], rest)
  | 'n' :: rest => some (['\n'], rest)
  | '\n' :: rest => some ([], rest)
  | 'x' :: a :: b :: c :: d :: rest => do
    let c ← Json.StringUnit.single? (← Json.Token.hexValue? [a, b, c, d])
    return ([c], rest)
  | 'x' :: _ => none
  | c :: rest => some ([c], rest)
  | [] => none

/-- Reads up to a character that is an end. Without one it reads the whole text if that is allowed. -/
def upTo? (isEnd : Char → Bool) (orAll : Bool) :
    (fuel : Nat) → (read : List Char) → List Char → Option (List Char × List Char)
  | 0, _, _ => none
  | _, read, [] => if orAll then some (read.reverse, []) else none
  | fuel + 1, read, c :: rest =>
    if isEnd c then some (read.reverse, c :: rest)
    else if c = '\\' then do
      let (chars, rest) ← escape? rest
      upTo? isEnd orAll fuel (chars.reverse ++ read) rest
    else upTo? isEnd orAll fuel (c :: read) rest

/-- A text in quotes from after the first, and the text after the second. -/
def quoted? (quote : Char) (s : List Char) : Option (List Char × List Char) :=
  (upTo? (· == quote) false (s.length + 1) [] s).map fun (read, rest) => (read, rest.drop 1)

/-- The value of a property and the text after it: in quotes, or the rest of the line without blanks
at its ends. -/
def value? (s : List Char) : Option (List Char × List Char) :=
  match s.dropWhile fun c => isBlank c && c != '\n' && c != '\r' with
  | '"' :: rest => quoted? '"' rest
  | '\'' :: rest => quoted? '\'' rest
  | s => (upTo? (fun c => c == '\n' || c == '\r') true (s.length + 1) [] s).map
      fun (read, rest) => (trimBlanks read, rest)

/-- Skips blanks. The result says too whether the text then is at the beginning of a line. -/
def skipBlanks : (atLine : Bool) → List Char → Bool × List Char
  | atLine, [] => (atLine, [])
  | atLine, c :: rest => if isBlank c then skipBlanks (c == '\n') rest else (atLine, c :: rest)

/-- Sets a property of a section, or of the whole file. -/
def property (file : List (String × Setting)) (within : Option String) (key value : List Char) :
    List (String × Setting) :=
  let set := alterEntry (String.ofList key) fun _ => Setting.text (String.ofList value)
  match within with
  | none => set file
  | some name => alterEntry name (fun old => .table (set (old.getD .absent).entries)) file

/-- Reads a file from where a section, a property or a comment may begin. Comments take a whole line. -/
def file? : (fuel : Nat) → (atLine : Bool) → (within : Option String) →
    (file : List (String × Setting)) → List Char → Option (List (String × Setting))
  | 0, _, _, _, _ => none
  | fuel + 1, atLine, within, file, s =>
    match skipBlanks atLine s with
    | (_, []) => some file
    | (atLine, c :: rest) =>
      if c = ';' ∨ c = '#' then
        if atLine then file? fuel true within file ((rest.dropWhile (· != '\n')).drop 1) else none
      else if c = '[' then do
        let (name, rest) ← upTo? (· == ']') false (rest.length + 1) [] rest
        let name := String.ofList (trimBlanks name)
        file? fuel false (some name) (alterEntry name (fun _ => .table []) file) (rest.drop 1)
      else do
        let (key, rest) ← upTo? (fun c => c == '=' || c == ':') false (rest.length + 2) [] (c :: rest)
        let key := trimBlanks key
        if key.isEmpty then none
        let (value, rest) ← value? (rest.drop 1)
        file? fuel false within (property file within key value) rest

/-- The entries of a file. -/
def read? (text : String) : Option (List (String × Setting)) :=
  file? (text.length + 1) true none [] text.toList

end Ini
end JsonRules
