import JsonRules.Json.Token

/-!
# JSON documents

A `Document` is a JSON text as it is written: numbers and strings keep their spelling and objects
keep repeated names. `Document.read?` accepts exactly the grammar, at any depth. `Document.value?`
is what the document says, if all that it spells exists and it nests no deeper than a bound.

`Json.document` is the document that a value is written as, `Json.tokens` are its tokens, and
`Json.text` is their spelling without any space between. `Json.indented` gives every item and every
field a line of its own, two spaces deeper than its container.
-/

namespace JsonRules

/-! ## Reading -/

namespace Json

/-- A JSON text as it is written. -/
inductive Document where
  | null
  | bool (b : Bool)
  | number (chars : List Char)
  | string (units : List StringUnit)
  | array (items : List Document)
  | object (fields : List (List StringUnit × Document))
deriving Repr, Inhabited

namespace Document

/-- An array or object that is still open, with what it holds in reverse; an object also has the
name whose value comes next. -/
inductive Frame where
  | array (items : List Document)
  | object (fields : List (List StringUnit × Document)) (name : List StringUnit)

/-- What may come next in a text. The frames that are open stand innermost first. -/
inductive Expected where
  /-- A value. -/
  | value (frames : List Frame)
  /-- A value, or the end of an array that has none yet. -/
  | firstItem (frames : List Frame)
  /-- A comma after an item, or the end of the array. -/
  | nextItem (items : List Document) (frames : List Frame)
  /-- A name, or the end of an object that has none yet. -/
  | firstName (frames : List Frame)
  /-- A name. -/
  | name (fields : List (List StringUnit × Document)) (frames : List Frame)
  /-- The colon after a name. -/
  | colon (fields : List (List StringUnit × Document)) (name : List StringUnit)
      (frames : List Frame)
  /-- A comma after a field, or the end of the object. -/
  | nextField (fields : List (List StringUnit × Document)) (frames : List Frame)
  /-- The end of the text. -/
  | nothing (result : Document)

/-- Puts a finished value in its place. -/
def place (v : Document) : List Frame → Expected
  | [] => .nothing v
  | .array items :: frames => .nextItem (v :: items) frames
  | .object fields name :: frames => .nextField ((name, v) :: fields) frames

/-- Reads the first token of a value. -/
def begin? (frames : List Frame) : Token → Option Expected
  | .null => some (place .null frames)
  | .bool b => some (place (.bool b) frames)
  | .number cs => some (place (.number cs) frames)
  | .string us => some (place (.string us) frames)
  | .openArray => some (.firstItem frames)
  | .openObject => some (.firstName frames)
  | _ => none

/-- Reads one token. -/
def step? : Expected → Token → Option Expected
  | .value frames, t => begin? frames t
  | .firstItem frames, .closeArray => some (place (.array []) frames)
  | .firstItem frames, t => begin? (.array [] :: frames) t
  | .nextItem items frames, .comma => some (.value (.array items :: frames))
  | .nextItem items frames, .closeArray => some (place (.array items.reverse) frames)
  | .firstName frames, .closeObject => some (place (.object []) frames)
  | .firstName frames, .string name => some (.colon [] name frames)
  | .name fields frames, .string name => some (.colon fields name frames)
  | .colon fields name frames, .colon => some (.value (.object fields name :: frames))
  | .nextField fields frames, .comma => some (.name fields frames)
  | .nextField fields frames, .closeObject => some (place (.object fields.reverse) frames)
  | _, _ => none

/-- The document that tokens make. -/
def ofTokens? (tokens : List Token) : Option Document :=
  match tokens.foldlM step? (.value []) with
  | some (.nothing d) => some d
  | _ => none

/-- Reads a text in the grammar of JSON. -/
def read? (text : String) : Option Document := (Token.scan? text.toList).bind ofTokens?

def decodeString? (units : List StringUnit) : Option String :=
  (StringUnit.decode? units).map String.ofList

mutual

/-- What a document says, if it nests at most `room` deep, its numbers are finite and its strings
spell text. A repeated name keeps its first place and takes its last value. -/
def value? (room : Nat) : Document → Option Json
  | .null => some .null
  | .bool b => some (.bool b)
  | .number cs => (Number.ofChars? cs).map .num
  | .string us => (decodeString? us).map .str
  | .array items => match room with
    | 0 => none
    | room + 1 => (items? room items).map .arr
  | .object fields => match room with
    | 0 => none
    | room + 1 => (fields? room fields).map Json.ofFields

def items? (room : Nat) : List Document → Option (List Json)
  | [] => some []
  | d :: rest => do some ((← value? room d) :: (← items? room rest))

def fields? (room : Nat) :
    List (List StringUnit × Document) → Option (List (String × Json))
  | [] => some []
  | (name, d) :: rest => do
    some ((← decodeString? name, ← value? room d) :: (← fields? room rest))

end

/-- The members of a record with the given names: the fields of an object, or the items of an array
in the order of the names, of which the last may be missing. -/
def members? (names : List String) : Document → Option (List (String × Document))
  | .object fields => fields.mapM fun (name, d) => do return (← decodeString? name, d)
  | .array items => if items.length ≤ names.length then some (names.zip items) else none
  | _ => none

/-- The member of a name, if there is one. A name that is repeated fails. -/
def member? (name : String) (members : List (String × Document)) : Option (Option Document) :=
  match members.filter (·.1 == name) with
  | [] => some none
  | [(_, d)] => some (some d)
  | _ => none

end Document

/-- How deep arrays and objects may nest in a text. -/
def maxNesting : Nat := 127

/-- Reads a JSON text. -/
def read? (text : String) : Option Json := (Document.read? text).bind (Document.value? maxNesting)

/-! ## Writing -/

mutual

/-- The document that a value is written as. -/
def document : Json → Document
  | .null => .null
  | .bool b => .bool b
  | .num n => .number n.chars
  | .str s => .string (s.toList.map .ofChar)
  | .arr items => .array (documentsOfItems items)
  | .obj fields => .object (documentsOfFields fields)

def documentsOfItems : List Json → List Document
  | [] => []
  | v :: rest => v.document :: documentsOfItems rest

def documentsOfFields : List (String × Json) → List (List StringUnit × Document)
  | [] => []
  | (name, v) :: rest => (name.toList.map .ofChar, v.document) :: documentsOfFields rest

end

mutual

/-- The tokens of a value. -/
def tokens : Json → List Token
  | .null => [.null]
  | .bool b => [.bool b]
  | .num n => [.number n.chars]
  | .str s => [.ofString s]
  | .arr [] => [.openArray, .closeArray]
  | .arr (v :: rest) => .openArray :: v.tokens ++ tokensOfItems rest
  | .obj [] => [.openObject, .closeObject]
  | .obj ((name, v) :: rest) =>
    .openObject :: .ofString name :: .colon :: v.tokens ++ tokensOfFields rest

/-- What follows an item: the other items, each after a comma, and the end of the array. -/
def tokensOfItems : List Json → List Token
  | [] => [.closeArray]
  | v :: rest => .comma :: v.tokens ++ tokensOfItems rest

/-- What follows a field: the other fields, each after a comma, and the end of the object. -/
def tokensOfFields : List (String × Json) → List Token
  | [] => [.closeObject]
  | (name, v) :: rest => .comma :: .ofString name :: .colon :: v.tokens ++ tokensOfFields rest

end

/-- The text of a value, without spaces. -/
def text (v : Json) : String := String.ofList (v.tokens.flatMap Token.chars)

def newline (depth : Nat) : List Char := '\n' :: List.replicate (2 * depth) ' '

mutual

/-- The lines of a value that begins at the given depth. -/
def indentedChars (depth : Nat) : Json → List Char
  | .arr (v :: rest) =>
    '[' :: newline (depth + 1) ++ v.indentedChars (depth + 1) ++ indentedItems depth rest
  | .obj ((name, v) :: rest) =>
    '\x7b' :: newline (depth + 1) ++ (Token.ofString name).chars ++ [':', ' '] ++
      v.indentedChars (depth + 1) ++ indentedFields depth rest
  | v => v.tokens.flatMap Token.chars

def indentedItems (depth : Nat) : List Json → List Char
  | [] => newline depth ++ [']']
  | v :: rest =>
    ',' :: newline (depth + 1) ++ v.indentedChars (depth + 1) ++ indentedItems depth rest

def indentedFields (depth : Nat) : List (String × Json) → List Char
  | [] => newline depth ++ ['\x7d']
  | (name, v) :: rest =>
    ',' :: newline (depth + 1) ++ (Token.ofString name).chars ++ [':', ' '] ++
      v.indentedChars (depth + 1) ++ indentedFields depth rest

end

/-- The text of a value over several lines. -/
def indented (v : Json) : String := String.ofList (v.indentedChars 0)

/-- The text that a value is shown by inside other text: a string is itself. -/
def display : Json → String
  | .str s => s
  | v => v.text

end Json
end JsonRules
