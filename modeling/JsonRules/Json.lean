import JsonRules.Double.Decimal

/-!
# JSON values

A number is an integer or a double, and the two never coincide: `1` and `1.0` are different values.
An object is the list of its fields in document order, and `Json.WellFormed` says that it has no
name twice and that integers are in range.

A path is a text of segments with points between. A segment names a field of an object or gives the
index of an item of an array in decimal digits, which are read into a machine word. The empty path is the
whole value.
-/

namespace JsonRules

/-- The integers that a signed word of 64 bits holds. -/
def IsSigned (n : Int) : Prop := -9223372036854775808 ≤ n ∧ n ≤ 9223372036854775807

instance (n : Int) : Decidable (IsSigned n) := inferInstanceAs (Decidable (_ ∧ _))

/-- A JSON number. Integers outside `[-2^63, 2^64)` are written as doubles, see `Number.InRange`. -/
inductive Number where
  | int (n : Int)
  | double (x : Double)
deriving DecidableEq, Repr

/-- A JSON value. -/
inductive Json where
  | null
  | bool (b : Bool)
  | num (n : Number)
  | str (s : String)
  | arr (items : List Json)
  | obj (fields : List (String × Json))
deriving Repr, Inhabited

namespace Number

/-- Integers take the range of signed and unsigned words of 64 bits together. -/
def InRange : Number → Prop
  | .int n => -9223372036854775808 ≤ n ∧ n ≤ 18446744073709551615
  | .double _ => True

instance (n : Number) : Decidable n.InRange := by
  cases n <;> unfold InRange <;> infer_instance

/-- The nearest double. -/
def toDouble : Number → Double
  | .int n => .ofInt n
  | .double x => x

/-- The integer, if it is one and a signed word holds it. -/
def toSigned? : Number → Option Int
  | .int n => if IsSigned n then some n else none
  | .double _ => none

/-- Equality of numbers of the same kind. The two zeros of doubles are equal. -/
def same : Number → Number → Bool
  | .int m, .int n => m == n
  | .double x, .double y => x.same y
  | _, _ => false

/-- The result of arithmetic as a number: an integer when it is whole and within the bounds of signed
words, otherwise a double. Infinities and not-a-number are no numbers. -/
def ofExtended? : Extended → Option Number
  | .finite x =>
    if x.isWhole && x.isWithinWords then some (.int x.toWord.toInt) else some (.double x)
  | _ => none

end Number

namespace Json

instance : Coe String Json := ⟨.str⟩
instance : Coe Bool Json := ⟨.bool⟩

def ofInt (n : Int) : Json := .num (.int n)

/-- The six types of JSON values. -/
inductive Kind where
  | null
  | boolean
  | number
  | string
  | array
  | object
deriving DecidableEq, Repr

def Kind.name : Kind → String
  | .null => "null"
  | .boolean => "boolean"
  | .number => "number"
  | .string => "string"
  | .array => "array"
  | .object => "object"

def kind : Json → Kind
  | .null => .null
  | .bool _ => .boolean
  | .num _ => .number
  | .str _ => .string
  | .arr _ => .array
  | .obj _ => .object

/-- The value under a name in a list of fields. -/
def field? (name : String) (fields : List (String × Json)) : Option Json := fields.lookup name

/-- Sets a field: a name that is present keeps its place, a new one goes to the end. -/
def setField (name : String) (v : Json) : List (String × Json) → List (String × Json)
  | [] => [(name, v)]
  | (k, w) :: rest => if k = name then (k, v) :: rest else (k, w) :: setField name v rest

/-- An object from fields in the order of writing, where a repeated name keeps its first place and
takes its last value. -/
def ofFields (fields : List (String × Json)) : Json :=
  .obj (fields.foldl (fun acc (k, v) => setField k v acc) [])

mutual

/-- How deep arrays and objects nest; zero for a scalar. -/
def nesting : Json → Nat
  | .arr items => nestingItems items + 1
  | .obj fields => nestingFields fields + 1
  | _ => 0

def nestingItems : List Json → Nat
  | [] => 0
  | v :: rest => max v.nesting (nestingItems rest)

def nestingFields : List (String × Json) → Nat
  | [] => 0
  | (_, v) :: rest => max v.nesting (nestingFields rest)

end

mutual

/-- No object has a name twice, and all integers are in range. -/
def WellFormed : Json → Prop
  | .num n => n.InRange
  | .arr items => WellFormedItems items
  | .obj fields => (fields.map Prod.fst).Nodup ∧ WellFormedFields fields
  | _ => True

def WellFormedItems : List Json → Prop
  | [] => True
  | v :: rest => v.WellFormed ∧ WellFormedItems rest

def WellFormedFields : List (String × Json) → Prop
  | [] => True
  | (_, v) :: rest => v.WellFormed ∧ WellFormedFields rest

end

/-! ## Paths into a value -/

/-- The segments between the points of a text; there is one more than there are points. -/
def segments : List Char → List (List Char)
  | [] => [[]]
  | c :: rest =>
    if c = '.' then [] :: segments rest
    else match segments rest with
      | first :: others => (c :: first) :: others
      | [] => [[c]]

/-- The index that a segment spells: decimal digits only, with any number of zeros in front. -/
def index? (segment : List Char) : Option Nat :=
  if segment ≠ [] ∧ segment.all Char.isDigit then some (digitsValue segment) else none

/-- The bound of indices: a word of 64 bits holds those below. -/
def indexBound : Nat := 18446744073709551616

/-- A number that a word holds. -/
def word? (n : Nat) : Option Nat := if n < indexBound then some n else none

/-- A digit put behind an index. Neither the product nor the sum may leave the words. -/
def pushDigit? (n : Nat) (c : Char) : Option Nat := do
  let shifted ← word? (10 * n)
  word? (shifted + (c.toNat - '0'.toNat))

/-- The index that a segment spells as a word, read digit by digit; none if it is too large. -/
def wordIndex? (segment : List Char) : Option Nat :=
  if segment ≠ [] ∧ segment.all Char.isDigit then segment.foldlM pushDigit? 0 else none

/-- The part of a value that one segment selects. -/
def child? (v : Json) (segment : List Char) : Option Json :=
  match v with
  | .obj fields => field? (String.ofList segment) fields
  | .arr items => (wordIndex? segment).bind (items[·]?)
  | _ => none

/-- The value at a path. -/
def at? (v : Json) (path : String) : Option Json :=
  if path = "" then some v else (segments path.toList).foldlM child? v

/-- The value at a path, or the given one where there is none. A null that is there counts. -/
def atOr (v : Json) (path : String) (missing : Json) : Json := (v.at? path).getD missing

end Json
end JsonRules
