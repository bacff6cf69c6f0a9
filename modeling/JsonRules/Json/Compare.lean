import JsonRules.Json

/-!
# Truth, equality and order of values

Three relations: `Json.same`, where integers and doubles are apart; `Json.equal`, where numbers and
booleans are compared as numbers; and `Json.order?`, which is defined on strings, on numbers and
booleans, and on arrays of such values. None of them looks at the order of fields.

`Json.Reordered` relates two values that differ only in the order in which objects, at any depth, list
their fields.
-/

namespace JsonRules
namespace Json

/-- A value counts as true unless it is null, false, a zero or empty. -/
def truthy : Json → Bool
  | .null => false
  | .bool b => b
  | .num n => !n.toDouble.isZero
  | .str s => !s.isEmpty
  | .arr items => !items.isEmpty
  | .obj fields => !fields.isEmpty

/-- The number that a number or a boolean counts as. -/
def numeric? : Json → Option Double
  | .num n => some n.toDouble
  | .bool b => some (.ofInt b.toNat)
  | _ => none

mutual

/-- Equality of values of the same type. -/
def same : Json → Json → Bool
  | .null, .null => true
  | .bool a, .bool b => a == b
  | .num m, .num n => m.same n
  | .str s, .str t => s == t
  | .arr xs, .arr ys => sameItems xs ys
  | .obj xs, .obj ys => xs.length == ys.length && sameFields xs ys
  | _, _ => false

def sameItems : List Json → List Json → Bool
  | [], [] => true
  | x :: xs, y :: ys => x.same y && sameItems xs ys
  | _, _ => false

/-- Whether every field of the first list has an equal one of its name in the second. -/
def sameFields : List (String × Json) → List (String × Json) → Bool
  | [], _ => true
  | (name, x) :: xs, ys =>
    (match field? name ys with
      | some y => x.same y
      | none => false) && sameFields xs ys

end

/-- Equality of values that are no containers: by number where both have one. -/
def equalScalars (a b : Json) : Bool :=
  match a.numeric?, b.numeric? with
  | some x, some y => x.same y
  | _, _ => a.same b

mutual

/-- Equality that does not tell integers, doubles and booleans apart, at any depth. -/
def equal : Json → Json → Bool
  | .arr xs, .arr ys => equalItems xs ys
  | .obj xs, .obj ys => xs.length == ys.length && equalFields xs ys
  | a, b => equalScalars a b

def equalItems : List Json → List Json → Bool
  | [], [] => true
  | x :: xs, y :: ys => x.equal y && equalItems xs ys
  | _, _ => false

/-- Whether every field of the first list has an equal one of its name in the second. -/
def equalFields : List (String × Json) → List (String × Json) → Bool
  | [], _ => true
  | (name, x) :: xs, ys =>
    (match field? name ys with
      | some y => x.equal y
      | none => false) && equalFields xs ys

end

/-- The order of values that are no arrays, or the two types that have none. -/
def orderScalars (a b : Json) : Except (Kind × Kind) Ordering :=
  match a, b with
  | .str s, .str t => .ok (compare s t)
  | a, b =>
    match a.numeric?, b.numeric? with
    | some x, some y => .ok (x.order y)
    | _, _ => .error (a.kind, b.kind)

mutual

/-- The order of two values: strings by code points, numbers and booleans as numbers, arrays by
their first difference and then by length. Anything else is the two types that have no order. -/
def order? : Json → Json → Except (Kind × Kind) Ordering
  | .arr xs, .arr ys => orderItems? xs ys
  | a, b => orderScalars a b

def orderItems? : List Json → List Json → Except (Kind × Kind) Ordering
  | [], [] => .ok .eq
  | [], _ :: _ => .ok .lt
  | _ :: _, [] => .ok .gt
  | x :: xs, y :: ys =>
    match x.order? y with
    | .ok .eq => orderItems? xs ys
    | result => result

end

/-- Whether the order of two values is defined and accepted. -/
def ordered (accept : Ordering → Bool) (a b : Json) : Bool :=
  match a.order? b with
  | .ok o => accept o
  | .error _ => false

/-! ## The order of fields -/

/-- One value is the other with the fields of some objects in another order. -/
inductive Reordered : Json → Json → Prop where
  | refl (v : Json) : Reordered v v
  | fields {fields fields' : List (String × Json)} (h : fields.Perm fields') :
      Reordered (.obj fields) (.obj fields')
  | item {v w : Json} (before after : List Json) (h : Reordered v w) :
      Reordered (.arr (before ++ v :: after)) (.arr (before ++ w :: after))
  | field {v w : Json} (before after : List (String × Json)) (name : String) (h : Reordered v w) :
      Reordered (.obj (before ++ (name, v) :: after)) (.obj (before ++ (name, w) :: after))
  | trans {u v w : Json} (h : Reordered u v) (h' : Reordered v w) : Reordered u w

end Json
end JsonRules
