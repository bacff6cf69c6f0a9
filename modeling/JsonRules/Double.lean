/-!
# Double-precision numbers

Every finite double is an integer multiple of `2 ^ -1074`, the *unit* of the format. `Double.units`
gives that multiple. Order and equality of doubles are those of their units, and every operation is
the exact result on units followed by one rounding, `Extended.round`.
-/

namespace JsonRules

/-- A finite double: `significand * 2 ^ shift` units with a sign, in the one form the format stores.
A zero keeps its sign. -/
structure Double where
  negative : Bool
  significand : Nat
  shift : Nat
  significand_lt : significand < Nat.pow 2 53
  shift_le : shift ≤ 2045
  normal : shift = 0 ∨ Nat.pow 2 52 ≤ significand
deriving DecidableEq, Repr

/-- A double, an infinity, or not a number: what arithmetic on doubles can give. -/
inductive Extended where
  | finite (x : Double)
  | infinite (negative : Bool)
  | nan
deriving DecidableEq, Repr

/-- How many units make one. -/
def unitsPerOne : Nat := Nat.pow 2 1074

/-- The quotient `n / d` to the nearest natural number; a half goes to the even neighbour. -/
def roundQuotient (n d : Nat) : Nat :=
  let q := n / d
  if 2 * (n % d) < d ∨ 2 * (n % d) = d ∧ q % 2 = 0 then q else q + 1

namespace Double

/-- The size of `x` in units. -/
def magnitude (x : Double) : Nat := x.significand * Nat.pow 2 x.shift

/-- The value of `x` in units. -/
def units (x : Double) : Int := if x.negative then -x.magnitude else x.magnitude

def zero (negative : Bool) : Double := ⟨negative, 0, 0, by decide, by decide, .inl rfl⟩

/-- The finite double furthest from zero. -/
def largest (negative : Bool) : Double :=
  ⟨negative, Nat.pow 2 53 - 1, 2045, by decide, by decide, .inr (by decide)⟩

instance : Inhabited Double := ⟨zero false⟩

def isZero (x : Double) : Bool := x.significand == 0

def neg (x : Double) : Double := { x with negative := !x.negative }

/-- Equality of values: the two zeros are equal. -/
def same (x y : Double) : Bool := x.units == y.units

/-- The order of values, which is total. -/
def order (x y : Double) : Ordering := compare x.units y.units

/-- Whether nothing stands behind the point. -/
def isWhole (x : Double) : Bool := x.magnitude % unitsPerOne == 0

/-- What stands before the point as a signed word, or the word nearest to it. -/
def toWord (x : Double) : Int64 := .ofIntClamp (x.units.tdiv unitsPerOne)

end Double

namespace Extended

/-- The double with these parts, or the infinity of that sign when no double has them. -/
def ofParts (negative : Bool) (significand shift : Nat) : Extended :=
  if h : significand < Nat.pow 2 53 ∧ shift ≤ 2045 ∧ (shift = 0 ∨ Nat.pow 2 52 ≤ significand) then
    .finite ⟨negative, significand, shift, h.1, h.2.1, h.2.2⟩
  else .infinite negative

/-- The double nearest to `n / d` units, with the given sign; a half goes to the even significand,
and what rounds beyond the largest double is infinite. -/
def round (negative : Bool) (n d : Nat) : Extended :=
  let shift := (n / d).log2 - 52
  let significand := roundQuotient n (d * Nat.pow 2 shift)
  if significand = Nat.pow 2 53 then ofParts negative (Nat.pow 2 52) (shift + 1)
  else ofParts negative significand shift

/-- The double nearest to an integral number of units. A zero takes the sign `negativeZero`. -/
def ofUnits (u : Int) (negativeZero : Bool) : Extended :=
  if u = 0 then .finite (.zero negativeZero) else round (decide (u < 0)) u.natAbs 1

def neg : Extended → Extended
  | .finite x => .finite x.neg
  | .infinite s => .infinite !s
  | .nan => .nan

/-- The sum. Opposite infinities have none; a sum that vanishes is positive unless both terms are
negative zeros. -/
def add : Extended → Extended → Extended
  | .finite x, .finite y => ofUnits (x.units + y.units) (x.negative && y.negative)
  | .infinite s, .infinite t => if s = t then .infinite s else .nan
  | .infinite s, .finite _ => .infinite s
  | .finite _, .infinite t => .infinite t
  | .nan, _ | _, .nan => .nan

def sub (x y : Extended) : Extended := add x y.neg

/-- The product. A zero and an infinity have none. -/
def mul : Extended → Extended → Extended
  | .finite x, .finite y => round (x.negative ^^ y.negative) (x.magnitude * y.magnitude) unitsPerOne
  | .infinite s, .infinite t => .infinite (s ^^ t)
  | .infinite s, .finite y => if y.isZero then .nan else .infinite (s ^^ y.negative)
  | .finite x, .infinite t => if x.isZero then .nan else .infinite (x.negative ^^ t)
  | .nan, _ | _, .nan => .nan

/-- The quotient. Two zeros and two infinities have none; any other number over zero is infinite. -/
def div : Extended → Extended → Extended
  | .finite x, .finite y =>
    if y.isZero then
      if x.isZero then .nan else .infinite (x.negative ^^ y.negative)
    else round (x.negative ^^ y.negative) (x.magnitude * unitsPerOne) y.magnitude
  | .infinite _, .infinite _ => .nan
  | .infinite s, .finite y => .infinite (s ^^ y.negative)
  | .finite x, .infinite t => .finite (.zero (x.negative ^^ t))
  | .nan, _ | _, .nan => .nan

instance : Neg Extended := ⟨neg⟩
instance : Add Extended := ⟨add⟩
instance : Sub Extended := ⟨sub⟩
instance : Mul Extended := ⟨mul⟩
instance : Div Extended := ⟨div⟩

/-- Whether the value is a zero of either sign. -/
def isZero : Extended → Bool
  | .finite x => x.isZero
  | _ => false

end Extended

namespace Double

/-- The finite double nearest to `n`. -/
def ofInt (n : Int) : Double :=
  match Extended.round (decide (n < 0)) (n.natAbs * unitsPerOne) 1 with
  | .finite x => x
  | _ => largest (decide (n < 0))

theorem ofInt_eq (n : Int) : ofInt n =
    match Extended.round (decide (n < 0)) (n.natAbs * unitsPerOne) 1 with
    | .finite x => x
    | _ => largest (decide (n < 0)) := by
  -- the function is unfolded before it is applied: unfolding `ofInt n` evaluates the rounding
  have hfun : ofInt = fun n =>
      match Extended.round (decide (n < 0)) (n.natAbs * unitsPerOne) 1 with
      | .finite x => x
      | _ => largest (decide (n < 0)) := rfl
  exact congrFun hfun n

theorem ofInt_of_round {n : Int} {x : Double}
    (h : Extended.round (decide (n < 0)) (n.natAbs * unitsPerOne) 1 = .finite x) : ofInt n = x := by
  rw [ofInt_eq, h]

/-- The nearest double is what rounding gives, unless that is infinite. -/
theorem ofInt_cases (n : Int) :
    Extended.round (decide (n < 0)) (n.natAbs * unitsPerOne) 1 = .finite (ofInt n) ∨
      ofInt n = largest (decide (n < 0)) := by
  have h := ofInt_eq n
  generalize Extended.round (decide (n < 0)) (n.natAbs * unitsPerOne) 1 = r at h ⊢
  cases r with
  | finite x => exact .inl (congrArg _ h.symm)
  | infinite | nan => exact .inr h

/-- The double nearest to a signed word. -/
def ofWord (w : Int64) : Double := ofInt w.toInt

/-- Whether `x` lies between the doubles nearest to the bounds of signed words. The upper one is more
than the bound and does not count. -/
def isWithinWords (x : Double) : Bool :=
  ((ofWord Int64.minValue).order x).isLE && (x.order (ofWord Int64.maxValue)).isLT

/-- The remainder of `x` by a nonzero `y`, exact and with the sign of `x`. -/
def rem (x y : Double) : Extended := Extended.round x.negative (x.magnitude % y.magnitude) 1

/-- The remainder of `x` by a nonzero `y` with the sign of `y`: where the signs differ, `y` is added
to the exact remainder. -/
def floorMod (x y : Double) : Extended :=
  match x.rem y with
  | .finite r => if !r.isZero && r.negative != y.negative then .finite r + .finite y else .finite r
  | other => other

end Double

end JsonRules
