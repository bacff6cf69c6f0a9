import JsonRules.Double

/-!
# Decimals and doubles

`Extended.ofDecimal` reads a decimal as the nearest double. `Double.shortest` goes back: of all
decimals that read as the given double it takes one with the fewest digits, and among those the
nearest to the value.

A `Numeral` is the written form of a number: a sign, digits, a fraction and an exponent, each part
optional. `Numeral.scan?` takes the parts of a text, every dialect says which parts it wants, and
`Numeral.value` is the nearest double.

A `Layout` settles what the digits of a number leave open: which exponents are written out in
positions, whether a whole number keeps a fraction, and which of two equally good decimals is taken.
-/

namespace JsonRules

/-! ## Reading and writing decimals -/

/-- The number `digits * 10 ^ exponent`. -/
structure Decimal where
  digits : Nat
  exponent : Int
deriving DecidableEq, Repr

/-- Which of two decimals that are equally near is taken. -/
inductive Tie where
  | toEven
  | up
deriving DecidableEq, Repr

/-- A decimal in units, as a fraction. -/
def Decimal.inUnits (d : Decimal) : Nat × Nat :=
  match d.exponent with
  | .ofNat e => (d.digits * Nat.pow 10 e * unitsPerOne, 1)
  | .negSucc e => (d.digits * unitsPerOne, Nat.pow 10 (e + 1))

/-- The double nearest to a decimal. Beyond `10 ^ 400` all is infinite and below `10 ^ -400` all is
zero, which spares the exact powers of ten. -/
def Extended.ofDecimal (negative : Bool) (d : Decimal) : Extended :=
  if d.digits = 0 then .finite (.zero negative)
  else if 400 < d.exponent then .infinite negative
  else if d.exponent < -(d.digits.log2 + 400 : Nat) then .finite (.zero negative)
  else round negative d.inUnits.1 d.inUnits.2

namespace Decimal

/-- Moves the zeros at the end of the digits into the exponent; `fuel` bounds their number. -/
def stripZeros : (fuel : Nat) → Decimal → Decimal
  | 0, d => d
  | fuel + 1, d =>
    if d.digits % 10 = 0 ∧ d.digits ≠ 0 then stripZeros fuel ⟨d.digits / 10, d.exponent + 1⟩ else d

end Decimal

namespace Double

/-- Whether a decimal reads as `x`. -/
def readsAs (x : Double) (d : Decimal) : Bool := Extended.ofDecimal x.negative d = .finite x

/-- The exponent of the first decimal digit of a nonzero `x`. -/
def leadingExponent (x : Double) : Int :=
  (Nat.repr (x.magnitude * Nat.pow 10 324 / unitsPerOne)).length - 325

/-- The size of `x` as a fraction of `10 ^ e`. -/
def scaled (x : Double) : (e : Int) → Nat × Nat
  | .ofNat e => (x.magnitude, unitsPerOne * Nat.pow 10 e)
  | .negSucc e => (x.magnitude * Nat.pow 10 (e + 1), unitsPerOne)

/-- The multiple of `10 ^ e` beside `x` that reads as `x`. Where both neighbours do, the nearer one,
and by `tie` if neither is nearer. -/
def neighbour? (tie : Tie) (x : Double) (e : Int) : Option Decimal :=
  let (n, d) := x.scaled e
  let q := n / d
  let r := n % d
  let lower : Decimal := ⟨q, e⟩
  let upper : Decimal := ⟨q + 1, e⟩
  let upperFirst := d < 2 * r || 2 * r == d && (tie == .up || q % 2 == 1)
  let (first, second) := if upperFirst then (upper, lower) else (lower, upper)
  if x.readsAs first then some first
  else if x.readsAs second then some second
  else none

/-- All digits of `x`. -/
def exact (x : Double) : Decimal := ⟨x.magnitude * Nat.pow 5 1074, -1074⟩

/-- The shortest decimal that reads as `x`: the first one of 1, 2, … 17 digits, or all digits. Its last
digit is not zero unless `x` is. -/
def shortest (tie : Tie) (x : Double) : Decimal :=
  if x.isZero then ⟨0, 0⟩
  else
    let found := (List.range 17).findSome? fun (i : Nat) => x.neighbour? tie (x.leadingExponent - i)
    let d := found.getD x.exact
    d.stripZeros (d.digits.log2 + 1)

end Double

/-! ## Numerals -/

/-- The parts of a numeral. Absent parts differ from empty ones: `5.` has an empty fraction. -/
structure Numeral where
  sign : Option Char
  whole : List Char
  fraction : Option (List Char)
  exponent : Option (Option Char × List Char)
deriving DecidableEq, Repr

/-- The number that decimal digits spell, and zero for none. -/
def digitsValue (digits : List Char) : Nat :=
  digits.foldl (fun n c => 10 * n + (c.toNat - '0'.toNat)) 0

theorem digitsValue_eq (digits : List Char) : digitsValue digits = Nat.ofDigitChars 10 digits 0 :=
  Nat.ofDigitChars_eq_foldl.symm

namespace Numeral

/-- Splits a sign off the front. -/
def scanSign : List Char → Option Char × List Char
  | '+' :: rest => (some '+', rest)
  | '-' :: rest => (some '-', rest)
  | rest => (none, rest)

/-- Splits a fraction off the front. -/
def scanFraction : List Char → Option (List Char) × List Char
  | '.' :: rest => (some (rest.takeWhile Char.isDigit), rest.dropWhile Char.isDigit)
  | rest => (none, rest)

/-- Reads an exponent to the end of the text. Its digits may be missing, but nothing may follow. -/
def scanExponent? : List Char → Option (Option (Option Char × List Char))
  | [] => some none
  | c :: rest =>
    if c = 'e' ∨ c = 'E' then
      let (sign, digits) := scanSign rest
      if digits.all Char.isDigit then some (some (sign, digits)) else none
    else none

/-- The parts of a text that is a numeral of any dialect. -/
def scan? (text : List Char) : Option Numeral :=
  let (sign, rest) := scanSign text
  let (fraction, tail) := scanFraction (rest.dropWhile Char.isDigit)
  (scanExponent? tail).map fun exponent =>
    { sign, whole := rest.takeWhile Char.isDigit, fraction, exponent }

def negative (n : Numeral) : Bool := n.sign == some '-'

/-- Whether an exponent, where there is one, has digits. -/
def exponentComplete (n : Numeral) : Bool := n.exponent.all fun (_, digits) => !digits.isEmpty

/-- The number without its sign. -/
def decimal (n : Numeral) : Decimal :=
  let fraction := n.fraction.getD []
  let exponent : Int := match n.exponent with
    | none => 0
    | some (sign, digits) =>
      if sign == some '-' then -(digitsValue digits : Int) else digitsValue digits
  ⟨digitsValue (n.whole ++ fraction), exponent - fraction.length⟩

/-- The nearest double. -/
def value (n : Numeral) : Extended := .ofDecimal n.negative n.decimal

end Numeral

/-- A text that is a numeral with digits before or after its point, and in its exponent if it has
one. -/
def Numeral.complete? (text : List Char) : Option Numeral :=
  (Numeral.scan? text).filter fun n =>
    !(n.whole.isEmpty && (n.fraction.getD []).isEmpty) && n.exponentComplete

/-- The double that a text spells: `inf`, `infinity` and `nan` in any case, or a complete numeral;
each with an optional sign. -/
def Extended.ofText? (text : List Char) : Option Extended :=
  let (sign, rest) := Numeral.scanSign text
  let word := String.ofList (rest.map Char.toLower)
  if word = "inf" ∨ word = "infinity" then some (.infinite (sign == some '-'))
  else if word = "nan" then some .nan
  else (Numeral.complete? text).map Numeral.value

/-! ## Layouts -/

/-- The decisions of a number format. The exponent is that of the first digit. -/
structure Layout where
  positional : Int → Bool
  fractionAlways : Bool
  tie : Tie

namespace Layout

/-- Digits with a point before the digit number `point`; zeros fill what lies between. -/
def positions (l : Layout) (digits : List Char) (point : Int) : List Char :=
  if point ≤ 0 then
    '0' :: '.' :: List.replicate (-point).toNat '0' ++ digits
  else if point < digits.length then
    digits.take point.toNat ++ '.' :: digits.drop point.toNat
  else
    digits ++ List.replicate (point.toNat - digits.length) '0' ++
      if l.fractionAlways then ['.', '0'] else []

/-- Digits with the point after the first, and the exponent with its sign. -/
def scientific (digits : List Char) (exponent : Int) : List Char :=
  let significand := match digits with
    | first :: rest@(_ :: _) => first :: '.' :: rest
    | single => single
  significand ++ 'e' :: (if exponent < 0 then '-' else '+') :: Nat.toDigits 10 exponent.natAbs

/-- The text of a decimal. -/
def decimalChars (l : Layout) (d : Decimal) : List Char :=
  let digits := Nat.toDigits 10 d.digits
  let exponent := d.exponent + digits.length - 1
  if l.positional exponent then l.positions digits (exponent + 1) else scientific digits exponent

/-- The text of a double. -/
def chars (l : Layout) (x : Double) : List Char :=
  (if x.negative then ['-'] else []) ++ l.decimalChars (x.shortest l.tie)

/-- The text of any result of arithmetic. -/
def text (l : Layout) : Extended → String
  | .finite x => String.ofList (l.chars x)
  | .infinite negative => if negative then "-inf" else "inf"
  | .nan => "NaN"

/-- Every digit in its position, and whole numbers without a fraction. -/
def plain : Layout := ⟨fun _ => true, false, .up⟩

end Layout
end JsonRules
