import JsonRules.Double
import JsonRules.Double.Decimal

/-!
# Binary formats

The interchange form of a double has sixty-four bits: the sign, eleven bits of exponent and fifty-two of
significand. Numbers that are not zero in their exponent field have one more significand bit, which is
not written.

Every finite single is an integer multiple of `2 ^ -149`, and is a double. `Extended.ofSingle` reads a
decimal as the nearest single.
-/

namespace JsonRules

/-! ## The interchange form -/

namespace Extended

/-- The sixty-four bits as a natural number. Not-a-number has the quiet form without a payload. -/
def toBits : Extended → Nat
  | .finite x =>
    x.negative.toNat * Nat.pow 2 63 +
      if x.significand < Nat.pow 2 52 then x.significand
      else (x.shift + 1) * Nat.pow 2 52 + (x.significand - Nat.pow 2 52)
  | .infinite s => s.toNat * Nat.pow 2 63 + 2047 * Nat.pow 2 52
  | .nan => 4095 * Nat.pow 2 51

/-- The value of sixty-four bits; every payload of not-a-number counts as one. -/
def ofBits (bits : Nat) : Extended :=
  let negative := bits / Nat.pow 2 63 % 2 == 1
  let exponent := bits / Nat.pow 2 52 % Nat.pow 2 11
  let fraction := bits % Nat.pow 2 52
  if exponent = 2047 then
    if fraction = 0 then .infinite negative else .nan
  else if exponent = 0 then ofParts negative fraction 0
  else ofParts negative (Nat.pow 2 52 + fraction) (exponent - 1)

/-! ## Single precision -/

/-- The single nearest to `n / d` units, with the given sign; a half goes to the even significand. -/
def roundSingle (negative : Bool) (n d : Nat) : Extended :=
  let shift := max 925 ((n / d).log2 - 23)
  let size := roundQuotient n (d * Nat.pow 2 shift) * Nat.pow 2 shift
  if Nat.pow 2 128 * unitsPerOne ≤ size then .infinite negative else round negative size 1

/-- The single nearest to a decimal. What is no finite double is no finite single. -/
def ofSingle (negative : Bool) (d : Decimal) : Extended :=
  match ofDecimal negative d with
  | .finite x => if x.isZero then .finite x else roundSingle negative d.inUnits.1 d.inUnits.2
  | other => other

end Extended
end JsonRules
