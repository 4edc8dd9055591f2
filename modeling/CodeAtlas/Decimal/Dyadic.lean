/-!
# Floats as exact numbers

A finite float is a whole number times a power of two. This module reads that number off its bits,
so that everything written about a float is exact arithmetic on naturals.
-/

namespace CodeAtlas

/-- The number `± mantissa · 2 ^ exponent`. -/
structure Dyadic where
  negative : Bool
  mantissa : Nat
  exponent : Int
  deriving DecidableEq, Inhabited

/-- What a float stands for. -/
inductive FloatClass where
  | nan
  | infinite (negative : Bool)
  | finite (number : Dyadic)
  deriving DecidableEq, Inhabited

namespace Dyadic

/-- The least exponent of a float; the lowest normal binade and the subnormal numbers share it. -/
def leastExponent : Int := -1074

/-- The mantissa of the smallest float of a binade. -/
def leadingMantissa : Nat := 0x10000000000000

/-- The float class of a 64-bit pattern. -/
def ofBits (bits : Nat) : FloatClass :=
  let negative := bits / 0x8000000000000000 % 2 == 1
  let biased : Nat := bits / leadingMantissa % 0x800
  let fraction : Nat := bits % leadingMantissa
  if biased == 0x7ff then
    if fraction == 0 then .infinite negative else .nan
  else if biased == 0 then .finite ⟨negative, fraction, leastExponent⟩
  else .finite ⟨negative, leadingMantissa + fraction, leastExponent + ((biased : Int) - 1)⟩

def classify (x : Float) : FloatClass :=
  ofBits x.toBits.toNat

/-- The whole number equal to `d`, if there is one. -/
def toInt? (d : Dyadic) : Option Int :=
  let signed (n : Nat) : Int := if d.negative then -(n : Int) else n
  match d.exponent with
  | .ofNat e => some (signed (d.mantissa * Nat.pow 2 e))
  | .negSucc e =>
    let unit := Nat.pow 2 (e + 1)
    if d.mantissa % unit == 0 then some (signed (d.mantissa / unit)) else none

end Dyadic

end CodeAtlas
