import CodeAtlas.Decimal.Dyadic
/-!
# The fewest digits that read back

A float owns the interval of reals that round to it. Its shortest decimal is the coarsest decimal
grid point in that interval; where one grid offers two, the nearer, and of two equally near the
even one.
-/

namespace CodeAtlas

/-- The number `digits · 10 ^ scale`. -/
structure Decimal where
  digits : Nat
  scale : Int
  deriving DecidableEq, Inhabited

namespace Dyadic

/-- Lower end of the interval of `d`, in units of a quarter of its last place. At the bottom of a
binade the neighbour below is half as far away. -/
def lowerQuarters (d : Dyadic) : Nat :=
  if d.mantissa == leadingMantissa && d.exponent != leastExponent then 4 * d.mantissa - 1
  else 4 * d.mantissa - 2

/-- Upper end of the interval of `d`, in quarters of its last place. -/
def upperQuarters (d : Dyadic) : Nat :=
  4 * d.mantissa + 2

/-- What a quarter of the last place is measured in steps of `10 ^ k`, as a fraction. -/
def quarterPerStep (d : Dyadic) (k : Int) : Nat × Nat :=
  (Nat.pow 2 (d.exponent - 2).toNat * Nat.pow 10 (-k).toNat,
    Nat.pow 2 (2 - d.exponent).toNat * Nat.pow 10 k.toNat)

/-- Whether `n · 10 ^ k` rounds to `d`; the ends belong to an even mantissa. -/
def owns (d : Dyadic) (n : Nat) (k : Int) : Bool :=
  let (num, den) := d.quarterPerStep k
  if d.mantissa % 2 == 0 then
    decide (d.lowerQuarters * num ≤ n * den ∧ n * den ≤ d.upperQuarters * num)
  else decide (d.lowerQuarters * num < n * den ∧ n * den < d.upperQuarters * num)

/-- How often `num` has to be multiplied by ten to reach `den`, tried at most `tries` times. -/
def timesTen (num den : Nat) : Nat → Nat
  | 0 => 0
  | tries + 1 => if den ≤ num then 0 else timesTen (num * 10) den tries + 1

/-- The least `p` with `d < 10 ^ p`, for a nonzero number. -/
def pointPlace (d : Dyadic) : Int :=
  let num := d.mantissa * Nat.pow 2 d.exponent.toNat
  let den := Nat.pow 2 (-d.exponent).toNat
  if den ≤ num then (Nat.toDigits 10 (num / den)).length else 1 - (timesTen num den 400 : Int)

/-- The point of the grid `10 ^ k` that rounds to `d`, nearest first. -/
def gridPoint? (d : Dyadic) (k : Int) : Option Nat :=
  let (num, den) := d.quarterPerStep k
  let exact := 4 * d.mantissa * num
  let below := exact / den
  match d.owns below k, d.owns (below + 1) k with
  | false, false => none
  | true, false => some below
  | false, true => some (below + 1)
  | true, true =>
    let twice := 2 * (exact % den)
    if twice < den then some below
    else if den < twice then some (below + 1)
    else if below % 2 == 0 then some below else some (below + 1)

/-- Searches ever finer grids, from `count` digits on. -/
def searchGrids (d : Dyadic) (place : Int) : Nat → Nat → Decimal
  | 0, count => ⟨(d.gridPoint? (place - count)).getD 0, place - count⟩
  | more + 1, count =>
    match d.gridPoint? (place - count) with
    | some n => ⟨n, place - count⟩
    | none => searchGrids d place more (count + 1)

/-- The magnitude of `d` in the fewest digits that read back; seventeen always suffice. -/
def shortest (d : Dyadic) : Decimal :=
  if d.mantissa == 0 then ⟨0, 0⟩ else searchGrids d d.pointPlace 16 1

end Dyadic

end CodeAtlas
