import CodeAtlas.Decimal.Shortest
/-!
# Writing and reading floats

A `FloatText` fixes how floats look: when the digits are written out in place, and what stands for
the values that are no numbers. Reading takes the digits and exponent that a scanner has split.
-/

namespace CodeAtlas

/-- The choices of a float format. -/
structure FloatText where
  /-- Least decimal exponent written in place. -/
  positionalFrom : Int
  /-- First decimal exponent written with an exponent mark. -/
  positionalTo : Int
  nan : String
  infinite : String
  deriving DecidableEq, Inhabited

namespace FloatText

/-- Removes trailing zero digits, for at most `tries` of them. -/
def trimZeros (d : Decimal) : Nat → Decimal
  | 0 => d
  | tries + 1 =>
    if d.digits != 0 && d.digits % 10 == 0 then trimZeros ⟨d.digits / 10, d.scale + 1⟩ tries else d

def digitChars (n : Nat) : List Char :=
  Nat.toDigits 10 n

def zeros (n : Nat) : List Char :=
  List.replicate n '0'

/-- Digits written in place, with the decimal point after `place` of them. -/
def positional (ds : List Char) (place : Int) : List Char :=
  if place ≤ 0 then '0' :: '.' :: (zeros (-place).toNat ++ ds)
  else
    let p := place.toNat
    if ds.length ≤ p then ds ++ zeros (p - ds.length) ++ ['.', '0']
    else ds.take p ++ '.' :: ds.drop p

/-- An exponent with its sign and at least two digits. -/
def exponentChars (e : Int) : List Char :=
  let ds := digitChars e.natAbs
  (if e < 0 then '-' else '+') :: (if ds.length < 2 then '0' :: ds else ds)

/-- Digits with one of them before the point and an exponent mark. -/
def scientific (ds : List Char) (place : Int) : List Char :=
  let body := match ds with
    | [] => ['0']
    | [d] => [d]
    | d :: rest => d :: '.' :: rest
  body ++ 'e' :: exponentChars (place - 1)

def magnitude (t : FloatText) (d : Decimal) : List Char :=
  let d := trimZeros d 400
  let ds := digitChars d.digits
  let place := if d.digits == 0 then 1 else d.scale + ds.length
  if t.positionalFrom < place && place ≤ t.positionalTo then positional ds place
  else scientific ds place

def write (t : FloatText) (x : Float) : List Char :=
  match Dyadic.classify x with
  | .nan => t.nan.toList
  | .infinite negative => (if negative then ['-'] else []) ++ t.infinite.toList
  | .finite d => (if d.negative then ['-'] else []) ++ t.magnitude d.shortest

end FloatText

/-- The float nearest to `± digits · 10 ^ scale`. Beyond four hundred places the answer is known:
infinity above, zero below. -/
def readFloat (negative : Bool) (digits : Nat) (scale : Int) : Float :=
  let size : Int := (Nat.toDigits 10 digits).length + scale
  let magnitude : Float :=
    if digits == 0 || size < -400 then Float.ofScientific 0 false 0
    else if 400 < size then Float.ofScientific 1 false 400
    else match scale with
      | .ofNat e => Float.ofScientific digits false e
      | .negSucc e => Float.ofScientific digits true (e + 1)
  if negative then -magnitude else magnitude

end CodeAtlas
