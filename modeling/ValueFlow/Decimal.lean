import ValueFlow.Chunk
/-!
# The shortest decimal that reads back

A finite binary number `m * 2^q` is the nearest one to every real in an interval around it.  Its
written form is the decimal with the fewest digits in that interval, found by trying ever finer
grids of powers of ten: on each only the number's two neighbours can lie inside.  All comparisons
are of natural numbers.
-/
namespace ValueFlow

/-- The decimal `digits * 10^exp`. -/
structure Decimal where
  digits : Nat
  exp : Int
deriving DecidableEq, Repr, Inhabited

/-- A binary floating-point number other than a NaN or an infinity, without its sign: `mant * 2^exp`,
and whether the next number below is nearer than the next above. -/
structure BinaryNumber where
  mant : Nat
  exp : Int
  nearBelow : Bool
deriving DecidableEq, Repr, Inhabited

namespace BinaryNumber

/-! The interval of reals that round to a number, in quarters of its unit `2^exp`; both ends are in it
when the mantissa is even. -/

def low (x : BinaryNumber) : Nat := 4 * x.mant - (if x.nearBelow then 1 else 2)

def high (x : BinaryNumber) : Nat := 4 * x.mant + 2

/-! A quarter unit of `x` and a step of `10^k` are as `quarter` to `step`. -/

def quarter (x : BinaryNumber) (k : Int) : Nat := Nat.pow 2 (x.exp - 2).toNat * Nat.pow 10 (-k).toNat

def step (x : BinaryNumber) (k : Int) : Nat := Nat.pow 10 k.toNat * Nat.pow 2 (2 - x.exp).toNat

def readsBack (x : BinaryNumber) (k : Int) (d : Nat) : Bool :=
  let lo := x.low * x.quarter k
  let hi := x.high * x.quarter k
  let point := d * x.step k
  if x.mant % 2 = 0 then lo ≤ point && point ≤ hi else lo < point && point < hi

/-- The neighbour of `x` on the grid of `10^k` that reads back, the nearer one of two; half-way the
larger one. -/
def onGrid? (x : BinaryNumber) (k : Int) : Option Decimal :=
  let v := 4 * x.mant * x.quarter k
  let below := v / x.step k
  let rest := v % x.step k
  match x.readsBack k below, x.readsBack k (below + 1) with
  | true, true   => some ⟨if 2 * rest < x.step k then below else below + 1, k⟩
  | true, false  => some ⟨below, k⟩
  | false, true  => some ⟨below + 1, k⟩
  | false, false => none

/-- A power of ten that `x` does not exceed, within a factor of a hundred. -/
def magnitude (x : BinaryNumber) : Int :=
  let whole := x.mant * Nat.pow 2 x.exp.toNat / Nat.pow 2 (-x.exp).toNat
  if 0 < whole then (Nat.toDigits 10 whole).length
  else 1 - ((Nat.toDigits 10 (Nat.pow 2 (-x.exp).toNat / x.mant)).length : Int)

def exact (x : BinaryNumber) : Decimal :=
  if 0 ≤ x.exp then ⟨x.mant * Nat.pow 2 x.exp.toNat, 0⟩ else ⟨x.mant * Nat.pow 5 (-x.exp).toNat, x.exp⟩

/-- The shortest decimal that reads back as `x`. -/
def shortest (x : BinaryNumber) : Decimal :=
  ((List.range 20).findSome? fun n : Nat => x.onGrid? (x.magnitude - n)).getD x.exact

end BinaryNumber

/-- Positional notation, without an exponent and without a point after a whole number. -/
def Decimal.text (d : Decimal) : String :=
  let ds := Nat.toDigits 10 d.digits
  let places := (-d.exp).toNat
  if 0 ≤ d.exp then String.ofList (ds ++ List.replicate d.exp.toNat '0')
  else if places < ds.length then
    String.ofList (ds.take (ds.length - places) ++ '.' :: ds.drop (ds.length - places))
  else String.ofList ('0' :: '.' :: List.replicate (places - ds.length) '0' ++ ds)

/-! ## Interchange formats -/

structure FloatFormat where
  fractionBits : Nat
  exponentBits : Nat
deriving DecidableEq, Repr, Inhabited

namespace FloatFormat

def single : FloatFormat := ⟨23, 8⟩

def double : FloatFormat := ⟨52, 11⟩

def text (f : FloatFormat) (bits : Nat) : String :=
  let fraction := bits % Nat.pow 2 f.fractionBits
  let exponent := bits / Nat.pow 2 f.fractionBits % Nat.pow 2 f.exponentBits
  let sign := if bits / Nat.pow 2 (f.fractionBits + f.exponentBits) % 2 = 1 then "-" else ""
  -- the exponent of the last place of the smallest normal numbers
  let least : Int := 2 - (Nat.pow 2 (f.exponentBits - 1) : Nat) - f.fractionBits
  if exponent = Nat.pow 2 f.exponentBits - 1 then
    if fraction = 0 then sign ++ "inf" else "NaN"
  else if exponent = 0 then
    if fraction = 0 then sign ++ "0"
    else sign ++ (BinaryNumber.shortest ⟨fraction, least, false⟩).text
  else
    sign ++ (BinaryNumber.shortest
      ⟨Nat.pow 2 f.fractionBits + fraction, least + (exponent - 1 : Nat), fraction = 0⟩).text

end FloatFormat
end ValueFlow
