import ValueFlow.Chunk
/-!
# Floating-point arithmetic on bit patterns

Single- and double-precision numbers are carried as their bits.  Arithmetic rounds to the nearest
number; changing a sign touches the sign bit alone, whatever the other bits are.
-/
namespace ValueFlow

/-- Floating-point operators. -/
inductive FloatOp where
  | add
  | sub
  | mul
  | div
deriving DecidableEq, Repr, Inhabited

namespace FloatBits

def toSingle (x : BitVec 32) : Float32 := Float32.ofBits ⟨x⟩

def ofSingle (x : Float32) : BitVec 32 := x.toBits.toBitVec

def toDouble (x : BitVec 64) : Float := Float.ofBits ⟨x⟩

def ofDouble (x : Float) : BitVec 64 := x.toBits.toBitVec

def applySingle : FloatOp → Float32 → Float32 → Float32
  | .add, x, y => x + y
  | .sub, x, y => x - y
  | .mul, x, y => x * y
  | .div, x, y => x / y

def applyDouble : FloatOp → Float → Float → Float
  | .add, x, y => x + y
  | .sub, x, y => x - y
  | .mul, x, y => x * y
  | .div, x, y => x / y

def apply (op : FloatOp) : (w : Width) → BitVec w.bits → BitVec w.bits → BitVec w.bits
  | .w32, x, y => ofSingle (applySingle op (toSingle x) (toSingle y))
  | .w64, x, y => ofDouble (applyDouble op (toDouble x) (toDouble y))

/-- Flip the sign bit. -/
def neg (w : Width) (x : BitVec w.bits) : BitVec w.bits := x ^^^ BitVec.intMin w.bits

/-- Clear the sign bit. -/
def abs (w : Width) (x : BitVec w.bits) : BitVec w.bits := x &&& ~~~ BitVec.intMin w.bits

/-- How two numbers compare; a NaN compares with nothing. -/
def compare? : (w : Width) → BitVec w.bits → BitVec w.bits → Option Ordering
  | .w32, x, y =>
    let a := toSingle x
    let b := toSingle y
    if a < b then some .lt else if a == b then some .eq else if b < a then some .gt else none
  | .w64, x, y =>
    let a := toDouble x
    let b := toDouble y
    if a < b then some .lt else if a == b then some .eq else if b < a then some .gt else none

def doubleOfSingle (x : BitVec 32) : BitVec 64 := ofDouble (toSingle x).toFloat

def singleOfDouble (x : BitVec 64) : BitVec 32 := ofSingle (toDouble x).toFloat32

def doubleOfInt (n : Int32) : BitVec 64 := ofDouble n.toFloat

def doubleOfLong (n : Int64) : BitVec 64 := ofDouble n.toFloat

/-- Round toward zero, when the result fits 32 bits. -/
def intOfDouble? (x : BitVec 64) : Option Int32 :=
  let a := toDouble x
  if a > -2147483649.0 && a < 2147483648.0 then some a.toInt32 else none

/-- Round toward zero, when the result fits 64 bits. -/
def longOfDouble? (x : BitVec 64) : Option Int64 :=
  let a := toDouble x
  if a ≥ -9223372036854775808.0 && a < 9223372036854775808.0 then some a.toInt64 else none

end FloatBits
end ValueFlow
