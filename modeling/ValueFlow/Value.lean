import ValueFlow.Chunk
import ValueFlow.Pointer
/-!
# Abstract values

What is known of the contents of a register or a memory cell: a constant, a number of one kind, a
pointer of one class, or a number or pointer.  Floating-point constants are bit patterns, so that a
NaN equals itself and a join can be compared with what was there before.
-/
namespace ValueFlow

inductive Kind where
  | int
  | long
  | single
  | float
deriving DecidableEq, Repr, Inhabited

def Width.intKind : Width → Kind
  | .w32 => .int
  | .w64 => .long

def Width.floatKind : Width → Kind
  | .w32 => .single
  | .w64 => .float

inductive Value where
  | bottom
  | int (n : Int32)
  | long (n : Int64)
  /-- a 32-bit floating-point constant, by its bits -/
  | single (bits : UInt32)
  /-- a 64-bit floating-point constant, by its bits -/
  | float (bits : UInt64)
  /-- some number of a kind -/
  | num (k : Kind)
  /-- some pointer of a class -/
  | ptr (p : Pointer)
  /-- some number, or some pointer of a class -/
  | numOrPtr (p : Pointer)
  | top
deriving DecidableEq, Repr, Inhabited

namespace Value

/-! ## Canonical constructors -/

/-- A pointer of class `p`; there is none in the empty class. -/
def ofPointer (p : Pointer) : Value :=
  if p = .bottom then bottom else ptr p

/-- A number or a pointer of class `p`; with every pointer that is every value. -/
def mixed (p : Pointer) : Value :=
  if p = .top then top else numOrPtr p

/-- Some number of kind `k`, or bytes of a pointer of class `prov`. -/
def unknown (k : Kind) (prov : Pointer) : Value :=
  if prov = .bottom then num k else mixed prov.widen

/-! ## Views -/

def kind? : Value → Option Kind
  | int _ | num .int       => some .int
  | long _ | num .long     => some .long
  | single _ | num .single => some .single
  | float _ | num .float   => some .float
  | _                      => none

/-- The class of every pointer the value may be. -/
def provenance : Value → Pointer
  | ptr p | numOrPtr p => p
  | top                => .top
  | _                  => .bottom

/-- The class of addresses reached through the value.  A number that is used as an address may reach
anything. -/
def addressClass : Value → Pointer
  | bottom => .bottom
  | ptr p  => p
  | v      => if v.provenance = .bottom then .top else v.provenance

/-! ## Order -/

def join : Value → Value → Value
  | bottom, b     => b
  | a, bottom     => a
  | ptr p, ptr q  => ptr (p.join q)
  | a, b          =>
    match a.kind?, b.kind? with
    | some j, some k => if a = b then a else if j = k then num j else numOrPtr .bottom
    | _, _           => mixed (a.provenance.join b.provenance)

def le (a b : Value) : Bool := a.join b == b

/-! ## Reading through a chunk -/

/-- Read back as a 32-bit integer, a known one through `cut`. -/
def asInt (cut : Int32 → Int32) : Value → Value
  | bottom => bottom
  | top    => top
  | int n  => int (cut n)
  | v      => unknown .int v.provenance

def normalize (v : Value) : Chunk → Value
  | .narrow n => v.asInt n.cut
  | .int32    => v.asInt id
  | .int64    =>
    match v with
    | numOrPtr .bottom                                       => num .long
    | bottom | top | long _ | num .long | ptr _ | numOrPtr _ => v
    | _                                                      => num .long
  | .float32  =>
    match v with
    | bottom | single _ | num .single => v
    | _                               => num .single
  | .float64  =>
    match v with
    | bottom | float _ | num .float => v
    | _                             => num .float
  | .any32    =>
    match v with
    | bottom | top | int _ | single _ | num .int | num .single => v
    | ptr p | numOrPtr p                                       => mixed p.widen
    | _                                                        => numOrPtr .bottom
  | .any64    => v

end Value

instance : Domain Value where
  bottom := .bottom
  top := .top
  join := Value.join

end ValueFlow
