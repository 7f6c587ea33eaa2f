import ValueFlow.Condition
/-!
# Operators over abstract values

Known operands fold to the exact result.  A pointer plus or minus a known number has its offset
moved.  Anything else becomes an unknown number of the result's kind that keeps the provenance of
its operands; floating-point results keep none.
-/
namespace ValueFlow

inductive ArithOp where
  | add
  | sub
  | mul
  | divs
  | divu
  | mods
  | modu
  | and
  | or
  | xor
deriving DecidableEq, Repr, Inhabited

/-- Shifts of a word by a 32-bit amount. -/
inductive ShiftOp where
  | shl
  | shr
  | shru
deriving DecidableEq, Repr, Inhabited

inductive Unary where
  | neg (w : Width)
  | not (w : Width)
  | narrow (n : Narrow)
  | negFloat (w : Width)
  | absFloat (w : Width)
  | longOfInt
  | longOfIntUnsigned
  | intOfLong
  | floatOfSingle
  | singleOfFloat
  | intOfFloat
  | floatOfInt
  | longOfFloat
  | floatOfLong
deriving DecidableEq, Repr, Inhabited

inductive Binary where
  | arith (w : Width) (op : ArithOp)
  | shift (w : Width) (op : ShiftOp)
  | float (w : Width) (op : FloatOp)
deriving DecidableEq, Repr, Inhabited

inductive Operation where
  | move
  | intConst (n : Int32)
  | longConst (n : Int64)
  | singleConst (bits : UInt32)
  | floatConst (bits : UInt64)
  | addrSymbol (sym : Symbol) (ofs : Int64)
  | addrStack (ofs : Int64)
  | unary (op : Unary)
  | binary (op : Binary)
  | addImmLong (n : Int64)
  | cmp (c : Condition)
deriving DecidableEq, Repr, Inhabited

inductive Addressing where
  | indexed (ofs : Int64)
  | indexed2
  | global (sym : Symbol) (ofs : Int64)
  | stack (ofs : Int64)
deriving DecidableEq, Repr, Inhabited

/-! ## On words -/

/-- Integer operators; a division that has no result gives none. -/
def ArithOp.fold {n : Nat} : ArithOp → BitVec n → BitVec n → Option (BitVec n)
  | .add,  x, y => some (x + y)
  | .sub,  x, y => some (x - y)
  | .mul,  x, y => some (x * y)
  | .divs, x, y => if y = 0 ∨ (x = BitVec.intMin n ∧ y = -1) then none else some (x.sdiv y)
  | .divu, x, y => if y = 0 then none else some (x / y)
  | .mods, x, y => if y = 0 ∨ (x = BitVec.intMin n ∧ y = -1) then none else some (x.srem y)
  | .modu, x, y => if y = 0 then none else some (x % y)
  | .and,  x, y => some (x &&& y)
  | .or,   x, y => some (x ||| y)
  | .xor,  x, y => some (x ^^^ y)

/-- Shifts; an amount as large as the word has no result. -/
def ShiftOp.fold {n : Nat} (op : ShiftOp) (x : BitVec n) (amount : Nat) : Option (BitVec n) :=
  if amount < n then
    some (match op with
      | .shl  => x <<< amount
      | .shr  => x.sshiftRight amount
      | .shru => x >>> amount)
  else none

namespace Value

def word : (w : Width) → BitVec w.bits → Value
  | .w32, x => int (Int32.ofBitVec x)
  | .w64, x => long (Int64.ofBitVec x)

def word? : (w : Width) → Value → Option (BitVec w.bits)
  | .w32, int n  => some n.toBitVec
  | .w64, long n => some n.toBitVec
  | _, _         => none

def real : (w : Width) → BitVec w.bits → Value
  | .w32, x => single (UInt32.ofBitVec x)
  | .w64, x => float (UInt64.ofBitVec x)

def real? : (w : Width) → Value → Option (BitVec w.bits)
  | .w32, single x => some x.toBitVec
  | .w64, float x  => some x.toBitVec
  | _, _           => none

/-! ## Results that are not folded -/

/-- An unknown integer made from `v`. -/
def degrade (k : Kind) (v : Value) : Value :=
  if v = bottom then bottom else unknown k v.provenance

/-- An unknown number made from `v`, in which no pointer survives. -/
def degradeScalar (k : Kind) (v : Value) : Value :=
  if v = bottom then bottom else num k

def degradeTwo (k : Kind) (a b : Value) : Value :=
  unknown k (a.provenance.join b.provenance)

/-! ## Folding -/

def mapWord (w : Width) (f : BitVec w.bits → BitVec w.bits) (v : Value) : Value :=
  match v.word? w with
  | some x => word w (f x)
  | none   => v.degrade w.intKind

def mapReal (w : Width) (f : BitVec w.bits → BitVec w.bits) (v : Value) : Value :=
  match v.real? w with
  | some x => real w (f x)
  | none   => v.degradeScalar w.floatKind

def foldWords (w : Width) (f : BitVec w.bits → BitVec w.bits → Option (BitVec w.bits)) (a b : Value) : Value :=
  if a = bottom ∨ b = bottom then bottom
  else match a.word? w, b.word? w with
    | some x, some y => ((f x y).map (word w)).getD (num w.intKind)
    | _, _           => degradeTwo w.intKind a b

def foldShift (w : Width) (op : ShiftOp) (a b : Value) : Value :=
  if a = bottom ∨ b = bottom then bottom
  else match a.word? w, b.word? .w32 with
    | some x, some y => ((op.fold x y.toNat).map (word w)).getD (num w.intKind)
    | _, _           => degradeTwo w.intKind a b

def foldReals (w : Width) (f : BitVec w.bits → BitVec w.bits → BitVec w.bits) (a b : Value) : Value :=
  if a = bottom ∨ b = bottom then bottom
  else match a.real? w, b.real? w with
    | some x, some y => real w (f x y)
    | _, _           => num w.floatKind

/-! ## Pointers plus numbers -/

def offset? : Value → Option Int64
  | int n  => some n.toInt64
  | long n => some n
  | _      => none

/-- Something that may be a number and cannot be a pointer. -/
def isPlainNumber (v : Value) : Bool := v != bottom && v.provenance == .bottom

/-- A pointer of class `p` moved by the number `n`. -/
def moved (p : Pointer) (n : Value) : Value :=
  match n.offset? with
  | some delta => ptr (p.shift delta)
  | none       => ptr p.widen

def movedBack (p : Pointer) (n : Value) : Value :=
  match n.offset? with
  | some delta => ptr (p.shift (-delta))
  | none       => ptr p.widen

/-- Sum of two words, either of which may be a pointer. -/
def add (w : Width) (a b : Value) : Value :=
  if a = bottom ∨ b = bottom then bottom
  else match a, b with
    | ptr p, ptr q =>
      if (ptr q).isPlainNumber then moved p (ptr q)
      else if (ptr p).isPlainNumber then moved q (ptr p)
      else foldWords w ArithOp.add.fold a b
    | ptr p, n     => if n.isPlainNumber then moved p n else foldWords w ArithOp.add.fold a b
    | n, ptr p     => if n.isPlainNumber then moved p n else foldWords w ArithOp.add.fold a b
    | _, _         => foldWords w ArithOp.add.fold a b

/-- The distance between two pointers into one block, as a 64-bit number. -/
def distance? : Value → Value → Option Int64
  | ptr (.stackAt x), ptr (.stackAt y)         => some (x - y)
  | ptr (.globalAt s x), ptr (.globalAt t y)   => if s = t then some (x - y) else none
  | _, _                                       => none

/-- Difference of two words, the first of which may be a pointer, or both into one block. -/
def sub (w : Width) (a b : Value) : Value :=
  if a = bottom ∨ b = bottom then bottom
  else match a with
    | ptr p =>
      if b.isPlainNumber then movedBack p b
      else match w, distance? a b with
        | .w64, some d => long d
        | _, _         => foldWords w ArithOp.sub.fold a b
    | _     => foldWords w ArithOp.sub.fold a b

end Value

/-! ## Operators -/

def Unary.eval (op : Unary) (v : Value) : Value :=
  match op with
  | .neg w             => v.mapWord w (fun x => -x)
  | .not w             => v.mapWord w (fun x => ~~~ x)
  | .narrow n          => match v with | .int x => .int (n.cut x) | _ => v.degrade .int
  | .negFloat w        => v.mapReal w (FloatBits.neg w)
  | .absFloat w        => v.mapReal w (FloatBits.abs w)
  | .longOfInt         => match v with | .int n => .long n.toInt64 | _ => v.degrade .long
  | .longOfIntUnsigned => match v with | .int n => .word .w64 (n.toBitVec.setWidth 64) | _ => v.degrade .long
  | .intOfLong         => match v with | .long n => .int n.toInt32 | _ => v.degrade .int
  | .floatOfSingle     =>
    match v with | .single x => .real .w64 (FloatBits.doubleOfSingle x.toBitVec) | _ => v.degradeScalar .float
  | .singleOfFloat     =>
    match v with | .float x => .real .w32 (FloatBits.singleOfDouble x.toBitVec) | _ => v.degradeScalar .single
  | .intOfFloat        =>
    match v with
    | .float x => ((FloatBits.intOfDouble? x.toBitVec).map .int).getD (.num .int)
    | _        => v.degradeScalar .int
  | .floatOfInt        => match v with | .int n => .real .w64 (FloatBits.doubleOfInt n) | _ => v.degradeScalar .float
  | .longOfFloat       =>
    match v with
    | .float x => ((FloatBits.longOfDouble? x.toBitVec).map .long).getD (.num .long)
    | _        => v.degradeScalar .long
  | .floatOfLong       => match v with | .long n => .real .w64 (FloatBits.doubleOfLong n) | _ => v.degradeScalar .float

def Binary.eval (op : Binary) (a b : Value) : Value :=
  match op with
  | .arith w .add => Value.add w a b
  | .arith w .sub => Value.sub w a b
  | .arith w op   => Value.foldWords w op.fold a b
  | .shift w op   => Value.foldShift w op a b
  | .float w op   => Value.foldReals w (FloatBits.apply op w) a b

def Verdict.value : Verdict → Value
  | .contradiction => .bottom
  | .yes           => .int 1
  | .no            => .int 0
  | .either        => .num .int

def Operation.eval (op : Operation) (args : List Value) : Value :=
  match op with
  | .move             => argument args 0
  | .intConst n       => .int n
  | .longConst n      => .long n
  | .singleConst bits => .single bits
  | .floatConst bits  => .float bits
  | .addrSymbol s ofs => .ptr (.globalAt s ofs)
  | .addrStack ofs    => .ptr (.stackAt ofs)
  | .unary op         => op.eval (argument args 0)
  | .binary op        => op.eval (argument args 0) (argument args 1)
  | .addImmLong n     => Value.add .w64 (argument args 0) (.long n)
  | .cmp c            => (c.eval args).value

def Addressing.eval (a : Addressing) (args : List Value) : Value :=
  match a with
  | .indexed ofs  => Value.add .w64 (argument args 0) (.long ofs)
  | .indexed2     => Value.add .w64 (argument args 0) (argument args 1)
  | .global s ofs => .ptr (.globalAt s ofs)
  | .stack ofs    => .ptr (.stackAt ofs)

end ValueFlow
