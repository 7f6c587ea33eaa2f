import ValueFlow.Block
/-!
# Globals and their initial contents

A read-only global keeps its initializer for the whole run, so loads from it can be answered.  The
items of an initializer are laid out one after the other from offset 0.
-/
namespace ValueFlow

inductive InitItem where
  | int8 (n : Int32)
  | int16 (n : Int32)
  | int32 (n : Int32)
  | int64 (n : Int64)
  | float32 (bits : UInt32)
  | float64 (bits : UInt64)
  /-- a gap of `n` bytes -/
  | space (n : Int64)
  | addrOf (sym : Symbol) (ofs : Int64)
deriving DecidableEq, Repr, Inhabited

structure Global where
  symbol : Symbol
  name : String
  readonly : Bool
  volatile : Bool
  /-- empty for a declaration -/
  init : List InitItem
deriving DecidableEq, Repr, Inhabited

inductive InitFault where
  | definedTwice
  | negativeSpace (n : Int64)
  | sizeOverflow
deriving DecidableEq, Repr, Inhabited

structure InitError where
  symbol : Symbol
  fault : InitFault
deriving DecidableEq, Repr, Inhabited

namespace InitItem

def size : InitItem → Int
  | int8 _                      => 1
  | int16 _                     => 2
  | int32 _ | float32 _         => 4
  | int64 _ | float64 _ | addrOf _ _ => 8
  | space n                     => max n.toInt 0

/-- What an item puts at its offset.  Without `floats` a floating-point constant is only a number. -/
def cell? (floats : Bool) : InitItem → Option Cell
  | int8 n       => some ⟨.narrow .u8, .int n⟩
  | int16 n      => some ⟨.narrow .u16, .int n⟩
  | int32 n      => some ⟨.int32, .int n⟩
  | int64 n      => some ⟨.int64, .long n⟩
  | float32 bits => some ⟨.float32, if floats then .single bits else .num .single⟩
  | float64 bits => some ⟨.float64, if floats then .float bits else .num .float⟩
  | addrOf s ofs => some ⟨.pointer, .ptr (.globalAt s ofs)⟩
  | space _      => none

def negativeSpace? : InitItem → Option Int64
  | space n => if n < 0 then some n else none
  | _       => none

end InitItem

namespace Global

/-- The initializer fixes the contents: it is neither missing nor a single gap, which another
definition may fill. -/
def isDefinitive (g : Global) : Bool :=
  match g.init with
  | [] | [.space _] => false
  | _               => true

/-- The size of the initializer, if the last offset is one. -/
def initSize? (g : Global) : Option Int :=
  let total := g.init.foldr (fun i n => i.size + n) 0
  if total ≤ 9223372036854775807 then some total else none

def initFault? (g : Global) : Option InitFault :=
  match g.init.findSome? InitItem.negativeSpace? with
  | some n => some (.negativeSpace n)
  | none   => if g.initSize?.isNone then some .sizeOverflow else none

/-- Its contents are known throughout the run. -/
def isTracked (g : Global) : Bool := g.readonly && !g.volatile && g.isDefinitive

def layOut (floats : Bool) (b : Block) (ofs : Int) : List InitItem → Block
  | []        => b
  | i :: rest =>
    let b := match i.cell? floats with
      | some c => b.store c.chunk (Int64.ofInt ofs) c.value
      | none   => b
    layOut floats b (ofs + i.size) rest

def contents (floats : Bool) (g : Global) : Block := layOut floats (.ofSummary .bottom) 0 g.init

end Global

namespace ReadOnly

/-- Add the globals one by one; `seen` are the symbols before them. -/
def extend (floats : Bool) (seen : List Symbol) (t : ReadOnly) : List Global → Except InitError ReadOnly
  | []        => .ok t
  | g :: rest =>
    if seen.contains g.symbol then .error ⟨g.symbol, .definedTwice⟩
    else match g.initFault? with
      | some fault => .error ⟨g.symbol, fault⟩
      | none       =>
        extend floats (g.symbol :: seen)
          (if g.isTracked then t.insert g.symbol (g.contents floats) else t) rest

/-- The contents of every read-only global of a program.  Every initializer is checked. -/
def ofGlobals (floats : Bool) (globals : List Global) : Except InitError ReadOnly :=
  extend floats [] .empty globals

end ReadOnly
end ValueFlow
