import ValueFlow.Table
import ValueFlow.Value
/-!
# The contents of one memory block

A block is a frame or a global.  It knows some cells, each the last thing written at an offset
through a chunk, and a summary: the class of every pointer whose bytes may be anywhere in it.
What is not a known cell reads as a number or a pointer of the summary.
-/
namespace ValueFlow

/-! ## Byte offsets -/

/-- The nearest offset to a byte position: ranges stop at the ends of the 64-bit range. -/
def clampOffset (n : Int) : Int :=
  max (-9223372036854775808) (min n 9223372036854775807)

def advanceOffset? (ofs delta : Int64) : Option Int64 :=
  if clampOffset (ofs.toInt + delta.toInt) = ofs.toInt + delta.toInt then some (ofs + delta) else none

/-! ## Cells -/

structure Cell where
  chunk : Chunk
  value : Value
deriving DecidableEq, Repr, Inhabited

/-- A cell at `start` has a byte in the `size` bytes from `ofs`: of those that start before their end, at most one chunk
before them, it is one that ends after the first. -/
def Cell.touches (c : Cell) (start ofs : Int64) (size : Int) : Bool :=
  clampOffset (ofs.toInt - (Chunk.maxSize - 1)) ≤ start.toInt && start.toInt < clampOffset (ofs.toInt + size) &&
    ofs.toInt < clampOffset (start.toInt + c.chunk.size)

def Cell.inside (c : Cell) (start ofs : Int64) (size : Int) : Bool :=
  ofs.toInt ≤ start.toInt && start.toInt < clampOffset (ofs.toInt + size) &&
    clampOffset (start.toInt + c.chunk.size) ≤ clampOffset (ofs.toInt + size)

structure Block where
  cells : Table Int64 Cell
  summary : Pointer
deriving DecidableEq, Inhabited

namespace Block

def ofSummary (summary : Pointer) : Block := ⟨.empty, summary⟩

def cell? (b : Block) (ofs : Int64) : Option Cell := b.cells.get? ofs

/-! ## Reading -/

def loadAnywhere (b : Block) (c : Chunk) : Value := (Value.mixed b.summary).normalize c

/-- Read at an offset: a cell written there with the same size, else the summary. -/
def load (b : Block) (c : Chunk) (ofs : Int64) : Value :=
  match b.cells.get? ofs with
  | some cell => if cell.chunk.size = c.size then cell.value.normalize c else b.loadAnywhere c
  | none      => b.loadAnywhere c

/-- The known cells inside the `size` bytes from `ofs`, by their distance from it. -/
def cellsWithin (b : Block) (ofs : Int64) (size : Int) : List (Int64 × Cell) :=
  (b.cells.entries.filter (fun e => e.2.inside e.1 ofs size)).map (fun e => (e.1 - ofs, e.2))

/-! ## Writing -/

/-- Forget the cells that the `size` bytes from `ofs` touch; bytes of `prov` may be there now. -/
def invalidate (b : Block) (ofs : Int64) (size : Int) (prov : Pointer) : Block where
  cells := b.cells.filter (fun start cell => !cell.touches start ofs size)
  summary := b.summary.join prov

def store (b : Block) (c : Chunk) (ofs : Int64) (v : Value) : Block :=
  let cleared := b.invalidate ofs c.size v.provenance
  { cleared with cells := cleared.cells.insert ofs ⟨c, v.normalize c⟩ }

def storeAnywhere (b : Block) (prov : Pointer) : Block := ⟨.empty, b.summary.join prov⟩

/-- Put cells at their distances from `ofs`; one beyond the last offset is left to the summary. -/
def storeCells (b : Block) (ofs : Int64) (cells : List (Int64 × Cell)) : Block :=
  cells.foldl (fun b e =>
    match advanceOffset? ofs e.1 with
    | some target => b.store e.2.chunk target e.2.value
    | none        => b) b

/-! ## Order -/

def joinCell (a : Cell) (b? : Option Cell) : Option Cell :=
  b?.bind fun b => if a.chunk = b.chunk then some ⟨a.chunk, a.value.join b.value⟩ else none

/-- Cells stay known where both sides know one of the same chunk. -/
def join (a b : Block) : Block where
  cells := a.cells.filterMap (fun ofs cell => joinCell cell (b.cells.get? ofs))
  summary := a.summary.join b.summary

def le (a b : Block) : Bool := a.join b == b

end Block

abbrev ReadOnly := Table Symbol Block

end ValueFlow
