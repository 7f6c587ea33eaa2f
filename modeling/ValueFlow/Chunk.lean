/-!
# Memory access chunks

How many bytes an access touches, and how a word is cut down to fit them.
-/
namespace ValueFlow

inductive Width where
  | w32
  | w64
deriving DecidableEq, Repr, Inhabited

def Width.bits : Width → Nat
  | .w32 => 32
  | .w64 => 64

/-- Integers of less than a word: one or two bytes, with or without a sign. -/
inductive Narrow where
  | s8
  | u8
  | s16
  | u16
deriving DecidableEq, Repr, Inhabited

/-- Keep the low bytes of a word and extend them again. -/
def Narrow.cut : Narrow → Int32 → Int32
  | .s8,  n => Int32.ofBitVec ((n.toBitVec.setWidth 8).signExtend 32)
  | .u8,  n => Int32.ofBitVec ((n.toBitVec.setWidth 8).setWidth 32)
  | .s16, n => Int32.ofBitVec ((n.toBitVec.setWidth 16).signExtend 32)
  | .u16, n => Int32.ofBitVec ((n.toBitVec.setWidth 16).setWidth 32)

/-- The size and interpretation of one memory access. -/
inductive Chunk where
  | narrow (n : Narrow)
  | int32
  | int64
  | float32
  | float64
  | any32
  | any64
deriving DecidableEq, Repr, Inhabited

namespace Chunk

def size : Chunk → Int
  | narrow .s8  | narrow .u8  => 1
  | narrow .s16 | narrow .u16 => 2
  | int32 | float32 | any32   => 4
  | int64 | float64 | any64   => 8

def pointer : Chunk := int64

def maxSize : Int := 8

theorem size_pos : ∀ c : Chunk, 0 < c.size
  | narrow n                                          => by cases n <;> decide
  | int32 | int64 | float32 | float64 | any32 | any64 => by decide

theorem size_le_maxSize : ∀ c : Chunk, c.size ≤ maxSize
  | narrow n                                          => by cases n <;> decide
  | int32 | int64 | float32 | float64 | any32 | any64 => by decide

def intOfSize? (size : Int) : Option Chunk :=
  if size = 1 then some (narrow .u8)
  else if size = 2 then some (narrow .u16)
  else if size = 4 then some int32
  else if size = 8 then some int64
  else none

end Chunk
end ValueFlow
