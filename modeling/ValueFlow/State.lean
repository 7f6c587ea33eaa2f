import ValueFlow.Memory
import ValueFlow.Value.Text
/-!
# Registers and states

A register file is total: every register without an entry of its own holds `unmapped`.  Entries that
would say the same as `unmapped` are not kept.  A state is what is known where control enters a
node: nothing reaches it, or a register file and a memory.
-/
namespace ValueFlow

structure Registers where
  values : Table Reg Value
  unmapped : Value
deriving DecidableEq, Inhabited

namespace Registers

/-- No register was written. -/
def unwritten : Registers := ⟨.empty, .bottom⟩

def top : Registers := ⟨.empty, .top⟩

def get (rs : Registers) (r : Reg) : Value := (rs.values.get? r).getD rs.unmapped

def getAll (rs : Registers) (l : List Reg) : List Value := l.map rs.get

def set (rs : Registers) (r : Reg) (v : Value) : Registers :=
  { rs with values := if v = rs.unmapped then rs.values.erase r else rs.values.insert r v }

/-- On entry to a function: a parameter is a number or points outside the new frame. -/
def entry (params : List Reg) : Registers :=
  params.foldl (fun rs r => rs.set r (.numOrPtr .nonStack)) unwritten

/-- Forget registers: no later execution reads them. -/
def kill (rs : Registers) (dead : List Reg) : Registers :=
  dead.foldl (fun rs r => rs.set r .bottom) rs

def join (a b : Registers) : Registers :=
  (a.values.keys ++ b.values.keys).foldl (fun rs r => rs.set r ((a.get r).join (b.get r)))
    ⟨.empty, a.unmapped.join b.unmapped⟩

def le (a b : Registers) : Bool := a.join b == b

def text (rs : Registers) : String :=
  let shown := rs.values.entries.map (fun e => e.1.text ++ ": " ++ e.2.text)
  "\x7b" ++ String.intercalate ", " shown ++ "; else " ++ rs.unmapped.text ++ "\x7d"

end Registers

/-- What is known where control enters a node. -/
inductive State where
  | unreachable
  | live (regs : Registers) (mem : Memory)
deriving DecidableEq, Inhabited

namespace State

def entry (params : List Reg) : State := live (.entry params) .entry

def top : State := live .top .top

def regs? : State → Option Registers
  | unreachable => none
  | live regs _ => some regs

def mem? : State → Option Memory
  | unreachable => none
  | live _ mem  => some mem

def isReachable : State → Bool
  | unreachable => false
  | live _ _    => true

def without (dead : List Reg) : State → State
  | unreachable   => unreachable
  | live regs mem => live (regs.kill dead) mem

def join : State → State → State
  | unreachable, s            => s
  | s, unreachable            => s
  | live r₁ m₁, live r₂ m₂ => live (r₁.join r₂) (m₁.join m₂)

end State

instance : Domain State where
  bottom := .unreachable
  top := .top
  join := State.join

end ValueFlow
