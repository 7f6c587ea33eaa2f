import ValueFlow.Operation
import ValueFlow.Solver
/-!
# Instructions, functions and programs

The register-transfer code that is analysed.  A function is an arena of nodes, some of them empty.
-/
namespace ValueFlow

inductive Callee where
  | direct (sym : Symbol)
  | indirect (reg : Reg)
deriving DecidableEq, Repr, Inhabited

inductive BuiltinArg where
  | reg (r : Reg)
  | int (n : Int32)
  | long (n : Int64)
  | addrStack (ofs : Int64)
  | addrGlobal (sym : Symbol) (ofs : Int64)
  | loadStack (chunk : Chunk) (ofs : Int64)
  | loadGlobal (chunk : Chunk) (sym : Symbol) (ofs : Int64)
deriving DecidableEq, Repr, Inhabited

inductive Builtin where
  /-- a runtime function of which nothing is known -/
  | external (name : String)
  | volatileLoad (chunk : Chunk)
  | volatileStore (chunk : Chunk)
  | memcpy (size align : Int64)
  | note (text : String)
  | noteValue (text : String)
  | debug (kind : Nat)
deriving DecidableEq, Repr, Inhabited

inductive Instruction where
  | nop (succ : Node)
  | op (op : Operation) (args : List Reg) (dest : Reg) (succ : Node)
  | load (chunk : Chunk) (addr : Addressing) (args : List Reg) (dest : Reg) (succ : Node)
  | store (chunk : Chunk) (addr : Addressing) (args : List Reg) (src : Reg) (succ : Node)
  | call (callee : Callee) (args : List Reg) (dest : Reg) (succ : Node)
  | tailCall (callee : Callee) (args : List Reg)
  | builtin (builtin : Builtin) (args : List BuiltinArg) (dest : Option Reg) (succ : Node)
  | cond (cond : Condition) (args : List Reg) (ifso ifnot : Node)
  | jumpTable (arg : Reg) (targets : List Node)
  | ret (arg : Option Reg)
deriving DecidableEq, Repr, Inhabited

namespace Instruction

/-- Where control may go next, in the order the instruction lists it. -/
def successors : Instruction → List Node
  | nop succ | op _ _ _ succ | load _ _ _ _ succ | store _ _ _ _ succ | call _ _ _ succ
  | builtin _ _ _ succ  => [succ]
  | cond _ _ ifso ifnot => [ifso, ifnot]
  | jumpTable _ targets => targets
  | tailCall _ _ | ret _ => []

def copySize? : Instruction → Option Int64
  | builtin (.memcpy size _) _ _ _ => some size
  | _                              => none

end Instruction

structure Function where
  name : String
  entry : Node
  params : List Reg
  nodes : Array (Option Instruction)
deriving DecidableEq, Inhabited

namespace Function

def reserve (f : Function) (n : Node) : Function :=
  { f with nodes := f.nodes ++ Array.replicate (n + 1 - f.nodes.size) none }

def place (f : Function) (n : Node) (i : Instruction) : Function :=
  { f.reserve n with nodes := (f.reserve n).nodes.setIfInBounds n (some i) }

def size (f : Function) : Nat := f.nodes.size

def instruction? (f : Function) (n : Node) : Option Instruction := f.nodes[n]?.join

def graph (f : Function) : Graph where
  size := f.size
  successors n := ((f.instruction? n).map Instruction.successors).getD []

/-- What is wrong with the instruction at a node. -/
def nodeFault? (f : Function) (n : Node) : Option GraphFault :=
  match f.instruction? n with
  | none   => none
  | some i =>
    match i.successors.find? (fun s => f.size ≤ s) with
    | some s => some (.danglingSuccessor n s)
    | none   =>
      match i.copySize? with
      | some size => if size < 0 then some (.unsupportedWidth size) else none
      | none      => none

/-- The first thing wrong with a function. -/
def fault? (f : Function) : Option GraphFault :=
  if f.size ≤ f.entry then some (.missingEntry f.entry)
  else (List.range f.size).findSome? f.nodeFault?

end Function

/-- Registers that no execution reads again after a node; what is not known to be dead is not listed. -/
abbrev Liveness := Node → List Reg

namespace Liveness

/-- Nothing is known to be dead. -/
def unknown : Liveness := fun _ => []

def ofEntries (l : List (Node × List Reg)) : Liveness :=
  fun n => (l.filter (fun e => e.1 == n)).flatMap Prod.snd

end Liveness
end ValueFlow
