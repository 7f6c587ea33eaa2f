import ValueFlow.Initializer
import ValueFlow.Transfer
/-!
# Analysing functions and programs

A function is checked, then solved from the state on entry.  The result answers questions about the
state on entry to each node.
-/
namespace ValueFlow

inductive Failure where
  | graph (fault : GraphFault)
  | initializer (e : InitError)
  | settings (e : SettingsError)
deriving DecidableEq, Repr, Inhabited

def GraphFault.message : GraphFault → String
  | danglingSuccessor n s => "node " ++ n.text ++ " has successor " ++ s.text ++ " outside the graph"
  | missingEntry n        => "entry node " ++ n.text ++ " outside the graph"
  | unsupportedWidth w    => "unsupported access width " ++ Int.repr w.toInt

def InitFault.message : InitFault → String
  | definedTwice    => "symbol defined twice"
  | negativeSpace n => "negative space " ++ Int.repr n.toInt
  | sizeOverflow    => "initializer size overflows"

namespace Failure

def message : Failure → String
  | graph fault   => "Analysis defect: " ++ fault.message
  | initializer e => "Analysis defect: malformed initializer for " ++ e.symbol.text ++ ": " ++ e.fault.message
  | settings e    => "Configuration error: " ++ e.message

/-- The code that was analysed is at fault, not the settings. -/
def isDefect : Failure → Bool
  | settings _ => false
  | _          => true

end Failure

abbrev Analysis := Solution State

namespace Analysis

/-- The value of a register on entry to a node; none reaches a node that is not reached. -/
def valueAt (a : Analysis) (n : Node) (r : Reg) : Value :=
  match (a.state? n).bind State.regs? with
  | some regs => regs.get r
  | none      => .bottom

def pointerClassAt (a : Analysis) (n : Node) (r : Reg) : Pointer := (a.valueAt n r).provenance

def memoryAt? (a : Analysis) (n : Node) : Option Memory := (a.state? n).bind State.mem?

def isReachable (a : Analysis) (n : Node) : Bool := (a.state? n).any State.isReachable

def loadAt (a : Analysis) (ro : ReadOnly) (n : Node) (c : Chunk) (addr : Pointer) : Value :=
  match a.memoryAt? n with
  | some mem => mem.load ro c addr
  | none     => .bottom

end Analysis

/-- Solve a function whose graph and settings are sound. -/
def Function.solve (f : Function) (live : Liveness) (ro : ReadOnly) (s : Settings) :
    Except GraphFault Analysis :=
  Solver.solve f.graph s.maxRequeue.toNat (f.transfer live ro s) f.entry (.entry f.params)

def Function.analyze (f : Function) (live : Liveness) (ro : ReadOnly) (s : Settings) :
    Except Failure Analysis := do
  s.validate.mapError .settings
  match f.fault? with
  | some fault => .error (.graph fault)
  | none       => (f.solve live ro s).mapError .graph

structure Program where
  functions : List Function
  globals : List Global
deriving DecidableEq, Inhabited

structure ProgramAnalysis where
  readOnly : ReadOnly
  /-- in program order, by name -/
  functions : List (String × Analysis)

namespace ProgramAnalysis

/-- The first function with a name. -/
def function? (p : ProgramAnalysis) (name : String) : Option Analysis :=
  (p.functions.find? (fun f => f.1 == name)).map Prod.snd

end ProgramAnalysis

/-- Analyse every function with the liveness at its place in the list; the first failure in program
order counts. -/
def Program.analyze (p : Program) (live : List Liveness) (s : Settings) : Except Failure ProgramAnalysis := do
  s.validate.mapError .settings
  let ro ← (ReadOnly.ofGlobals s.floatConstants p.globals).mapError .initializer
  let functions ← p.functions.zipIdx.mapM fun (f, i) => do
    let a ← f.analyze (live[i]?.getD .unknown) ro s
    return (f.name, a)
  return ⟨ro, functions⟩

end ValueFlow
