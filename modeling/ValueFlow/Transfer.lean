import ValueFlow.Function
import ValueFlow.Settings
import ValueFlow.State
/-!
# What each instruction does to a state

The state on entry to a node becomes the states handed to its successors.  A node that is not
reached, or that has no instruction, hands on nothing.
-/
namespace ValueFlow

def BuiltinArg.eval (a : BuiltinArg) (regs : Registers) (mem : Memory) (ro : ReadOnly) : Value :=
  match a with
  | reg r              => regs.get r
  | int n              => .int n
  | long n             => .long n
  | addrStack ofs      => .ptr (.stackAt ofs)
  | addrGlobal s ofs   => .ptr (.globalAt s ofs)
  | loadStack c ofs    => mem.load ro c (.stackAt ofs)
  | loadGlobal c s ofs => mem.load ro c (.globalAt s ofs)

/-- The result of a builtin on argument values, and the memory after it.  A volatile location may
hold what it held before, or what the environment put there. -/
def Builtin.eval (b : Builtin) (args : List Value) (mem : Memory) (ro : ReadOnly) (floor : Floor) :
    Value × Memory :=
  match b with
  | external _ =>
    let kind := mem.classifyCall args
    (kind.result, mem.afterCall kind)
  | volatileLoad c =>
    let loaded := mem.load ro c (argument args 0).addressClass
    (loaded.join ((Value.mixed floor.pointer).normalize c), mem)
  | volatileStore c =>
    (.top, (mem.store c (argument args 0).addressClass (argument args 1)).join mem)
  | memcpy size _ =>
    (.top, if 0 < size then
        mem.copy ro (argument args 0).addressClass (argument args 1).addressClass size.toInt
      else mem)
  | note _ | noteValue _ | debug _ => (.top, mem)

/-- What one instruction hands to each successor. -/
def Instruction.transfer (i : Instruction) (ro : ReadOnly) (floor : Floor) (regs : Registers) (mem : Memory) :
    Fiber State :=
  match i with
  | nop succ                    => .single succ (.live regs mem)
  | op o args dest succ         => .single succ (.live (regs.set dest (o.eval (regs.getAll args))) mem)
  | load c addr args dest succ  =>
    let address := (addr.eval (regs.getAll args)).addressClass
    .single succ (.live (regs.set dest (mem.load ro c address)) mem)
  | store c addr args src succ  =>
    let address := (addr.eval (regs.getAll args)).addressClass
    .single succ (.live regs (mem.store c address (regs.get src)))
  | call _ args dest succ       =>
    let kind := mem.classifyCall (regs.getAll args)
    .single succ (.live (regs.set dest kind.result) (mem.afterCall kind))
  | tailCall _ _ | ret _        => .empty
  | builtin b args dest succ    =>
    let (result, after) := b.eval (args.map (·.eval regs mem ro)) mem ro floor
    .single succ (.live (match dest with | some r => regs.set r result | none => regs) after)
  | cond c args ifso ifnot      =>
    let verdict := c.eval (regs.getAll args)
    let taken : Fiber State := if verdict.mayBeTrue then Fiber.empty.add ifso (.live regs mem) else .empty
    if verdict.mayBeFalse then taken.add ifnot (.live regs mem) else taken
  | jumpTable _ targets         => targets.foldl (fun f n => f.addFirst n (.live regs mem)) .empty

def Function.transfer (f : Function) (live : Liveness) (ro : ReadOnly) (s : Settings) (n : Node) :
    State → Fiber State
  | .unreachable   => .empty
  | .live regs mem =>
    match f.instruction? n with
    | none   => .empty
    | some i =>
      let fiber := i.transfer ro s.volatileFloor regs mem
      if s.livenessTrim && !(live n).isEmpty then fiber.map (·.without (live n)) else fiber

end ValueFlow
