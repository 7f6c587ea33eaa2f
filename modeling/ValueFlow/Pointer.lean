import ValueFlow.Domain
import ValueFlow.Ids
/-!
# Pointer classes

What is known of where a pointer may point.  Besides `bottom`, which no pointer belongs to, the
classes form a tree with `top` at the root:

    top ─┬─ anyStack ── stackAt o
         └─ nonStack ── anyGlobal ── anyOffsetOf s ── globalAt s o

Order, join and disjointness each look at the shapes of the two classes, without the tree and without
one another; that all three follow it is proved apart.
-/
namespace ValueFlow

/-- A set of addresses: within the function's own stack frame, within globals, or anywhere. -/
inductive Pointer where
  /-- no address -/
  | bottom
  /-- one offset of the current frame -/
  | stackAt (ofs : Int64)
  /-- one offset of one global -/
  | globalAt (sym : Symbol) (ofs : Int64)
  /-- the current frame -/
  | anyStack
  /-- one global -/
  | anyOffsetOf (sym : Symbol)
  /-- any global -/
  | anyGlobal
  /-- anything but the current frame -/
  | nonStack
  | top
deriving DecidableEq, Repr, Inhabited

namespace Pointer

/-- Every address of the first is one of the second. -/
def le : Pointer → Pointer → Bool
  | bottom, _ | _, top => true
  | stackAt a, stackAt b => a == b
  | stackAt _, anyStack | anyStack, anyStack => true
  | globalAt s a, globalAt t b => s == t && a == b
  | globalAt s _, anyOffsetOf t | anyOffsetOf s, anyOffsetOf t => s == t
  | globalAt _ _, anyGlobal | anyOffsetOf _, anyGlobal | anyGlobal, anyGlobal => true
  | globalAt _ _, nonStack | anyOffsetOf _, nonStack | anyGlobal, nonStack | nonStack, nonStack => true
  | _, _ => false

def join : Pointer → Pointer → Pointer
  | bottom, q => q
  | p, bottom => p
  | top, _ | _, top => top
  | stackAt a, stackAt b => if a = b then stackAt a else anyStack
  | stackAt _, anyStack | anyStack, stackAt _ | anyStack, anyStack => anyStack
  | stackAt _, _ | anyStack, _ | _, stackAt _ | _, anyStack => top
  | globalAt s a, globalAt t b => if s ≠ t then anyGlobal else if a = b then globalAt s a else anyOffsetOf s
  | globalAt s _, anyOffsetOf t | anyOffsetOf s, globalAt t _ | anyOffsetOf s, anyOffsetOf t =>
    if s = t then anyOffsetOf s else anyGlobal
  | nonStack, _ | _, nonStack => nonStack
  | _, _ => anyGlobal

/-- No address belongs to both. -/
def disjoint : Pointer → Pointer → Bool
  | bottom, _ | _, bottom => true
  | stackAt a, stackAt b => a != b
  | stackAt _, globalAt _ _ | stackAt _, anyOffsetOf _ | stackAt _, anyGlobal | stackAt _, nonStack
  | anyStack, globalAt _ _ | anyStack, anyOffsetOf _ | anyStack, anyGlobal | anyStack, nonStack
  | globalAt _ _, stackAt _ | anyOffsetOf _, stackAt _ | anyGlobal, stackAt _ | nonStack, stackAt _
  | globalAt _ _, anyStack | anyOffsetOf _, anyStack | anyGlobal, anyStack | nonStack, anyStack => true
  | globalAt s a, globalAt t b => s != t || a != b
  | globalAt s _, anyOffsetOf t | anyOffsetOf s, globalAt t _ | anyOffsetOf s, anyOffsetOf t => s != t
  | _, _ => false

def widen : Pointer → Pointer
  | stackAt _    => anyStack
  | globalAt s _ => anyOffsetOf s
  | p            => p

/-- Move by `delta` bytes; offsets wrap around. -/
def shift (delta : Int64) : Pointer → Pointer
  | stackAt o    => stackAt (o + delta)
  | globalAt s o => globalAt s (o + delta)
  | p            => p

def excludesStack (p : Pointer) : Bool := p.le nonStack

def isExact : Pointer → Bool
  | stackAt _ | globalAt _ _ => true
  | _                        => false

def text : Pointer → String
  | bottom        => "⊥_p"
  | stackAt o     => "stack+" ++ Int.repr o.toInt
  | globalAt s o  => s.text ++ "+" ++ Int.repr o.toInt
  | anyStack      => "stack+?"
  | anyOffsetOf s => s.text ++ "+?"
  | anyGlobal     => "glob"
  | nonStack      => "nonstack"
  | top           => "⊤_p"

end Pointer

instance : Domain Pointer where
  bottom := .bottom
  top := .top
  join := Pointer.join

end ValueFlow
