import ValueFlow.Domain
import ValueFlow.Table
/-!
# Facts for each successor

The result of a transfer function: what flows to each successor of a node.  A successor without an
entry receives `bottom`, so an explicit `bottom` says nothing and two fibers that differ only in such
entries are equal.  `Fiber.top` sends `top` to every successor.
-/
namespace ValueFlow

inductive Fiber (L : Type) where
  | top
  | facts (entries : Table Node L)
deriving Inhabited

namespace Fiber
variable {L : Type}

def empty : Fiber L := facts .empty

def single (n : Node) (x : L) : Fiber L := facts (Table.empty.insert n x)

def isTop : Fiber L → Bool
  | top     => true
  | facts _ => false

/-- Keep what a successor already receives, else send it `x`. -/
def addFirst (f : Fiber L) (n : Node) (x : L) : Fiber L :=
  match f with
  | top     => top
  | facts t => facts (if t.contains n then t else t.insert n x)

/-- Change every entry. -/
def map (f : Fiber L) (g : L → L) : Fiber L :=
  match f with
  | top     => top
  | facts t => facts (t.map g)

variable [Domain L]

/-- Send `x` to a successor as well. -/
def add (f : Fiber L) (n : Node) (x : L) : Fiber L :=
  match f with
  | top     => top
  | facts t => facts (t.insert n (match t.get? n with | some y => Domain.join y x | none => x))

def get (f : Fiber L) (n : Node) : L :=
  match f with
  | top     => Domain.top
  | facts t => (t.get? n).getD Domain.bottom

def join (f g : Fiber L) : Fiber L :=
  match f, g with
  | facts _, facts t => t.entries.foldl (fun f e => f.add e.1 e.2) f
  | _, _             => top

variable [BEq L]

/-- The entries that say something. -/
def support (t : Table Node L) : List (Node × L) :=
  t.entries.filter (fun e => !Domain.isBottom e.2)

instance : BEq (Fiber L) where
  beq
    | top, top         => true
    | facts s, facts t => support s == support t
    | _, _             => false

end Fiber

instance {L : Type} [Domain L] : Domain (Fiber L) where
  bottom := .empty
  top := .top
  join := Fiber.join

end ValueFlow
