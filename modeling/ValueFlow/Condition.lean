import ValueFlow.FloatBits
import ValueFlow.Value
/-!
# Comparisons and branch conditions

A condition over abstract arguments is decided, undecided, or contradictory: an argument that no
execution supplies lets neither branch be taken.
-/
namespace ValueFlow

inductive Comparison where
  | eq
  | ne
  | lt
  | le
  | gt
  | ge
deriving DecidableEq, Repr, Inhabited

namespace Comparison

def negate : Comparison → Comparison
  | eq => ne
  | ne => eq
  | lt => ge
  | le => gt
  | gt => le
  | ge => lt

/-- Whether the comparison holds of two things that compare so; `none` says they are not comparable. -/
def holds : Comparison → Option Ordering → Bool
  | eq, o => o == some .eq
  | ne, o => o != some .eq
  | lt, o => o == some .lt
  | le, o => o == some .lt || o == some .eq
  | gt, o => o == some .gt
  | ge, o => o == some .gt || o == some .eq

def signed {n : Nat} (c : Comparison) (x y : BitVec n) : Bool := c.holds (some (compare x.toInt y.toInt))

def unsigned {n : Nat} (c : Comparison) (x y : BitVec n) : Bool := c.holds (some (compare x.toNat y.toNat))

end Comparison

/-- What a branch tests. -/
inductive Condition where
  | cmp (c : Comparison)
  | cmpu (c : Comparison)
  | cmpImm (c : Comparison) (n : Int32)
  | cmpl (c : Comparison)
  | cmplu (c : Comparison)
  | cmpluImm (c : Comparison) (n : Int64)
  | cmpf (c : Comparison)
  | notCmpf (c : Comparison)
  | cmpfs (c : Comparison)
  | maskZero (m : Int32)
  | maskNotZero (m : Int32)
deriving DecidableEq, Repr, Inhabited

/-- What is known of a condition's truth. -/
inductive Verdict where
  /-- no execution evaluates it -/
  | contradiction
  | yes
  | no
  | either
deriving DecidableEq, Repr, Inhabited

namespace Verdict

def ofBool : Bool → Verdict
  | true  => yes
  | false => no

def negate : Verdict → Verdict
  | yes => no
  | no  => yes
  | v   => v

def mayBeTrue : Verdict → Bool
  | yes | either => true
  | _            => false

def mayBeFalse : Verdict → Bool
  | no | either => true
  | _           => false

end Verdict

/-- The argument at a position; one that was not passed may be anything. -/
def argument (args : List Value) (i : Nat) : Value := args[i]?.getD .top

namespace Condition

/-- How many arguments the condition reads. -/
def arity : Condition → Nat
  | cmpImm _ _ | cmpluImm _ _ | maskZero _ | maskNotZero _ => 1
  | _                                                      => 2

/-- Comparing two addresses that differ. -/
def differing : Comparison → Verdict
  | .eq => .no
  | .ne => .yes
  | _   => .either

def testInts (f : Int32 → Int32 → Bool) : Value → Value → Verdict
  | .int x, .int y => .ofBool (f x y)
  | _, _           => .either

def testInt (f : Int32 → Bool) : Value → Verdict
  | .int x => .ofBool (f x)
  | _      => .either

def testLongs (f : Int64 → Int64 → Bool) : Value → Value → Verdict
  | .long x, .long y => .ofBool (f x y)
  | _, _             => .either

/-- Unsigned 64-bit comparison.  Pointers that share no address differ, and a pointer is never null. -/
def testAddresses (c : Comparison) : Value → Value → Verdict
  | .long x, .long y => .ofBool (c.unsigned x.toBitVec y.toBitVec)
  | .ptr p, .ptr q   => if p.disjoint q then differing c else .either
  | .ptr _, .long y  => if y = 0 then differing c else .either
  | .long x, .ptr _  => if x = 0 then differing c else .either
  | _, _             => .either

def testDoubles (c : Comparison) : Value → Value → Verdict
  | .float x, .float y => .ofBool (c.holds (FloatBits.compare? .w64 x.toBitVec y.toBitVec))
  | _, _               => .either

def testSingles (c : Comparison) : Value → Value → Verdict
  | .single x, .single y => .ofBool (c.holds (FloatBits.compare? .w32 x.toBitVec y.toBitVec))
  | _, _                 => .either

/-- The condition on arguments that executions supply. -/
def test (c : Condition) (a b : Value) : Verdict :=
  match c with
  | cmp c         => testInts (fun x y => c.signed x.toBitVec y.toBitVec) a b
  | cmpu c        => testInts (fun x y => c.unsigned x.toBitVec y.toBitVec) a b
  | cmpImm c n    => testInt (fun x => c.signed x.toBitVec n.toBitVec) a
  | cmpl c        => testLongs (fun x y => c.signed x.toBitVec y.toBitVec) a b
  | cmplu c       => testAddresses c a b
  | cmpluImm c n  => testAddresses c a (.long n)
  | cmpf c        => testDoubles c a b
  | notCmpf c     => (testDoubles c a b).negate
  | cmpfs c       => testSingles c a b
  | maskZero m    => testInt (fun x => x &&& m == 0) a
  | maskNotZero m => testInt (fun x => x &&& m != 0) a

/-- What is known of a condition over argument values. -/
def eval (c : Condition) (args : List Value) : Verdict :=
  if (List.range c.arity).any (fun i => argument args i == .bottom) then .contradiction
  else c.test (argument args 0) (argument args 1)

end Condition
end ValueFlow
