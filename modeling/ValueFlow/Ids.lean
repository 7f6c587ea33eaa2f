/-!
# Names of things in a program

Nodes are positions in a function's control-flow graph; registers and symbols are opaque names.
Each has a short written form.
-/
namespace ValueFlow

/-- A position in a function's node arena. -/
abbrev Node := Nat

/-- A pseudo-register. -/
structure Reg where
  id : Nat
deriving DecidableEq, Repr, Inhabited

/-- A global variable or function. -/
structure Symbol where
  id : Nat
deriving DecidableEq, Repr, Inhabited

def Node.text (n : Node) : String := "n" ++ Nat.repr n

def Reg.text (r : Reg) : String := "r" ++ Nat.repr r.id

def Symbol.text (s : Symbol) : String := "@" ++ Nat.repr s.id

end ValueFlow
