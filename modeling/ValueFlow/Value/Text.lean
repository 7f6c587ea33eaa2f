import ValueFlow.Decimal
import ValueFlow.Value
/-!
# The written form of a value
-/
namespace ValueFlow

def Kind.text : Kind → String
  | .int    => "Int"
  | .long   => "Long"
  | .single => "Single"
  | .float  => "Float"

def Value.text : Value → String
  | bottom      => "⊥"
  | int n       => Int.repr n.toInt ++ "_i"
  | long n      => Int.repr n.toInt ++ "_l"
  | single bits => FloatFormat.single.text bits.toNat ++ "_fs"
  | float bits  => FloatFormat.double.text bits.toNat ++ "_f"
  | num k       => "?" ++ k.text
  | ptr p       => "ptr(" ++ p.text ++ ")"
  | numOrPtr p  => "num|ptr(" ++ p.text ++ ")"
  | top         => "⊤"

end ValueFlow
