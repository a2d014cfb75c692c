import TypeFlow.Node.Id
/-!
# Payloads

The value that a node carries besides its edges: a literal, a name or a reference to another
node. Floating-point literals are kept as bits; `Double.sameNumber` compares the numbers that
the bits stand for, so that a NaN differs from itself and the two zeros are equal.
-/

namespace TypeFlow

/-- The bits of a double-precision number. -/
structure Double where
  bits : UInt64
  deriving DecidableEq, Repr, Inhabited

namespace Double

/-- The bits without the sign. -/
def magnitude (x : Double) : UInt64 := x.bits &&& 0x7fffffffffffffff

/-- Above the magnitude of the infinities lie the values that are no numbers. -/
def isNaN (x : Double) : Bool := 0x7ff0000000000000 < x.magnitude

/-- Zero of either sign. -/
def isZero (x : Double) : Bool := x.magnitude = 0

/-- Equality of numbers: no NaN equals anything, and a zero equals a zero of either sign. -/
def sameNumber (x y : Double) : Bool :=
  !x.isNaN && !y.isNaN && (x.bits = y.bits || (x.isZero && y.isZero))

end Double

/-- The value of a node, if it has one. -/
inductive Payload where
  | none
  | int (value : Int64)
  | float (value : Double)
  | bool (value : Bool)
  | str (value : String)
  | node (value : NodeId)
  deriving DecidableEq, Repr, Inhabited

namespace Payload

/-- The text of a string payload. -/
def name? : Payload → Option String
  | .str s => some s
  | _ => Option.none

/-- Equality of values: floats agree as numbers and all else if it is the same. -/
def agrees : Payload → Payload → Bool
  | .float x, .float y => x.sameNumber y
  | a, b => a = b

end Payload

end TypeFlow
