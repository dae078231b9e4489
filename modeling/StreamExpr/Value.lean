import StreamExpr.Binary32.Text
import StreamExpr.RegisterClass

/-! Constant values: scalars that fit one 32-bit register word. -/

namespace StreamExpr

/-- A scalar constant. -/
inductive Value where
  | bool (b : Bool)
  | int (n : Int32)
  | float (x : Binary32)
deriving DecidableEq

namespace Value

def register : Value → RegisterClass
  | .bool _ => .bool
  | .int _ => .int
  | .float _ => .float

/-- The zero of a known class. -/
def zero? : RegisterClass → Option Value
  | .unknown => none
  | .bool => some (.bool false)
  | .int => some (.int 0)
  | .float => some (.float .zero)

/-- The one of a known class. -/
def one? : RegisterClass → Option Value
  | .unknown => none
  | .bool => some (.bool true)
  | .int => some (.int 1)
  | .float => some (.float .one)

/-- Whether a value differs from zero. -/
def toBool : Value → Bool
  | .bool b => b
  | .int n => n ≠ 0
  | .float x => !x.isZero

/-- The integer a value stands for, a fraction being cut off. -/
def toInt32 : Value → Int32
  | .bool b => if b then 1 else 0
  | .int n => n
  | .float x => x.toInt32

/-- The single-precision number nearest to a value. -/
def toBinary32 : Value → Binary32
  | .bool b => if b then .one else .zero
  | .int n => .ofInt n.toInt
  | .float x => x

/-- The value in another class, none for the unknown one. -/
def convert? (v : Value) : RegisterClass → Option Value
  | .unknown => none
  | .bool => some (.bool v.toBool)
  | .int => some (.int v.toInt32)
  | .float => some (.float v.toBinary32)

/-- The register word of a value. A truth value has all bits set or none. -/
def bits : Value → UInt32
  | .bool b => if b then 0xffffffff else 0
  | .int n => n.toUInt32
  | .float x => x.bits

def isZero (v : Value) : Bool :=
  !v.toBool

def isOne : Value → Bool
  | .bool b => b
  | .int n => n = 1
  | .float x => x = .one

def text : Value → String
  | .bool b => if b then "true" else "false"
  | .int n => toString n.toInt
  | .float x => x.text

end Value

end StreamExpr
