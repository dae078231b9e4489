import StreamExpr.FloatOps
import StreamExpr.Operator
import StreamExpr.Value

/-! The meaning of the operators on constant values.
Integers wrap at 32 bits. An operator has no value on operands of the wrong class, nor where a
machine would trap: a division by zero, a negative integer power, the logarithm of an integer
that is not positive.
-/

namespace StreamExpr

/-- The square of a power, and once more the base for an odd exponent. The budget counts the
binary digits of the exponent. -/
def powerBySquaring : Nat → Int32 → Nat → Int32
  | 0, _, _ => 1
  | digits + 1, base, exponent =>
      let rest := powerBySquaring digits (base * base) (exponent / 2)
      if exponent % 2 = 1 then base * rest else rest

/-- The wrapping power of a 32-bit integer with an exponent below `2 ^ 32`. -/
def wrappingPower (base : Int32) (exponent : Nat) : Int32 :=
  powerBySquaring 32 base exponent

/-- Degrees in a radian, rounded to single precision. -/
def degreesPerRadian : Binary32 := ⟨0x42652ee1⟩

/-- Radians in a degree, rounded to single precision. -/
def radiansPerDegree : Binary32 := ⟨0x3c8efa35⟩

namespace UnaryOp

def evalFloat? (ops : FloatOps) (op : UnaryOp) (x : Binary32) : Option Binary32 :=
  match op with
  | .negate => some (ops.negate x)
  | .absolute | .length => some (ops.absolute x)
  | .saturate => some (ops.saturate x)
  | .sqrt => some (ops.sqrt x)
  | .exp => some (ops.exp x)
  | .ln => some (ops.ln x)
  | .log2 => some (ops.log2 x)
  | .log10 => some (ops.log10 x)
  | .pow2 => some (ops.exp2 x)
  | .sin => some (ops.sin x)
  | .cos => some (ops.cos x)
  | .tan => some (ops.tan x)
  | .arcSin => some (ops.arcSin x)
  | .arcCos => some (ops.arcCos x)
  | .arcTan => some (ops.arcTan x)
  | .radToDeg => some (ops.multiply x degreesPerRadian)
  | .degToRad => some (ops.multiply x radiansPerDegree)
  | .round => some (ops.round x)
  | .floor => some (ops.floor x)
  | .ceil => some (ops.ceil x)
  | .trunc => some (ops.trunc x)
  | .frac => some (ops.frac x)
  | _ => none

def evalInt? (op : UnaryOp) (n : Int32) : Option Int32 :=
  match op with
  | .negate => some (-n)
  | .absolute => some (if n < 0 then -n else n)
  | .saturate => some (if n < 0 then 0 else if 1 < n then 1 else n)
  | .log2 => if 0 < n then some (.ofNat n.toInt.toNat.log2) else none
  | .pow2 => if 0 ≤ n ∧ n < 31 then some (1 <<< n) else none
  | .bitwiseNot => some (~~~n)
  | _ => none

def evalBool? (op : UnaryOp) (b : Bool) : Option Bool :=
  match op with
  | .logicalNot => some (!b)
  | .all | .any => some b
  | _ => none

/-- The value of an operator of one operand. The target class matters to conversions only. -/
def eval? (ops : FloatOps) (op : UnaryOp) (v : Value) (target : RegisterClass) : Option Value :=
  if op = .typeConversion then
    v.convert? target
  else
    match v with
    | .float x => (op.evalFloat? ops x).map .float
    | .int n => (op.evalInt? n).map .int
    | .bool b => (op.evalBool? b).map .bool

end UnaryOp

namespace BinaryOp

def evalFloat? (ops : FloatOps) (op : BinaryOp) (x y : Binary32) : Option Value :=
  match op with
  | .add => some (.float (ops.add x y))
  | .subtract => some (.float (ops.subtract x y))
  | .multiply | .dot => some (.float (ops.multiply x y))
  | .divide => some (.float (ops.divide x y))
  | .modulo => some (.float (ops.remainder x y))
  | .log => some (.float (ops.log x y))
  | .pow => some (.float (ops.pow x y))
  | .min => some (.float (ops.minimum x y))
  | .max => some (.float (ops.maximum x y))
  | .equal => some (.bool (ops.equal x y))
  | .notEqual => some (.bool (!ops.equal x y))
  | .less => some (.bool (ops.less x y))
  | .lessEqual => some (.bool (ops.lessEqual x y))
  | .greater => some (.bool (ops.less y x))
  | .greaterEqual => some (.bool (ops.lessEqual y x))
  | _ => none

def evalInt? (op : BinaryOp) (m n : Int32) : Option Value :=
  match op with
  | .add => some (.int (m + n))
  | .subtract => some (.int (m - n))
  | .multiply | .dot => some (.int (m * n))
  | .divide => if n = 0 then none else some (.int (m / n))
  | .modulo => if n = 0 then none else some (.int (m % n))
  | .pow => if n < 0 then none else some (.int (wrappingPower m n.toInt.toNat))
  | .min => some (.int (if n < m then n else m))
  | .max => some (.int (if m < n then n else m))
  | .bitshiftLeft => some (.int (m <<< n))
  | .bitshiftRight => some (.int (m >>> n))
  | .bitwiseAnd => some (.int (m &&& n))
  | .bitwiseXor => some (.int (m ^^^ n))
  | .bitwiseOr => some (.int (m ||| n))
  | .equal => some (.bool (m = n))
  | .notEqual => some (.bool (m ≠ n))
  | .less => some (.bool (m < n))
  | .lessEqual => some (.bool (m ≤ n))
  | .greater => some (.bool (n < m))
  | .greaterEqual => some (.bool (n ≤ m))
  | _ => none

def evalBool? (op : BinaryOp) (a b : Bool) : Option Value :=
  match op with
  | .equal => some (.bool (a == b))
  | .notEqual => some (.bool (a != b))
  | .logicalAnd => some (.bool (a && b))
  | .logicalOr => some (.bool (a || b))
  | _ => none

/-- The value of an operator of two operands, which have to be of one class. -/
def eval? (ops : FloatOps) (op : BinaryOp) (left right : Value) : Option Value :=
  match left, right with
  | .float x, .float y => op.evalFloat? ops x y
  | .int m, .int n => op.evalInt? m n
  | .bool a, .bool b => op.evalBool? a b
  | _, _ => none

end BinaryOp

/-- The value of an operator of three operands. -/
def TernaryOp.eval? (ops : FloatOps) (op : TernaryOp) (first second third : Value)
    : Option Value :=
  match op, first, second, third with
  | .select, .bool condition, _, _ => some (if condition then second else third)
  | .clamp, .float x, .float low, .float high => some (.float (ops.clamp x low high))
  | .clamp, .int n, .int low, .int high =>
      let capped := if high < n then high else n
      some (.int (if capped < low then low else capped))
  | .lerp, .float a, .float b, .float t => some (.float (ops.lerp a b t))
  | _, _, _, _ => none

end StreamExpr
