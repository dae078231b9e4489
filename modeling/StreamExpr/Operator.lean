/-! Operators of one, two and three operands. -/

namespace StreamExpr

/-! ## One operand -/

/-- Operators of one operand. -/
inductive UnaryOp where
  | negate
  | absolute
  | saturate
  | sqrt
  | exp
  | ln
  | log2
  | log10
  | pow2
  | sin
  | cos
  | tan
  | arcSin
  | arcCos
  | arcTan
  | radToDeg
  | degToRad
  | round
  | floor
  | ceil
  | trunc
  | frac
  | bitwiseNot
  | logicalNot
  | typeConversion
  | length
  | normalize
  | all
  | any
deriving DecidableEq

namespace UnaryOp

def every : List UnaryOp :=
  [
    .negate, .absolute, .saturate, .sqrt, .exp, .ln, .log2, .log10, .pow2, .sin, .cos, .tan,
    .arcSin, .arcCos, .arcTan, .radToDeg, .degToRad, .round, .floor, .ceil, .trunc, .frac,
    .bitwiseNot, .logicalNot, .typeConversion, .length, .normalize, .all, .any
  ]

def name : UnaryOp → String
  | .negate => "Negate"
  | .absolute => "Absolute"
  | .saturate => "Saturate"
  | .sqrt => "Sqrt"
  | .exp => "Exp"
  | .ln => "Ln"
  | .log2 => "Log2"
  | .log10 => "Log10"
  | .pow2 => "Pow2"
  | .sin => "Sin"
  | .cos => "Cos"
  | .tan => "Tan"
  | .arcSin => "ASin"
  | .arcCos => "ACos"
  | .arcTan => "ATan"
  | .radToDeg => "RadToDeg"
  | .degToRad => "DegToRad"
  | .round => "Round"
  | .floor => "Floor"
  | .ceil => "Ceil"
  | .trunc => "Trunc"
  | .frac => "Frac"
  | .bitwiseNot => "BitwiseNot"
  | .logicalNot => "LogicalNot"
  | .typeConversion => "TypeConversion"
  | .length => "Length"
  | .normalize => "Normalize"
  | .all => "All"
  | .any => "Any"

/-- The operator with the given name. -/
def ofName? (name : String) : Option UnaryOp :=
  every.find? (·.name = name)

/-- Operators that mix the components of a vector instead of applying to each. -/
def isVectorOp : UnaryOp → Bool
  | .length | .normalize | .all | .any => true
  | _ => false

/-- Operators that collapse a vector into a scalar. -/
def isReduction : UnaryOp → Bool
  | .length | .all | .any => true
  | _ => false

end UnaryOp

/-! ## Two operands -/

/-- Operators of two operands. -/
inductive BinaryOp where
  | add
  | subtract
  | multiply
  | divide
  | modulo
  | log
  | pow
  | min
  | max
  | bitshiftLeft
  | bitshiftRight
  | bitwiseAnd
  | bitwiseXor
  | bitwiseOr
  | equal
  | notEqual
  | less
  | lessEqual
  | greater
  | greaterEqual
  | logicalAnd
  | logicalOr
  | dot
  | cross
deriving DecidableEq

namespace BinaryOp

def every : List BinaryOp :=
  [
    .add, .subtract, .multiply, .divide, .modulo, .log, .pow, .min, .max, .bitshiftLeft,
    .bitshiftRight, .bitwiseAnd, .bitwiseXor, .bitwiseOr, .equal, .notEqual, .less, .lessEqual,
    .greater, .greaterEqual, .logicalAnd, .logicalOr, .dot, .cross
  ]

def name : BinaryOp → String
  | .add => "Add"
  | .subtract => "Subtract"
  | .multiply => "Multiply"
  | .divide => "Divide"
  | .modulo => "Modulo"
  | .log => "Log"
  | .pow => "Pow"
  | .min => "Min"
  | .max => "Max"
  | .bitshiftLeft => "BitshiftLeft"
  | .bitshiftRight => "BitshiftRight"
  | .bitwiseAnd => "BitwiseAnd"
  | .bitwiseXor => "BitwiseXor"
  | .bitwiseOr => "BitwiseOr"
  | .equal => "Equal"
  | .notEqual => "NotEqual"
  | .less => "Less"
  | .lessEqual => "LessEqual"
  | .greater => "Greater"
  | .greaterEqual => "GreaterEqual"
  | .logicalAnd => "LogicalAnd"
  | .logicalOr => "LogicalOr"
  | .dot => "Dot"
  | .cross => "Cross"

/-- The operator with the given name. -/
def ofName? (name : String) : Option BinaryOp :=
  every.find? (·.name = name)

/-- Operators that mix the components of vectors instead of applying to each. -/
def isVectorOp : BinaryOp → Bool
  | .dot | .cross => true
  | _ => false

/-- Operators whose operands may be exchanged. -/
def isCommutative : BinaryOp → Bool
  | .add | .multiply | .min | .max | .bitwiseAnd | .bitwiseXor | .bitwiseOr | .equal | .notEqual
  | .logicalAnd | .logicalOr | .dot => true
  | _ => false

/-- Operators that answer a truth value about two operands of any class. -/
def isComparison : BinaryOp → Bool
  | .equal | .notEqual | .less | .lessEqual | .greater | .greaterEqual => true
  | _ => false

/-- The operator that means the same with its operands exchanged. -/
def exchanged? (op : BinaryOp) : Option BinaryOp :=
  match op with
  | .less => some .greater
  | .lessEqual => some .greaterEqual
  | .greater => some .less
  | .greaterEqual => some .lessEqual
  | _ => if op.isCommutative then some op else none

end BinaryOp

/-! ## Three operands -/

/-- Operators of three operands. -/
inductive TernaryOp where
  | clamp
  | select
  | lerp
deriving DecidableEq

namespace TernaryOp

def every : List TernaryOp :=
  [
    .clamp, .select, .lerp
  ]

def name : TernaryOp → String
  | .clamp => "Clamp"
  | .select => "Select"
  | .lerp => "Lerp"

/-- The operator with the given name. -/
def ofName? (name : String) : Option TernaryOp :=
  every.find? (·.name = name)

end TernaryOp

end StreamExpr
