import StreamExpr.Graph
import StreamExpr.OpCode

/-! Instruction selection: the operation code of a node, by its kind and register class. -/

namespace StreamExpr

/-- The code of an operator of one operand with a result of the given class. -/
def UnaryOp.code? : UnaryOp → RegisterClass → Option UnaryCode
  | .absolute, .float => some .absFloat
  | .absolute, .int => some .absInt
  | .sqrt, .float => some .sqrtFloat
  | .exp, .float => some .expFloat
  | .ln, .float => some .lnFloat
  | .log2, .float => some .log2Float
  | .log2, .int => some .log2Int
  | .log10, .float => some .log10Float
  | .pow2, .float => some .pow2Float
  | .sin, .float => some .sinFloat
  | .cos, .float => some .cosFloat
  | .tan, .float => some .tanFloat
  | .arcSin, .float => some .arcSinFloat
  | .arcCos, .float => some .arcCosFloat
  | .arcTan, .float => some .arcTanFloat
  | .round, .float => some .roundFloat
  | .floor, .float => some .floorFloat
  | .ceil, .float => some .ceilFloat
  | .trunc, .float => some .truncFloat
  | .bitwiseNot, .int => some .notInt
  | .logicalNot, .bool => some .notBool
  | .typeConversion, .float => some .intToFloat
  | .typeConversion, .int => some .floatToInt
  | _, _ => none

/-- The code of an operator of two operands of the given class. -/
def BinaryOp.code? : BinaryOp → RegisterClass → Option BinaryCode
  | .add, .float => some .addFloat
  | .add, .int => some .addInt
  | .subtract, .float => some .subFloat
  | .subtract, .int => some .subInt
  | .multiply, .float => some .mulFloat
  | .multiply, .int => some .mulInt
  | .divide, .float => some .divFloat
  | .divide, .int => some .divInt
  | .min, .float => some .minFloat
  | .min, .int => some .minInt
  | .max, .float => some .maxFloat
  | .max, .int => some .maxInt
  | .bitshiftLeft, .int => some .shiftLeftInt
  | .bitshiftRight, .int => some .shiftRightInt
  | .bitwiseAnd, .int => some .andInt
  | .bitwiseXor, .int => some .xorInt
  | .bitwiseOr, .int => some .orInt
  | .equal, .float => some .eqFloat
  | .equal, .int => some .eqInt
  | .equal, .bool => some .eqBool
  | .notEqual, .float => some .neFloat
  | .notEqual, .int => some .neInt
  | .notEqual, .bool => some .neBool
  | .less, .float => some .ltFloat
  | .less, .int => some .ltInt
  | .lessEqual, .float => some .leFloat
  | .lessEqual, .int => some .leInt
  | .greater, .float => some .gtFloat
  | .greater, .int => some .gtInt
  | .greaterEqual, .float => some .geFloat
  | .greaterEqual, .int => some .geInt
  | .logicalAnd, .bool => some .andBool
  | .logicalOr, .bool => some .orBool
  | _, _ => none

/-- The code of an operator of three operands with a result of the given class. -/
def TernaryOp.code? : TernaryOp → RegisterClass → Option SelectCode
  | .select, .float => some .selectFloat
  | .select, .int => some .selectInt
  | .select, .bool => some .selectBool
  | _, _ => none

namespace Graph

/-- The code of a node, if the machine has an instruction for it. An operator of two operands goes
by the class of its left one, so a comparison by what it compares, and a constant on its right
selects the form with a constant. -/
def opCode? (g : Graph) (id : NodeId) : Option OpCode :=
  let n := g.node id
  match n.kind with
  | .constant _ => some (.transfer .loadConstant)
  | .input _ =>
      match n.register with
      | .float => some (.transfer .loadFloat)
      | .int | .bool => some (.transfer .loadInt)
      | .unknown => none
  | .output _ _ =>
      match n.register with
      | .float => some (.transfer .storeFloat)
      | .int | .bool => some (.transfer .storeInt)
      | .unknown => none
  | .unary op _ => (op.code? n.register).map .unary
  | .binary op left right =>
      let code? := (op.code? (g.register left)).map OpCode.binary
      if g.isConstant right then code?.bind OpCode.withConstant? else code?
  | .ternary op _ _ _ => (op.code? n.register).map .select
  | .call _ _ => some (.transfer .call)
  | .construct _ | .swizzle _ _ => none

end Graph

end StreamExpr
