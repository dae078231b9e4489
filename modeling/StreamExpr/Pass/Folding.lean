import StreamExpr.Evaluation
import StreamExpr.Pass

/-! Constant folding.
An operator on constants becomes the constant it evaluates to. A constant left operand moves to the
right where the operator allows it, operations that change nothing are dropped, and a choice by a
constant takes its branch. What has no value is left in place.
-/

namespace StreamExpr.Folding

/-- What becomes of a node. -/
inductive Outcome where
  | keep
  | operand (id : NodeId)
  | constant (value : Value)
deriving DecidableEq

/-- Use the outcome in place of a node. -/
def Outcome.apply (id : NodeId) : Outcome → Edit NodeId
  | .keep => return id
  | .operand other => return other
  | .constant value => Edit.constant value

/-- What becomes of `left op constant`. Adding a positive zero turns a negative zero around, so a
float sum drops a negative zero only; zero times what is no number is no number, so only integer
products with zero are zero. -/
def simplify (op : BinaryOp) (left : NodeId) (constant : Value) : Outcome :=
  let isInt := constant.register = .int
  match op with
  | .add =>
      if constant.isZero ∧ (isInt ∨ constant.bits = Binary32.negativeZero.bits) then .operand left
      else .keep
  | .subtract => if constant.isZero ∧ (isInt ∨ constant.bits = 0) then .operand left else .keep
  | .bitwiseOr | .bitwiseXor | .bitshiftLeft | .bitshiftRight =>
      if constant.isZero then .operand left else .keep
  | .multiply =>
      if constant.isOne then .operand left
      else if isInt ∧ constant.isZero then .constant (.int 0)
      else .keep
  | .divide => if constant.isOne then .operand left else .keep
  | .bitwiseAnd => if isInt ∧ constant.isZero then .constant (.int 0) else .keep
  | .logicalAnd => if constant.toBool then .operand left else .constant (.bool false)
  | .logicalOr => if constant.toBool then .constant (.bool true) else .operand left
  | _ => .keep

/-- Use an evaluated constant if it has the class of the node. -/
def evaluated (target : RegisterClass) : Option Value → Outcome
  | some value => if value.register = target then .constant value else .keep
  | none => .keep

/-- Move a constant left operand to the right, and simplify what comes out. -/
def swapConstant (op : BinaryOp) (id constant other : NodeId) (value : Value) : Edit NodeId :=
  match op.exchanged? with
  | some exchanged => do
      let swapped ← Edit.binary exchanged other constant
      (simplify exchanged other value).apply swapped
  | none => return id

/-- Fold an operator of two operands. -/
def foldBinary (ops : FloatOps) (op : BinaryOp) (id left right : NodeId)
    (target : RegisterClass)
    : Edit NodeId := do
  match ← Edit.read fun g => (g.value? left, g.value? right) with
  | (some a, some b) => (evaluated target (op.eval? ops a b)).apply id
  | (some a, none) => swapConstant op id left right a
  | (none, some b) => (simplify op left b).apply id
  | (none, none) => return id

/-- What becomes of an operator of one operand. -/
def foldUnary (ops : FloatOps) (g : Graph) (op : UnaryOp) (operand : NodeId)
    (target : RegisterClass)
    : Outcome :=
  evaluated target ((g.value? operand).bind fun v => op.eval? ops v target)

/-- What becomes of an operator of three operands. -/
def foldTernary (ops : FloatOps) (g : Graph) (op : TernaryOp) (first second third : NodeId)
    (target : RegisterClass)
    : Outcome :=
  match op, g.value? first with
  | .select, some condition => .operand (if condition.toBool then second else third)
  | .select, none => .keep
  | op, some x =>
      evaluated target <|
        (g.value? second).bind fun y => (g.value? third).bind fun z => op.eval? ops x y z
  | _, none => .keep

/-- Fold one node whose operands are folded. Vectors and nodes of unknown type stay. -/
def step (ops : FloatOps) (id : NodeId) : Edit NodeId := do
  let n ← Edit.read (·.node id)
  if n.type.isVector || !n.type.isKnown then
    return id
  match n.kind with
  | .unary op operand =>
      (← Edit.read (foldUnary ops · op operand n.register)).apply id
  | .binary op left right => foldBinary ops op id left right n.register
  | .ternary op first second third =>
      (← Edit.read (foldTernary ops · op first second third n.register)).apply id
  | _ => return id

end StreamExpr.Folding
