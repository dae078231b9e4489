import StreamExpr.Pass

/-! Small transforms for use in custom passes. Each keeps the nodes its rule does not name. -/

namespace StreamExpr.Catalog

/-- Keep every node. -/
def keep (id : NodeId) : Edit NodeId :=
  return id

/-- Reject every node. -/
def reject (id : NodeId) : Edit NodeId := do
  throw (.abandoned (.validationFailure (← Edit.read (·.describe id)) "rejected"))

/-- Replace one operator of two operands by another. -/
def exchangeBinary (old new : BinaryOp) (id : NodeId) : Edit NodeId := do
  match (← Edit.read (·.node id)).kind with
  | .binary op left right => if op = old then Edit.binary new left right else return id
  | _ => return id

/-- Replace one operator of one operand by another. -/
def exchangeUnary (old new : UnaryOp) (id : NodeId) : Edit NodeId := do
  match (← Edit.read (·.node id)).kind with
  | .unary op operand => if op = old then Edit.unary new operand else return id
  | _ => return id

/-- Exchange the operands of a commutative operator neither of which is constant. -/
def commute (id : NodeId) : Edit NodeId := do
  match (← Edit.read (·.node id)).kind with
  | .binary op left right =>
      let constant ← Edit.read fun g => g.isConstant left || g.isConstant right
      if op.isCommutative && !constant then Edit.binary op right left else return id
  | _ => return id

/-- Use the operand of an operator in its place. -/
def dropUnary (old : UnaryOp) (id : NodeId) : Edit NodeId := do
  match (← Edit.read (·.node id)).kind with
  | .unary op operand => return if op = old then operand else id
  | _ => return id

/-- Build a vector from copies of an input. -/
def copyInput (type : DataType) (copies : Nat) (id : NodeId) : Edit NodeId := do
  match (← Edit.read (·.node id)).kind with
  | .input _ => Edit.construct type (List.replicate copies id)
  | _ => return id

/-- Use zero in place of an input of known class. -/
def zeroInputs (id : NodeId) : Edit NodeId := do
  let n ← Edit.read (·.node id)
  match n.kind, Value.zero? n.register with
  | .input _, some value => Edit.constant value
  | _, _ => return id

/-- Append to the name of an output. -/
def renameOutput (suffix : String) (id : NodeId) : Edit NodeId := do
  match (← Edit.read (·.node id)).kind with
  | .output decl expression => Edit.output { decl with name := decl.name ++ suffix } expression
  | _ => return id

/-- Use the expression of an output in its place. -/
def unwrapOutput (id : NodeId) : Edit NodeId := do
  match (← Edit.read (·.node id)).kind with
  | .output _ expression => return expression
  | _ => return id

end StreamExpr.Catalog
