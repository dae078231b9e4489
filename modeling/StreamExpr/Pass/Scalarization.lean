import StreamExpr.Pass

/-! Scalarization: selections of a component are pushed through vector nodes.
A selection of a vector that is built from parts becomes a selection of a part, and a selection of
a componentwise operator becomes the operator on selections of its operands. Reductions of vectors
become chains over the components. Selections are shared, so a vector used by several parents gives
one scalar node for each component.
-/

namespace StreamExpr.Scalarization

/-- The selections of one component of several nodes. -/
def componentsAt (c : Nat) : List NodeId → Edit (List NodeId)
  | [] => return []
  | id :: ids => do
      let component ← Edit.component id c
      let components ← componentsAt c ids
      return component :: components

/-- The argument of a vector construction that holds component `c`, with the place of the component
in it. Components are counted in a byte, so the count of those before an argument wraps around. -/
def locate? (width : NodeId → Nat) (c : Nat) : List NodeId → Nat → Option (NodeId × Nat)
  | [], _ => none
  | argument :: arguments, before =>
      let next := (before + width argument) % 256
      if c < next then some (argument, c - before) else locate? width c arguments next

/-- Component `c` of a constructed vector: a single scalar is used for all components, and what no
argument holds is zero. -/
def constructed (vector : NodeId) (arguments : List NodeId) (c : Nat) : Edit NodeId := do
  let single ← Edit.read fun g =>
    match arguments with
    | [argument] => if (g.type argument).isVector then none else some argument
    | _ => none
  match single with
  | some argument => return argument
  | none =>
      match ← Edit.read fun g => locate? (fun id => (g.type id).width) c arguments 0 with
      | some (argument, place) => Edit.component argument place
      | none =>
          match Value.zero? (← Edit.read (·.register vector)) with
          | some zero => Edit.constant zero
          | none =>
              let description ← Edit.read (·.describe vector)
              throw (.abandoned (.typeError description "constructor has no known type"))

/-- The scalar node for component `c` of a vector. The selection itself is answered if the vector
cannot be split. -/
def extract (selection vector : NodeId) (c : Nat) : Edit NodeId := do
  let n ← Edit.read (·.node vector)
  if !n.type.isVector then
    return vector
  match n.kind with
  | .construct arguments => constructed vector arguments c
  | .swizzle operand chosen => Edit.component operand (chosen.lane c)
  | .unary .typeConversion operand =>
      let operand ← Edit.component operand c
      Edit.conversion n.register operand
  | .unary op operand =>
      if op.isVectorOp then
        return selection
      else
        let operand ← Edit.component operand c
        Edit.unary op operand
  | .binary op left right =>
      if op.isVectorOp then
        return selection
      else
        let left ← Edit.component left c
        let right ← Edit.component right c
        Edit.binary op left right
  | .ternary op first second third =>
      let first ← Edit.component first c
      let second ← Edit.component second c
      let third ← Edit.component third c
      Edit.ternary op first second third
  | .call candidates arguments =>
      let arguments ← componentsAt c arguments
      Edit.call candidates arguments
  | .constant _ | .input _ | .output _ _ => return selection

/-- Combine a result with further components of a vector, from left to right. -/
def reduceFrom (op : BinaryOp) (vector : NodeId) : List Nat → NodeId → Edit NodeId
  | [], result => return result
  | c :: cs, result => do
      let next ← Edit.component vector c
      let result ← Edit.binary op result next
      reduceFrom op vector cs result

/-- Combine all components of a vector, from left to right. -/
def reduce (op : BinaryOp) (vector : NodeId) : Edit NodeId := do
  let width ← Edit.read fun g => (g.type vector).width
  let first ← Edit.component vector 0
  reduceFrom op vector (List.range' 1 (width - 1)) first

/-- The product of component `c` of two vectors. -/
def product (a b : NodeId) (c : Nat) : Edit NodeId := do
  let a ← Edit.component a c
  let b ← Edit.component b c
  Edit.binary .multiply a b

/-- Add the products of further components to a sum. -/
def dotFrom (a b : NodeId) : List Nat → NodeId → Edit NodeId
  | [], sum => return sum
  | c :: cs, sum => do
      let next ← product a b c
      let sum ← Edit.binary .add sum next
      dotFrom a b cs sum

/-- The sum of the products of all components, from left to right. -/
def dot (a b : NodeId) : Edit NodeId := do
  let width ← Edit.read fun g => max (g.type a).width (g.type b).width
  let first ← product a b 0
  dotFrom a b (List.range' 1 (width - 1)) first

/-- One replacement. -/
def scalarizeOnce (id : NodeId) : Edit NodeId := do
  match (← Edit.read (·.node id)).kind with
  | .swizzle vector chosen =>
      if chosen.count = 1 then extract id vector (chosen.lane 0) else return id
  | .unary .all vector =>
      if ← Edit.read fun g => (g.type vector).isVector then reduce .logicalAnd vector
      else return id
  | .unary .any vector =>
      if ← Edit.read fun g => (g.type vector).isVector then reduce .logicalOr vector
      else return id
  | .binary .dot a b => dot a b
  | _ => return id

/-- Replace a node until it is scalar or cannot be split. -/
def step (id : NodeId) : Edit NodeId :=
  Edit.settle scalarizeOnce id

end StreamExpr.Scalarization
