import StreamExpr.Pass

/-! Replacement of the operators that exist on vectors only.
Lengths, normalisation and cross products are expressed by operators that apply to each component
and by the dot product; on scalars, the reductions are simpler operators or their operand.
-/

namespace StreamExpr.VectorOperators

/-- The square root of the dot product of a vector with itself. -/
def length (v : NodeId) : Edit NodeId := do
  let dot ← Edit.binary .dot v v
  Edit.unary .sqrt dot

/-- The length of a vector, the absolute value of a scalar. -/
def magnitude (v : NodeId) : Edit NodeId := do
  if (← Edit.read fun g => (g.type v).width) = 1 then
    Edit.unary .absolute v
  else
    length v

/-- The difference `a i * b j - a j * b i` of products of components. -/
def minor (a b : NodeId) (i j : Nat) : Edit NodeId := do
  let aᵢ ← Edit.component a i
  let bⱼ ← Edit.component b j
  let aⱼ ← Edit.component a j
  let bᵢ ← Edit.component b i
  let left ← Edit.binary .multiply aᵢ bⱼ
  let right ← Edit.binary .multiply aⱼ bᵢ
  Edit.binary .subtract left right

/-- The cross product, built from its three components. -/
def cross (a b : NodeId) (type : DataType) : Edit NodeId := do
  let x ← minor a b 1 2
  let y ← minor a b 2 0
  let z ← minor a b 0 1
  Edit.construct type [x, y, z]

/-- One replacement. -/
def replaceOnce (id : NodeId) : Edit NodeId := do
  let n ← Edit.read (·.node id)
  match n.kind with
  | .unary .length v => magnitude v
  | .unary .normalize v =>
      let length ← magnitude v
      Edit.binary .divide v length
  | .unary .all v | .unary .any v =>
      if (← Edit.read fun g => (g.type v).width) = 1 then return v else return id
  | .binary .dot a b =>
      if ← Edit.read fun g => (g.type a).isVector || (g.type b).isVector then
        return id
      else
        Edit.binary .multiply a b
  | .binary .cross a b => cross a b n.type
  | _ => return id

/-- Replace a node until no vector operator is left at its top. -/
def step (id : NodeId) : Edit NodeId :=
  Edit.settle replaceOnce id

end StreamExpr.VectorOperators
