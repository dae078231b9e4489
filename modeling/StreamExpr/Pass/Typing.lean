import StreamExpr.Pass

/-! Type deduction over a whole graph.
A node takes its type from its operands; operands of another class than the selected overload asks
for are converted, constants on the spot and others by a conversion node. The expression of an
output is brought to the output's width: scalars are broadcast, wider vectors cut, and narrower ones
padded.
-/

namespace StreamExpr.Typing

/-- Bring a node to another class: a constant becomes a constant, any other node is wrapped in a
conversion. -/
def convert (id : NodeId) (target : RegisterClass) : Edit NodeId := do
  match (← Edit.read (·.value? id)).bind (·.convert? target) with
  | some value => Edit.constant value
  | none => Edit.conversion target id

/-- Bring an expression to the width of a type. -/
def adaptWidth (expression : NodeId) (target : DataType) : Edit NodeId := do
  let width ← Edit.read fun g => (g.type expression).width
  if width = target.width then
    return expression
  else if target.width < width then
    Edit.swizzle expression (List.range target.width)
  else
    Edit.construct target [expression]

/-- Why the type of a node cannot be deduced. -/
def failure (g : Graph) (id : NodeId) : CompileError :=
  let n := g.node id
  let types := n.children.map g.type
  let operands := " (" ++ ", ".intercalate (types.map DataType.text) ++ ")"
  let mixed := (DataType.broadcastWidth? types).isNone
  .typeError (g.describe id) <|
    match n.kind with
    | .construct _ => "constructor has no known type"
    | .input _ | .output _ _ => "stream has no known type"
    | .call candidates _ =>
        if mixed then
          "incompatible operand widths" ++ operands
        else
          let name := (candidates.head?.map FunctionSig.name).getD "?"
          "no overload of '" ++ name ++ "' accepts" ++ operands
    | kind =>
        if mixed then
          "incompatible operand widths" ++ operands
        else
          "no overload of " ++ kind.name ++ " accepts" ++ operands

/-- Convert the operand in a slot to the class that is asked for. -/
def convertSlot (id : NodeId) (slot : Nat) : Edit Unit := do
  let asked ← Edit.read fun g => do
    let child ← (g.children id)[slot]?
    let expected ← g.expected? id slot
    if expected.isKnown && g.register child ≠ expected then some (child, expected) else none
  match asked with
  | some (child, expected) =>
      let converted ← convert child expected
      modify (·.setChild id slot converted)
  | none => return

/-- Bring the expression of an output to the output's width. -/
def adaptOutput (id : NodeId) : Edit Unit := do
  let n ← Edit.read (·.node id)
  match n.kind with
  | .output _ expression =>
      let adapted ← adaptWidth expression n.type
      if adapted ≠ expression then
        modify (·.setChild id 0 adapted)
  | _ => return

/-- Deduce the type of a node and bring its operands to the classes it asks for. -/
def step (id : NodeId) : Edit NodeId := do
  modify (·.deduce id)
  if !(← Edit.read fun g => (g.type id).isKnown) then
    throw (.abandoned (← Edit.read (failure · id)))
  let slots ← Edit.read fun g => List.range (g.children id).length
  slots.forM (convertSlot id)
  adaptOutput id
  return id

end StreamExpr.Typing
