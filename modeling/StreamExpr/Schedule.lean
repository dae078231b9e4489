import StreamExpr.CompileError
import StreamExpr.Traversal

/-! Schedules: the order in which the nodes of a graph are executed.
Outputs are taken from last to first. Each contributes what it needs from the left, so operands come
before their users, and a node needed several times is scheduled once. A constant on the right of an
operator of two operands is part of the instruction and not scheduled for it.
-/

namespace StreamExpr

/-- The operands of a node that need a register. -/
def Graph.registerOperands (g : Graph) (id : NodeId) : List NodeId :=
  match (g.node id).kind with
  | .binary _ left right => if g.isConstant right then [left] else [left, right]
  | kind => kind.children

/-- Nodes in the order of execution, and the virtual registers of those with a value. -/
structure Schedule where
  instructions : List NodeId
  registers : Std.TreeMap NodeId Nat
  /-- The number of virtual registers. -/
  count : Nat

namespace Schedule

def empty : Schedule :=
  { instructions := [], registers := {}, count := 0 }

/-- The virtual register of a node. -/
def register? (s : Schedule) (id : NodeId) : Option Nat :=
  s.registers[id]?

/-- Append a node. Outputs have no value, and every other node takes the next register. -/
def append (g : Graph) (s : Schedule) (id : NodeId) : Schedule :=
  let instructions := id :: s.instructions
  if g.isOutput id then
    { s with instructions }
  else
    { instructions, registers := s.registers.insert id s.count, count := s.count + 1 }

/-- The schedule of the given nodes in order. -/
def ofNodes (g : Graph) (nodes : List NodeId) : Schedule :=
  let s := nodes.foldl (append g) empty
  { s with instructions := s.instructions.reverse }

/-- The schedule of a graph. All its roots have to be outputs. -/
def ofGraph (g : Graph) : Except CompileError Schedule := do
  if g.outputs.isEmpty then
    throw (.malformedInput "the expression has no outputs")
  match g.outputs.find? (!g.isOutput ·) with
  | some root =>
      throw (.malformedInput ("output root " ++ g.describe root ++ " is not an output node"))
  | none =>
      return ofNodes g (g.postOrder g.registerOperands g.outputs.reverse)

end Schedule

end StreamExpr
