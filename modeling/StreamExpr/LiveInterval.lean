import StreamExpr.Schedule

/-! Live intervals: from where to where in a schedule a value is needed. -/

namespace StreamExpr

/-- The range of instructions, ends included, during which a virtual register is live. -/
structure LiveInterval where
  register : Nat
  start : Nat
  stop : Nat
  /-- The node whose value the register holds. -/
  node : NodeId
deriving DecidableEq

namespace LiveInterval

/-- Extend an interval to an instruction. -/
def widen (i : LiveInterval) (index : Nat) : LiveInterval :=
  { i with start := min i.start index, stop := max i.stop index }

/-- The interval of each value at its definition, in the order of the registers. -/
def definitions (s : Schedule) : Array LiveInterval :=
  (s.instructions.zipIdx.filterMap fun (node, index) =>
    (s.register? node).map fun register =>
      { register, start := index, stop := index, node }).toArray

/-- Extend the interval of an operand to the instruction that reads it. -/
def use (s : Schedule) (index : Nat) (intervals : Array LiveInterval) (operand : NodeId)
    : Array LiveInterval :=
  match s.register? operand with
  | some register => intervals.modify register (·.widen index)
  | none => intervals

/-- The live interval of every virtual register of a schedule. -/
def ofSchedule (g : Graph) (s : Schedule) : List LiveInterval :=
  (s.instructions.zipIdx.foldl
    (fun intervals (node, index) =>
      (g.registerOperands node).foldl (use s index) intervals)
    (definitions s)).toList

end LiveInterval

end StreamExpr
