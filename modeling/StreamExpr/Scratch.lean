import StreamExpr.Buffers
import StreamExpr.Compiler
import StreamExpr.Emitter

/-! Compiles that share their scratch.
A compiler that is used more than once keeps what its stages work in. Every stage clears what it is
about to fill and leaves the rest. A compile that fails leaves the scratch as it is, and the next
one starts from there.
-/

namespace StreamExpr

/-! ## Schedules and intervals in place of older ones -/

/-- Forget what is scheduled. -/
def Schedule.clear (s : Schedule) : Schedule :=
  { s with instructions := [], registers := {}, count := 0 }

/-- What a graph is scheduled in. -/
abbrev ScheduleM := EStateM CompileError (Buffers × Schedule)

/-- Schedule a graph in place of what was scheduled before. -/
def Schedule.rebuild (g : Graph) : ScheduleM Unit := do
  modify fun (b, s) => (b, s.clear)
  if g.outputs.isEmpty then
    throw (.malformedInput "the expression has no outputs")
  match g.outputs.find? (!g.isOutput ·) with
  | some root =>
      throw (.malformedInput ("output root " ++ g.describe root ++ " is not an output node"))
  | none =>
      modify fun (b, s) => (b.postOrder g g.registerOperands g.outputs.reverse, s)
      modify fun (b, s) =>
        let s := b.order.toList.foldl (append g) s
        (b, { s with instructions := s.instructions.reverse })

namespace LiveInterval

/-- Append the interval of a value at its definition. -/
def define (s : Schedule) (intervals : Array LiveInterval) (entry : NodeId × Nat)
    : Array LiveInterval :=
  match s.register? entry.1 with
  | some register => intervals.push { register, start := entry.2, stop := entry.2, node := entry.1 }
  | none => intervals

/-- The live intervals of a schedule in place of older ones. -/
def refill (g : Graph) (s : Schedule) (intervals : Array LiveInterval) : Array LiveInterval :=
  s.instructions.zipIdx.foldl
    (fun intervals (node, index) => (g.registerOperands node).foldl (use s index) intervals)
    (s.instructions.zipIdx.foldl (define s) (intervals.take 0))

end LiveInterval

/-! ## Scratch -/

/-- Forget which nodes stand for their keys. -/
def Sharing.Table.clear (t : Table) : Table :=
  { t with groups := {}, size := 0 }

/-- What the stages of a compile work in. -/
structure Scratch where
  buffers : Buffers
  table : Sharing.Table
  schedule : Schedule
  intervals : Array LiveInterval
  emitter : Emitter

/-- The scratch of a compiler that has not been used. -/
def Scratch.fresh : Scratch :=
  { buffers := .empty, table := .empty, schedule := .empty, intervals := #[], emitter := .empty }

namespace Compiler

/-- A compile with scratch at hand. The scratch survives a failure as well. -/
abbrev ScratchM (δ : Type) := CompileM (δ × Scratch)

/-- Hand the graph to the dumper. -/
def stageWith (c : Compiler δ) (tag : String) : ScratchM δ Unit :=
  match c.dumper with
  | some dumper =>
      modify fun (graph, notes, scratch) => (graph, (dumper.dump graph tag notes).2, scratch)
  | none => pure ()

/-- Run a pass in the buffers. The memory of its transform comes from the scratch and is put back
there. -/
def passIn (memory : Scratch → σ) (put : σ → Scratch → Scratch) (order : PassOrder)
    (transform : Transform σ)
    : ScratchM δ Unit := fun (graph, notes, scratch) =>
  match BufferM.run order transform ⟨graph, memory scratch, scratch.buffers⟩ with
  | .ok _ ⟨graph, memory, buffers⟩ => .ok () (graph, notes, put memory { scratch with buffers })
  | .error e ⟨graph, memory, buffers⟩ =>
      .error e (graph, notes, put memory { scratch with buffers })

/-- Run a pass whose transform has no memory. -/
def passWith (order : PassOrder) (step : NodeId → Edit NodeId) : ScratchM δ Unit :=
  passIn (fun _ => ()) (fun _ scratch => scratch) order (.ofEdit step)

/-- Clear the table, and share equal subexpressions by it. -/
def sharingWith : ScratchM δ Unit :=
  passIn (·.table.clear) (fun table scratch => { scratch with table }) .postOrder Sharing.step

/-- Schedule the graph. -/
def scheduleWith : ScratchM δ Unit := fun (graph, notes, scratch) =>
  match Schedule.rebuild graph (scratch.buffers, scratch.schedule) with
  | .ok _ (buffers, schedule) => .ok () (graph, notes, { scratch with buffers, schedule })
  | .error cause (buffers, schedule) =>
      .error (.abandoned cause) (graph, notes, { scratch with buffers, schedule })

/-- Find the live intervals of the schedule. -/
def intervalsWith : ScratchM δ Unit :=
  modify fun (graph, notes, scratch) =>
    (graph, notes,
      { scratch with intervals := LiveInterval.refill graph scratch.schedule scratch.intervals })

/-- Allocate registers and emit the program. -/
def emissionWith : ScratchM δ Program := fun (graph, notes, scratch) =>
  let allocation := Allocation.ofIntervals scratch.intervals.toList
  match EmitterM.emit { graph, schedule := scratch.schedule, allocation } scratch.emitter with
  | .ok program emitter => .ok program (graph, notes, { scratch with emitter })
  | .error cause emitter => .error (.abandoned cause) (graph, notes, { scratch with emitter })

/-- Run all stages. -/
def runWith (c : Compiler δ) : ScratchM δ Program := do
  c.stageWith "_00"
  passWith .postOrder Typing.step
  c.stageWith "_01_TypeConv"
  passWith .preOrder VectorOperators.step
  c.stageWith "_02_ReplacedVectorInst"
  edit StreamSplitting.splitInputs
  edit StreamSplitting.splitOutputs
  passWith .preOrder Scalarization.step
  c.stageWith "_03_Scalarized"
  passWith .postOrder (Folding.step c.arithmetic)
  c.stageWith "_04_ConstantFolded1"
  passWith .preOrder Lowering.step
  c.stageWith "_05_ReplacedUnsupportedInst"
  passWith .postOrder (Folding.step c.arithmetic)
  c.stageWith "_06_ConstantFolded2"
  sharingWith
  c.passes.forM fun p => passWith p.order p.step
  passWith .preOrder Validation.step
  c.stageWith "_07_Optimized"
  scheduleWith
  intervalsWith
  emissionWith

/-- Compile a graph with the scratch of earlier compiles, and answer the scratch for the next
one. -/
def compileWith (c : Compiler δ) (g : Graph) (notes : δ) (scratch : Scratch)
    : Outcome δ × Scratch :=
  match c.runWith (g, notes, scratch) with
  | .ok program (graph, notes, scratch) => ({ result := .ok program, graph, notes }, scratch)
  | .error e (graph, notes, scratch) => ({ result := .error e, graph, notes }, scratch)

/-- What a compiler keeps after it has compiled some graphs: the state of its dumper and its
scratch. -/
def afterAll (c : Compiler δ) : List Graph → δ × Scratch → δ × Scratch
  | [], kept => kept
  | g :: gs, (notes, scratch) =>
      let (outcome, scratch) := c.compileWith g notes scratch
      c.afterAll gs (outcome.notes, scratch)

end Compiler

end StreamExpr
