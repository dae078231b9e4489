import StreamExpr.Dump.Dot
import StreamExpr.Dump.Folder
import StreamExpr.Emission
import StreamExpr.Pass.Folding
import StreamExpr.Pass.Lowering
import StreamExpr.Pass.Scalarization
import StreamExpr.Pass.Sharing
import StreamExpr.Pass.StreamSplitting
import StreamExpr.Pass.Validation
import StreamExpr.Pass.VectorOperators
import StreamExpr.Text.Quoted

/-! The compiler: from a graph to a program.
Types are deduced, vectors replaced by scalars, constants folded, operators without an instruction
lowered, constants folded again, and equal subexpressions shared. Custom passes follow, and
validation. What is left is scheduled, given registers and emitted. After every stage the graph can
be handed to a dumper, which cannot influence the compile.
-/

namespace StreamExpr

/-! ## Configuration -/

/-- A named pass that a user adds to the compiler. -/
structure CustomPass where
  name : String
  order : PassOrder
  step : NodeId → Edit NodeId

namespace CustomPass

def run (p : CustomPass) : Edit Unit :=
  Edit.pass p.order p.step

def text (p : CustomPass) : String :=
  "Pass \x7b name: " ++ Text.quoted p.name ++ ", order: " ++ p.order.name ++ ", .. \x7d"

end CustomPass

/-- A receiver of graphs after each stage, with state `δ`. A dump that fails is passed over. -/
structure Dumper (δ : Type) where
  dump : Graph → String → δ → Except Dump.Obstacle Unit × δ

/-- A compiler with its custom passes, its dumper, and the arithmetic it folds constants by. -/
structure Compiler (δ : Type) where
  passes : List CustomPass
  dumper : Option (Dumper δ)
  arithmetic : FloatOps

namespace Compiler

/-- A compiler without custom passes or a dumper. -/
def standard : Compiler Unit :=
  { passes := [], dumper := none, arithmetic := .standard }

/-- The settings of a compiler that a reader can be shown. -/
def settings (c : Compiler δ) : String :=
  let dumper := if c.dumper.isSome then "true" else "false"
  "dumper: " ++ dumper ++ ", passes: [" ++ ", ".intercalate (c.passes.map CustomPass.text) ++ "]"

def configText (c : Compiler δ) : String :=
  "CompilerConfig \x7b " ++ c.settings ++ " \x7d"

def text (c : Compiler δ) : String :=
  "Compiler \x7b " ++ c.settings ++ ", .. \x7d"

/-! ## Stages -/

/-- A compile edits a graph and feeds a dumper. Both survive a failure. -/
abbrev CompileM (δ : Type) := EStateM Fault (Graph × δ)

/-- Edit the graph. -/
def edit (e : Edit α) : CompileM δ α := fun (graph, notes) =>
  match e graph with
  | .ok a graph => .ok a (graph, notes)
  | .error e graph => .error e (graph, notes)

/-- Hand the graph to the dumper. -/
def stage (c : Compiler δ) (tag : String) : CompileM δ Unit :=
  match c.dumper with
  | some dumper => modify fun (graph, notes) => (graph, (dumper.dump graph tag notes).2)
  | none => pure ()

/-- Deduce types and insert conversions. -/
def typing : Edit Unit :=
  Edit.pass .postOrder Typing.step

/-- Replace operators on vectors. -/
def vectorOperators : Edit Unit :=
  Edit.pass .preOrder VectorOperators.step

/-- Split vector streams and push selections of components down. -/
def scalarization : Edit Unit := do
  StreamSplitting.splitInputs
  StreamSplitting.splitOutputs
  Edit.pass .preOrder Scalarization.step

/-- Fold constants. -/
def folding (ops : FloatOps) : Edit Unit :=
  Edit.pass .postOrder (Folding.step ops)

/-- Lower operators without an instruction. -/
def lowering : Edit Unit :=
  Edit.pass .preOrder Lowering.step

/-- Share equal subexpressions. -/
def sharing : Edit Unit := fun graph =>
  match Pass.run .postOrder Sharing.step ⟨graph, .empty⟩ with
  | .ok _ w => .ok () w.graph
  | .error e w => .error e w.graph

/-- Reject what cannot become a program. -/
def validation : Edit Unit :=
  Edit.pass .preOrder Validation.step

/-- Schedule a graph, allocate registers and emit the program. -/
def generate (g : Graph) : Except CompileError Program := do
  let schedule ← Schedule.ofGraph g
  let allocation := Allocation.ofIntervals (LiveInterval.ofSchedule g schedule)
  Program.emit g schedule allocation

/-- Generate the program of the graph. -/
def generation : Edit Program := fun g =>
  match generate g with
  | .ok program => .ok program g
  | .error cause => .error (.abandoned cause) g

/-- Run all stages. -/
def run (c : Compiler δ) : CompileM δ Program := do
  c.stage "_00"
  edit typing
  c.stage "_01_TypeConv"
  edit vectorOperators
  c.stage "_02_ReplacedVectorInst"
  edit scalarization
  c.stage "_03_Scalarized"
  edit (folding c.arithmetic)
  c.stage "_04_ConstantFolded1"
  edit lowering
  c.stage "_05_ReplacedUnsupportedInst"
  edit (folding c.arithmetic)
  c.stage "_06_ConstantFolded2"
  edit sharing
  edit (c.passes.forM CustomPass.run)
  edit validation
  c.stage "_07_Optimized"
  edit generation

/-- The outcome of a compile: the program or what kept it from one, the graph as it was left, and
the state of the dumper. After a success the graph is the one the program was generated from. -/
structure Outcome (δ : Type) where
  result : Except Fault Program
  graph : Graph
  notes : δ

/-- Compile a graph. -/
def compile (c : Compiler δ) (g : Graph) (notes : δ) : Outcome δ :=
  match c.run (g, notes) with
  | .ok program (graph, notes) => { result := .ok program, graph, notes }
  | .error e (graph, notes) => { result := .error e, graph, notes }

end Compiler

/-! ## Dumpers -/

namespace Dumper

/-- Note the stage and what is read off the graph, the last stage first. -/
def noting (read : Graph → α) : Dumper (List (String × α)) where
  dump g tag notes := (.ok (), (tag, read g) :: notes)

/-- Note the stage and fail. -/
def failing (read : Graph → α) : Dumper (List (String × α)) where
  dump g tag notes := (.error .refused, (tag, read g) :: notes)

/-- Write one Graphviz file for each stage. The base path starts with the path of the folder. -/
def files (base : String) : Dumper Dump.Folder where
  dump g tag folder := folder.put ((Dump.BasePath.ofString base).stagePath tag) g.toDot

end Dumper

end StreamExpr
