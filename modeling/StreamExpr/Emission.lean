import StreamExpr.Allocation
import StreamExpr.InstructionSelection
import StreamExpr.Program

/-! Emission: scheduled nodes with their registers become a program.
Operands are encoded by shape.

* one operand: target, operand
* two operands: target, left, right register or constant
* a choice: target, condition, both branches
* a constant: target, constant
* an input: target, input slot
* an output: output slot, source
* a call: function slot, target, number of arguments, arguments

An output is found by name in the declared outputs. An input is found by name among the declared
inputs, or added to them when first used. Functions are listed once for each mangled name.
-/

namespace StreamExpr

/-- The tables of a program that grow during emission. -/
structure ProgramTables where
  inputs : List StreamDecl
  functions : List FunctionSig
deriving DecidableEq

namespace ProgramTables

/-- The slot of an input, which is added unless its name is listed. -/
def inputSlot (t : ProgramTables) (decl : StreamDecl) : Nat × ProgramTables :=
  match t.inputs.findIdx? (·.name = decl.name) with
  | some slot => (slot, t)
  | none => (t.inputs.length, { t with inputs := t.inputs ++ [decl] })

/-- The slot of a function, which is added under its mangled name unless that is listed. -/
def functionSlot (t : ProgramTables) (f : FunctionSig) : Nat × ProgramTables :=
  match t.functions.findIdx? (·.name = f.mangledName) with
  | some slot => (slot, t)
  | none =>
      (t.functions.length,
        { t with functions := t.functions ++ [{ f with name := f.mangledName }] })

/-- The tables with the declared inputs of a graph, the first of each name. -/
def ofGraph (g : Graph) : ProgramTables :=
  g.inputs.foldl
    (fun t id =>
      match (g.node id).kind with
      | .input decl => (t.inputSlot decl).2
      | _ => t)
    { inputs := [], functions := [] }

end ProgramTables

namespace Emission

/-- What instructions are emitted from. -/
structure Source where
  graph : Graph
  schedule : Schedule
  allocation : Allocation

/-- A computation that extends the program tables. -/
abbrev EmitM := StateT ProgramTables (Except CompileError)

/-- The physical register of a node. -/
def register (src : Source) (id : NodeId) : EmitM Word :=
  match (src.schedule.register? id).bind src.allocation.physical? with
  | some register => return register
  | none => throw (.malformedInput (src.graph.describe id ++ " has no register"))

/-- The registers of several nodes. -/
def registers (src : Source) : List NodeId → EmitM (List Word)
  | [] => return []
  | id :: ids => do
      let w ← register src id
      let ws ← registers src ids
      return w :: ws

/-- A right operand: a constant is its own operand. -/
def rightOperand (src : Source) (id : NodeId) : EmitM Word :=
  match src.graph.value? id with
  | some value => return value.bits.toNat
  | none => register src id

/-- The operand words of a node. -/
def operands (src : Source) (id : NodeId) : EmitM (List Word) := do
  let n := src.graph.node id
  match n.kind with
  | .constant value => return [← register src id, value.bits.toNat]
  | .input decl =>
      let slot ← modifyGet (·.inputSlot decl)
      return [← register src id, slot]
  | .output decl expression =>
      match src.graph.declared.findIdx? (·.name = decl.name) with
      | some slot => return [slot, ← register src expression]
      | none => throw (.undeclaredOutput decl.name)
  | .unary _ operand => registers src [id, operand]
  | .binary _ left right =>
      let ws ← registers src [id, left]
      return ws ++ [← rightOperand src right]
  | .ternary _ first second third => registers src [id, first, second, third]
  | .call _ arguments =>
      match n.function? with
      | some f =>
          let slot ← modifyGet (·.functionSlot f)
          let target ← register src id
          let ws ← registers src arguments
          return slot :: target :: arguments.length :: ws
      | none => throw (.typeError (src.graph.describe id) "no overload selected")
  | .construct _ | .swizzle _ _ =>
      throw (.unsupportedOperation (src.graph.describe id) n.type)

/-- The words of the instruction for a node. -/
def instruction (src : Source) (id : NodeId) : EmitM (List Word) := do
  let n := src.graph.node id
  if !n.type.isKnown then
    throw (.typeError (src.graph.describe id) "type is unknown at code generation")
  match src.graph.opCode? id with
  | none => throw (.unsupportedOperation (src.graph.describe id) n.type)
  | some code => return code.word :: (← operands src id)

/-- The words of the instructions for several nodes. -/
def instructions (src : Source) : List NodeId → EmitM (List Word)
  | [] => return []
  | id :: ids => do
      let first ← instruction src id
      let rest ← instructions src ids
      return first ++ rest

end Emission

/-- Emit the program of a schedule with allocated registers. -/
def Program.emit (g : Graph) (s : Schedule) (a : Allocation) : Except CompileError Program := do
  let src : Emission.Source := { graph := g, schedule := s, allocation := a }
  let (code, tables) ← (Emission.instructions src s.instructions).run (.ofGraph g)
  return { code, inputs := tables.inputs, outputs := g.declared, functions := tables.functions,
           registers := a.count, instructionCount := s.instructions.length }

end StreamExpr
