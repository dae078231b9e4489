import Std.Data.TreeMap
import StreamExpr.Emission

/-! The emitter: what assembles programs, one after the other.
Words are appended one by one. Slots are found in tables by name, so that no list is searched. All
of this is kept from one program to the next and cleared before each. A program takes its words and
entries away; the slots stay.
-/

namespace StreamExpr

/-- The words and entries of a program that is being emitted, and the slots of its entries by
name. -/
structure Emitter where
  code : Array Word
  inputs : Array StreamDecl
  functions : Array FunctionSig
  inputSlots : Std.TreeMap String Nat
  outputSlots : Std.TreeMap String Nat
  functionSlots : Std.TreeMap String Nat

namespace Emitter

def empty : Emitter :=
  { code := #[], inputs := #[], functions := #[], inputSlots := {},
    outputSlots := {}, functionSlots := {} }

/-- Forget everything. -/
def clear (e : Emitter) : Emitter :=
  { e with
    code := #[], inputs := #[], functions := #[], inputSlots := {},
    outputSlots := {}, functionSlots := {} }

/-! ## Slots -/

/-- Add an input and answer its slot. -/
def addInput (e : Emitter) (decl : StreamDecl) : Nat × Emitter :=
  let slot := e.inputs.size
  (slot, { e with inputs := e.inputs.push decl, inputSlots := e.inputSlots.insert decl.name slot })

/-- The slot of an input, which is added unless its name has one. -/
def inputSlot (e : Emitter) (decl : StreamDecl) : Nat × Emitter :=
  match e.inputSlots[decl.name]? with
  | some slot => (slot, e)
  | none => e.addInput decl

/-- The slot of a function, which is added under its mangled name unless that has one. -/
def functionSlot (e : Emitter) (f : FunctionSig) : Nat × Emitter :=
  let name := f.mangledName
  match e.functionSlots[name]? with
  | some slot => (slot, e)
  | none =>
      let slot := e.functions.size
      (slot, { e with
        functions := e.functions.push { f with name }
        functionSlots := e.functionSlots.insert name slot })

/-- Add the input that a node stands for, unless its name has a slot. -/
def declareInput (g : Graph) (e : Emitter) (id : NodeId) : Emitter :=
  match (g.node id).kind with
  | .input decl => if e.inputSlots.contains decl.name then e else (e.addInput decl).2
  | _ => e

/-- Add the declared inputs of a graph, the first of each name. -/
def declareInputs (g : Graph) (e : Emitter) : Emitter :=
  g.inputs.foldl (declareInput g) e

/-- Give slots to the names of declared outputs, from the given one on. The first output of a name
keeps it. -/
def declareOutputs (decls : List StreamDecl) (first : Nat) (e : Emitter) : Emitter :=
  match decls with
  | [] => e
  | decl :: decls =>
      declareOutputs decls (first + 1)
        { e with outputSlots := e.outputSlots.insertIfNew decl.name first }

end Emitter

/-! ## Words -/

/-- A computation that emits. What has been emitted survives a failure. -/
abbrev EmitterM := EStateM CompileError Emitter

namespace EmitterM

open Emission

/-- Append a word. -/
def push (w : Word) : EmitterM Unit :=
  modify fun e => { e with code := e.code.push w }

/-- Append the register of a node. -/
def pushRegister (src : Source) (id : NodeId) : EmitterM Unit :=
  match (src.schedule.register? id).bind src.allocation.physical? with
  | some register => push register
  | none => throw (.malformedInput (src.graph.describe id ++ " has no register"))

def pushRegisters (src : Source) : List NodeId → EmitterM Unit
  | [] => return
  | id :: ids => do
      pushRegister src id
      pushRegisters src ids

/-- Append a right operand: a constant is its own operand. -/
def pushRight (src : Source) (id : NodeId) : EmitterM Unit :=
  match src.graph.value? id with
  | some value => push value.bits.toNat
  | none => pushRegister src id

/-- Append the operand words of a node. -/
def pushOperands (src : Source) (id : NodeId) : EmitterM Unit := do
  let n := src.graph.node id
  match n.kind with
  | .constant value =>
      pushRegister src id
      push value.bits.toNat
  | .input decl =>
      let slot ← modifyGet (·.inputSlot decl)
      pushRegister src id
      push slot
  | .output decl expression =>
      match (← get).outputSlots[decl.name]? with
      | some slot =>
          push slot
          pushRegister src expression
      | none => throw (.undeclaredOutput decl.name)
  | .unary _ operand => pushRegisters src [id, operand]
  | .binary _ left right =>
      pushRegisters src [id, left]
      pushRight src right
  | .ternary _ first second third => pushRegisters src [id, first, second, third]
  | .call _ arguments =>
      match n.function? with
      | some f =>
          let slot ← modifyGet (·.functionSlot f)
          push slot
          pushRegister src id
          push arguments.length
          pushRegisters src arguments
      | none => throw (.typeError (src.graph.describe id) "no overload selected")
  | .construct _ | .swizzle _ _ =>
      throw (.unsupportedOperation (src.graph.describe id) n.type)

/-- Append the words of the instruction for a node. -/
def pushInstruction (src : Source) (id : NodeId) : EmitterM Unit := do
  let n := src.graph.node id
  if !n.type.isKnown then
    throw (.typeError (src.graph.describe id) "type is unknown at code generation")
  match src.graph.opCode? id with
  | none => throw (.unsupportedOperation (src.graph.describe id) n.type)
  | some code =>
      push code.word
      pushOperands src id

def pushInstructions (src : Source) : List NodeId → EmitterM Unit
  | [] => return
  | id :: ids => do
      pushInstruction src id
      pushInstructions src ids

/-- Take the words and entries away as a program. -/
def finish (src : Source) : EmitterM Program :=
  modifyGet fun e =>
    ({ code := e.code.toList, inputs := e.inputs.toList, outputs := src.graph.declared
       functions := e.functions.toList, registers := src.allocation.count
       instructionCount := src.schedule.instructions.length },
      { e with code := #[], inputs := #[], functions := #[] })

/-- Emit the program of a schedule with allocated registers. -/
def emit (src : Source) : EmitterM Program := do
  modify fun e => (e.clear.declareInputs src.graph).declareOutputs src.graph.declared 0
  pushInstructions src src.schedule.instructions
  finish src

end EmitterM

end StreamExpr
