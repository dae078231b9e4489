import StreamExpr.InstructionSelection
import StreamExpr.Program
import StreamExpr.Proofs.Meaning

/-! The register machine, for every meaning of its operation codes.
A machine runs the words of a program and writes words to output slots. The same meaning of the
codes gives every node of a graph a word, without any machine.
-/

namespace StreamExpr

/-- A meaning of the operation codes on 32-bit words, and of the functions by their mangled names.
An operation on a register and a constant means the operation on two registers. -/
structure Interpretation where
  unary : UnaryCode → UInt32 → UInt32
  binary : BinaryCode → UInt32 → UInt32 → UInt32
  select : SelectCode → UInt32 → UInt32 → UInt32 → UInt32
  call : String → List UInt32 → UInt32

/-! ## Running a program -/

/-- The registers of a machine, and the slots and words it has written, in order. -/
structure Machine where
  registers : Nat → UInt32
  writes : List (Nat × UInt32)

namespace Machine

/-- Put a word into a register. -/
def set (s : Machine) (target : Nat) (w : UInt32) : Machine :=
  { s with registers := fun r => if r = target then w else s.registers r }

/-- Write a word to an output slot. -/
def write (s : Machine) (slot : Nat) (w : UInt32) : Machine :=
  { s with writes := s.writes ++ [(slot, w)] }

/-- Execute one instruction: its operands are read before its target is written. A slot outside its
table stops the machine. -/
def execute (m : Interpretation) (p : Program) (streams : String → UInt32) (s : Machine)
    (d : Program.Decoded)
    : Option Machine :=
  let register (index : Nat) : UInt32 := s.registers (d.operand index)
  match d.code with
  | .nop => some s
  | .unary code => some (s.set (d.operand 0) (m.unary code (register 1)))
  | .binary code => some (s.set (d.operand 0) (m.binary code (register 1) (register 2)))
  | .binaryConstant code =>
      some (s.set (d.operand 0) (m.binary code (register 1) (.ofNat (d.operand 2))))
  | .select code =>
      some (s.set (d.operand 0) (m.select code (register 1) (register 2) (register 3)))
  | .transfer .loadConstant => some (s.set (d.operand 0) (.ofNat (d.operand 1)))
  | .transfer .loadFloat | .transfer .loadInt =>
      p.inputs[d.operand 1]?.map fun decl => s.set (d.operand 0) (streams decl.name)
  | .transfer .storeFloat | .transfer .storeInt =>
      p.outputs[d.operand 0]?.map fun _ => s.write (d.operand 0) (register 1)
  | .transfer .call =>
      p.functions[d.operand 0]?.map fun f =>
        s.set (d.operand 1)
          (m.call f.name ((List.range (d.operand 2)).map fun i => register (3 + i)))

/-- Run words up to their end. A word that is no code stops the machine. -/
def runFrom (m : Interpretation) (p : Program) (streams : String → UInt32)
    : Nat → List Word → Machine → Option Machine
  | _, [], s => some s
  | 0, _ :: _, _ => none
  | budget + 1, word :: rest, s => do
      let code ← OpCode.ofWord? word
      let d : Program.Decoded := { offset := 0, code, rest }
      runFrom m p streams budget (rest.drop d.operandCount) (← s.execute m p streams d)

/-- The slots and words that a program writes, in order, started with the given registers. Every
instruction takes a word at least, so as many steps as words suffice. -/
def run (m : Interpretation) (p : Program) (streams : String → UInt32) (registers : Nat → UInt32)
    : Option (List (Nat × UInt32)) :=
  (runFrom m p streams p.code.length p.code { registers, writes := [] }).map Machine.writes

@[simp]
theorem set_self (s : Machine) (target : Nat) (w : UInt32)
    : (s.set target w).registers target = w :=
  if_pos rfl

theorem set_of_ne (s : Machine) {target r : Nat} (w : UInt32) (different : r ≠ target)
    : (s.set target w).registers r = s.registers r :=
  if_neg different

/-- Running an instruction and the words behind its operands. -/
theorem runFrom_instruction {m : Interpretation} {p : Program} {streams : String → UInt32}
    {code : OpCode} {operands rest : List Word} {s : Machine} (budget : Nat)
    (count : (Program.Decoded.mk 0 code (operands ++ rest)).operandCount = operands.length)
    : runFrom m p streams (budget + 1) (code.word :: operands ++ rest) s
      = (s.execute m p streams ⟨0, code, operands ++ rest⟩).bind
          (runFrom m p streams budget rest) := by
  simp only [List.cons_append, runFrom, OpCode.ofWord?_word, Option.bind_eq_bind, Option.bind_some,
    count, List.drop_left]

end Machine

/-! ## The words of nodes -/

/-- The word an operation makes of the words of its operands. -/
def Interpretation.operate (m : Interpretation) : Option OpCode → List UInt32 → Option UInt32
  | some (.unary code), [x] => some (m.unary code x)
  | some (.binary code), [x, y] | some (.binaryConstant code), [x, y] => some (m.binary code x y)
  | some (.select code), [x, y, z] => some (m.select code x y z)
  | _, _ => none

/-- The word a node makes of the words of its operands. Vectors have none, and outputs have no
value. -/
def Graph.word? (g : Graph) (m : Interpretation) (streams : String → UInt32) (id : NodeId)
    (operands : List UInt32)
    : Option UInt32 :=
  match (g.node id).kind with
  | .constant value => some value.bits
  | .input decl => some (streams decl.name)
  | .unary _ _ | .binary _ _ _ | .ternary _ _ _ _ => m.operate (g.opCode? id) operands
  | .call _ _ => (g.node id).function?.map fun f => m.call f.mangledName operands
  | .output _ _ | .construct _ | .swizzle _ _ => none

/-- The slot and word that an output root writes: the slot of its name in the output table and the
word of its expression. -/
def Graph.Writes (g : Graph) (m : Interpretation) (streams : String → UInt32) (root : NodeId)
    (write : Nat × UInt32)
    : Prop :=
  ∃ decl expression,
    (g.node root).kind = .output decl expression
    ∧ g.declared.findIdx? (·.name = decl.name) = some write.1
    ∧ g.Evaluates (g.word? m streams) expression write.2

end StreamExpr
