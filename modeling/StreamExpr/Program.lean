import StreamExpr.Binary32.Text
import StreamExpr.Declaration
import StreamExpr.OpCode

/-! Programs of the register machine, their decoding and their listing. -/

namespace StreamExpr

/-- A compiled expression: instruction words and the tables that they refer to. -/
structure Program where
  code : List Word
  inputs : List StreamDecl
  outputs : List StreamDecl
  /-- The functions called, under their mangled names. -/
  functions : List FunctionSig
  /-- The number of registers the machine has to provide. -/
  registers : Nat
  /-- The number of instructions. -/
  instructionCount : Nat
deriving DecidableEq

namespace Program

def empty : Program :=
  { code := [], inputs := [], outputs := [], functions := [], registers := 0
    instructionCount := 0 }

def isEmpty (p : Program) : Bool :=
  p.code.isEmpty

/-! ## Decoding -/

/-- A decoded instruction: where its code stands, the code, and all words after it. -/
structure Decoded where
  offset : Nat
  code : OpCode
  rest : List Word
deriving DecidableEq

namespace Decoded

/-- An operand word, zero past the end. -/
def operand (d : Decoded) (index : Nat) : Word :=
  d.rest.getD index 0

/-- The number of operand words. A call has a function, a target and a count before its
arguments. -/
def operandCount (d : Decoded) : Nat :=
  (d.code.operandCount?).getD (3 + d.operand 2)

end Decoded

/-- Decode words from an offset on, up to the first word that is no code. -/
def decodeFrom (offset : Nat) : Nat → List Word → List Decoded
  | 0, _ => []
  | _ + 1, [] => []
  | budget + 1, word :: rest =>
      match OpCode.ofWord? word with
      | none => []
      | some code =>
          let d : Decoded := { offset, code, rest }
          d :: decodeFrom (offset + 1 + d.operandCount) budget (rest.drop d.operandCount)

/-- The instructions of a program. Each takes at least one word, so there are at most as many as
words. -/
def decode (p : Program) : List Decoded :=
  decodeFrom 0 p.code.length p.code

/-- Where the instructions start, and their codes. -/
def instructions (p : Program) : List (Nat × OpCode) :=
  p.decode.map fun d => (d.offset, d.code)

def opCodes (p : Program) : List OpCode :=
  p.decode.map Decoded.code

/-! ## Listing -/

/-- Fill a text up to a width with a character in front. -/
def padLeft (width : Nat) (fill : Char) (text : String) : String :=
  String.ofList (List.replicate (width - text.length) fill) ++ text

/-- Fill a text up to a width with blanks behind. -/
def padRight (width : Nat) (text : String) : String :=
  text ++ String.ofList (List.replicate (width - text.length) ' ')

/-- The eight hexadecimal digits of a word. -/
def hexText (w : Word) : String :=
  "0x" ++ padLeft 8 '0' (String.ofList ((Nat.toDigits 16 w).map Char.toUpper))

/-- A constant operand as its operation reads it. -/
def constantText (code : BinaryCode) (w : Word) : String :=
  let bits := UInt32.ofNat w
  match code with
  | .addFloat | .subFloat | .mulFloat | .divFloat | .minFloat | .maxFloat | .eqFloat | .neFloat
  | .ltFloat | .leFloat | .gtFloat | .geFloat => (Binary32.mk bits).text
  | .eqBool | .neBool | .andBool | .orBool => if w = 0 then "false" else "true"
  | _ => toString bits.toInt32.toInt

def registerText (w : Word) : String :=
  "r" ++ toString w

/-- The name of a stream in a table. -/
def streamName (table : List StreamDecl) (slot : Nat) : String :=
  (table[slot]?.map StreamDecl.name).getD "?"

/-- The operands of an instruction. -/
def operandText (p : Program) (d : Decoded) : String :=
  let registers (count : Nat) : List String :=
    (List.range count).map fun i => registerText (d.operand i)
  let list (parts : List String) : String := ", ".intercalate parts
  let slot (mark : String) (table : List StreamDecl) (w : Word) : String :=
    mark ++ toString w ++ " (" ++ streamName table w ++ ")"
  match d.code with
  | .nop => ""
  | .unary _ => list (registers 2)
  | .binary _ => list (registers 3)
  | .binaryConstant code => list (registers 2 ++ [constantText code (d.operand 2)])
  | .select _ => list (registers 4)
  | .transfer .loadConstant => list [registerText (d.operand 0), hexText (d.operand 1)]
  | .transfer .loadFloat | .transfer .loadInt =>
      list [registerText (d.operand 0), slot "i" p.inputs (d.operand 1)]
  | .transfer .storeFloat | .transfer .storeInt =>
      list [slot "o" p.outputs (d.operand 0), registerText (d.operand 1)]
  | .transfer .call =>
      let name := (p.functions[d.operand 0]?.map FunctionSig.name).getD "?"
      let arguments := (List.range (d.operand 2)).map fun i => registerText (d.operand (3 + i))
      registerText (d.operand 1) ++ ", " ++ name ++ "(" ++ list arguments ++ ")"

/-- One line for each instruction: its offset, its name and its operands. -/
def listing (p : Program) : String :=
  String.join <| p.decode.map fun d =>
    padLeft 4 '0' (toString d.offset) ++ " " ++ padRight 11 d.code.name ++ " "
      ++ p.operandText d ++ "\n"

end Program

end StreamExpr
