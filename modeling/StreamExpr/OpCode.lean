/-! Operation codes of the register machine.
An instruction is a word for its code followed by operand words. Codes of one shape share a range of
words; an operation on two registers and the same operation on a register and a constant are
sixty-four words apart.
-/

namespace StreamExpr

/-- A word of a program. -/
abbrev Word := Nat

/-! ## Codes -/

/-- Operations from one register to another. -/
inductive UnaryCode where
  | absFloat
  | absInt
  | sqrtFloat
  | expFloat
  | lnFloat
  | log2Float
  | log2Int
  | log10Float
  | pow2Float
  | sinFloat
  | cosFloat
  | tanFloat
  | arcSinFloat
  | arcCosFloat
  | arcTanFloat
  | roundFloat
  | floorFloat
  | ceilFloat
  | truncFloat
  | notInt
  | notBool
  | intToFloat
  | floatToInt
deriving DecidableEq

namespace UnaryCode

/-- All codes in the order of their words. -/
def every : List UnaryCode :=
  [
    .absFloat, .absInt, .sqrtFloat, .expFloat, .lnFloat, .log2Float, .log2Int, .log10Float,
    .pow2Float, .sinFloat, .cosFloat, .tanFloat, .arcSinFloat, .arcCosFloat, .arcTanFloat,
    .roundFloat, .floorFloat, .ceilFloat, .truncFloat, .notInt, .notBool, .intToFloat, .floatToInt
  ]

def name : UnaryCode → String
  | .absFloat => "ABS_F"
  | .absInt => "ABS_I"
  | .sqrtFloat => "SQRT_F"
  | .expFloat => "EXP_F"
  | .lnFloat => "LN_F"
  | .log2Float => "LOG2_F"
  | .log2Int => "LOG2_I"
  | .log10Float => "LOG10_F"
  | .pow2Float => "POW2_F"
  | .sinFloat => "SIN_F"
  | .cosFloat => "COS_F"
  | .tanFloat => "TAN_F"
  | .arcSinFloat => "ASIN_F"
  | .arcCosFloat => "ACOS_F"
  | .arcTanFloat => "ATAN_F"
  | .roundFloat => "ROUND_F"
  | .floorFloat => "FLOOR_F"
  | .ceilFloat => "CEIL_F"
  | .truncFloat => "TRUNC_F"
  | .notInt => "NOT_I"
  | .notBool => "NOT_B"
  | .intToFloat => "I_TO_F"
  | .floatToInt => "F_TO_I"

end UnaryCode

/-- Operations on two operands, of which the right one is a register or a constant. -/
inductive BinaryCode where
  | addFloat
  | addInt
  | subFloat
  | subInt
  | mulFloat
  | mulInt
  | divFloat
  | divInt
  | minFloat
  | minInt
  | maxFloat
  | maxInt
  | shiftLeftInt
  | shiftRightInt
  | andInt
  | xorInt
  | orInt
  | eqFloat
  | eqInt
  | eqBool
  | neFloat
  | neInt
  | neBool
  | ltFloat
  | ltInt
  | leFloat
  | leInt
  | gtFloat
  | gtInt
  | geFloat
  | geInt
  | andBool
  | orBool
deriving DecidableEq

namespace BinaryCode

/-- All codes in the order of their words. -/
def every : List BinaryCode :=
  [
    .addFloat, .addInt, .subFloat, .subInt, .mulFloat, .mulInt, .divFloat, .divInt, .minFloat,
    .minInt, .maxFloat, .maxInt, .shiftLeftInt, .shiftRightInt, .andInt, .xorInt, .orInt,
    .eqFloat, .eqInt, .eqBool, .neFloat, .neInt, .neBool, .ltFloat, .ltInt, .leFloat, .leInt,
    .gtFloat, .gtInt, .geFloat, .geInt, .andBool, .orBool
  ]

def name : BinaryCode → String
  | .addFloat => "ADD_F"
  | .addInt => "ADD_I"
  | .subFloat => "SUB_F"
  | .subInt => "SUB_I"
  | .mulFloat => "MUL_F"
  | .mulInt => "MUL_I"
  | .divFloat => "DIV_F"
  | .divInt => "DIV_I"
  | .minFloat => "MIN_F"
  | .minInt => "MIN_I"
  | .maxFloat => "MAX_F"
  | .maxInt => "MAX_I"
  | .shiftLeftInt => "SHL_I"
  | .shiftRightInt => "SHR_I"
  | .andInt => "AND_I"
  | .xorInt => "XOR_I"
  | .orInt => "OR_I"
  | .eqFloat => "EQ_F"
  | .eqInt => "EQ_I"
  | .eqBool => "EQ_B"
  | .neFloat => "NEQ_F"
  | .neInt => "NEQ_I"
  | .neBool => "NEQ_B"
  | .ltFloat => "LT_F"
  | .ltInt => "LT_I"
  | .leFloat => "LEQ_F"
  | .leInt => "LEQ_I"
  | .gtFloat => "GT_F"
  | .gtInt => "GT_I"
  | .geFloat => "GEQ_F"
  | .geInt => "GEQ_I"
  | .andBool => "AND_B"
  | .orBool => "OR_B"

end BinaryCode

/-- Choices by a truth value between two registers. -/
inductive SelectCode where
  | selectFloat
  | selectInt
  | selectBool
deriving DecidableEq

namespace SelectCode

/-- All codes in the order of their words. -/
def every : List SelectCode :=
  [.selectFloat, .selectInt, .selectBool]

def name : SelectCode → String
  | .selectFloat => "SEL_F"
  | .selectInt => "SEL_I"
  | .selectBool => "SEL_B"

end SelectCode

/-- Constants, streams and calls. -/
inductive TransferCode where
  /-- Put a constant into a register. -/
  | loadConstant
  /-- Read a float input into a register. -/
  | loadFloat
  /-- Read an integer or truth value input into a register. -/
  | loadInt
  /-- Write a register to a float output. -/
  | storeFloat
  /-- Write a register to an integer or truth value output. -/
  | storeInt
  /-- Call an external function. -/
  | call
deriving DecidableEq

namespace TransferCode

/-- All codes in the order of their words. -/
def every : List TransferCode :=
  [.loadConstant, .loadFloat, .loadInt, .storeFloat, .storeInt, .call]

def name : TransferCode → String
  | .loadConstant => "MOV_C"
  | .loadFloat => "LOAD_F"
  | .loadInt => "LOAD_I"
  | .storeFloat => "STORE_F"
  | .storeInt => "STORE_I"
  | .call => "CALL"

end TransferCode

/-- The code of an instruction. No program has the empty one. -/
inductive OpCode where
  | nop
  | unary (code : UnaryCode)
  | binary (code : BinaryCode)
  | binaryConstant (code : BinaryCode)
  | select (code : SelectCode)
  | transfer (code : TransferCode)
deriving DecidableEq

/-! ## Words -/

namespace OpCode

/-- The word of a code: the start of its range and its place there. -/
def word : OpCode → Word
  | .nop => 0
  | .unary code => 1 + UnaryCode.every.idxOf code
  | .binary code => 32 + BinaryCode.every.idxOf code
  | .binaryConstant code => 96 + BinaryCode.every.idxOf code
  | .select code => 160 + SelectCode.every.idxOf code
  | .transfer code => 176 + TransferCode.every.idxOf code

/-- The code with the given word. -/
def ofWord? (w : Word) : Option OpCode :=
  if w = 0 then some .nop
  else if w < 32 then UnaryCode.every[w - 1]?.map .unary
  else if w < 96 then BinaryCode.every[w - 32]?.map .binary
  else if w < 160 then BinaryCode.every[w - 96]?.map .binaryConstant
  else if w < 176 then SelectCode.every[w - 160]?.map .select
  else TransferCode.every[w - 176]?.map .transfer

def name : OpCode → String
  | .nop => "NOP"
  | .unary code => code.name
  | .binary code => code.name
  | .binaryConstant code => code.name ++ "_C"
  | .select code => code.name
  | .transfer code => code.name

/-- The code of the same operation with a constant as its right operand. -/
def withConstant? : OpCode → Option OpCode
  | .binary code => some (.binaryConstant code)
  | _ => none

/-- A constant on the right decides which form of a code is chosen, not whether there is one. -/
theorem withConstant?_map (code? : Option BinaryCode) (constant : Bool)
    : (if constant then (code?.map binary).bind withConstant? else code?.map binary)
      = code?.map (if constant then binaryConstant else binary) := by
  cases constant <;> cases code? <;> rfl

/-- The number of operand words, which for a call depends on its arguments. -/
def operandCount? : OpCode → Option Nat
  | .nop => some 0
  | .unary _ => some 2
  | .binary _ | .binaryConstant _ => some 3
  | .select _ => some 4
  | .transfer .call => none
  | .transfer _ => some 2

/-- A word tells its code. Witness: every code stands at its place in its range. -/
@[simp]
theorem ofWord?_word (code : OpCode)
    : ofWord? code.word = some code := by
  cases code with
  | nop => rfl
  | unary code => cases code <;> rfl
  | binary code => cases code <;> rfl
  | binaryConstant code => cases code <;> rfl
  | select code => cases code <;> rfl
  | transfer code => cases code <;> rfl

end OpCode

end StreamExpr
