import StreamExpr.Declaration
import StreamExpr.Operator

/-! Overload resolution.
Every operator has a short table of signatures, and a call has a list of candidate overloads.
Resolution picks the entry whose argument classes are closest to the operand classes; widening
a class counts one per step, narrowing it four, and the earlier of two equally close entries
wins.
-/

namespace StreamExpr

/-- One overload of an operator. -/
structure Signature where
  result : RegisterClass
  arguments : List RegisterClass
deriving DecidableEq

namespace Signature

/-- The class expected of one argument, unknown past the last one. -/
def argument (s : Signature) (slot : Nat) : RegisterClass :=
  s.arguments.getD slot .unknown

/-- The result class of one entry of a table. -/
def resultAt (table : List Signature) (index : Nat) : RegisterClass :=
  (table[index]?.map result).getD .unknown

/-- An operator from `count` operands of a class to that class. -/
def closed (register : RegisterClass) (count : Nat) : Signature :=
  { result := register, arguments := List.replicate count register }

/-- A comparison of two operands of a class. -/
def comparing (register : RegisterClass) : Signature :=
  { result := .bool, arguments := [register, register] }

/-- A choice by a truth value between two operands of a class. -/
def choosing (register : RegisterClass) : Signature :=
  { result := register, arguments := [.bool, register, register] }

end Signature

/-! ## Operator tables -/

/-- The overloads of an operator of one operand. A conversion has none: its result is fixed when
it is created, and it accepts any operand. -/
def UnaryOp.signatures : UnaryOp → List Signature
  | .negate | .absolute | .saturate | .log2 | .pow2 => [.closed .float 1, .closed .int 1]
  | .sqrt | .exp | .ln | .log10 | .sin | .cos | .tan | .arcSin | .arcCos | .arcTan | .radToDeg
  | .degToRad | .round | .floor | .ceil | .trunc | .frac | .length | .normalize =>
      [.closed .float 1]
  | .bitwiseNot => [.closed .int 1]
  | .logicalNot | .all | .any => [.closed .bool 1]
  | .typeConversion => []

/-- The overloads of an operator of two operands. -/
def BinaryOp.signatures : BinaryOp → List Signature
  | .add | .subtract | .multiply | .divide | .modulo | .pow | .min | .max | .dot =>
      [.closed .float 2, .closed .int 2]
  | .log | .cross => [.closed .float 2]
  | .bitshiftLeft | .bitshiftRight | .bitwiseAnd | .bitwiseXor | .bitwiseOr => [.closed .int 2]
  | .equal | .notEqual => [.comparing .float, .comparing .int, .comparing .bool]
  | .less | .lessEqual | .greater | .greaterEqual => [.comparing .float, .comparing .int]
  | .logicalAnd | .logicalOr => [.closed .bool 2]

/-- The overloads of an operator of three operands. -/
def TernaryOp.signatures : TernaryOp → List Signature
  | .clamp => [.closed .float 3, .closed .int 3]
  | .select => [.choosing .float, .choosing .int, .choosing .bool]
  | .lerp => [.closed .float 3]

/-! ## Resolution -/

/-- How far a class is from the expected one. -/
def RegisterClass.distance (actual expected : RegisterClass) : Nat :=
  if expected.rank < actual.rank then
    (actual.rank - expected.rank) * 4
  else
    expected.rank - actual.rank

/-- The total distance of the operands from the expected classes. There is none if an operand
that counts is unknown or if there are fewer operands than required; operands past the expected
ones do not count. -/
def matchDistance? (actual expected : List RegisterClass) (required : Nat) : Option Nat :=
  if actual.length < required then none else total actual expected
where
  total : List RegisterClass → List RegisterClass → Option Nat
    | a :: actual, e :: expected =>
        if a.isKnown then (total actual expected).map (a.distance e + ·) else none
    | _, _ => some 0

/-- The index of the least distance that is present, the first one among equals. -/
def bestMatch? (distances : List (Option Nat)) : Option Nat :=
  (go 0 none distances).map Prod.fst
where
  go (index : Nat) (best : Option (Nat × Nat)) : List (Option Nat) → Option (Nat × Nat)
    | [] => best
    | none :: rest => go (index + 1) best rest
    | some distance :: rest =>
        match best with
        | none => go (index + 1) (some (index, distance)) rest
        | some (_, least) =>
            go (index + 1) (if distance < least then some (index, distance) else best) rest

/-- The index of the closest operator signature. -/
def resolveOperator? (signatures : List Signature) (operands : List RegisterClass)
    : Option Nat :=
  bestMatch? (signatures.map fun s => matchDistance? operands s.arguments s.arguments.length)

/-- The index of the closest function overload. -/
def resolveFunction? (candidates : List FunctionSig) (arguments : List RegisterClass)
    : Option Nat :=
  bestMatch? (candidates.map fun f => matchDistance? arguments f.inputs f.required)

end StreamExpr
