import StreamExpr.Pass.Typing

/-! Lowering: operators without an instruction are expressed by operators that have one.

Negation is a difference from zero, clamping a minimum and a maximum, interpolation a sum, an angle
conversion a product, a fractional part a difference, a remainder what the truncated quotient
leaves, a logarithm a quotient of natural ones, a float power a power of two, a small integer power
a product, and a conversion from or to truth values a choice or a comparison with zero.
-/

namespace StreamExpr.Lowering

/-- Degrees in a radian as the quotient of 180 by the rounded circle constant. -/
def degreesFactor : Binary32 := ⟨0x42652ee0⟩

/-- Radians in a degree as the quotient of the rounded circle constant by 180. -/
def radiansFactor : Binary32 := ⟨0x3c8efa35⟩

/-- The largest constant exponent for which an integer power becomes a product. -/
def maxUnrolledExponent : Int32 := 16

/-- Add the zero of a class. -/
def addZero (register : RegisterClass) : Edit NodeId :=
  match Value.zero? register with
  | some value => Edit.constant value
  | none => throw (.abandoned (.malformedInput ("no zero constant for " ++ register.name)))

/-- Add the one of a class. -/
def addOne (register : RegisterClass) : Edit NodeId :=
  match Value.one? register with
  | some value => Edit.constant value
  | none => throw (.abandoned (.malformedInput ("no one constant for " ++ register.name)))

def negate (register : RegisterClass) (x : NodeId) : Edit NodeId := do
  let zeroId ← addZero register
  Edit.binary .subtract zeroId x

def saturate (register : RegisterClass) (x : NodeId) : Edit NodeId := do
  let zeroId ← addZero register
  let oneId ← addOne register
  let capped ← Edit.binary .min x oneId
  Edit.binary .max capped zeroId

/-- A product with a constant factor. -/
def scaleBy (factor : Binary32) (x : NodeId) : Edit NodeId := do
  let factor ← Edit.constant (.float factor)
  Edit.binary .multiply x factor

def frac (x : NodeId) : Edit NodeId := do
  let whole ← Edit.unary .trunc x
  Edit.binary .subtract x whole

def intPow2 (x : NodeId) : Edit NodeId := do
  let oneId ← Edit.constant (.int 1)
  Edit.binary .bitshiftLeft oneId x

/-- A conversion between truth values and numbers; a conversion to the operand's own class is the
operand. Conversions between integers and floats have an instruction and stay. -/
def conversion (id operand : NodeId) (target : RegisterClass) : Edit NodeId := do
  let source ← Edit.read (·.register operand)
  if source = target then
    return operand
  match source, target with
  | .bool, .int | .bool, .float =>
      let oneId ← addOne target
      let zeroId ← addZero target
      Edit.ternary .select operand oneId zeroId
  | .int, .bool | .float, .bool =>
      let zeroId ← addZero source
      Edit.binary .notEqual operand zeroId
  | _, _ => return id

def modulo (register : RegisterClass) (x y : NodeId) : Edit NodeId := do
  let quotient ← Edit.binary .divide x y
  let whole ← if register = .int then pure quotient else Edit.unary .trunc quotient
  let product ← Edit.binary .multiply whole y
  Edit.binary .subtract x product

def log (x y : NodeId) : Edit NodeId := do
  let numerator ← Edit.unary .ln x
  let denominator ← Edit.unary .ln y
  Edit.binary .divide numerator denominator

def floatPow (x y : NodeId) : Edit NodeId := do
  let log ← Edit.unary .log2 x
  let product ← Edit.binary .multiply y log
  Edit.unary .pow2 product

/-- Multiply a product by `x` some more times. -/
def multiplyBy (x : NodeId) : Nat → NodeId → Edit NodeId
  | 0, product => return product
  | times + 1, product => do
      let product ← Edit.binary .multiply product x
      multiplyBy x times product

/-- An integer power as a power of floats. -/
def intPowByFloat (x y : NodeId) : Edit NodeId := do
  let x ← Typing.convert x .float
  let y ← Typing.convert y .float
  let power ← Edit.binary .pow x y
  Edit.conversion .int power

def intPow (x y : NodeId) : Edit NodeId := do
  match ← Edit.read (·.value? y) with
  | some (.int n) =>
      if n = 0 then Edit.constant (.int 1)
      else if 1 ≤ n ∧ n ≤ maxUnrolledExponent then multiplyBy x (n.toInt.toNat - 1) x
      else intPowByFloat x y
  | _ => intPowByFloat x y

def clamp (x low high : NodeId) : Edit NodeId := do
  let capped ← Edit.binary .min x high
  Edit.binary .max capped low

def lerp (a b t : NodeId) : Edit NodeId := do
  let delta ← Edit.binary .subtract b a
  let scaled ← Edit.binary .multiply delta t
  Edit.binary .add a scaled

/-- One replacement. -/
def lowerOnce (id : NodeId) : Edit NodeId := do
  let n ← Edit.read (·.node id)
  let isInt := n.register = .int
  match n.kind with
  | .unary .typeConversion x => conversion id x n.register
  | .unary .negate x => negate n.register x
  | .unary .saturate x => saturate n.register x
  | .unary .radToDeg x => scaleBy degreesFactor x
  | .unary .degToRad x => scaleBy radiansFactor x
  | .unary .frac x => frac x
  | .unary .pow2 x => if isInt then intPow2 x else return id
  | .binary .modulo x y => modulo n.register x y
  | .binary .log x y => log x y
  | .binary .pow x y => if isInt then intPow x y else floatPow x y
  | .ternary .clamp x low high => clamp x low high
  | .ternary .lerp a b t => lerp a b t
  | _ => return id

/-- Replace a node until it has an instruction. -/
def step (id : NodeId) : Edit NodeId :=
  Edit.settle lowerOnce id

end StreamExpr.Lowering
