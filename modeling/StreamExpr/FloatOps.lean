import StreamExpr.Binary32

/-! The primitive operations on single-precision numbers that evaluation rests on. -/

namespace StreamExpr

/-- An interpretation of the primitive operations on single-precision numbers. -/
structure FloatOps where
  negate : Binary32 → Binary32
  absolute : Binary32 → Binary32
  sqrt : Binary32 → Binary32
  exp : Binary32 → Binary32
  ln : Binary32 → Binary32
  log2 : Binary32 → Binary32
  log10 : Binary32 → Binary32
  exp2 : Binary32 → Binary32
  sin : Binary32 → Binary32
  cos : Binary32 → Binary32
  tan : Binary32 → Binary32
  arcSin : Binary32 → Binary32
  arcCos : Binary32 → Binary32
  arcTan : Binary32 → Binary32
  round : Binary32 → Binary32
  floor : Binary32 → Binary32
  ceil : Binary32 → Binary32
  trunc : Binary32 → Binary32
  add : Binary32 → Binary32 → Binary32
  subtract : Binary32 → Binary32 → Binary32
  multiply : Binary32 → Binary32 → Binary32
  divide : Binary32 → Binary32 → Binary32
  remainder : Binary32 → Binary32 → Binary32
  pow : Binary32 → Binary32 → Binary32
  minimum : Binary32 → Binary32 → Binary32
  maximum : Binary32 → Binary32 → Binary32
  equal : Binary32 → Binary32 → Bool
  less : Binary32 → Binary32 → Bool
  lessEqual : Binary32 → Binary32 → Bool

namespace FloatOps

/-- Apply a function on machine floats to a pattern. -/
def through (f : Float32 → Float32) (x : Binary32) : Binary32 :=
  ⟨(f (.ofBits x.bits)).toBits⟩

/-- Apply a function on two machine floats to patterns. -/
def through₂ (f : Float32 → Float32 → Float32) (x y : Binary32) : Binary32 :=
  ⟨(f (.ofBits x.bits) (.ofBits y.bits)).toBits⟩

/-- The standard single-precision arithmetic: each result is rounded to the nearest number. -/
def standard : FloatOps where
  negate := Binary32.negate
  absolute := Binary32.absolute
  sqrt := through Float32.sqrt
  exp := through Float32.exp
  ln := through Float32.log
  log2 := through Float32.log2
  log10 := through Float32.log10
  exp2 := through Float32.exp2
  sin := through Float32.sin
  cos := through Float32.cos
  tan := through Float32.tan
  arcSin := through Float32.asin
  arcCos := through Float32.acos
  arcTan := through Float32.atan
  round := Binary32.round
  floor := Binary32.floor
  ceil := Binary32.ceil
  trunc := Binary32.trunc
  add := through₂ Float32.add
  subtract := through₂ Float32.sub
  multiply := through₂ Float32.mul
  divide := through₂ Float32.div
  remainder := Binary32.remainder
  pow := through₂ Float32.pow
  minimum := Binary32.minimum
  maximum := Binary32.maximum
  equal := Binary32.equal
  less := Binary32.less
  lessEqual := Binary32.lessEqual

/-- The nearest number from zero to one; what is no number stays. -/
def saturate (ops : FloatOps) (x : Binary32) : Binary32 :=
  if ops.less x .zero then .zero else if ops.less .one x then .one else x

/-- What truncation cuts off. -/
def frac (ops : FloatOps) (x : Binary32) : Binary32 :=
  ops.subtract x (ops.trunc x)

/-- The logarithm of `x` to the base `y`. -/
def log (ops : FloatOps) (x y : Binary32) : Binary32 :=
  ops.divide (ops.ln x) (ops.ln y)

/-- The upper bound applies first, so the lower one wins where they cross. -/
def clamp (ops : FloatOps) (x low high : Binary32) : Binary32 :=
  ops.maximum (ops.minimum x high) low

/-- The point at parameter `t` on the way from `a` to `b`. -/
def lerp (ops : FloatOps) (a b t : Binary32) : Binary32 :=
  ops.add a (ops.multiply (ops.subtract b a) t)

end FloatOps

end StreamExpr
