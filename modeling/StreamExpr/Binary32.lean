/-! Single-precision numbers as 32-bit patterns.
A pattern is read as a sign, a significand and a binary exponent; conversions to and from
integers, the four roundings to an integer, the order and the remainder are exact integer
arithmetic on these parts. Patterns are kept as they are, so signed zeros and the payload of
a number that is no number survive.
-/

namespace StreamExpr

/-- A single-precision number, identified with its bit pattern. -/
structure Binary32 where
  bits : UInt32
deriving DecidableEq

namespace Binary32

/-! ## Parts of a pattern -/

/-- The sign bit. -/
def negative (x : Binary32) : Bool :=
  0x80000000 ≤ x.bits.toNat

/-- The pattern without its sign bit. -/
def magnitude (x : Binary32) : Nat :=
  x.bits.toNat % 0x80000000

/-- The stored exponent, `0` for the numbers next to zero and `255` for the special ones. -/
def exponent (x : Binary32) : Nat :=
  x.magnitude / 0x800000

/-- The stored fraction. -/
def fraction (x : Binary32) : Nat :=
  x.magnitude % 0x800000

/-- The magnitude of a finite number is `significand * 2 ^ scale`. -/
def significand (x : Binary32) : Nat :=
  if x.exponent = 0 then x.fraction else x.fraction + 0x800000

/-- The power of two that a finite number's significand counts. -/
def scale (x : Binary32) : Int :=
  max (x.exponent : Int) 1 - 150

def isNaN (x : Binary32) : Bool :=
  x.exponent = 255 && x.fraction ≠ 0

def isInfinite (x : Binary32) : Bool :=
  x.exponent = 255 && x.fraction = 0

/-- Both zeros count. -/
def isZero (x : Binary32) : Bool :=
  x.magnitude = 0

/-- The pattern with the given sign and magnitude. -/
def ofParts (negative : Bool) (magnitude : Nat) : Binary32 :=
  ⟨UInt32.ofNat (if negative then magnitude + 0x80000000 else magnitude)⟩

def zero : Binary32 := ⟨0⟩

def negativeZero : Binary32 := ⟨0x80000000⟩

def one : Binary32 := ⟨0x3f800000⟩

/-- The pattern results that are no number take. -/
def nan : Binary32 := ⟨0x7fc00000⟩

/-- The magnitude of an infinite number. -/
def infiniteMagnitude : Nat := 255 * 0x800000

def negate (x : Binary32) : Binary32 :=
  ofParts (!x.negative) x.magnitude

def absolute (x : Binary32) : Binary32 :=
  ofParts false x.magnitude

/-! ## Rounding into the format -/

/-- The quotient rounded to the nearest integer, a half going to the even neighbour. -/
def divideHalfEven (numerator denominator : Nat) : Nat :=
  let whole := numerator / denominator
  let rest := 2 * (numerator % denominator)
  if denominator < rest ∨ (rest = denominator ∧ whole % 2 = 1) then whole + 1 else whole

/-- The magnitude nearest to `significand * 2 ^ scale`, a half going to the even neighbour and
a number past the largest finite one to infinity. The stored fraction and exponent are adjacent,
so a fraction that rounds up past its field carries into the exponent by itself. -/
def nearest (significand : Nat) (scale : Int) : Nat :=
  if significand = 0 then
    0
  else
    let last : Int := max (significand.log2 + scale - 23) (-149)
    let rounded :=
      if last ≤ scale then
        significand <<< (scale - last).toNat
      else
        divideHalfEven significand (1 <<< (last - scale).toNat)
    min ((last + 149).toNat * 0x800000 + rounded) infiniteMagnitude

/-- The single-precision number nearest to an integer. -/
def ofInt (n : Int) : Binary32 :=
  ofParts (n < 0) (nearest n.natAbs 0)

/-! ## Rounding to an integer -/

/-- The integer part of a finite number's magnitude. -/
def integerPart (x : Binary32) : Nat :=
  (x.significand <<< x.scale.toNat) >>> (-x.scale).toNat

/-- Whether a finite number is no integer. -/
def hasFraction (x : Binary32) : Bool :=
  x.significand % (1 <<< (-x.scale).toNat) ≠ 0

/-- Truncation toward zero into the 32-bit integers; the bounds catch what lies outside, and
what is no number becomes zero. -/
def toInt32 (x : Binary32) : Int32 :=
  if x.isNaN then
    0
  else
    let limit : Int := 0x80000000
    let size : Int := if x.isInfinite then limit else x.integerPart
    let whole := if x.negative then -size else size
    Int32.ofInt (max (-limit) (min whole (limit - 1)))

/-- Replace the magnitude of a number that is no integer by the one `integer` picks. Every other
pattern stays, and so does the sign, also on a zero result. -/
def roundBy (integer : Binary32 → Nat) (x : Binary32) : Binary32 :=
  if x.exponent < 150 && x.hasFraction then ofParts x.negative (nearest (integer x) 0) else x

/-- Round toward zero. -/
def trunc : Binary32 → Binary32 :=
  roundBy integerPart

/-- Round down. -/
def floor : Binary32 → Binary32 :=
  roundBy fun x => if x.negative then x.integerPart + 1 else x.integerPart

/-- Round up. -/
def ceil : Binary32 → Binary32 :=
  roundBy fun x => if x.negative then x.integerPart else x.integerPart + 1

/-- Round to the nearest integer, a half going to the even neighbour. -/
def round : Binary32 → Binary32 :=
  roundBy fun x => divideHalfEven x.significand (1 <<< (-x.scale).toNat)

/-! ## Order -/

/-- Numbers are ordered as their patterns read in sign and magnitude, so both zeros agree. -/
def orderKey (x : Binary32) : Int :=
  if x.negative then -x.magnitude else x.magnitude

def equal (x y : Binary32) : Bool :=
  !x.isNaN && !y.isNaN && x.orderKey = y.orderKey

def less (x y : Binary32) : Bool :=
  !x.isNaN && !y.isNaN && x.orderKey < y.orderKey

def lessEqual (x y : Binary32) : Bool :=
  !x.isNaN && !y.isNaN && x.orderKey ≤ y.orderKey

/-- The smaller operand, or the other one if one is no number. -/
def minimum (x y : Binary32) : Binary32 :=
  if x.isNaN then y else if y.less x then y else x

/-- The larger operand, or the other one if one is no number. -/
def maximum (x y : Binary32) : Binary32 :=
  if x.isNaN then y else if x.less y then y else x

/-! ## Remainder -/

/-- The remainder of the division truncated toward zero. It has the sign of the dividend and is
exact: both operands are integer multiples of the smaller unit, and so is the remainder. -/
def remainder (x y : Binary32) : Binary32 :=
  if x.isNaN || y.isNaN || x.isInfinite || y.isZero then
    nan
  else if y.isInfinite then
    x
  else
    let unit := min x.scale y.scale
    let dividend := x.significand <<< (x.scale - unit).toNat
    let divisor := y.significand <<< (y.scale - unit).toNat
    ofParts x.negative (nearest (dividend % divisor) unit)

end Binary32

end StreamExpr
