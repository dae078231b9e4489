import StreamExpr.Binary32

/-! Decimal text of single-precision numbers.
The digits are the fewest that read back as the same number, and of these the nearest to it.
Numbers from `0.0001` up to `10 ^ 16` are written positionally with at least one place after
the point, all others with an exponent.
-/

namespace StreamExpr.Binary32

/-- A positive decimal `digits * 10 ^ power`. -/
structure Decimal where
  digits : Nat
  power : Int

/-! ## The fewest digits that read back -/

/-- `n * base ^ e`, where a negative exponent counts as zero. A ratio with powers of both signs is
compared by scaling one side up by `e` and the other by `-e`. -/
def scaleUp (n base : Nat) (e : Int) : Nat :=
  n * base.pow e.toNat

/-- The interval of reals that round to a positive finite number, in quarters of the unit of its
significand: the lower end is half a unit away, or a quarter where the exponent below has a
smaller unit. -/
structure RoundingInterval where
  low : Nat
  value : Nat
  high : Nat
  scale : Int
  /-- Whether the ends round to the number themselves. -/
  closed : Bool

def roundingInterval (x : Binary32) : RoundingInterval :=
  let value := 4 * x.significand
  let step := if x.fraction = 0 ∧ 1 < x.exponent then 1 else 2
  { low := value - step, value, high := value + 2, scale := x.scale - 2
    closed := x.significand % 2 = 0 }

namespace RoundingInterval

/-- Compare `digits * 10 ^ power` with `quarters * 2 ^ scale` by cross multiplication. -/
def compareDecimal (i : RoundingInterval) (d : Decimal) (quarters : Nat) : Ordering :=
  compare
    (scaleUp (scaleUp d.digits 10 d.power) 2 (-i.scale))
    (scaleUp (scaleUp quarters 2 i.scale) 10 (-d.power))

/-- Whether a decimal reads back as the number. -/
def holds (i : RoundingInterval) (d : Decimal) : Bool :=
  if i.closed then
    i.compareDecimal d i.low ≠ .lt && i.compareDecimal d i.high ≠ .gt
  else
    i.compareDecimal d i.low == .gt && i.compareDecimal d i.high == .lt

/-- The largest multiple of `10 ^ power` that is not above the number. -/
def below (i : RoundingInterval) (power : Int) : Decimal :=
  let numerator := scaleUp (scaleUp i.value 2 i.scale) 10 (-power)
  let denominator := scaleUp (scaleUp 1 10 power) 2 (-i.scale)
  { digits := numerator / denominator, power }

/-- The decimal of the grid `10 ^ power` that reads back, the nearer one if two do. A number
halfway between two of them takes the larger. -/
def onGrid? (i : RoundingInterval) (power : Int) : Option Decimal :=
  let lower := i.below power
  let upper : Decimal := { lower with digits := lower.digits + 1 }
  let middle : Decimal := { digits := 2 * lower.digits + 1, power }
  match i.holds lower, i.holds upper with
  | true, true => if i.compareDecimal middle (2 * i.value) == .gt then some lower else some upper
  | true, false => some lower
  | false, true => some upper
  | false, false => none

end RoundingInterval

/-- The exponent of the leading decimal digit. -/
def leadingPower (i : RoundingInterval) : Int :=
  let estimate : Int := ((i.value.log2 : Int) + i.scale) * 1233 / 4096
  let above (power : Int) : Bool :=
    i.compareDecimal { digits := 1, power } i.value ≠ .gt
  if above (estimate + 1) then estimate + 1 else if above estimate then estimate else estimate - 1

/-- Try one digit, then two, up to nine, which always suffice. -/
def shortestFrom (i : RoundingInterval) (power : Int) : Nat → Decimal
  | 0 => i.below power
  | more + 1 =>
      match i.onGrid? power with
      | some d => d
      | none => shortestFrom i (power - 1) more

/-- The shortest decimal of a positive finite number. -/
def shortest (x : Binary32) : Decimal :=
  let i := x.roundingInterval
  shortestFrom i (leadingPower i) 9

/-! ## Layout -/

/-- Drop trailing zero digits. -/
def stripZeros : List Char → List Char :=
  fun digits => (digits.reverse.dropWhile (· == '0')).reverse

/-- Write digits whose leading one counts `10 ^ lead`: positionally from `10 ^ (-4)` to
`10 ^ 15`, else with an exponent. -/
def layout (digits : List Char) (lead : Int) : String :=
  if lead < -4 ∨ 16 ≤ lead then
    let point := if digits.length = 1 then [] else '.' :: digits.drop 1
    String.ofList (digits.take 1 ++ point) ++ "e" ++ toString lead
  else if lead < 0 then
    String.ofList ('0' :: '.' :: List.replicate ((-lead).toNat - 1) '0' ++ digits)
  else
    let places := lead.toNat + 1
    let whole := digits.take places ++ List.replicate (places - digits.length) '0'
    let rest := if digits.length ≤ places then ['0'] else digits.drop places
    String.ofList (whole ++ '.' :: rest)

/-- The text of a number without its sign. -/
def magnitudeText (x : Binary32) : String :=
  if x.isInfinite then
    "inf"
  else if x.isZero then
    "0.0"
  else
    let d := x.shortest
    let digits := (toString d.digits).toList
    layout (stripZeros digits) (d.power + digits.length - 1)

/-- The text of a number; what is no number has no sign. -/
def text (x : Binary32) : String :=
  if x.isNaN then "NaN" else if x.negative then "-" ++ x.magnitudeText else x.magnitudeText

end StreamExpr.Binary32
