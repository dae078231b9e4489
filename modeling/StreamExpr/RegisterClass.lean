/-! Register classes: what kind of scalar a register holds. -/

namespace StreamExpr

/-- The kind of scalar a register holds, `unknown` until it is deduced. Each known class can
represent every class before it without loss of meaning. -/
inductive RegisterClass where
  | unknown
  | bool
  | int
  | float
deriving DecidableEq

namespace RegisterClass

def every : List RegisterClass := [.unknown, .bool, .int, .float]

def name : RegisterClass → String
  | .unknown => "Unknown"
  | .bool => "Bool"
  | .int => "Int"
  | .float => "Float"

def isKnown (r : RegisterClass) : Bool :=
  r ≠ .unknown

/-- The place in the order of implicit convertibility. -/
def rank : RegisterClass → Nat
  | .unknown => 0
  | .bool => 1
  | .int => 2
  | .float => 3

instance : LT RegisterClass where
  lt r s := r.rank < s.rank

instance (r s : RegisterClass) : Decidable (r < s) :=
  inferInstanceAs (Decidable (r.rank < s.rank))

end RegisterClass

end StreamExpr
