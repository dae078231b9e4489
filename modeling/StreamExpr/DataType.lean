import StreamExpr.RegisterClass

/-! Data types: a register class with a number of components from one to four. -/

namespace StreamExpr

/-- The type of a node's result: `width` components of one register class. -/
structure DataType where
  register : RegisterClass
  width : Nat
  width_pos : 0 < width
  width_le_four : width ≤ 4
deriving DecidableEq

namespace DataType

/-- The type with the given class and the nearest width from one to four. -/
def of (register : RegisterClass) (width : Nat) : DataType :=
  { register, width := max 1 (min width 4), width_pos := by omega, width_le_four := by omega }

/-- A single component of the given class. -/
def scalarOf (register : RegisterClass) : DataType :=
  of register 1

/-- The type of a node whose type is not deduced. -/
def unknown : DataType :=
  scalarOf .unknown

instance : Inhabited DataType := ⟨unknown⟩

/-- The type of a single component. -/
def scalar (t : DataType) : DataType :=
  scalarOf t.register

def withWidth (t : DataType) (width : Nat) : DataType :=
  of t.register width

def withRegister (t : DataType) (register : RegisterClass) : DataType :=
  of register t.width

def isVector (t : DataType) : Bool :=
  1 < t.width

def isKnown (t : DataType) : Bool :=
  t.register.isKnown

/-- The class name, followed by the width of a vector of known class. -/
def text (t : DataType) : String :=
  if t.isVector && t.isKnown then t.register.name ++ toString t.width else t.register.name

/-- The common width of componentwise operands. Scalars broadcast to any width, and vectors of
different widths do not mix. -/
def broadcastWidth? (types : List DataType) : Option Nat :=
  go 1 types
where
  go (width : Nat) : List DataType → Option Nat
    | [] => some width
    | t :: rest =>
        if t.width = 1 then go width rest
        else if width ≠ 1 ∧ width ≠ t.width then none
        else go t.width rest

end DataType

/-- The names of the four components of a vector. -/
def componentName (c : Nat) : Char :=
  match c % 4 with
  | 0 => 'x'
  | 1 => 'y'
  | 2 => 'z'
  | _ => 'w'

end StreamExpr
