import StreamExpr.Proofs.Valuation

/-! The componentwise meaning of vector graphs.
Operators and functions on scalars may mean anything. Vectors are worked on component by component,
scalars are used for every component, and the operators on whole vectors are spelled out by
operators on scalars.
-/

namespace StreamExpr

/-- An interpretation of constants, operators and functions by elements of a type. An operator is
told the class of its operands, a conversion both classes. -/
structure ScalarModel (α : Type) where
  constant : Value → α
  unary : UnaryOp → RegisterClass → α → α
  binary : BinaryOp → RegisterClass → α → α → α
  ternary : TernaryOp → RegisterClass → α → α → α → α
  convert : RegisterClass → RegisterClass → α → α
  call : FunctionSig → List α → α

/-- The value of a node: one element for each component of its type. -/
structure VectorValue (α : Type) where
  type : DataType
  component : Fin type.width → α

variable {α : Type}

namespace VectorValue

/-- The value of a type with the given components. -/
def of (type : DataType) (lanes : Nat → α) : VectorValue α :=
  ⟨type, fun c => lanes c⟩

/-- What a vector has in a lane. A scalar has its only component in every lane. -/
def lane (x : VectorValue α) (c : Nat) : α :=
  if inside : c < x.type.width then x.component ⟨c, inside⟩ else x.component ⟨0, x.type.width_pos⟩

/-- All components in order. -/
def components (x : VectorValue α) : List α :=
  (List.range x.type.width).map x.lane

/-- One component as a value of its own. -/
def part (x : VectorValue α) (c : Nat) : VectorValue α :=
  of x.type.scalar fun _ => x.lane c

@[simp]
theorem type_of (type : DataType) (lanes : Nat → α) : (of type lanes).type = type :=
  rfl

theorem lane_of {type : DataType} (lanes : Nat → α) {c : Nat} (inside : c < type.width)
    : (of type lanes).lane c = lanes c :=
  dif_pos inside

/-- A value is told by the lanes that its type has. -/
theorem of_congr {type : DataType} {lanes others : Nat → α}
    (same : ∀ c < type.width, lanes c = others c)
    : of type lanes = of type others :=
  congrArg (VectorValue.mk type) (funext fun c => same c c.isLt)

@[simp]
theorem of_lane (x : VectorValue α) : of x.type x.lane = x :=
  congrArg (VectorValue.mk x.type) (funext fun c => dif_pos c.isLt)

theorem lane_of_scalar (r : RegisterClass) (lanes : Nat → α) (c : Nat)
    : (of (.scalarOf r) lanes).lane c = lanes 0 := by
  rw [lane]
  split
  case isTrue inside =>
    obtain rfl : c = 0 := Nat.lt_one_iff.mp inside
    rfl
  case isFalse => rfl

theorem lane_eq_of_scalar {x : VectorValue α} (scalar : x.type.isVector = false) (c : Nat)
    : x.lane c = x.lane 0 := by
  have width := DataType.width_eq_one scalar
  rw [lane, lane]
  split
  case isTrue inside =>
    obtain rfl : c = 0 := by omega
    rw [dif_pos x.type.width_pos]
  case isFalse => rw [dif_pos x.type.width_pos]

/-- Values of one type are equal if they have the same components. -/
theorem ext_lane {x y : VectorValue α} (types : x.type = y.type)
    (lanes : ∀ c < x.type.width, x.lane c = y.lane c)
    : x = y := by
  obtain ⟨type, component⟩ := x
  obtain ⟨otherType, otherComponent⟩ := y
  obtain rfl : type = otherType := types
  refine congrArg (VectorValue.mk type) (funext fun c => ?_)
  have same := lanes c c.isLt
  simpa only [lane, c.isLt, dif_pos] using same

@[simp]
theorem type_part (x : VectorValue α) (c : Nat) : (x.part c).type = x.type.scalar :=
  rfl

@[simp]
theorem lane_part (x : VectorValue α) (c d : Nat) : (x.part c).lane d = x.lane c :=
  lane_of_scalar _ _ _

/-- A scalar is each of its parts. -/
theorem part_of_scalar {x : VectorValue α} (scalar : x.type.isVector = false) (c : Nat)
    : x.part c = x := by
  have width := DataType.width_eq_one scalar
  refine ext_lane (DataType.ext rfl width.symm) fun d _ => ?_
  rw [lane_part, lane_eq_of_scalar scalar c, lane_eq_of_scalar scalar d]

/-- A scalar that has the class and the value of a component is that component. -/
theorem eq_part {x y : VectorValue α} {c : Nat} (type : x.type = y.type.scalar)
    (value : x.lane 0 = y.lane c)
    : x = y.part c := by
  refine ext_lane type fun d inside => ?_
  rw [type] at inside
  obtain rfl : d = 0 := Nat.lt_one_iff.mp inside
  rw [lane_part, value]

end VectorValue

namespace ScalarModel

variable (M : ScalarModel α)

/-- The zero of a class. -/
def zero (r : RegisterClass) : α :=
  M.constant ((Value.zero? r).getD (.bool false))

/-- Terms combined from left to right. -/
def nested (op : BinaryOp) (r : RegisterClass) (terms : Nat → α) (count : Nat) : α :=
  (List.range' 1 (count - 1)).foldl (fun result c => M.binary op r result (terms c)) (terms 0)

/-- The dot product: the sum of the products of the components, from left to right. -/
def dot (x y : VectorValue α) : α :=
  M.nested .add y.type.register
    (fun c => M.binary .multiply y.type.register (x.lane c) (y.lane c))
    (max x.type.width y.type.width)

/-- The length of a vector, the absolute value of a scalar. -/
def magnitude (x : VectorValue α) : α :=
  if x.type.isVector then M.unary .sqrt x.type.register (M.dot x x)
  else M.unary .absolute x.type.register (x.lane 0)

/-- The difference `x i * y j - x j * y i`. -/
def minor (x y : VectorValue α) (i j : Nat) : α :=
  M.binary .subtract y.type.register
    (M.binary .multiply y.type.register (x.lane i) (y.lane j))
    (M.binary .multiply y.type.register (x.lane j) (y.lane i))

/-- What an operator of one operand has in a lane. -/
def unaryLane (op : UnaryOp) (target : RegisterClass) (x : VectorValue α) (c : Nat) : α :=
  match op with
  | .typeConversion => M.convert x.type.register target (x.lane c)
  | .length => M.magnitude x
  | .normalize => M.binary .divide x.type.register (x.lane c) (M.magnitude x)
  | .all => M.nested .logicalAnd x.type.register x.lane x.type.width
  | .any => M.nested .logicalOr x.type.register x.lane x.type.width
  | op => M.unary op x.type.register (x.lane c)

/-- What an operator of two operands has in a lane. -/
def binaryLane (op : BinaryOp) (x y : VectorValue α) (c : Nat) : α :=
  match op with
  | .dot => M.dot x y
  | .cross => M.minor x y ((c + 1) % 3) ((c + 2) % 3)
  | op => M.binary op y.type.register (x.lane c) (y.lane c)

/-- What a vector built from parts has in a lane: a single scalar in every lane, and zero in lanes
that no argument fills. -/
def constructLane (r : RegisterClass) (xs : List (VectorValue α)) (c : Nat) : α :=
  match xs with
  | [x] => if x.type.isVector then x.components.getD c (M.zero r) else x.lane 0
  | xs => (xs.flatMap VectorValue.components).getD c (M.zero r)

/-- Arguments fill the lanes one after the other, unless there is a scalar only. -/
theorem constructLane_of_parts {r : RegisterClass} {xs : List (VectorValue α)} {c : Nat}
    (parts : ∀ x, xs = [x] → x.type.isVector = true)
    : M.constructLane r xs c = (xs.flatMap VectorValue.components).getD c (M.zero r) := by
  rcases xs with _ | ⟨x, _ | ⟨y, xs⟩⟩
  · rfl
  · rw [constructLane, if_pos (parts x rfl), List.flatMap_singleton]
  · rfl

end ScalarModel

/-- What a node has in its lanes. -/
def Node.lanes? (M : ScalarModel α) (streams : StreamDecl → Nat → α) (n : Node)
    (operands : List (VectorValue α))
    : Option (Nat → α) :=
  match n.kind, operands with
  | .constant value, _ => some fun _ => M.constant value
  | .input decl, _ => some (streams decl)
  | .output _ _, [x] => some x.lane
  | .unary op _, [x] => some (M.unaryLane op n.register x)
  | .binary op _ _, [x, y] => some (M.binaryLane op x y)
  | .ternary op _ _ _, [x, y, z] =>
      some fun c => M.ternary op z.type.register (x.lane c) (y.lane c) (z.lane c)
  | .call _ _, xs => n.function?.map fun f c => M.call f (xs.map (·.lane c))
  | .construct _, xs => some (M.constructLane n.register xs)
  | .swizzle _ chosen, [x] => some fun place => x.lane (chosen.lane place)
  | _, _ => none

section Lanes

variable {M : ScalarModel α} {streams : StreamDecl → Nat → α} {n : Node} {x y : VectorValue α}

theorem Node.lanes?_output {decl : StreamDecl} {e : NodeId} (kind : n.kind = .output decl e)
    : n.lanes? M streams [x] = some x.lane := by
  obtain ⟨_, _, _⟩ := n
  obtain rfl : _ = NodeKind.output decl e := kind
  rfl

theorem Node.lanes?_unary {op : UnaryOp} {a : NodeId} (kind : n.kind = .unary op a)
    : n.lanes? M streams [x] = some (M.unaryLane op n.register x) := by
  obtain ⟨_, _, _⟩ := n
  obtain rfl : _ = NodeKind.unary op a := kind
  rfl

theorem Node.lanes?_binary {op : BinaryOp} {a b : NodeId} (kind : n.kind = .binary op a b)
    : n.lanes? M streams [x, y] = some (M.binaryLane op x y) := by
  obtain ⟨_, _, _⟩ := n
  obtain rfl : _ = NodeKind.binary op a b := kind
  rfl

theorem Node.lanes?_construct {arguments : List NodeId} {xs : List (VectorValue α)}
    (kind : n.kind = .construct arguments)
    : n.lanes? M streams xs = some (M.constructLane n.register xs) := by
  obtain ⟨_, _, _⟩ := n
  obtain rfl : _ = NodeKind.construct arguments := kind
  cases xs <;> rfl

theorem Node.lanes?_swizzle {a : NodeId} {chosen : Selection} (kind : n.kind = .swizzle a chosen)
    : n.lanes? M streams [x] = some fun place => x.lane (chosen.lane place) := by
  obtain ⟨_, _, _⟩ := n
  obtain rfl : _ = NodeKind.swizzle a chosen := kind
  rfl

theorem Node.lanes?_input {decl : StreamDecl} {xs : List (VectorValue α)}
    (kind : n.kind = .input decl)
    : n.lanes? M streams xs = some (streams decl) := by
  obtain ⟨_, _, _⟩ := n
  obtain rfl : _ = NodeKind.input decl := kind
  cases xs <;> rfl

end Lanes

theorem Node.lanes?_outline {M : ScalarModel α} {streams : StreamDecl → Nat → α} (n : Node)
    : n.outline.lanes? M streams = n.lanes? M streams := by
  obtain ⟨kind, type, overload⟩ := n
  funext operands
  rcases operands with _ | ⟨x, _ | ⟨y, _ | ⟨z, _ | ⟨more, operands⟩⟩⟩⟩ <;> cases kind <;> rfl

/-- The componentwise meaning of nodes. -/
def ScalarModel.meaning (M : ScalarModel α) (streams : StreamDecl → Nat → α)
    : Meaning (VectorValue α) where
  apply n operands := (n.lanes? M streams operands).map (.of n.type)
  apply_outline {n other} same := by
    funext operands
    rw [← Node.lanes?_outline, same, Node.lanes?_outline, Node.type_eq_of_outline same]

/-- An output root writes the value of its expression to its stream. -/
def Graph.Delivers (g : Graph) (M : ScalarModel α) (streams : StreamDecl → Nat → α) (root : NodeId)
    (decl : StreamDecl) (x : VectorValue α)
    : Prop :=
  ∃ e, (g.node root).kind = .output decl e ∧ g.Has (M.meaning streams) e x

end StreamExpr
