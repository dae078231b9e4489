import StreamExpr.Signature
import StreamExpr.Value

/-! Nodes of an expression graph. -/

namespace StreamExpr

/-- A node is named by its place in the arena of its graph. -/
abbrev NodeId := Nat

/-- A choice of up to four components of a vector; the first `count` of them are meant. -/
structure Selection where
  x : Nat
  y : Nat
  z : Nat
  w : Nat
  count : Nat
deriving DecidableEq

namespace Selection

/-- The component chosen for a place, places being counted modulo four. -/
def lane (s : Selection) (place : Nat) : Nat :=
  match place % 4 with
  | 0 => s.x
  | 1 => s.y
  | 2 => s.z
  | _ => s.w

/-- The selection of at least one and at most four components, the last component standing for
all past it. -/
def ofList (components : List Nat) : Selection :=
  let lane (place : Nat) : Nat := min (components.getD place 0) 3
  { x := lane 0, y := lane 1, z := lane 2, w := lane 3
    count := max 1 (min components.length 4) }

/-- The names of the chosen components. -/
def text (s : Selection) : String :=
  String.ofList ((List.range s.count).map fun place => componentName (s.lane place))

end Selection

/-- What a node computes. -/
inductive NodeKind where
  | constant (value : Value)
  | input (decl : StreamDecl)
  | output (decl : StreamDecl) (expression : NodeId)
  | unary (op : UnaryOp) (operand : NodeId)
  | binary (op : BinaryOp) (left right : NodeId)
  | ternary (op : TernaryOp) (first second third : NodeId)
  /-- A call of one of several overloads; the node's `overload` tells which. -/
  | call (candidates : List FunctionSig) (arguments : List NodeId)
  /-- A vector built from the components of its arguments in order. Missing components are zero,
  and a single scalar is used for every component. -/
  | construct (arguments : List NodeId)
  | swizzle (operand : NodeId) (selection : Selection)
deriving DecidableEq

namespace NodeKind

def name : NodeKind → String
  | .constant _ => "Constant"
  | .input _ => "Input"
  | .output _ _ => "Output"
  | .unary op _ => op.name
  | .binary op _ _ => op.name
  | .ternary op _ _ _ => op.name
  | .call _ _ => "FunctionCall"
  | .construct _ => "Constructor"
  | .swizzle _ _ => "Swizzle"

/-- The operands in order. -/
def children : NodeKind → List NodeId
  | .constant _ | .input _ => []
  | .output _ expression => [expression]
  | .unary _ operand => [operand]
  | .binary _ left right => [left, right]
  | .ternary _ first second third => [first, second, third]
  | .call _ arguments => arguments
  | .construct arguments => arguments
  | .swizzle operand _ => [operand]

/-- Replace the operand in one slot; a slot past the last operand changes nothing. -/
def setChild (kind : NodeKind) (slot : Nat) (child : NodeId) : NodeKind :=
  let pick (place : Nat) (old : NodeId) : NodeId := if slot = place then child else old
  match kind with
  | .constant value => .constant value
  | .input decl => .input decl
  | .output decl expression => .output decl (pick 0 expression)
  | .unary op operand => .unary op (pick 0 operand)
  | .binary op left right => .binary op (pick 0 left) (pick 1 right)
  | .ternary op first second third => .ternary op (pick 0 first) (pick 1 second) (pick 2 third)
  | .call candidates arguments => .call candidates (arguments.set slot child)
  | .construct arguments => .construct (arguments.set slot child)
  | .swizzle operand selection => .swizzle (pick 0 operand) selection

/-- Setting a slot of a node sets that place of its operand list.
Witness: one case for each kind and slot. -/
@[simp]
theorem children_setChild (kind : NodeKind) (slot : Nat) (child : NodeId)
    : (kind.setChild slot child).children = kind.children.set slot child := by
  rcases kind with _ | _ | _ | _ | _ | _ | _ | _ | _ <;>
    rcases slot with _ | _ | _ | slot <;> simp [setChild, children]

end NodeKind

/-- A node with the type of its result and, for operators and calls, the selected overload. -/
structure Node where
  kind : NodeKind
  type : DataType
  overload : Option Nat
deriving DecidableEq

namespace Node

/-- A node for which no overload is selected. -/
def ofKind (kind : NodeKind) (type : DataType) : Node :=
  { kind, type, overload := none }

/-- What is read where the arena has no node: nothing, of unknown type. -/
def absent : Node :=
  ofKind (.construct []) .unknown

instance : Inhabited Node := ⟨absent⟩

def children (n : Node) : List NodeId :=
  n.kind.children

def register (n : Node) : RegisterClass :=
  n.type.register

def isConstant (n : Node) : Bool :=
  n.kind matches .constant _

def isInput (n : Node) : Bool :=
  n.kind matches .input _

def isOutput (n : Node) : Bool :=
  n.kind matches .output _ _

def value? (n : Node) : Option Value :=
  match n.kind with
  | .constant value => some value
  | _ => none

/-- The overload a call has selected. -/
def function? (n : Node) : Option FunctionSig :=
  match n.kind with
  | .call candidates _ => n.overload.bind (candidates[·]?)
  | _ => none

/-- The kind and type of a node, with what it names. -/
def label (n : Node) : String :=
  let heading := n.kind.name ++ "(" ++ n.type.text ++ ")"
  match n.kind with
  | .constant value => heading ++ ": " ++ value.text
  | .input decl | .output decl _ => heading ++ ": " ++ decl.name
  | .call candidates _ =>
      heading ++ ": " ++ ((n.function?.or candidates.head?).map FunctionSig.name).getD "?"
  | .swizzle _ selection => heading ++ ": " ++ selection.text
  | _ => heading

end Node

end StreamExpr
