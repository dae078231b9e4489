import Std.Data.TreeMap
import StreamExpr.Node

/-! Expression graphs.
A graph keeps its nodes in an arena in the order of creation, and a node is named by its place.
Nodes are shared: several parents may hold the same place. Nodes are added at the end and may be
overwritten, never removed, so every place stays good. Types of operators, calls and selections
are deduced from the operands when the node is added.
-/

namespace StreamExpr

/-- An expression graph with its stream tables. -/
structure Graph where
  nodes : Array Node
  /-- The declared inputs, in order. -/
  inputs : List NodeId
  /-- The output roots. -/
  outputs : List NodeId
  /-- The output table, which output nodes refer to by name. -/
  declared : List StreamDecl
  /-- The shared selection of each component that was asked for. -/
  selections : Std.TreeMap (NodeId × Nat) NodeId (lexOrd : Ord (NodeId × Nat)).compare

namespace Graph

/-! ## Reading -/

def empty : Graph :=
  { nodes := #[], inputs := [], outputs := [], declared := [], selections := {} }

instance : Inhabited Graph := ⟨empty⟩

def size (g : Graph) : Nat :=
  g.nodes.size

def node? (g : Graph) (id : NodeId) : Option Node :=
  g.nodes[id]?

/-- The node at a place, nothing of unknown type outside the arena. -/
def node (g : Graph) (id : NodeId) : Node :=
  g.nodes.getD id .absent

def children (g : Graph) (id : NodeId) : List NodeId :=
  (g.node id).children

def type (g : Graph) (id : NodeId) : DataType :=
  (g.node id).type

def register (g : Graph) (id : NodeId) : RegisterClass :=
  (g.node id).register

def isConstant (g : Graph) (id : NodeId) : Bool :=
  (g.node id).isConstant

def isOutput (g : Graph) (id : NodeId) : Bool :=
  (g.node id).isOutput

def value? (g : Graph) (id : NodeId) : Option Value :=
  (g.node id).value?

/-- The label of a node and its place. -/
def describe (g : Graph) (id : NodeId) : String :=
  match g.node? id with
  | some n => n.label ++ " #" ++ toString id
  | none => "<invalid node #" ++ toString id ++ ">"

/-! ## Overwriting -/

/-- Overwrite a node; every parent sees the new one. -/
def replace (g : Graph) (id : NodeId) (n : Node) : Graph :=
  { g with nodes := g.nodes.setIfInBounds id n }

/-- Point one slot of a node at another operand. -/
def setChild (g : Graph) (id : NodeId) (slot : Nat) (child : NodeId) : Graph :=
  { g with nodes := g.nodes.modify id fun n => { n with kind := n.kind.setChild slot child } }

/-- Replace one output root. -/
def setOutput (g : Graph) (index : Nat) (root : NodeId) : Graph :=
  { g with outputs := g.outputs.set index root }

/-! ## Type deduction -/

/-- The type and overload of a componentwise operation whose overload is resolved. -/
def broadcast (result : RegisterClass) (overload : Nat) (types : List DataType)
    : DataType × Option Nat :=
  match DataType.broadcastWidth? types with
  | some width => (.of result width, some overload)
  | none => (.unknown, none)

/-- The type and overload of an operation that no overload admits. -/
def undeduced : DataType × Option Nat :=
  (.unknown, none)

/-- The type and overload of a node as its operands give them. -/
def infer (g : Graph) (n : Node) : DataType × Option Nat :=
  let types := n.children.map g.type
  let registers := types.map DataType.register
  let width := (types.headD .unknown).width
  match n.kind with
  | .constant value => (.scalarOf value.register, none)
  | .input decl | .output decl _ => (decl.type, none)
  | .construct _ => (n.type, none)
  | .swizzle operand selection => ((g.type operand).withWidth selection.count, none)
  | .unary .typeConversion _ => (n.type.withWidth width, some 0)
  | .unary op _ =>
      match resolveOperator? op.signatures registers with
      | some i =>
          let width := if op.isReduction then 1 else width
          (.of (Signature.resultAt op.signatures i) width, some i)
      | none => undeduced
  | .binary op _ _ =>
      match resolveOperator? op.signatures registers with
      | some i =>
          let result := Signature.resultAt op.signatures i
          match op, DataType.broadcastWidth? types with
          | .dot, some _ => (.scalarOf result, some i)
          | .cross, some 3 => (.of result 3, some i)
          | .cross, _ => undeduced
          | _, _ => broadcast result i types
      | none => undeduced
  | .ternary op _ _ _ =>
      match resolveOperator? op.signatures registers with
      | some i => broadcast (Signature.resultAt op.signatures i) i types
      | none => undeduced
  | .call candidates _ =>
      match resolveFunction? candidates registers with
      | some i =>
          match candidates[i]? with
          | some f => broadcast f.output i (types.take f.arity)
          | none => undeduced
      | none => undeduced

/-- A call with a selected overload without the arguments past its arity. -/
def trimArguments (n : Node) : NodeKind :=
  match n.kind, n.function? with
  | .call candidates arguments, some f => .call candidates (arguments.take f.arity)
  | kind, _ => kind

/-- A node with the type and overload that its operands give. -/
def deduced (g : Graph) (n : Node) : Node :=
  let (type, overload) := g.infer n
  let typed : Node := { n with type, overload }
  { typed with kind := trimArguments typed }

/-- Deduce the type of a node from its operands, in place. -/
def deduce (g : Graph) (id : NodeId) : Graph :=
  g.replace id (g.deduced (g.node id))

/-- The class a node asks of the operand in a slot, if it asks for any. -/
def expected? (g : Graph) (id : NodeId) (slot : Nat) : Option RegisterClass :=
  let n := g.node id
  let among (signatures : List Signature) : Option RegisterClass :=
    (n.overload.bind (signatures[·]?)).map (·.argument slot)
  match n.kind with
  | .unary .typeConversion _ => none
  | .unary op _ => among op.signatures
  | .binary op _ _ => among op.signatures
  | .ternary op _ _ _ => among op.signatures
  | .call _ _ => n.function?.bind (·.inputs[slot]?)
  | .output _ _ | .construct _ => some n.register
  | .constant _ | .input _ | .swizzle _ _ => none

/-! ## Adding nodes: the new node's place is the size before -/

def push (g : Graph) (n : Node) : Graph :=
  { g with nodes := g.nodes.push n }

/-- Add a node of the type that its operands give. -/
def pushDeduced (g : Graph) (kind : NodeKind) : Graph :=
  let n := g.deduced (.ofKind kind .unknown)
  g.push n

def pushConstant (g : Graph) (value : Value) : Graph :=
  g.push (.ofKind (.constant value) (.scalarOf value.register))

/-- Add an input without declaring it. -/
def pushInput (g : Graph) (decl : StreamDecl) : Graph :=
  g.push (.ofKind (.input decl) decl.type)

/-- Add an output that is neither declared nor a root. -/
def pushOutput (g : Graph) (decl : StreamDecl) (expression : NodeId) : Graph :=
  g.push (.ofKind (.output decl expression) decl.type)

def pushUnary (g : Graph) (op : UnaryOp) (operand : NodeId) : Graph :=
  g.pushDeduced (.unary op operand)

/-- Add a conversion of every component of an operand. -/
def pushConversion (g : Graph) (target : RegisterClass) (operand : NodeId) : Graph :=
  let type := (g.type operand).withRegister target
  g.push { kind := .unary .typeConversion operand, type, overload := some 0 }

def pushBinary (g : Graph) (op : BinaryOp) (left right : NodeId) : Graph :=
  g.pushDeduced (.binary op left right)

def pushTernary (g : Graph) (op : TernaryOp) (first second third : NodeId) : Graph :=
  g.pushDeduced (.ternary op first second third)

def pushCall (g : Graph) (candidates : List FunctionSig) (arguments : List NodeId) : Graph :=
  g.pushDeduced (.call candidates arguments)

def pushConstruct (g : Graph) (type : DataType) (arguments : List NodeId) : Graph :=
  g.push (.ofKind (.construct arguments) type)

def pushSwizzle (g : Graph) (operand : NodeId) (components : List Nat) : Graph :=
  g.pushDeduced (.swizzle operand (.ofList components))

/-- Add an input and declare it. -/
def declareInput (g : Graph) (decl : StreamDecl) : Graph :=
  let id := g.size
  let g := g.pushInput decl
  { g with inputs := g.inputs ++ [id] }

/-- Add an output as a root and declare it. -/
def declareOutput (g : Graph) (decl : StreamDecl) (expression : NodeId) : Graph :=
  let id := g.size
  let g := g.pushOutput decl expression
  { g with outputs := g.outputs ++ [id], declared := g.declared ++ [decl] }

/-- The node that selects one component of a node. A scalar stands for all its components, and
all who ask for a component of a vector share one node. -/
def component (g : Graph) (id : NodeId) (c : Nat) : NodeId × Graph :=
  if (g.type id).isVector then
    match g.selections[(id, c)]? with
    | some selection => (selection, g)
    | none =>
        let selection := g.size
        let g := g.pushSwizzle id [c]
        (selection, { g with selections := g.selections.insert (id, c) selection })
  else
    (id, g)

end Graph

end StreamExpr
