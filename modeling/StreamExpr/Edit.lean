import StreamExpr.Graph
import StreamExpr.Loop

/-! Graph edits that may fail. An edit that fails leaves the nodes it has added. -/

namespace StreamExpr

/-- A computation that edits a graph. The graph survives a failure as it was left. -/
abbrev Edit := EStateM Fault Graph

namespace Edit

/-- Read off the graph. -/
def read (f : Graph → α) : Edit α :=
  modifyGet fun g => (f g, g)

/-- Add one node and answer its place. -/
def add (push : Graph → Graph) : Edit NodeId :=
  modifyGet fun g => (g.size, push g)

def constant (value : Value) : Edit NodeId :=
  add (·.pushConstant value)

def input (decl : StreamDecl) : Edit NodeId :=
  add (·.pushInput decl)

def output (decl : StreamDecl) (expression : NodeId) : Edit NodeId :=
  add (·.pushOutput decl expression)

def unary (op : UnaryOp) (operand : NodeId) : Edit NodeId :=
  add (·.pushUnary op operand)

def conversion (target : RegisterClass) (operand : NodeId) : Edit NodeId :=
  add (·.pushConversion target operand)

def binary (op : BinaryOp) (left right : NodeId) : Edit NodeId :=
  add (·.pushBinary op left right)

def ternary (op : TernaryOp) (first second third : NodeId) : Edit NodeId :=
  add (·.pushTernary op first second third)

def call (candidates : List FunctionSig) (arguments : List NodeId) : Edit NodeId :=
  add (·.pushCall candidates arguments)

def construct (type : DataType) (arguments : List NodeId) : Edit NodeId :=
  add (·.pushConstruct type arguments)

def swizzle (operand : NodeId) (components : List Nat) : Edit NodeId :=
  add (·.pushSwizzle operand components)

/-- The shared selection of one component. -/
def component (id : NodeId) (c : Nat) : Edit NodeId :=
  modifyGet (·.component id c)

end Edit

end StreamExpr
