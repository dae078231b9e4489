import StreamExpr.DataType

/-! Declarations of what a program is bound to: named streams and external functions. -/

namespace StreamExpr

/-- A named input or output stream. -/
structure StreamDecl where
  name : String
  type : DataType
deriving DecidableEq

namespace StreamDecl

def register (s : StreamDecl) : RegisterClass :=
  s.type.register

def text (s : StreamDecl) : String :=
  s.name ++ ": " ++ s.type.text

/-- The name of a stream followed by the name of a component. -/
def componentStreamName (name : String) (c : Nat) : String :=
  name ++ "." ++ (componentName c).toString

/-- The scalar stream that carries one component of a vector stream. -/
def component (s : StreamDecl) (c : Nat) : StreamDecl :=
  { name := componentStreamName s.name c, type := s.type.scalar }

/-- The scalar streams a stream is split into. -/
def components (s : StreamDecl) : List StreamDecl :=
  (List.range s.type.width).map s.component

end StreamDecl

/-- One overload of an external function. Arguments past the first `required` are optional. -/
structure FunctionSig where
  name : String
  inputs : List RegisterClass
  output : RegisterClass
  required : Nat
deriving DecidableEq

namespace FunctionSig

/-- An overload that requires all its inputs. -/
def ofInputs (name : String) (inputs : List RegisterClass) (output : RegisterClass)
    : FunctionSig :=
  { name, inputs, output, required := inputs.length }

/-- Require only the first `count` inputs. -/
def withRequired (f : FunctionSig) (count : Nat) : FunctionSig :=
  { f with required := min count f.inputs.length }

def arity (f : FunctionSig) : Nat :=
  f.inputs.length

/-- The name of an overload with the classes of its inputs. -/
def mangledName (f : FunctionSig) : String :=
  f.name ++ "(" ++ ",".intercalate (f.inputs.map RegisterClass.name) ++ ")"

def text (f : FunctionSig) : String :=
  f.mangledName ++ " -> " ++ f.output.name

end FunctionSig

end StreamExpr
