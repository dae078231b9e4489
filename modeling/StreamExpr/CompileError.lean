import StreamExpr.DataType

/-! Causes for which a compile is abandoned, and their wording. -/

namespace StreamExpr

/-- The cause for which a compile is abandoned. Nodes are given by their descriptions. -/
inductive CompileError where
  /-- The graph has no usable roots, or a transform broke its structure. -/
  | malformedInput (message : String)
  /-- The type of a node cannot be deduced. -/
  | typeError (node message : String)
  /-- There is no instruction for a node of this type. -/
  | unsupportedOperation (node : String) (type : DataType)
  /-- An output writes to a name that is not in the output table. -/
  | undeclaredOutput (name : String)
  /-- The graph still has what no instruction can express. -/
  | validationFailure (node message : String)
deriving DecidableEq

namespace CompileError

def message : CompileError → String
  | .malformedInput message => "malformed input: " ++ message
  | .typeError node message => "type error at " ++ node ++ ": " ++ message
  | .unsupportedOperation node type => "unsupported operation " ++ node ++ " on " ++ type.text
  | .undeclaredOutput name => "output '" ++ name ++ "' is not declared"
  | .validationFailure node message => "validation failed at " ++ node ++ ": " ++ message

end CompileError

/-- What keeps a computation from an answer. -/
inductive Fault where
  /-- The computation is abandoned. -/
  | abandoned (cause : CompileError)
  /-- The computation never ends. No run shows this: it stands for the outcome that there is not. -/
  | endless
deriving DecidableEq

end StreamExpr
