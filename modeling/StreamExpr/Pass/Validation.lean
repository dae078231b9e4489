import StreamExpr.InstructionSelection
import StreamExpr.Pass

/-! Validation: the last check of a graph before it becomes a program.
Every node has to be a scalar of known type that the machine has an instruction for.
-/

namespace StreamExpr.Validation

/-- What a scalar node still has that no instruction can express. -/
def leftover? (n : Node) : Option String :=
  match n.kind with
  | .construct _ | .swizzle _ _ => some "vector construct was not scalarized"
  | .unary op _ => if op.isVectorOp then some "vector operator was not replaced" else none
  | .binary op _ _ => if op.isVectorOp then some "vector operator was not replaced" else none
  | .call _ _ => if n.function?.isNone then some "no overload selected" else none
  | .output decl _ => if decl.type.isVector then some "vector output was not scalarized" else none
  | .constant _ | .input _ | .ternary _ _ _ _ => none

/-- Why a node cannot become an instruction. -/
def failure? (g : Graph) (id : NodeId) : Option CompileError :=
  let n := g.node id
  if !n.type.isKnown then
    some (.typeError (g.describe id) "type is unknown")
  else if n.type.isVector then
    some (.validationFailure (g.describe id)
    ("vector type " ++ n.type.text ++ " was not scalarized"))
  else
    match leftover? n with
    | some message => some (.validationFailure (g.describe id) message)
    | none =>
        if (g.opCode? id).isNone then
          some <| .validationFailure (g.describe id) <|
            "no instruction for this operation on " ++ n.register.name
        else
          none

/-- Reject a node that cannot become an instruction, and keep any other. -/
def step (id : NodeId) : Edit NodeId := do
  match ← Edit.read (failure? · id) with
  | some cause => throw (.abandoned cause)
  | none => return id

end StreamExpr.Validation
