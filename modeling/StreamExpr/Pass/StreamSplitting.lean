import StreamExpr.Edit

/-! Splitting of vector streams into one scalar stream for each component. -/

namespace StreamExpr.StreamSplitting

/-- Add the scalar inputs of a vector input. -/
def scalarInputs : List StreamDecl → Edit (List NodeId)
  | [] => return []
  | decl :: decls => do
      let id ← Edit.input decl
      let ids ← scalarInputs decls
      return id :: ids

/-- Split an input if it is a vector, and answer the inputs that carry it. The node itself becomes
the vector of its scalar inputs, so its users need no change. -/
def splitInput (id : NodeId) : Edit (Option (List NodeId)) := do
  match (← Edit.read (·.node id)).kind with
  | .input decl =>
      if decl.type.isVector then
        let scalars ← scalarInputs decl.components
        modify (·.replace id (.ofKind (.construct scalars) decl.type))
        return some scalars
      else
        return none
  | _ => return none

/-- The inputs that carry each split input. -/
abbrev Carriers := Std.TreeMap NodeId (List NodeId)

/-- Split the vector inputs among some nodes. -/
def splitAll : List NodeId → Carriers → Edit Carriers
  | [], carriers => return carriers
  | id :: ids, carriers => do
      match ← splitInput id with
      | some scalars => splitAll ids (carriers.insert id scalars)
      | none => splitAll ids carriers

/-- Split every vector input, and declare the scalar inputs in place of the declared ones. -/
def splitInputs : Edit Unit := do
  let nodes ← Edit.read fun g => List.range g.size
  let carriers ← splitAll nodes {}
  modify fun g => { g with inputs := g.inputs.flatMap fun id => carriers.getD id [id] }

/-- Add an output for each given component of an expression. -/
def scalarOutputs (expression : NodeId) (decl : StreamDecl) : List Nat → Edit (List NodeId)
  | [] => return []
  | c :: cs => do
      let component ← Edit.component expression c
      let output ← Edit.output (decl.component c) component
      let outputs ← scalarOutputs expression decl cs
      return output :: outputs

/-- The outputs that carry a root. -/
def splitRoot (root : NodeId) : Edit (List NodeId) := do
  match (← Edit.read (·.node root)).kind with
  | .output decl expression =>
      if decl.type.isVector then
        scalarOutputs expression decl (List.range decl.type.width)
      else
        return [root]
  | _ =>
      let description ← Edit.read (·.describe root)
      throw (.abandoned
        (.malformedInput ("output root " ++ description ++ " is not an output node")))

/-- The outputs that carry several roots, in order. -/
def splitRoots : List NodeId → Edit (List NodeId)
  | [] => return []
  | root :: roots => do
      let outputs ← splitRoot root
      let others ← splitRoots roots
      return outputs ++ others

/-- The streams a declared stream is written to. -/
def declaredComponents (decl : StreamDecl) : List StreamDecl :=
  if decl.type.isVector then decl.components else [decl]

/-- Split every vector output, and the declared output table alike. -/
def splitOutputs : Edit Unit := do
  let outputs ← splitRoots (← Edit.read Graph.outputs)
  modify fun g => { g with outputs, declared := g.declared.flatMap declaredComponents }

end StreamExpr.StreamSplitting
