import StreamExpr.Edit
import StreamExpr.Traversal

/-! Passes over a graph.
A pass applies a transform to every node reachable from the output roots. The transform answers
the node itself, a replacement or a failure. A node shared by several parents is transformed once,
and every parent is pointed at the same replacement. Roots are transformed as well but have to
stay outputs.
-/

namespace StreamExpr

/-- The order in which a pass visits a graph. -/
inductive PassOrder where
  /-- A parent first; the operands of its replacement are visited afterwards. -/
  | preOrder
  /-- Operands first; a parent is transformed when its operands are replaced. -/
  | postOrder
deriving DecidableEq

def PassOrder.name : PassOrder → String
  | .preOrder => "PreOrder"
  | .postOrder => "PostOrder"

/-! ## Transforms -/

/-- A graph with what a transform remembers from node to node. -/
structure Workspace (σ : Type) where
  graph : Graph
  memory : σ

/-- A computation on a graph and a transform's memory. Both survive a failure. -/
abbrev PassM (σ : Type) := EStateM Fault (Workspace σ)

/-- A transform with memory `σ` answers the node to use in place of the given one. -/
abbrev Transform (σ : Type) := NodeId → PassM σ NodeId

namespace PassM

/-- Edit the graph and leave the memory. -/
def edit (e : Edit α) : PassM σ α := fun ⟨graph, memory⟩ =>
  match e graph with
  | .ok a graph => .ok a ⟨graph, memory⟩
  | .error e graph => .error e ⟨graph, memory⟩

/-- Read off the graph. -/
def read (f : Graph → α) : PassM σ α :=
  edit (.read f)

end PassM

namespace Transform

/-- A transform without memory of its own. -/
def ofEdit (step : NodeId → Edit NodeId) : Transform σ :=
  fun id => .edit (step id)

/-- The answers of a transform in the order of its calls, the last first. A call that failed has
no answer. -/
abbrev Trace := List (NodeId × Option NodeId)

/-- A transform that also notes its calls. -/
def traced (transform : Transform σ) : Transform (σ × Trace) :=
  fun id ⟨graph, memory, trace⟩ =>
    match transform id ⟨graph, memory⟩ with
    | .ok done ⟨graph, memory⟩ => .ok done ⟨graph, memory, (id, some done) :: trace⟩
    | .error e ⟨graph, memory⟩ => .error e ⟨graph, memory, (id, none) :: trace⟩

end Transform

/-- Apply a step once. It is done if it answers the node it was given. -/
def Edit.attempt (step : NodeId → Edit NodeId) (id : NodeId) : Edit (NodeId ⊕ NodeId) := do
  let next ← step id
  return if next = id then .inr id else .inl next

/-- Apply a step to its own answers until it answers the node it was given. -/
def Edit.settle (step : NodeId → Edit NodeId) (id : NodeId) : Edit NodeId :=
  untilDone (attempt step) id

/-! ## Running a pass -/

namespace Pass

/-- The replacements found so far. -/
abbrev Memo := Std.TreeMap NodeId NodeId

/-- Transform a root, which has to be an output and to stay one. -/
def transformRoot (transform : Transform σ) (root : NodeId) : PassM σ NodeId := do
  let old ← PassM.read (·.node root)
  match old.kind with
  | .output decl _ =>
      let new ← transform root
      if new ≠ root && !(← PassM.read (·.isOutput new)) then
        let description ← PassM.read (·.describe new)
        throw <| .abandoned <| .malformedInput <|
          "transformed output node for '" ++ decl.name ++ "' is invalid: " ++ description
      return new
  | _ =>
      throw <| .abandoned <| .malformedInput <|
        "output root #" ++ toString root ++ " is not an output node"

/-- Point a slot at a replacement. -/
def pointSlot (parent : NodeId) (slot : Nat) (old new : NodeId) : PassM σ Unit :=
  if new = old then pure () else PassM.edit (modify (·.setChild parent slot new))

/-- Transform a node once. A replacement stands for itself, so a parent that points at it already
is left alone. -/
def resolve (transform : Transform σ) (memo : Memo) (id : NodeId) : PassM σ (NodeId × Memo) :=
  match memo[id]? with
  | some done => return (done, memo)
  | none => do
      let done ← transform id
      return (done, (memo.insert id done).insertIfNew done done)

/-- The state of a walk from the roots: replacements, nodes met, and nodes whose operands are still
to be visited, the next one first. -/
structure Frontier where
  memo : Memo
  met : Std.TreeSet NodeId
  pending : List NodeId

/-- Let a node's operands be visited, unless it has been met. -/
def Frontier.meet (f : Frontier) (id : NodeId) : Frontier :=
  if f.met.contains id then f
  else { f with met := f.met.insert id, pending := id :: f.pending }

/-- Replace the operands in some slots of a node and meet the replacements. -/
def descend (transform : Transform σ) (parent : NodeId) : List Nat → Frontier → PassM σ Frontier
  | [], frontier => return frontier
  | slot :: slots, frontier => do
      match (← PassM.read (·.children parent))[slot]? with
      | none => descend transform parent slots frontier
      | some child =>
          let (new, memo) ← resolve transform frontier.memo child
          pointSlot parent slot child new
          descend transform parent slots ({ frontier with memo }.meet new)

/-- Visit the pending node that was met last. A walk without pending nodes is done. -/
def visit (transform : Transform σ) (frontier : Frontier) : PassM σ (Frontier ⊕ Frontier) :=
  match frontier.pending with
  | [] => return .inr frontier
  | parent :: pending => do
      let slots ← PassM.read fun g => List.range (g.children parent).length
      let frontier ← descend transform parent slots { frontier with pending }
      return .inl frontier

/-- Visit pending nodes until none is left. -/
def drain (transform : Transform σ) (frontier : Frontier) : PassM σ Frontier :=
  untilDone (visit transform) frontier

/-- Walk from each root in turn. -/
def preOrderRoots (transform : Transform σ) : List (Nat × NodeId) → Frontier → PassM σ Unit
  | [], _ => return
  | (index, root) :: roots, frontier => do
      let root ← transformRoot transform root
      PassM.edit (modify (·.setOutput index root))
      let frontier ← drain transform (frontier.meet root)
      preOrderRoots transform roots frontier

/-- Replace the operand in each slot of a node. Operands are transformed when first met. -/
def replaceSlots (transform : Transform σ) (parent : NodeId) : List Nat → Memo → PassM σ Memo
  | [], memo => return memo
  | slot :: slots, memo => do
      match (← PassM.read (·.children parent))[slot]? with
      | none => replaceSlots transform parent slots memo
      | some child =>
          match memo[child]? with
          | some done =>
              pointSlot parent slot child done
              replaceSlots transform parent slots memo
          | none =>
              let done ← transform child
              pointSlot parent slot child done
              replaceSlots transform parent slots (memo.insert child done)

/-- Replace the operands of all nodes in the given order. -/
def replaceAll (transform : Transform σ) : List NodeId → Memo → PassM σ Unit
  | [], _ => return
  | parent :: rest, memo => do
      let slots ← PassM.read fun g => List.range (g.children parent).length
      let memo ← replaceSlots transform parent slots memo
      replaceAll transform rest memo

/-- Transform each root. -/
def postOrderRoots (transform : Transform σ) : List (Nat × NodeId) → PassM σ Unit
  | [] => return
  | (index, root) :: roots => do
      let root ← transformRoot transform root
      PassM.edit (modify (·.setOutput index root))
      postOrderRoots transform roots

/-- Apply a transform to every node reachable from the output roots. -/
def run (order : PassOrder) (transform : Transform σ) : PassM σ Unit := do
  let roots ← PassM.read Graph.outputs
  if roots.isEmpty then
    throw (.abandoned (.malformedInput "the expression has no outputs"))
  let indexed := roots.zipIdx.map Prod.swap
  match order with
  | .preOrder => preOrderRoots transform indexed { memo := {}, met := {}, pending := [] }
  | .postOrder =>
      let nodes ← PassM.read fun g => g.postOrder g.children roots
      replaceAll transform nodes {}
      postOrderRoots transform indexed

end Pass

/-- Run a transform without memory over a graph. -/
def Edit.pass (order : PassOrder) (step : NodeId → Edit NodeId) : Edit Unit := fun graph =>
  match Pass.run order (Transform.ofEdit step) ⟨graph, ()⟩ with
  | .ok _ w => .ok () w.graph
  | .error e w => .error e w.graph

end StreamExpr
