import StreamExpr.Pass

/-! Buffers that traversals and passes work in.
They are kept from one pass to the next. A pass clears them when it starts, and a traversal clears
those that it fills. A pass that fails leaves them as they are.
-/

namespace StreamExpr

/-- What traversals and passes note down. -/
structure Buffers where
  /-- Visits to be made, the next one first. -/
  stack : List Visit
  met : Std.TreeSet NodeId
  /-- Nodes in the order in which they were listed. -/
  order : Array NodeId
  /-- Replacements of nodes. -/
  memo : Pass.Memo

namespace Buffers

def empty : Buffers :=
  { stack := [], met := {}, order := #[], memo := {} }

/-- Forget everything. -/
def clear (b : Buffers) : Buffers :=
  { b with stack := [], met := {}, order := #[], memo := {} }

/-! ## Traversal -/

/-- Forget the last traversal. Replacements stay. -/
def restart (b : Buffers) : Buffers :=
  { b with stack := [], met := {}, order := #[] }

/-- Work off the stack. -/
def traverse (operands : NodeId → List NodeId) : Nat → Buffers → Buffers
  | 0, b => b
  | budget + 1, b =>
      match b.stack with
      | [] => b
      | .leave id :: stack => traverse operands budget { b with stack, order := b.order.push id }
      | .enter id :: stack =>
          if b.met.contains id then
            traverse operands budget { b with stack }
          else
            let met := b.met.insert id
            let fresh := (operands id).filter (!met.contains ·)
            traverse operands budget { b with stack := fresh.map .enter ++ .leave id :: stack, met }

/-- List all nodes reachable from the roots through the chosen operands. -/
def postOrder (g : Graph) (operands : NodeId → List NodeId) (roots : List NodeId)
    (b : Buffers) : Buffers :=
  let operands := Traversal.followed g.size operands
  let steps := Traversal.budget g.size operands roots
  traverse operands steps { b.restart with stack := roots.map .enter }

end Buffers

/-! ## Passes -/

/-- A computation of a pass that has buffers at hand. -/
abbrev BufferM (σ : Type) := PassM (σ × Buffers)

namespace BufferM

/-- What a computation without buffers does beside them. -/
def beside (x : PassM σ α) : BufferM σ α := fun ⟨graph, memory, buffers⟩ =>
  match x ⟨graph, memory⟩ with
  | .ok a ⟨graph, memory⟩ => .ok a ⟨graph, memory, buffers⟩
  | .error e ⟨graph, memory⟩ => .error e ⟨graph, memory, buffers⟩

/-- Read off the buffers. -/
def read (f : Buffers → α) : BufferM σ α :=
  modifyGet fun w => (f w.memory.2, w)

/-- Change the buffers. -/
def change (f : Buffers → Buffers) : BufferM σ Unit :=
  modify fun w => { w with memory := (w.memory.1, f w.memory.2) }

/-- Transform a node once. A replacement stands for itself. -/
def resolve (transform : Transform σ) (id : NodeId) : BufferM σ NodeId := do
  match (← read (·.memo))[id]? with
  | some done => return done
  | none =>
      let done ← beside (transform id)
      change fun b => { b with memo := (b.memo.insert id done).insertIfNew done done }
      return done

/-- Let a node's operands be visited, unless it has been met. -/
def meet (id : NodeId) (pending : List NodeId) : BufferM σ (List NodeId) := do
  if ← read (·.met.contains id) then
    return pending
  else
    change fun b => { b with met := b.met.insert id }
    return id :: pending

/-- Replace the operands in some slots of a node and meet the replacements. -/
def descend (transform : Transform σ) (parent : NodeId)
    : List Nat → List NodeId → BufferM σ (List NodeId)
  | [], pending => return pending
  | slot :: slots, pending => do
      match (← PassM.read (·.children parent))[slot]? with
      | none => descend transform parent slots pending
      | some child =>
          let new ← resolve transform child
          Pass.pointSlot parent slot child new
          let pending ← meet new pending
          descend transform parent slots pending

/-- Visit the pending node that was met last. A walk without pending nodes is done. -/
def visit (transform : Transform σ) : List NodeId → BufferM σ (List NodeId ⊕ Unit)
  | [] => return .inr ()
  | parent :: pending => do
      let slots ← PassM.read fun g => List.range (g.children parent).length
      let pending ← descend transform parent slots pending
      return .inl pending

/-- Visit pending nodes until none is left. -/
def drain (transform : Transform σ) (pending : List NodeId) : BufferM σ Unit :=
  untilDone (visit transform) pending

/-- Walk from each root in turn. -/
def preOrderRoots (transform : Transform σ) : List (Nat × NodeId) → BufferM σ Unit
  | [] => return
  | (index, root) :: roots => do
      let root ← Pass.transformRoot (fun id => beside (transform id)) root
      PassM.edit (modify (·.setOutput index root))
      let pending ← meet root []
      drain transform pending
      preOrderRoots transform roots

/-- Replace the operand in each slot of a node. Operands are transformed when first met. -/
def replaceSlots (transform : Transform σ) (parent : NodeId) : List Nat → BufferM σ Unit
  | [] => return
  | slot :: slots => do
      match (← PassM.read (·.children parent))[slot]? with
      | none => replaceSlots transform parent slots
      | some child =>
          match (← read (·.memo))[child]? with
          | some done =>
              Pass.pointSlot parent slot child done
              replaceSlots transform parent slots
          | none =>
              let done ← beside (transform child)
              change fun b => { b with memo := b.memo.insert child done }
              Pass.pointSlot parent slot child done
              replaceSlots transform parent slots

/-- Replace the operands of all nodes in the given order. -/
def replaceAll (transform : Transform σ) : List NodeId → BufferM σ Unit
  | [] => return
  | parent :: rest => do
      let slots ← PassM.read fun g => List.range (g.children parent).length
      replaceSlots transform parent slots
      replaceAll transform rest

/-- Apply a transform to every node reachable from the output roots. The nodes that are listed for a
pass with operands first are taken out of the buffers, and put back when it is done. -/
def run (order : PassOrder) (transform : Transform σ) : BufferM σ Unit := do
  let roots ← PassM.read Graph.outputs
  if roots.isEmpty then
    throw (.abandoned (.malformedInput "the expression has no outputs"))
  let indexed := roots.zipIdx.map Prod.swap
  change .clear
  match order with
  | .preOrder => preOrderRoots transform indexed
  | .postOrder =>
      let g ← PassM.read id
      change (·.postOrder g g.children roots)
      let nodes ← read (·.order)
      change fun b => { b with order := #[] }
      replaceAll transform nodes.toList
      Pass.postOrderRoots (fun id => beside (transform id)) indexed
      change fun b => { b with order := nodes }

end BufferM

end StreamExpr
