import Std.Data.TreeSet
import StreamExpr.Graph

/-! Depth-first traversal of a graph with an explicit stack.
Operands come before their users and are followed from left to right; a node met again is passed
over. Graphs may be as deep as they like, and cycles do no harm.
-/

namespace StreamExpr

/-- A pending step of a traversal. -/
inductive Visit where
  /-- Visit a node and what it uses, unless it has been met. -/
  | enter (id : NodeId)
  /-- List a node whose operands are all listed. -/
  | leave (id : NodeId)
deriving DecidableEq

namespace Traversal

/-- What is followed from a node; nothing from a place outside the arena. -/
def followed (size : Nat) (operands : NodeId → List NodeId) (id : NodeId) : List NodeId :=
  if id < size then operands id else []

/-- Work off a stack of visits. The nodes met and the nodes listed, last first, are carried
along. -/
def run (operands : NodeId → List NodeId)
    : Nat → List Visit → Std.TreeSet NodeId → List NodeId → List NodeId
  | 0, _, _, listed => listed
  | _ + 1, [], _, listed => listed
  | budget + 1, .leave id :: stack, met, listed => run operands budget stack met (id :: listed)
  | budget + 1, .enter id :: stack, met, listed =>
      if met.contains id then
        run operands budget stack met listed
      else
        let met := met.insert id
        let fresh := (operands id).filter (!met.contains ·)
        run operands budget (fresh.map .enter ++ .leave id :: stack) met listed

/-- Every node is entered at most once for each mention as a root or operand, and left at most
once, so this many steps work off every stack. -/
def budget (size : Nat) (operands : NodeId → List NodeId) (roots : List NodeId) : Nat :=
  2 * (roots.length + ((List.range size).map fun id => (operands id).length).foldr (· + ·) 0) + 1

end Traversal

/-- All nodes reachable from the roots through the chosen operands, each once and after the
operands followed from it, as a depth-first search from the left meets them. -/
def Graph.postOrder (g : Graph) (operands : NodeId → List NodeId) (roots : List NodeId)
    : List NodeId :=
  let operands := Traversal.followed g.size operands
  let steps := Traversal.budget g.size operands roots
  (Traversal.run operands steps (roots.map .enter) {} []).reverse

end StreamExpr
