import StreamExpr.Traversal

/-! Graphviz text of a graph: the nodes that the outputs and declared inputs reach, and an edge from
each node to each of its operands, labelled with the slot. -/

namespace StreamExpr.Dot

/-- A label between quotes: quotes and backslashes are escaped, and a line ends flush left. -/
def escape (text : String) : String :=
  String.join <| text.toList.map fun c =>
    match c with
    | '"' => "\\\""
    | '\\' => "\\\\"
    | '\n' => "\\l"
    | c => c.toString

def attributes (label : String) : String :=
  " [ label = \"" ++ escape label ++ "\" ]\n"

/-- The line of a node, named by its place in the traversal. -/
def nodeLine (g : Graph) (place : Nat) (id : NodeId) : String :=
  "    " ++ toString place ++ attributes (g.describe id)

/-- The lines of the edges from a node. -/
def edgeLines (g : Graph) (places : Std.TreeMap NodeId Nat) (place : Nat) (id : NodeId)
    : List String :=
  (g.children id).zipIdx.filterMap fun (child, slot) =>
    places[child]?.map fun target =>
      "    " ++ toString place ++ " -> " ++ toString target ++ attributes (toString slot)

end Dot

/-- The Graphviz text of a graph. -/
def Graph.toDot (g : Graph) : String :=
  let nodes := (g.postOrder g.children (g.outputs ++ g.inputs)).zipIdx
  let places := nodes.foldl (fun places (id, place) => places.insert id place) {}
  let nodeLines := nodes.map fun (id, place) => Dot.nodeLine g place id
  let edgeLines := nodes.flatMap fun (id, place) => Dot.edgeLines g places place id
  "digraph \x7b\n" ++ String.join nodeLines ++ String.join edgeLines ++ "\x7d\n"

end StreamExpr
