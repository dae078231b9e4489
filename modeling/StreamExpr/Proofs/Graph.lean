import StreamExpr.Graph

/-! Nodes after an edit.
An edit is known by what it leaves at each place. The outline of a node is the node without the
names of its operands, which is all that pointing a slot elsewhere cannot change.
-/

namespace StreamExpr

/-! ## Outlines -/

/-- A kind with all operands forgotten. -/
def NodeKind.outline : NodeKind → NodeKind
  | .constant value => .constant value
  | .input decl => .input decl
  | .output decl _ => .output decl 0
  | .unary op _ => .unary op 0
  | .binary op _ _ => .binary op 0 0
  | .ternary op _ _ _ => .ternary op 0 0 0
  | .call candidates arguments => .call candidates (arguments.map fun _ => 0)
  | .construct arguments => .construct (arguments.map fun _ => 0)
  | .swizzle _ selection => .swizzle 0 selection

@[simp]
theorem NodeKind.outline_setChild (kind : NodeKind) (slot : Nat) (child : NodeId)
    : (kind.setChild slot child).outline = kind.outline := by
  cases kind with
  | call candidates arguments =>
      simp only [setChild, outline, List.map_set, NodeKind.call.injEq, true_and]
      exact List.ext_getElem (by simp) fun i _ _ => by simp [List.getElem_set]
  | construct arguments =>
      simp only [setChild, outline, List.map_set, NodeKind.construct.injEq]
      exact List.ext_getElem (by simp) fun i _ _ => by simp [List.getElem_set]
  | _ => rfl

/-- A node with all operands forgotten. -/
def Node.outline (n : Node) : Node :=
  { n with kind := n.kind.outline }

/-- A node with one operand replaced. -/
def Node.setChild (n : Node) (slot : Nat) (child : NodeId) : Node :=
  { n with kind := n.kind.setChild slot child }

@[simp]
theorem Node.outline_setChild (n : Node) (slot : Nat) (child : NodeId)
    : (n.setChild slot child).outline = n.outline := by
  simp only [outline, setChild, NodeKind.outline_setChild]

theorem Node.type_eq_of_outline {n other : Node} (same : n.outline = other.outline)
    : n.type = other.type :=
  (congrArg Node.type same : n.outline.type = other.outline.type)

theorem Node.overload_eq_of_outline {n other : Node} (same : n.outline = other.outline)
    : n.overload = other.overload :=
  (congrArg Node.overload same : n.outline.overload = other.outline.overload)

theorem Node.isOutput_eq_of_outline {n other : Node} (same : n.outline = other.outline)
    : n.isOutput = other.isOutput := by
  have forgets (n : Node) : n.outline.isOutput = n.isOutput := by
    obtain ⟨kind, type, overload⟩ := n
    cases kind <;> rfl
  rw [← forgets, same, forgets]

theorem Node.length_children_eq_of_outline {n other : Node} (same : n.outline = other.outline)
    : n.children.length = other.children.length := by
  have forgets (n : Node) : n.outline.children.length = n.children.length := by
    obtain ⟨kind, type, overload⟩ := n
    cases kind <;> simp [outline, NodeKind.outline, children, NodeKind.children]
  rw [← forgets, same, forgets]

/-- Constants and outputs, which no pass on values replaces. -/
def Node.isFixed (n : Node) : Bool :=
  n.isConstant || n.isOutput

theorem Node.isFixed_of_isOutput {n : Node} (isOutput : n.isOutput = true) : n.isFixed = true := by
  rw [isFixed, isOutput, Bool.or_true]

theorem Node.isFixed_eq_of_outline {n other : Node} (same : n.outline = other.outline)
    : n.isFixed = other.isFixed := by
  have forgets (n : Node) : n.outline.isFixed = n.isFixed := by
    obtain ⟨kind, type, overload⟩ := n
    cases kind <;> rfl
  rw [← forgets, same, forgets]

/-- A kind is known by its outline and its operands. -/
theorem NodeKind.eq_of_outline {kind other : NodeKind} (outline : kind.outline = other.outline)
    (children : kind.children = other.children)
    : kind = other := by
  cases kind <;> cases other <;> simp_all [NodeKind.outline, NodeKind.children]

theorem NodeKind.setChild_self {kind : NodeKind} {slot : Nat} {child : NodeId}
    (atSlot : kind.children[slot]? = some child)
    : kind.setChild slot child = kind := by
  obtain ⟨inside, rfl⟩ := List.getElem?_eq_some_iff.mp atSlot
  refine NodeKind.eq_of_outline (outline_setChild ..) ?_
  rw [children_setChild, List.set_getElem_self]

@[simp]
theorem Node.children_setChild (n : Node) (slot : Nat) (child : NodeId)
    : (n.setChild slot child).children = n.children.set slot child :=
  NodeKind.children_setChild n.kind slot child

theorem DataType.ext {t u : DataType} (register : t.register = u.register)
    (width : t.width = u.width)
    : t = u := by
  cases t
  cases u
  cases register
  cases width
  rfl

@[simp]
theorem DataType.width_of {r : RegisterClass} {width : Nat}
    (positive : 0 < width) (small : width ≤ 4)
    : (of r width).width = width := by
  simp only [of]
  omega

@[simp]
theorem DataType.of_width (t : DataType) : of t.register t.width = t :=
  ext rfl (width_of t.width_pos t.width_le_four)

theorem DataType.width_eq_one {t : DataType} (scalar : t.isVector = false) : t.width = 1 := by
  have positive := t.width_pos
  have small := of_decide_eq_false scalar
  omega

namespace Selection

theorem lane_ofList (components : List Nat) (place : Nat)
    : (ofList components).lane place = min (components.getD (place % 4) 0) 3 := by
  have small := Nat.mod_lt place (Nat.zero_lt_succ 3)
  generalize rest : place % 4 = r at small
  rw [lane, rest]
  rcases r with _ | _ | _ | _ | r
  · rfl
  · rfl
  · rfl
  · rfl
  · omega

theorem lane_ofList_le (components : List Nat) (place : Nat)
    : (ofList components).lane place ≤ 3 := by
  rw [lane_ofList]
  exact Nat.min_le_right _ _

theorem count_ofList_pos (components : List Nat) : 0 < (ofList components).count := by
  simp only [ofList]
  omega

theorem count_ofList_le (components : List Nat) : (ofList components).count ≤ 4 := by
  simp only [ofList]
  omega

theorem count_ofList {components : List Nat} (positive : 0 < components.length)
    (small : components.length ≤ 4)
    : (ofList components).count = components.length := by
  simp only [ofList]
  omega

theorem lane_range {width place : Nat} (inside : place < width) (small : width ≤ 4)
    : (ofList (List.range width)).lane place = place := by
  rw [lane_ofList, Nat.mod_eq_of_lt (Nat.lt_of_lt_of_le inside small), List.getD_eq_getElem?_getD,
    List.getElem?_range inside, Option.getD_some]
  omega

end Selection

theorem Value.register_of_convert? {x v : Value} {target : RegisterClass}
    (converted : x.convert? target = some v)
    : v.register = target := by
  cases target <;> cases converted <;> rfl

namespace Graph

/-- There are roots, and all of them are outputs. -/
def Rooted (g : Graph) : Prop :=
  g.outputs ≠ [] ∧ ∀ root ∈ g.outputs, g.isOutput root = true

/-! ## Lookups -/

@[simp]
theorem size_setChild (g : Graph) (id : NodeId) (slot : Nat) (child : NodeId)
    : (g.setChild id slot child).size = g.size := by
  simp [size, setChild]

@[simp]
theorem node_setChild (g : Graph) (id other : NodeId) (slot : Nat) (child : NodeId)
    : (g.setChild id slot child).node other
      = if other = id then (g.node other).setChild slot child else g.node other := by
  simp only [node, setChild, Array.getD_eq_getD_getElem?, Array.getElem?_modify, eq_comm]
  split
  · cases g.nodes[other]? <;> rfl
  · rfl

/-- Pointing a slot at the operand it has changes nothing. -/
theorem setChild_self {g : Graph} {id child : NodeId} {slot : Nat}
    (atSlot : (g.children id)[slot]? = some child)
    : g.setChild id slot child = g := by
  have same
    : g.nodes.modify id (fun n => { n with kind := n.kind.setChild slot child }) = g.nodes := by
    refine Array.ext (by simp) fun place _ inside => ?_
    rw [Array.getElem_modify]
    split
    case isTrue here =>
      subst here
      have isNode : g.node id = g.nodes[id] := by simp [node, inside]
      rw [children, isNode] at atSlot
      rw [NodeKind.setChild_self atSlot]
    case isFalse => rfl
  rw [setChild, same]

theorem setOutput_self {g : Graph} {index : Nat} {root : NodeId}
    (atIndex : g.outputs[index]? = some root)
    : g.setOutput index root = g := by
  obtain ⟨inside, rfl⟩ := List.getElem?_eq_some_iff.mp atIndex
  rw [setOutput, List.set_getElem_self]

@[simp]
theorem type_setChild (g : Graph) (id other : NodeId) (slot : Nat) (child : NodeId)
    : (g.setChild id slot child).type other = g.type other := by
  rw [type, node_setChild]
  split <;> rfl

@[simp]
theorem isOutput_setChild (g : Graph) (id other : NodeId) (slot : Nat) (child : NodeId)
    : (g.setChild id slot child).isOutput other = g.isOutput other := by
  rw [isOutput, node_setChild]
  split
  · exact Node.isOutput_eq_of_outline (Node.outline_setChild _ _ _)
  · rfl

@[simp]
theorem value?_setChild (g : Graph) (id other : NodeId) (slot : Nat) (child : NodeId)
    : (g.setChild id slot child).value? other = g.value? other := by
  rw [value?, node_setChild]
  split
  · rw [value?]
    generalize g.node other = n
    obtain ⟨kind, type, overload⟩ := n
    cases kind <;> rfl
  · rfl

@[simp]
theorem size_push (g : Graph) (n : Node) : (g.push n).size = g.size + 1 := by
  simp [size, push]

theorem node_push (g : Graph) (n : Node) (id : NodeId)
    : (g.push n).node id = if id = g.size then n else g.node id := by
  simp only [node, push, size, Array.getD_eq_getD_getElem?, Array.getElem?_push]
  split <;> rfl

@[simp]
theorem node_push_self (g : Graph) (n : Node) : (g.push n).node g.size = n := by
  rw [node_push, if_pos rfl]

theorem node_push_of_lt {g : Graph} (n : Node) {id : NodeId} (inside : id < g.size)
    : (g.push n).node id = g.node id := by
  rw [node_push, if_neg (Nat.ne_of_lt inside)]

theorem size_replace (g : Graph) (id : NodeId) (n : Node) : (g.replace id n).size = g.size :=
  Array.size_setIfInBounds

theorem node_replace (g : Graph) {id : Nat} (n : Node) (inside : id < g.size) (other : Nat)
    : (g.replace id n).node other = if other = id then n else g.node other := by
  simp only [node, replace, Array.getD_eq_getD_getElem?, Array.getElem?_setIfInBounds]
  split
  case isTrue same =>
    subst same
    rw [if_pos rfl, if_pos (show id < g.nodes.size from inside)]
    rfl
  case isFalse differs =>
    rw [if_neg (Ne.symm differs)]

/-- A constant is a node with a value of its own. -/
theorem isConstant_eq_isSome (g : Graph) (id : NodeId)
    : g.isConstant id = (g.value? id).isSome := by
  rw [isConstant, value?, Node.isConstant, Node.value?]
  cases (g.node id).kind <;> rfl

theorem kind_of_value? {g : Graph} {id : NodeId} {value : Value}
    (found : g.value? id = some value)
    : (g.node id).kind = .constant value := by
  rw [value?, Node.value?] at found
  split at found
  next kind =>
    rw [kind, Option.some.inj found]
  · cases found

/-! ## Deduced types -/

section Deduction

variable {g : Graph} {n : Node}

/-- The deduced type depends on the outline of a node and the types of its operands only. -/
theorem infer_eq_of_outline {h : Graph} {m : Node} (same : m.outline = n.outline)
    (types : m.children.map h.type = n.children.map g.type)
    : h.infer m = g.infer n := by
  obtain ⟨kind, type, overload⟩ := n
  obtain ⟨otherKind, otherType, otherOverload⟩ := m
  simp only [Node.outline, Node.mk.injEq] at same
  obtain ⟨sameKind, rfl, rfl⟩ := same
  rw [infer.eq_def, infer.eq_def]
  simp only [types]
  cases kind <;> cases otherKind <;>
    simp only [NodeKind.outline, reduceCtorEq, NodeKind.constant.injEq, NodeKind.input.injEq,
      NodeKind.output.injEq, NodeKind.unary.injEq, NodeKind.binary.injEq, NodeKind.ternary.injEq,
      NodeKind.call.injEq, NodeKind.construct.injEq, NodeKind.swizzle.injEq, and_true,
      true_and] at sameKind
  case unary.unary _ _ op _ =>
    subst sameKind
    cases op <;> rfl
  case swizzle.swizzle =>
    subst sameKind
    simp only [Node.children, NodeKind.children, List.map_cons, List.map_nil, List.cons.injEq,
      and_true] at types
    simp only [types]
  case call.call =>
    obtain ⟨rfl, _⟩ := sameKind
    rfl
  all_goals first | rfl | (subst sameKind; rfl)

end Deduction

/-! ## Graphs with nodes added -/

/-- The other graph has the same nodes and roots, and perhaps further nodes behind them. -/
structure Appends (g other : Graph) : Prop where
  node : ∀ {id}, id < g.size → other.node id = g.node id
  size : g.size ≤ other.size
  outputs : other.outputs = g.outputs

theorem Appends.refl (g : Graph) : g.Appends g :=
  ⟨fun _ => rfl, Nat.le_refl _, rfl⟩

theorem Appends.trans {first second third : Graph} (left : first.Appends second)
    (right : second.Appends third)
    : first.Appends third where
  node inside := (right.node (Nat.lt_of_lt_of_le inside left.size)).trans (left.node inside)
  size := Nat.le_trans left.size right.size
  outputs := right.outputs.trans left.outputs

theorem appends_push (g : Graph) (n : Node) : g.Appends (g.push n) where
  node inside := node_push_of_lt n inside
  size := by rw [size_push]; exact Nat.le_succ _
  outputs := rfl

end Graph

end StreamExpr
