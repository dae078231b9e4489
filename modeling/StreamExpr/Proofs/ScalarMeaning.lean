import StreamExpr.Evaluation
import StreamExpr.Proofs.Algebra

/-! Values of scalar graphs by the evaluator that folds constants.
Streams and functions are given by an environment. In a well-typed graph every value has the
register class of its node.
-/

namespace StreamExpr

/-- The arithmetic on single-precision numbers, the values of streams, and the functions. -/
structure Environment where
  arithmetic : FloatOps
  stream : StreamDecl → Value
  call : FunctionSig → List Value → Value

/-- Streams and functions have values of their declared classes, if these are known. -/
structure Environment.Respectful (env : Environment) : Prop where
  stream : ∀ decl, decl.register.isKnown = true → (env.stream decl).register = decl.register
  call : ∀ f arguments, f.output.isKnown = true → (env.call f arguments).register = f.output

/-- Streams and functions with one value for each class. -/
def Environment.uniform (arithmetic : FloatOps) (value : RegisterClass → Value) : Environment where
  arithmetic := arithmetic
  stream decl := value decl.register
  call f _ := value f.output

theorem Environment.uniform_respectful {arithmetic : FloatOps} {value : RegisterClass → Value}
    (classed : ∀ r, r.isKnown = true → (value r).register = r)
    : (uniform arithmetic value).Respectful :=
  ⟨fun decl => classed decl.register, fun f _ => classed f.output⟩

/-- The value a node makes of the values of its operands. Vectors have none. -/
def Node.result? (env : Environment) (n : Node) (operands : List Value) : Option Value :=
  match n.kind, operands with
  | .constant value, _ => some value
  | .input decl, _ => some (env.stream decl)
  | .output _ _, [x] => some x
  | .unary op _, [x] => op.eval? env.arithmetic x n.register
  | .binary op _ _, [x, y] => op.eval? env.arithmetic x y
  | .ternary op _ _ _, [x, y, z] => op.eval? env.arithmetic x y z
  | .call _ _, arguments => n.function?.map (env.call · arguments)
  | _, _ => none

/-- Operands matter to the result by their values only. -/
theorem Node.result?_outline {env : Environment} {n : Node}
    : n.outline.result? env = n.result? env := by
  obtain ⟨kind, type, overload⟩ := n
  funext operands
  rcases operands with _ | ⟨x, _ | ⟨y, _ | ⟨z, _ | ⟨more, operands⟩⟩⟩⟩ <;> cases kind <;> rfl

section Result

variable {env : Environment} {n : Node} {a b c : NodeId} {x y z : Value}

theorem Node.result?_constant {operands : List Value} (kind : n.kind = .constant x)
    : n.result? env operands = some x := by
  obtain ⟨own, type, overload⟩ := n
  obtain rfl : own = _ := kind
  rfl

theorem Node.result?_output {decl : StreamDecl} (kind : n.kind = .output decl a)
    : n.result? env [x] = some x := by
  obtain ⟨own, type, overload⟩ := n
  obtain rfl : own = _ := kind
  rfl

theorem Node.result?_unary {op : UnaryOp} (kind : n.kind = .unary op a)
    : n.result? env [x] = op.eval? env.arithmetic x n.register := by
  obtain ⟨own, type, overload⟩ := n
  obtain rfl : own = _ := kind
  rfl

theorem Node.result?_binary {op : BinaryOp} (kind : n.kind = .binary op a b)
    : n.result? env [x, y] = op.eval? env.arithmetic x y := by
  obtain ⟨own, type, overload⟩ := n
  obtain rfl : own = _ := kind
  rfl

theorem Node.result?_ternary {op : TernaryOp} (kind : n.kind = .ternary op a b c)
    : n.result? env [x, y, z] = op.eval? env.arithmetic x y z := by
  obtain ⟨own, type, overload⟩ := n
  obtain rfl : own = _ := kind
  rfl

end Result

/-- The meaning of nodes in an environment. -/
def Environment.meaning (env : Environment) : Meaning Value where
  apply := Node.result? env
  apply_outline same := by rw [← Node.result?_outline, same, Node.result?_outline]

/-- An output root has the value of its expression. -/
def Graph.Yields (g : Graph) (env : Environment) (root : NodeId) (decl : StreamDecl) (v : Value)
    : Prop :=
  ∃ expression,
    (g.node root).kind = .output decl expression ∧ g.Has env.meaning expression v

/-- The value that an output root yields is its own value. -/
theorem Graph.Yields.has {g : Graph} {env : Environment} {root : NodeId} {decl : StreamDecl}
    {v : Value} (yields : g.Yields env root decl v)
    : g.Has env.meaning root v := by
  obtain ⟨expression, kind, has⟩ := yields
  exact .of_kind kind (.cons has .nil) (Node.result?_output kind)

/-- The algebra of values by the evaluator. A value says no less than itself only. -/
def Environment.algebra (env : Environment) : Algebra Value where
  meaning := env.meaning
  order := env.meaning.flat
  Classed v r := v.register = r
  constant := id
  unary op r x := op.eval? env.arithmetic x r
  binary op := op.eval? env.arithmetic
  ternary op := op.eval? env.arithmetic
  apply_constant := Node.result?_constant
  apply_unary := Node.result?_unary
  apply_binary := Node.result?_binary
  apply_ternary := Node.result?_ternary

theorem Environment.eq_of_covers {env : Environment} {v : Value} {found : Option Value}
    (covers : env.algebra.order.Covers v found)
    : found = some v :=
  Meaning.flat_covers.mp covers

/-- A graph yields the values of one that it refines. -/
theorem Graph.Yields.of_refines {g h : Graph} {env : Environment} {root : NodeId}
    {decl : StreamDecl} {v : Value} (yields : g.Yields env root decl v)
    (refines : env.algebra.Refines g h) (isRoot : root ∈ g.outputs)
    : h.Yields env root decl v := by
  obtain ⟨_, has, rfl⟩ := refines.has isRoot yields.has
  obtain ⟨_, kindBefore, _⟩ := yields
  have outline := congrArg Node.kind (refines.outline isRoot)
  simp only [Node.outline, kindBefore, NodeKind.outline] at outline
  cases kind : (h.node root).kind with
  | output other expression =>
      simp only [kind, NodeKind.output.injEq, and_true] at outline
      obtain ⟨operands, values, result⟩ := has.operands
      rw [Graph.children, Node.children, kind] at values
      cases values with | cons first values =>
      cases values
      have same := Option.some.inj ((Node.result?_output kind).symm.trans result)
      exact ⟨expression, by rw [kind, outline], same ▸ first⟩
  | _ => simp [kind] at outline

/-! ## Well-typed graphs -/

namespace Graph

/-- A node is of known type, has the type and overload that its operands give, and has operands of
the classes it asks for. -/
def TypedAt (g : Graph) (id : NodeId) : Prop :=
  (g.type id).isKnown = true
  ∧ g.infer (g.node id) = (g.type id, (g.node id).overload)
  ∧ ∀ slot < (g.children id).length, ∀ child ∈ (g.children id)[slot]?,
      ∀ expected ∈ g.expected? id slot, expected.isKnown = true → g.register child = expected

instance (g : Graph) (id : NodeId) : Decidable (g.TypedAt id) :=
  inferInstanceAs (Decidable (_ ∧ _ ∧ _))

/-- Every reachable node is typed. -/
def WellTyped (g : Graph) : Prop :=
  ∀ id, g.Reachable id → g.TypedAt id

/-- No reachable node is a vector. -/
def Scalar (g : Graph) : Prop :=
  ∀ id, g.Reachable id → (g.type id).isVector = false

/-- Reachable nodes of a well-typed graph stand in its arena. -/
theorem WellTyped.lt_size {g : Graph} (typed : g.WellTyped) {id : NodeId}
    (reachable : g.Reachable id)
    : id < g.size := by
  by_contra outside
  have known := (typed id reachable).1
  rw [type, node_of_size_le (Nat.le_of_not_lt outside)] at known
  cases known

/-- A graph with all operands and roots in its arena is well-typed if every node of the arena is. -/
theorem wellTyped_of_lt {g : Graph} (roots : ∀ root ∈ g.outputs, root < g.size)
    (operands : ∀ id < g.size, ∀ child ∈ g.children id, child < g.size)
    (typed : ∀ id < g.size, g.TypedAt id)
    : g.WellTyped := by
  rintro id ⟨root, isRoot, path⟩
  have inside : id < g.size := by
    induction path with
    | refl => exact roots root isRoot
    | tail _ uses _ => exact operands _ uses.lt_size _ uses
  exact typed id inside

end Graph

end StreamExpr
