import StreamExpr.Proofs.Valuation

/-! Values of graphs in an algebra.
An algebra tells what constants and operators are among values of some kind, which of these values
say less than others, and of which register classes they are. What a pass keeps is shown for every
algebra in which its rules hold.
-/

namespace StreamExpr

variable {V : Type}

/-- Values that nodes can have, in their order, some of which are of register classes, with the
constants and operators among them. The class of the result is told to operators of one operand, for
it matters to conversions. -/
structure Algebra (V : Type) where
  meaning : Meaning V
  order : meaning.Order
  Classed : V → RegisterClass → Prop
  constant : Value → V
  unary : UnaryOp → RegisterClass → V → Option V
  binary : BinaryOp → V → V → Option V
  ternary : TernaryOp → V → V → V → Option V
  apply_constant : ∀ {n value}, n.kind = .constant value
    → meaning.apply n [] = some (constant value)
  apply_unary : ∀ {n op a x}, n.kind = .unary op a → meaning.apply n [x] = unary op n.register x
  apply_binary : ∀ {n op a b x y}, n.kind = .binary op a b → meaning.apply n [x, y] = binary op x y
  apply_ternary : ∀ {n op a b c x y z}, n.kind = .ternary op a b c
    → meaning.apply n [x, y, z] = ternary op x y z

namespace Algebra

variable {A : Algebra V}

theorem unary_mono {op : UnaryOp} {r : RegisterClass} {v x y : V} (less : A.order.Less x y)
    (covers : A.order.Covers v (A.unary op r x))
    : A.order.Covers v (A.unary op r y) := by
  have made {z} : A.meaning.apply (.ofKind (.unary op 0) (.scalarOf r)) [z] = A.unary
    op r z := A.apply_unary rfl
  rw [← made] at covers ⊢
  exact covers.mono (.cons less .nil)

theorem binary_mono {op : BinaryOp} {v x y a b : V} (left : A.order.Less x a)
    (right : A.order.Less y b) (covers : A.order.Covers v (A.binary op x y))
    : A.order.Covers v (A.binary op a b) := by
  have made {s t} : A.meaning.apply (.ofKind (.binary op 0 0) .unknown) [s, t] = A.binary
    op s t := A.apply_binary rfl
  rw [← made] at covers ⊢
  exact covers.mono (.cons left (.cons right .nil))

theorem ternary_mono {op : TernaryOp} {v x y z a b c : V} (first : A.order.Less x a)
    (second : A.order.Less y b) (third : A.order.Less z c)
    (covers : A.order.Covers v (A.ternary op x y z))
    : A.order.Covers v (A.ternary op a b c) := by
  have made {s t u} : A.meaning.apply (.ofKind (.ternary op 0 0 0) .unknown) [s, t, u] = A.ternary
    op s t u := A.apply_ternary rfl
  rw [← made] at covers ⊢
  exact covers.mono (.cons first (.cons second (.cons third .nil)))

/-- The outputs of a graph are still there, with values that say no less. -/
structure Refines (A : Algebra V) (g h : Graph) : Prop where
  outputs : h.outputs = g.outputs
  outline : ∀ {root}, root ∈ g.outputs → (h.node root).outline = (g.node root).outline
  has : ∀ {root v}, root ∈ g.outputs → g.Has A.meaning root v → ∃ w,
    h.Has A.meaning root w ∧ A.order.Less v w

theorem Refines.trans {g h k : Graph} (first : A.Refines g h) (second : A.Refines h k)
    : A.Refines g k where
  outputs := second.outputs.trans first.outputs
  outline isRoot := (second.outline (first.outputs ▸ isRoot)).trans (first.outline isRoot)
  has isRoot found := by
    obtain ⟨v, found, less⟩ := first.has isRoot found
    obtain ⟨w, found, more⟩ := second.has (first.outputs ▸ isRoot) found
    exact ⟨w, found, A.order.trans less more⟩

end Algebra

/-! ## Valuations in an algebra -/

/-- The valuation of the reachable nodes of a graph without cycles. -/
noncomputable def Graph.valuation {g : Graph} {R : Type} [LinearOrder R] (A : Algebra V)
    {order : Nat → R} (increasing : StrictMono order) (acyclic : g.Acyclic)
    (inside : ∀ {id}, g.Reachable id → id < g.size)
    : Valuation A.meaning R A.order :=
  .ofGraph A.order g g.Reachable (fun id => order (g.rank id)) inside
    fun reachable member =>
      ⟨reachable.operand member, increasing (acyclic.rank_lt reachable member)⟩

namespace Valuation

variable {A : Algebra V} {R : Type} [LinearOrder R] {s t : Valuation A.meaning R A.order}
    {id : NodeId} {v : V}

/-- A constant says no less than the values it came to stand for. -/
theorem less_constant {constant : Value} (isLive : s.live id)
    (found : s.graph.value? id = some constant) (hasValue : s.value id = some v)
    : A.order.Less v (A.constant constant) := by
  obtain ⟨operands, values, w, result, less⟩ := s.backed_kind isLive
    (Graph.kind_of_value? found) hasValue
  cases values
  rw [Option.some.inj ((A.apply_constant (Graph.kind_of_value? found)).symm.trans result)]
  exact less

theorem covers_unary {op : UnaryOp} {operand : NodeId} (isLive : s.live id)
    (kind : (s.graph.node id).kind = .unary op operand) (hasValue : s.value id = some v)
    : ∃ x, s.value operand = some x ∧ A.order.Covers v (A.unary op (s.graph.register id) x) := by
  obtain ⟨operands, values, covers⟩ := s.backed_kind isLive kind hasValue
  cases values with | cons first values =>
  cases values
  exact ⟨_, first, A.apply_unary kind ▸ covers⟩

theorem covers_binary {op : BinaryOp} {left right : NodeId} (isLive : s.live id)
    (kind : (s.graph.node id).kind = .binary op left right) (hasValue : s.value id = some v)
    : ∃ x y, s.value left = some x ∧ s.value right = some y
      ∧ A.order.Covers v (A.binary op x y) := by
  obtain ⟨operands, values, covers⟩ := s.backed_kind isLive kind hasValue
  cases values with | cons first values =>
  cases values with | cons second values =>
  cases values
  exact ⟨_, _, first, second, A.apply_binary kind ▸ covers⟩

theorem covers_ternary {op : TernaryOp} {first second third : NodeId} (isLive : s.live id)
    (kind : (s.graph.node id).kind = .ternary op first second third)
    (hasValue : s.value id = some v)
    : ∃ x y z,
        s.value first = some x
        ∧ s.value second = some y
        ∧ s.value third = some z
        ∧ A.order.Covers v (A.ternary op x y z) := by
  obtain ⟨operands, values, covers⟩ := s.backed_kind isLive kind hasValue
  cases values with | cons atFirst values =>
  cases values with | cons atSecond values =>
  cases values with | cons atThird values =>
  cases values
  exact ⟨_, _, _, atFirst, atSecond, atThird, A.apply_ternary kind ▸ covers⟩

theorem derived_constant {n : Node} {c : Value} (kind : n.kind = .constant c)
    : s.derived n = some (A.constant c) := by
  rw [derived, Node.children, kind]
  exact A.apply_constant kind

theorem derived_unary {n : Node} {op : UnaryOp} {x : NodeId} (kind : n.kind = .unary op x)
    : s.derived n = (s.value x).bind (A.unary op n.register) := by
  rw [derived, Node.children, kind]
  cases found : s.value x <;> simp [NodeKind.children, found, A.apply_unary kind]

theorem derived_binary {n : Node} {op : BinaryOp} {x y : NodeId} (kind : n.kind = .binary op x y)
    : s.derived n = (s.value x).bind fun v => (s.value y).bind (A.binary op v) := by
  rw [derived, Node.children, kind]
  cases atX : s.value x <;> cases atY : s.value y <;>
    simp [NodeKind.children, atX, atY, A.apply_binary kind]

theorem derived_ternary {n : Node} {op : TernaryOp} {x y z : NodeId}
    (kind : n.kind = .ternary op x y z)
    : s.derived n = (s.value x).bind fun v => (s.value y).bind fun w =>
      (s.value z).bind (A.ternary op v w) := by
  rw [derived, Node.children, kind]
  cases atX : s.value x <;> cases atY : s.value y <;> cases atZ : s.value z <;>
    simp [NodeKind.children, atX, atY, atZ, A.apply_ternary kind]

/-- What is kept from a graph on refines it. -/
theorem Later.refines (later : s.Later t) (values : s.value = s.graph.valueOf? A.meaning)
    (roots : ∀ {root}, root ∈ s.graph.outputs → s.live root)
    (outputs : t.graph.outputs = s.graph.outputs)
    : A.Refines s.graph t.graph where
  outputs := outputs
  outline isRoot := later.outline (roots isRoot)
  has {root v} isRoot has := by
    have hasValue : s.value root = some v := by
      rw [values]
      exact Graph.valueOf?_eq_some.mpr has
    exact t.exists_has (later.live (roots isRoot)) ((later.value (roots isRoot)).trans hasValue)

end Valuation

end StreamExpr
