import StreamExpr.Proofs.ScalarRule

/-! Scalarization keeps types and values.
A component of a vector is followed through all that a vector can be made by.
-/

namespace StreamExpr

variable {α : Type} {M : ScalarModel α} {streams : StreamDecl → Nat → α} {broad : Prop} {base : Nat}

namespace Scalarization

variable {s t : TypedScope M streams (stage α broad base)} {bound : ℚ}
    {id v a b new : NodeId} {c : Nat}
  {x y : VectorValue α}

/-- Operators on vectors that are left over make scalars. -/
theorem isVectorOp_unary {op : UnaryOp} (isLive : s.live v)
    (isVector : (s.graph.type v).isVector = true) (kind : (s.graph.node v).kind = .unary op a)
    : op.isVectorOp = false := by
  have plain : (s.graph.shape v).isPlain = true := (s.allowed isLive).1.2.2.1
  rw [Shape.isPlain, Graph.shape, Graph.shapeOf, Node.outline, kind] at plain
  have type (proper : op ≠ .typeConversion) (table : op.signatures = [⟨.bool, [.bool]⟩]) :=
    ((s.sound isLive).type_unary kind proper table).2
  rw [Graph.type] at isVector
  cases op with
  | length | normalize => cases plain
  | all | any =>
      rw [type (by decide) rfl] at isVector
      cases isVector
  | _ => rfl

theorem isVectorOp_binary {op : BinaryOp} (isLive : s.live v)
    (isVector : (s.graph.type v).isVector = true) (kind : (s.graph.node v).kind = .binary op a b)
    : op.isVectorOp = false := by
  have plain : (s.graph.shape v).isPlain = true := (s.allowed isLive).1.2.2.1
  rw [Shape.isPlain, Graph.shape, Graph.shapeOf, Node.outline, kind] at plain
  have type (isDot : (s.graph.node v).kind = .binary .dot a b) :=
    ((s.sound isLive).type_dot isDot).2.2.2.2
  rw [Graph.type] at isVector
  cases op with
  | cross => cases plain
  | dot =>
      rw [type kind] at isVector
      cases isVector
  | _ => rfl

namespace Picks

variable {xs : List (VectorValue α)} {lanes : Nat → α}
    {operand left right first second third : NodeId}
  {arguments : List NodeId} (picks : Picks s id v c xs lanes)

include picks

theorem type_mem {x : VectorValue α} (member : x ∈ xs)
    : x.type ∈ (s.graph.children v).map s.graph.type := by
  rw [TypedScope.types_of_computes picks.operands]
  exact List.mem_map_of_mem member

/-- What works component by component has operands with that component. -/
theorem yields_of_mem {own : NodeKind} (kind : (s.graph.node v).kind = own)
    (componentwise : own.isComponentwise = true) {x : VectorValue α} (member : x ∈ xs)
    : x.type.Yields α c := by
  subst kind
  exact yields_operand picks.yields picks.isVector
    (DataType.width_of_broadcastWidth? ((s.sound picks.vectorLive).broadcasts componentwise) _
    (picks.type_mem member))

/-- A node that is added for the component takes the place of the selection. -/
theorem runs_of_adds {edit : Edit NodeId}
    (adds : s.Adds (supply α broad base) edit (s.level id)
    (.of (s.graph.type v).scalar fun _ => lanes c))
    : Advances s id edit :=
  adds.advances (rule α broad base) picks.isLive picks.hasValue (not_stays picks.busy)

theorem runs_construct (kind : (s.graph.node v).kind = .construct arguments)
    : Advances s id (constructed v arguments c) := by
  have sound := s.sound picks.vectorLive
  have operands := picks.operands
  rw [Graph.children, Node.children, kind] at operands
  have constructs : (s.graph.node v).lanes? M streams xs
      = some (M.constructLane (s.graph.register v) xs) := Node.lanes?_construct kind
  obtain rfl := Option.some.inj (constructs.symm.trans picks.made)
  refine runs_constructed picks.isLive picks.busy sound.known (picks.yields.lt_four picks.isVector)
    operands (fun x member => ?_) picks.hasValue
  have uniform := sound.uniform (r := s.graph.register v) (by rw [Node.uniform?, kind]; rfl)
  exact uniform x.type (picks.type_mem member)

/-- A selection from a selection is a selection from its operand. -/
theorem runs_swizzle {picked : Selection} (kind : (s.graph.node v).kind = .swizzle operand picked)
    : Advances s id (Edit.component operand (picked.lane c)) := by
  have sound := s.sound picks.vectorLive
  have inferred := congrArg Prod.fst sound.inferred
  rw [Graph.infer.eq_def] at inferred
  simp only [kind] at inferred
  obtain ⟨components, rfl⟩ := sound.selection (by rw [Node.selection?, kind])
  have within : (s.graph.shape v).Within α := (s.allowed picks.vectorLive).1.1
  have operands := picks.operands
  rw [Graph.children, Node.children, kind] at operands
  cases operands with
  | @cons _ y _ _ atY rest =>
      cases rest
      have made := picks.made
      rw [Node.lanes?_swizzle kind] at made
      obtain rfl := Option.some.inj made
      have yields : y.type.Yields α ((Selection.ofList components).lane c) := by
        rcases picks.yields with (inside | scalar) | unit
        · rw [Graph.type, ← inferred, DataType.withWidth, DataType.width_of
            (Selection.count_ofList_pos _) (Selection.count_ofList_le _)] at inside
          refine @within (.ofList components) ?_ _ ?_ _ inside
          · rw [Graph.shape, Graph.shapeOf, Node.selection?_outline, Node.selection?, kind]
          · rw [Graph.shape, Graph.shapeOf, Node.children, kind, ← atY.type]
            exact .head _
        · cases scalar.symm.trans picks.isVector
        · exact .inr ⟨Nat.lt_succ_of_le (Selection.lane_ofList_le _ _), unit.2⟩
      refine advances_of_builds (TypedScope.builds_component atY yields) picks.isLive
        (picks.hasValue.trans (congrArg some ?_)) picks.busy
      rw [Graph.type, ← inferred, atY.type]
      rfl

/-- A component of a vector that is converted is a converted component. -/
theorem runs_conversion (kind : (s.graph.node v).kind = .unary .typeConversion operand)
    : Advances s id (Edit.component operand c >>= fun part =>
      Edit.conversion (s.graph.register v) part) := by
  have sound := s.sound picks.vectorLive
  have operands := picks.operands
  rw [Graph.children, Node.children, kind] at operands
  cases operands with
  | @cons _ y _ _ atY rest =>
      cases rest
      have inferred := congrArg Prod.fst sound.inferred
      rw [Graph.infer.eq_def] at inferred
      simp only [kind, Node.children, NodeKind.children, List.map_cons,
        List.headD_cons, atY.type] at inferred
      have made := picks.made
      rw [Node.lanes?_unary kind] at made
      obtain rfl := Option.some.inj made
      have width : y.type.width = (s.graph.type v).width := by
        rw [Graph.type, ← inferred]
        exact (DataType.width_of y.type.width_pos y.type.width_le_four).symm
      refine picks.runs_of_adds (.adds (TypedScope.makes_component atY
        (yields_operand picks.yields picks.isVector (.inr width))) fun part t later atPart => ?_)
      have converts := TypedScope.adds_conversion (P := supply α broad base)
        atPart (show (s.graph.register v).isKnown = true from sound.known)
        (fresh_of_kind rfl (.inr (.inr ⟨_, rfl⟩)))
      simp only [VectorValue.lane_part] at converts
      exact converts

/-- What works component by component is applied to the components of its operands. -/
theorem runs_componentwise {own : NodeKind} {edit : Edit NodeId}
    (kind : (s.graph.node v).kind = own) (componentwise : own.isComponentwise = true)
    (rebuild : List NodeId → NodeKind) (rebuilds : ∀ parts, parts.length = own.children.length →
      (rebuild parts).outline = own.outline ∧ (rebuild parts).children = parts)
    (same : edit s.graph
      = (componentsAt c own.children >>= fun parts =>
        Edit.add (·.pushDeduced (rebuild parts))) s.graph)
    : Advances s id edit := by
  have operands := picks.operands
  rw [Graph.children, Node.children, kind] at operands
  refine .congr same (picks.runs_of_adds (.adds (builds_componentsAt operands fun x =>
    picks.yields_of_mem kind componentwise) fun parts t later atParts => ?_))
  have count : parts.length = own.children.length := by
    rw [atParts.length_eq, List.length_map]
    exact operands.length_eq.symm
  obtain ⟨outline, children⟩ := rebuilds parts count
  exact adds_componentwise (rebuild parts) picks.vectorLive (kind ▸ componentwise) picks.operands
    picks.made later (kind ▸ outline) (children.symm ▸ atParts)

theorem runs_unary {op : UnaryOp} (kind : (s.graph.node v).kind = .unary op operand)
    (componentwise : (NodeKind.unary op operand).isComponentwise = true)
    : Advances s id (Edit.component operand c >>= fun part => Edit.unary op part) := by
  refine picks.runs_componentwise kind componentwise (fun parts => .unary op (parts.getD 0 0))
    (fun parts count => ?_) rfl
  obtain ⟨part, rfl⟩ := List.length_eq_one_iff.mp count
  exact ⟨rfl, rfl⟩

theorem runs_binary {op : BinaryOp} (kind : (s.graph.node v).kind = .binary op left right)
    (componentwise : (NodeKind.binary op left right).isComponentwise = true)
    : Advances s id (do Edit.binary op (← Edit.component left c) (← Edit.component right c)) := by
  refine picks.runs_componentwise kind componentwise
    (fun parts => .binary op (parts.getD 0 0) (parts.getD 1 0)) (fun parts count => ?_) rfl
  obtain ⟨first, second, rfl⟩ := List.length_eq_two.mp count
  exact ⟨rfl, rfl⟩

theorem runs_ternary {op : TernaryOp}
    (kind : (s.graph.node v).kind = .ternary op first second third)
    : Advances s id (do
        Edit.ternary op (← Edit.component first c) (← Edit.component second c)
          (← Edit.component third c)) := by
  refine picks.runs_componentwise kind rfl
    (fun parts => .ternary op (parts.getD 0 0) (parts.getD 1 0) (parts.getD 2 0))
    (fun parts count => ?_) rfl
  obtain ⟨first, second, third, rfl⟩ := List.length_eq_three.mp count
  exact ⟨rfl, rfl⟩

theorem runs_call {candidates : List FunctionSig}
    (kind : (s.graph.node v).kind = .call candidates arguments)
    : Advances s id (do Edit.call candidates (← componentsAt c arguments)) := by
  refine picks.runs_componentwise kind rfl (.call candidates) (fun parts count => ⟨?_, rfl⟩) rfl
  rw [NodeKind.children] at count
  simp only [NodeKind.outline, List.map_const', count]

/-- Constants and inputs are scalars by now, and outputs are no operands. -/
theorem isAssembled (isValue : s.graph.isOutput v = false) {own : NodeKind}
    (kind : (s.graph.node v).kind = own)
    : match own with
      | .constant _ | .input _ | .output _ _ => False
      | _ => True := by
  have isVector := picks.isVector
  cases own with
  | constant value =>
      have inferred := congrArg Prod.fst (s.sound picks.vectorLive).inferred
      rw [Graph.infer.eq_def] at inferred
      simp only [kind] at inferred
      rw [Graph.type, ← inferred] at isVector
      cases isVector
  | input decl =>
      have narrow : (s.graph.shape v).isNarrow = true := (s.allowed picks.vectorLive).1.2.2.2
      rw [Shape.isNarrow, Graph.shape, Graph.shapeOf, Node.outline, kind] at narrow
      rw [Graph.type] at isVector
      simp [isVector, NodeKind.outline] at narrow
  | output decl e =>
      rw [Graph.isOutput, Node.isOutput, kind] at isValue
      cases isValue
  | _ => trivial

end Picks

/-- A selection of one component is replaced by what the vector is made of. -/
theorem runs_extract {chosen : Selection} (isLive : s.live id)
    (kind : (s.graph.node id).kind = .swizzle v chosen) (single : chosen.count = 1)
    : Advances s id (extract id v (chosen.lane 0)) := by
  have busy : (s.graph.node id).isSettled = false := by simp [Node.isSettled, kind, single]
  obtain ⟨x, vectorLive, isValue, below, value, yields, hasValue⟩ := selects_part isLive kind single
  have type : x.type = s.graph.type v := Valuation.type_of_value vectorLive value
  rw [Advances, TypedScope.Advances, extract, TypedScope.runs_read]
  cases isVector : (s.graph.type v).isVector with
  | false =>
      rw [VectorValue.part_of_scalar (type ▸ isVector)] at hasValue
      have replaces : s.Replaces id v :=
        ⟨⟨isLive, vectorLive, le_of_lt below, fun found =>
          .of_eq (by rw [value, ← hasValue, found])⟩,
          fun _ => isValue, fun stays => (not_stays busy stays).elim⟩
      rw [Graph.type] at isVector
      rw [isVector]
      exact .pure (.moves ⟨replaces, .refl⟩ vectorLive (fun same => lt_irrefl _ (same ▸ below))
        (TypedScope.weight_lt .refl vectorLive below))
  | true =>
      obtain ⟨xs, lanes, picks⟩ := exists_picks isLive kind single isVector
      rw [show (s.graph.node v).type.isVector = true from isVector]
      cases own : (s.graph.node v).kind with
      | constant value => exact (picks.isAssembled isValue own).elim
      | input decl => exact (picks.isAssembled isValue own).elim
      | output decl e => exact (picks.isAssembled isValue own).elim
      | construct arguments => exact picks.runs_construct own
      | swizzle operand picked => exact picks.runs_swizzle own
      | unary op operand =>
          have plain := isVectorOp_unary vectorLive isVector own
          cases op with
          | length | normalize | all | any => cases plain
          | typeConversion => exact picks.runs_conversion own
          | _ => exact picks.runs_unary own rfl
      | binary op left right =>
          have plain := isVectorOp_binary vectorLive isVector own
          simp only [plain, Bool.not_true, Bool.false_eq_true, if_false]
          exact picks.runs_binary own (by simpa [NodeKind.isComponentwise] using plain)
      | ternary op first second third => exact picks.runs_ternary own
      | call candidates arguments => exact picks.runs_call own

/-- One replacement leaves a settled node alone, leads further down or ends with a settled node. -/
theorem runs_scalarizeOnce (isLive : s.live id)
    : Advances s id (scalarizeOnce id) := by
  have sound := s.sound isLive
  have plain : (s.graph.shape id).isPlain = true := (s.allowed isLive).1.2.2.1
  rcases scalarizeOnce_or_busy s.graph id with ⟨settled, fixed⟩ | ⟨busy, found⟩
  · exact .of_ok (t := s) fixed (.refl _)
      (.stays ⟨.refl isLive, (s.graph.isSettled_shape id).trans settled, .refl⟩)
  rw [Advances, TypedScope.Advances, scalarizeOnce, TypedScope.runs_read]
  cases found with
  | select kind single =>
      rw [kind]
      simp only
      rw [if_pos single]
      exact runs_extract isLive kind single
  | @reduction op v kind reduces =>
      obtain ⟨x, atX, hasValue⟩ := TypedScope.computes_unary isLive kind
      rw [Shape.isPlain, Graph.shape, Graph.shapeOf, Node.outline, Node.children, kind] at plain
      have isVector : (s.graph.type v).isVector = true := by
        rcases reduces with rfl | rfl <;> exact (Bool.or_false _).symm.trans plain
      have classes : (s.graph.type v).register = .bool ∧ (s.graph.node id).type = .of .bool 1 := by
        rcases reduces with rfl | rfl
        · exact sound.type_unary kind (by decide) rfl
        · exact sound.type_unary kind (by decide) rfl
      rw [atX.type] at classes
      -- All reductions combine the components from left to right, by their own operator.
      have reduction {combine : BinaryOp} (componentwise : combine.isVectorOp = false)
          (selects : Signature.Selects combine.signatures [.bool, .bool] 0 .bool)
          (lane : M.unaryLane op (s.graph.register id) x
            = fun _ => M.nested combine x.type.register x.lane x.type.width) :
          Advances s id (reduce combine v) := by
        refine (adds_reduce componentwise selects classes.1 (atX.type ▸ isVector) atX).advances
          (rule α broad base) isLive (hasValue.trans ?_) (not_stays busy)
        rw [Graph.type, classes.2, lane, classes.1]
        rfl
      rw [kind]
      rcases reduces with rfl | rfl
      · simp only
        rw [TypedScope.runs_read, if_pos isVector]
        exact reduction rfl ⟨rfl, rfl⟩ rfl
      · simp only
        rw [TypedScope.runs_read, if_pos isVector]
        exact reduction rfl ⟨rfl, rfl⟩ rfl
  | dot kind =>
      obtain ⟨x, y, atX, atY, hasValue⟩ := TypedScope.computes_binary isLive kind
      obtain ⟨first, second, either, ⟨width, broadcasts⟩, type⟩ := sound.type_dot kind
      rw [atX.type] at first broadcasts
      rw [atY.type] at second broadcasts
      have selects : ∃ i, Signature.Selects BinaryOp.multiply.signatures
            [(s.graph.node id).register, (s.graph.node id).register] i (s.graph.node id).register
          ∧ Signature.Selects BinaryOp.add.signatures
            [(s.graph.node id).register, (s.graph.node id).register] i
            (s.graph.node id).register := by
        rcases either with isFloat | isInt
        · rw [isFloat]
          exact ⟨0, ⟨rfl, rfl⟩, ⟨rfl, rfl⟩⟩
        · rw [isInt]
          exact ⟨1, ⟨rfl, rfl⟩, ⟨rfl, rfl⟩⟩
      obtain ⟨i, multiplies, sums⟩ := selects
      rw [kind]
      refine (adds_dot multiplies sums first second broadcasts atX atY).advances (rule α broad base)
        isLive (hasValue.trans ?_) (not_stays busy)
      rw [Graph.type, type]
      rfl

end Scalarization

/-- Components of vectors can be replaced by scalars in a typed graph without vector streams. What
is left over is typed and delivers the same. -/
theorem scalarize_follows {g : Graph} (conforms : g.Conforms (.narrow α broad))
    : ∃ h, Edit.pass .preOrder Scalarization.step g = .ok () h
        ∧ h.Conforms (.settled α broad)
        ∧ g.Follows M streams h := by
  exact TypedScope.settle_follows conforms (Scalarization.rule α broad g.size)
    Scalarization.runs_scalarizeOnce (fun inside allowed =>
    ⟨allowed, fun isNew => absurd inside (Nat.not_lt.mpr isNew)⟩)
    fun allowed settled => ⟨allowed.1, settled⟩

end StreamExpr
