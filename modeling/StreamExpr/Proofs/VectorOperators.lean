import StreamExpr.Compiler
import StreamExpr.Proofs.TypedReplacement

/-! Replacement of the operators on vectors keeps types and values.
A replacement is put together once for each node and is plain, so the pass never comes back to it.
-/

namespace StreamExpr

variable {α : Type} {M : ScalarModel α} {streams : StreamDecl → Nat → α} {broad : Prop} {base : Nat}

/-! ## What is left over -/

/-- Operators that exist on vectors only are gone, other than reductions of vectors. -/
def Shape.isPlain (s : Shape) : Bool :=
  match s.node.kind with
  | .unary .length _ | .unary .normalize _ | .binary .cross _ _ => false
  | .unary .all _ | .unary .any _ | .binary .dot _ _ => s.operands.any DataType.isVector
  | _ => true

theorem Shape.isPlain_of_isOutput {s : Shape} (isOutput : s.node.isOutput = true)
    : s.isPlain = true := by
  obtain ⟨⟨kind, _, _⟩, _⟩ := s
  cases kind <;> first | rfl | cases isOutput

/-- What is left over once operators on vectors are replaced. -/
def Dialect.plain (α : Type) (broad : Prop) : Dialect α where
  Allows _ s := s.Within α ∧ (broad → s.Broad) ∧ s.isPlain = true
  within allowed := allowed.1

/-- A component that a vector has can be selected. -/
theorem DataType.Yields.within_selection {t : DataType} {c : Nat} (yields : t.Yields α c)
    (isVector : t.isVector = true)
    : (t.selection c).Within α := by
  intro chosen found u member place inside
  obtain rfl : Selection.ofList [c] = chosen := Option.some.inj found
  obtain rfl : u = t := List.mem_singleton.mp member
  obtain rfl : place = 0 := Nat.lt_one_iff.mp inside
  have lane : (Selection.ofList [c]).lane 0 = c := by
    rw [Selection.lane_ofList]
    exact Nat.min_eq_left (Nat.le_of_lt_succ (yields.lt_four isVector))
  rw [lane]
  exact yields

/-! ## Types of operators on vectors -/

namespace Graph

variable {g : Graph} {n : Node}

/-- An operator of one operand that has a single overload has its class. -/
theorem Sound.type_unary {op : UnaryOp} {x : NodeId} {r : RegisterClass} (sound : g.Sound n)
    (kind : n.kind = .unary op x) (proper : op ≠ .typeConversion)
    (table : op.signatures = [⟨r, [r]⟩])
    : (g.type x).register = r
      ∧ n.type = .of r (if op.isReduction then 1 else (g.type x).width) := by
  have found : n.kind.signatures? = some op.signatures := by
    rw [kind]
    exact if_neg proper
  obtain ⟨i, _, selects⟩ := sound.selects found
  have entry := selects.entry
  rw [table, Node.children, kind] at entry
  have same : (⟨r, [r]⟩ : Signature) = ⟨n.register, [g.register x]⟩ := by
    cases i with
    | zero => exact Option.some.inj entry
    | succ i => cases entry
  obtain ⟨own, operand⟩ := Signature.mk.inj same
  obtain ⟨_, width, _, _, broad, _, type⟩ :=
    overloaded (NodeKind.overloads_of_signatures? found).1 sound.known sound.inferred
  rw [Node.children, kind] at broad
  obtain rfl := Option.some.inj broad
  exact ⟨(List.cons.inj operand).1.symm, own ▸ type⟩

theorem Sound.type_cross {x y : NodeId} (sound : g.Sound n) (kind : n.kind = .binary .cross x y)
    : (g.type x).register = .float
      ∧ (g.type y).register = .float
      ∧ DataType.broadcastWidth? [g.type x, g.type y] = some 3
      ∧ n.type = .of .float 3 := by
  have uniform := sound.uniform (r := .float) (by rw [Node.uniform?, kind])
  rw [Node.children, kind] at uniform
  have first := uniform _ (.head _)
  have second := uniform _ (.tail _ (.head _))
  obtain ⟨i, width, overload, _, broad, register, type⟩ :=
    overloaded (by rw [kind]; rfl) sound.known sound.inferred
  have zero : n.overload = some 0 := sound.overload_eq_zero (by rw [kind]; rfl) (by rw [kind]; rfl)
  obtain rfl := Option.some.inj (overload.symm.trans zero)
  rw [Node.children, kind] at broad
  obtain ⟨common, wide⟩ := Option.filter_eq_some_iff.mp broad
  obtain rfl : width = 3 := of_decide_eq_true wide
  rw [register, kind] at type
  exact ⟨first, second, common, type⟩

theorem Sound.type_dot {x y : NodeId} (sound : g.Sound n) (kind : n.kind = .binary .dot x y)
    : (g.type x).register = n.register
      ∧ (g.type y).register = n.register
      ∧ (n.register = .float ∨ n.register = .int)
      ∧ (∃ width, DataType.broadcastWidth? [g.type x, g.type y] = some width)
      ∧ n.type = .scalarOf n.register := by
  obtain ⟨i, _, selects⟩ := sound.selects (by rw [kind]; rfl)
  have entry := selects.entry
  rw [Node.children, kind] at entry
  have classes : [n.register, n.register] = [g.register x, g.register y]
      ∧ (n.register = .float ∨ n.register = .int) := by
    rcases i with _ | _ | i
    · obtain ⟨own, operands⟩ := Signature.mk.inj (Option.some.inj entry)
      rw [← own]
      exact ⟨operands, .inl rfl⟩
    · obtain ⟨own, operands⟩ := Signature.mk.inj (Option.some.inj entry)
      rw [← own]
      exact ⟨operands, .inr rfl⟩
    · cases entry
  obtain ⟨operands, either⟩ := classes
  obtain ⟨first, rest⟩ := List.cons.inj operands
  obtain ⟨second, _⟩ := List.cons.inj rest
  obtain ⟨_, _, _, _, broad, _, type⟩ := overloaded (by rw [kind]; rfl) sound.known sound.inferred
  rw [Node.children, kind] at broad
  obtain ⟨width, common, rfl⟩ := Option.map_eq_some_iff.mp broad
  exact ⟨first.symm, second.symm, either, ⟨width, common⟩, type⟩

end Graph

namespace VectorOperators

/-! ## The stage -/

/-- Nodes that were there before are as type deduction leaves them, new ones are plain. -/
def stage (α : Type) (broad : Prop) (base : Nat) : Stage α where
  toDialect := (Dialect.typed α broad).since base (.plain α broad)
  Stays s := s.isPlain = true

def supply (α : Type) (broad : Prop) (base : Nat) : Supply (stage α broad base) where
  Accepts s := s.isPlain = true ∧ s.node.selection? = none ∧ (broad → s.Broad)
    ∧ ∀ decl, s.node.kind ≠ .input decl
  Splits _ := True
  allowed {s} accepted _ := by
    have within : s.Within α := fun found => by cases accepted.2.1.symm.trans found
    exact ⟨⟨within, accepted.2.2.1⟩, fun _ => ⟨within, accepted.2.2.1, accepted.1⟩⟩
  proper accepted := accepted.2.2.2 _
  selects isVector _ yields _ :=
    ⟨⟨yields.within_selection isVector, fun _ => nofun⟩,
      fun _ => ⟨yields.within_selection isVector, fun _ => nofun, rfl⟩⟩
  splits _ _ := trivial

variable {s t : TypedScope M streams (stage α broad base)} {bound : ℚ} {id v a b : NodeId}
  {x y : VectorValue α}

theorem accepts_unary {op : UnaryOp} {type : DataType} {overload : Option Nat}
    {operands : List DataType} (plain : Shape.isPlain ⟨⟨.unary op 0, type, overload⟩, operands⟩
    = true)
    : (supply α broad base).Accepts ⟨⟨.unary op 0, type, overload⟩, operands⟩ :=
  ⟨plain, rfl, fun _ _ kind => (by cases kind), fun _ kind => (by cases kind)⟩

theorem accepts_binary {op : BinaryOp} {type : DataType} {overload : Option Nat}
    {operands : List DataType} (plain : Shape.isPlain ⟨⟨.binary op 0 0, type, overload⟩, operands⟩
    = true)
    : (supply α broad base).Accepts ⟨⟨.binary op 0 0, type, overload⟩, operands⟩ :=
  ⟨plain, rfl, fun _ _ kind => (by cases kind), fun _ kind => (by cases kind)⟩

/-! ## Replacements -/

theorem adds_length (atX : s.Computes bound v x) (isFloat : x.type.register = .float)
    (isVector : x.type.isVector = true)
    : s.Adds (supply α broad base) (length v) bound
        (.of (.scalarOf .float) fun _ => M.unary .sqrt .float (M.dot x x)) := by
  have width : DataType.broadcastWidth? [x.type, x.type] = some x.type.width := by
    simp only [DataType.broadcastWidth?, DataType.broadcastWidth?.go]
    split <;> simp_all
  have dots := TypedScope.adds_dot (P := supply α broad base) (i := 0) (r := .float) atX atX
    (by rw [isFloat]; exact ⟨rfl, rfl⟩) width rfl
    (accepts_binary (by simp [Shape.isPlain, isVector]))
  refine .adds dots.makes fun dot t later atDot => ?_
  have value : (VectorValue.of (.of .float 1) fun c =>
      M.unary .sqrt .float ((VectorValue.of (.scalarOf .float) fun _ => M.dot x x).lane c))
      = .of (.scalarOf .float) fun _ => M.unary .sqrt .float (M.dot x x) :=
    congrArg (VectorValue.of _) (funext fun c => by rw [VectorValue.lane_of_scalar])
  rw [← value]
  exact TypedScope.adds_unary atDot rfl (i := 0) ⟨rfl, rfl⟩ rfl (accepts_unary rfl)

/-- The magnitude of a float vector or scalar can be added. -/
theorem adds_magnitude (atX : s.Computes bound v x) (isFloat : x.type.register = .float)
    : s.Adds (supply α broad base) (magnitude v) bound
        (.of (.scalarOf .float) fun _ => M.magnitude x) := by
  rw [magnitude]
  show s.Builds _ (Edit.read _ >>= _) _
  rw [TypedScope.builds_read, atX.type]
  cases isVector : x.type.isVector with
  | true =>
      have wide : x.type.width ≠ 1 := by
        simp only [DataType.isVector, decide_eq_true_eq] at isVector
        omega
      rw [if_neg wide]
      have value : M.magnitude x = M.unary .sqrt .float (M.dot x x) := by
        rw [ScalarModel.magnitude, if_pos isVector, isFloat]
      rw [value]
      exact adds_length atX isFloat isVector
  | false =>
      have narrow := DataType.width_eq_one isVector
      rw [if_pos narrow]
      have adds := TypedScope.adds_unary (P := supply α broad base) (r := .float) (i := 0)
        atX (show (NodeKind.unary .absolute _).isComponentwise = true from rfl)
        (by rw [isFloat]; exact ⟨rfl, rfl⟩) rfl (accepts_unary rfl)
      have value : (VectorValue.of (.of .float x.type.width) fun c =>
          M.unary .absolute x.type.register (x.lane c))
          = .of (.scalarOf .float) fun _ => M.magnitude x := by
        rw [narrow]
        refine congrArg (VectorValue.of _) (funext fun c => ?_)
        rw [ScalarModel.magnitude, isVector, VectorValue.lane_eq_of_scalar isVector c]
        rfl
      rw [value] at adds
      exact adds

theorem adds_normalized (atX : s.Computes bound v x) (isFloat : x.type.register = .float)
    : s.Adds (supply α broad base) (magnitude v >>= fun length =>
      Edit.binary .divide v length) bound
        (.of x.type fun c => M.binary .divide .float (x.lane c) (M.magnitude x)) := by
  refine .adds (adds_magnitude atX isFloat).makes fun length t later atLength => ?_
  have atOperand := atX.later later
  have adds := TypedScope.adds_binary (P := supply α broad base) (r := .float) (i := 0)
    atOperand atLength (show BinaryOp.divide.isVectorOp = false from rfl)
    (by rw [isFloat]; exact ⟨rfl, rfl⟩) (DataType.broadcastWidth?_scalar_right rfl) rfl
    (accepts_binary rfl)
  have value : (VectorValue.of (.of .float x.type.width) fun c => M.binary .divide .float (x.lane c)
      ((VectorValue.of (.scalarOf .float) fun _ => M.magnitude x).lane c))
      = .of x.type fun c => M.binary .divide .float (x.lane c) (M.magnitude x) := by
    rw [← isFloat, DataType.of_width]
    exact congrArg (VectorValue.of _) (funext fun c => by rw [VectorValue.lane_of_scalar])
  exact value ▸ adds

theorem adds_minor {i j : Nat} (atX : s.Computes bound a x) (atY : s.Computes bound b y)
    (isFloatX : x.type.register = .float) (isFloatY : y.type.register = .float)
    (yieldsX : ∀ c < 3, x.type.Yields α c) (yieldsY : ∀ c < 3, y.type.Yields α c)
    (insideI : i < 3) (insideJ : j < 3)
    : s.Adds (supply α broad base) (minor a b i j) bound
        (.of (.scalarOf .float) fun _ => M.minor x y i j) := by
  have part {z : VectorValue α} (isFloat : z.type.register = .float) (c : Nat) :
      z.part c = .of (.scalarOf .float) fun _ => z.lane c := by
    rw [VectorValue.part, DataType.scalar, isFloat]
  have multiplies : Signature.Selects BinaryOp.multiply.signatures
    [.float, .float] 0 .float := ⟨rfl, rfl⟩
  have subtracts : Signature.Selects BinaryOp.subtract.signatures
    [.float, .float] 0 .float := ⟨rfl, rfl⟩
  rw [ScalarModel.minor, isFloatY, minor]
  refine .adds (TypedScope.makes_component atX (yieldsX i insideI)) fun xi t1 later1 atXi => ?_
  refine .adds (TypedScope.makes_component (atY.later later1) (yieldsY j insideJ))
    fun yj t2 later2 atYj => ?_
  have till2 := later1.trans later2
  refine .adds (TypedScope.makes_component (atX.later till2) (yieldsX j insideJ))
    fun xj t3 later3 atXj => ?_
  refine .adds (TypedScope.makes_component (atY.later (till2.trans later3)) (yieldsY i insideI))
    fun yi t4 later4 atYi => ?_
  rw [part isFloatX] at atXi atXj
  rw [part isFloatY] at atYi atYj
  refine .adds (TypedScope.adds_scalars (P := supply α broad base) rfl multiplies rfl
    (atXi.later (later2.trans (later3.trans later4))) (atYj.later (later3.trans later4))
    (accepts_binary rfl)).makes fun left t5 later5 atLeft => ?_
  refine .adds (TypedScope.adds_scalars (P := supply α broad base) rfl multiplies rfl
    (atXj.later (later4.trans later5)) (atYi.later later5)
    (accepts_binary rfl)).makes fun right t6 later6 atRight => ?_
  exact TypedScope.adds_scalars rfl subtracts rfl (atLeft.later later6) atRight
    (accepts_binary rfl)

theorem adds_cross {type : DataType} (atX : s.Computes bound a x) (atY : s.Computes bound b y)
    (isFloatX : x.type.register = .float) (isFloatY : y.type.register = .float)
    (width : DataType.broadcastWidth? [x.type, y.type] = some 3) (own : type = .of .float 3)
    : s.Adds (supply α broad base) (cross a b type) bound (.of type (M.binaryLane .cross x y)) := by
  have yields {z : VectorValue α} (member : z.type ∈ [x.type, y.type]) (c : Nat) (inside : c < 3) :
      z.type.Yields α c := by
    rcases DataType.width_of_broadcastWidth? width z.type member with narrow | wide
    · exact .inl (.inr (by simp [DataType.isVector, narrow]))
    · exact .inl (.inl (wide ▸ inside))
  have yieldsX := yields (z := x) (.head _)
  have yieldsY := yields (z := y) (.tail _ (.head _))
  subst own
  refine .adds (adds_minor atX atY isFloatX isFloatY yieldsX yieldsY (by decide) (by decide)).makes
    fun p t1 later1 atP => ?_
  refine .adds (adds_minor (atX.later later1) (atY.later later1) isFloatX isFloatY yieldsX yieldsY
    (by decide) (by decide)).makes fun q t2 later2 atQ => ?_
  have till2 := later1.trans later2
  refine .adds (adds_minor (atX.later till2) (atY.later till2) isFloatX isFloatY yieldsX yieldsY
    (by decide) (by decide)).makes fun r t3 later3 atR => ?_
  have adds := TypedScope.adds_construct (P := supply α broad base)
    (.cons (atP.later (later2.trans later3)) (.cons (atQ.later later3) (.cons atR .nil)))
    (show (DataType.of .float 3).isKnown = true from rfl)
    (by simp [VectorValue.of, DataType.scalarOf, DataType.of])
    ⟨rfl, rfl, fun _ _ _ => rfl, fun _ kind => (by cases kind)⟩
  have value : VectorValue.of (.of .float 3) (M.constructLane .float
      [.of (.scalarOf .float) fun _ => M.minor x y 1 2,
        .of (.scalarOf .float) fun _ => M.minor x y 2 0,
        .of (.scalarOf .float) fun _ => M.minor x y 0 1])
      = .of (.of .float 3) (M.binaryLane .cross x y) := by
    refine VectorValue.of_congr fun c inside => ?_
    obtain rfl | rfl | rfl : c = 0 ∨ c = 1 ∨ c = 2 := by
      change c < 3 at inside
      omega
    all_goals rfl
  exact value ▸ adds

/-! ## One step -/

/-- What is not plain. -/
inductive Busy (g : Graph) (id : NodeId) : Prop
  | length {v : NodeId} (kind : (g.node id).kind = .unary .length v)
  | normalize {v : NodeId} (kind : (g.node id).kind = .unary .normalize v)
  | reduction {op : UnaryOp} {v : NodeId} (kind : (g.node id).kind = .unary op v)
    (reduces : op = .all ∨ op = .any) (narrow : (g.type v).width = 1)
  | dot {a b : NodeId} (kind : (g.node id).kind = .binary .dot a b)
    (left : (g.type a).isVector = false) (right : (g.type b).isVector = false)
  | cross {a b : NodeId} (kind : (g.node id).kind = .binary .cross a b)

/-- A node is left as it is, or it is one of a few that are replaced. -/
theorem replaceOnce_or_busy (g : Graph) (id : NodeId)
    : (g.shape id).isPlain = true ∧ replaceOnce id g = .ok id g
      ∨ (g.shape id).isPlain = false ∧ Busy g id := by
  have shape : (g.shape id).isPlain
      = Shape.isPlain ⟨⟨(g.node id).kind.outline, (g.node id).type, (g.node id).overload⟩,
          (g.node id).kind.children.map g.type⟩ := rfl
  have reduction {op : UnaryOp} {v : NodeId} (kind : (g.node id).kind = .unary op v)
      (reduces : op = .all ∨ op = .any)
      (plain : (g.shape id).isPlain = (g.type v).isVector)
      (step : replaceOnce id g = (if (g.type v).width = 1 then pure v else pure id : Edit NodeId) g)
      : (g.shape id).isPlain = true ∧ replaceOnce id g = .ok id g
        ∨ (g.shape id).isPlain = false ∧ Busy g id := by
    cases isVector : (g.type v).isVector with
    | false =>
        exact .inr ⟨plain.trans isVector, .reduction kind reduces (DataType.width_eq_one isVector)⟩
    | true =>
        refine .inl ⟨plain.trans isVector, ?_⟩
        simp only [DataType.isVector, decide_eq_true_eq] at isVector
        rw [step, if_neg (by omega)]
        rfl
  cases kind : (g.node id).kind with
  | unary op v =>
      cases op with
      | length => exact .inr ⟨by rw [shape, kind]; rfl, .length kind⟩
      | normalize => exact .inr ⟨by rw [shape, kind]; rfl, .normalize kind⟩
      | all | any =>
          refine reduction kind (by simp) ?_ ?_
          · rw [shape, kind]
            exact Bool.or_false _
          · rw [replaceOnce, Edit.read_bind, kind]
            rfl
      | _ => exact .inl ⟨by rw [shape, kind]; rfl, by rw [replaceOnce, Edit.read_bind, kind]; rfl⟩
  | binary op a b =>
      cases op with
      | cross => exact .inr ⟨by rw [shape, kind]; rfl, .cross kind⟩
      | dot =>
          have plain : (g.shape id).isPlain = ((g.type a).isVector || (g.type b).isVector) := by
            rw [shape, kind]
            exact congrArg ((g.type a).isVector || ·) (Bool.or_false _)
          cases either : (g.type a).isVector || (g.type b).isVector with
          | false =>
              obtain ⟨left, right⟩ := Bool.or_eq_false_iff.mp either
              exact .inr ⟨plain.trans either, .dot kind left right⟩
          | true =>
              refine .inl ⟨plain.trans either, ?_⟩
              rw [replaceOnce, Edit.read_bind, kind]
              simp only
              rw [Edit.read_bind, if_pos either]
              rfl
      | _ => exact .inl ⟨by rw [shape, kind]; rfl, by rw [replaceOnce, Edit.read_bind, kind]; rfl⟩
  | _ => exact .inl ⟨by rw [shape, kind]; rfl, by rw [replaceOnce, Edit.read_bind, kind]; rfl⟩

theorem replaceOnce_of_plain {g : Graph} (plain : (g.shape id).isPlain = true)
    : replaceOnce id g = .ok id g := by
  rcases replaceOnce_or_busy g id with found | busy
  · exact found.2
  · cases plain.symm.trans busy.1

/-- Nodes are replaced by plain ones, and selections are plain. -/
def rule (α : Type) (broad : Prop) (base : Nat) : (supply α broad base).Rule replaceOnce where
  unasked _ := 0
  same _ := rfl
  output := Shape.isPlain_of_isOutput
  fixed := replaceOnce_of_plain
  accepted := And.left
  select _ _ _ := .inr ⟨rfl, rfl⟩

/-- A reduction of a scalar is replaced by its operand. -/
theorem replaces_operand {op : UnaryOp} (isLive : s.live id)
    (busy : ¬ (s.graph.shape id).isPlain = true) (kind : (s.graph.node id).kind = .unary op v)
    (reduces : op = .all ∨ op = .any) (narrow : (s.graph.type v).width = 1)
    : s.Replaces id v ∧ s.rank v < s.rank id := by
  obtain ⟨isBool, type⟩ : (s.graph.type v).register = .bool
    ∧ (s.graph.node id).type = .of .bool 1 := by
    rcases reduces with rfl | rfl
    · exact (s.sound isLive).type_unary kind (by decide) rfl
    · exact (s.sound isLive).type_unary kind (by decide) rfl
  obtain ⟨xs, lanes, operands, made, hasValue⟩ := s.exists_operands isLive
  rw [Graph.children, Node.children, kind] at operands
  cases operands with
  | @cons _ x _ _ computed rest =>
      cases rest
      obtain ⟨operandLive, isValue, below, value⟩ := computed
      have own : x.type = s.graph.type v := Valuation.type_of_value operandLive value
      have scalar : x.type = .of .bool 1 := own.trans (DataType.ext isBool narrow)
      rw [Node.lanes?_unary kind] at made
      obtain rfl := Option.some.inj made
      refine ⟨⟨⟨isLive, operandLive, le_of_lt below, fun found => .of_eq ?_⟩, fun _ => isValue,
        fun plain =>
        (busy plain).elim⟩, below⟩
      rw [value, ← found, hasValue]
      refine congrArg some (VectorValue.ext_lane (scalar.trans type.symm) fun c inside => ?_)
      obtain rfl : c = 0 := by
        rw [scalar] at inside
        exact Nat.lt_one_iff.mp inside
      have lane : M.unaryLane op (s.graph.node id).register x 0 = x.lane 0 := by
        rcases reduces with rfl | rfl <;> rw [ScalarModel.unaryLane, ScalarModel.nested, scalar] <;>
          rfl
      rw [VectorValue.lane_of _ (DataType.width_pos _), lane]

/-- One replacement leaves a plain node alone, leads to an operand or ends with a plain node. -/
theorem runs_replaceOnce (isLive : s.live id)
    : TypedScope.Advances (supply α broad base) replaceOnce s id (replaceOnce id) := by
  have sound := s.sound isLive
  have rule := rule α broad base
  rcases replaceOnce_or_busy s.graph id with ⟨plain, fixed⟩ | ⟨notPlain, busy⟩
  · exact .of_ok (t := s) fixed (.refl _) (.stays ⟨.refl isLive, plain, .refl⟩)
  have notPlain : ¬ (s.graph.shape id).isPlain = true := by simp [notPlain]
  rw [TypedScope.Advances, replaceOnce, TypedScope.runs_read]
  cases busy with
  | length kind =>
      obtain ⟨x, atX, hasValue⟩ := TypedScope.computes_unary isLive kind
      obtain ⟨isFloat, type⟩ := sound.type_unary kind (by decide) rfl
      rw [kind]
      refine (adds_magnitude atX (atX.type ▸ isFloat)).advances rule isLive
        (hasValue.trans ?_) notPlain
      rw [Graph.type, type]
      rfl
  | @normalize v kind =>
      obtain ⟨x, atX, hasValue⟩ := TypedScope.computes_unary isLive kind
      obtain ⟨isFloat, type⟩ := sound.type_unary kind (by decide) rfl
      have isFloat : x.type.register = .float := atX.type ▸ isFloat
      have own : s.graph.type id = x.type := by
        rw [Graph.type, type, atX.type, ← isFloat]
        exact DataType.of_width x.type
      rw [kind]
      refine (adds_normalized atX isFloat).advances rule isLive (hasValue.trans ?_) notPlain
      rw [own, ← isFloat]
      rfl
  | @reduction op v kind reduces narrow =>
      obtain ⟨replaces, below⟩ := replaces_operand isLive notPlain kind reduces narrow
      -- Nothing is added: the operand takes the place of the node, and is looked at in turn.
      have moves : (TypedScope.settling (supply α broad base)).Advances replaceOnce s id v s :=
        .moves ⟨replaces, .refl⟩ replaces.newLive (fun same => lt_irrefl _ (same ▸ below))
          (TypedScope.weight_lt .refl replaces.newLive below)
      rw [kind]
      rcases reduces with rfl | rfl
      · simp only
        rw [TypedScope.runs_read, if_pos narrow]
        exact .pure moves
      · simp only
        rw [TypedScope.runs_read, if_pos narrow]
        exact .pure moves
  | dot kind left right =>
      obtain ⟨x, y, atX, atY, hasValue⟩ := TypedScope.computes_binary isLive kind
      obtain ⟨first, second, either, _, type⟩ := sound.type_dot kind
      rw [kind]
      simp only
      rw [TypedScope.runs_read, left, right]
      rw [atX.type] at first left
      rw [atY.type] at second right
      -- Dot products are taken of floats and of integers, and both have products.
      have selects : ∃ i, Signature.Selects BinaryOp.multiply.signatures
          [x.type.register, y.type.register] i (s.graph.node id).register := by
        rw [first, second]
        rcases either with isFloat | isInt
        · rw [isFloat]
          exact ⟨0, rfl, rfl⟩
        · rw [isInt]
          exact ⟨1, rfl, rfl⟩
      obtain ⟨i, selects⟩ := selects
      have widthX := DataType.width_eq_one left
      have widthY := DataType.width_eq_one right
      have adds := TypedScope.adds_binary (P := supply α broad base) atX atY
        (show BinaryOp.multiply.isVectorOp = false from rfl) selects
        (DataType.broadcastWidth?_scalar_right widthY) sound.known
        (accepts_binary rfl)
      refine adds.advances rule isLive (hasValue.trans ?_) notPlain
      rw [Graph.type, type, widthX]
      refine congrArg some (VectorValue.of_congr fun c inside => ?_)
      obtain rfl : c = 0 := Nat.lt_one_iff.mp inside
      rw [ScalarModel.binaryLane, ScalarModel.dot, ScalarModel.nested, widthX, widthY]
      rfl
  | cross kind =>
      obtain ⟨x, y, atX, atY, hasValue⟩ := TypedScope.computes_binary isLive kind
      obtain ⟨first, second, width, type⟩ := sound.type_cross kind
      rw [atX.type] at first width
      rw [atY.type] at second width
      have advances := (adds_cross atX atY first second width type).advances
        rule isLive hasValue notPlain
      rw [kind]
      exact advances

end VectorOperators

/-- Operators on vectors can be replaced in a typed graph. What is left over is typed and delivers
the same. -/
theorem vectorOperators_follows {g : Graph} (conforms : g.Conforms (.typed α broad))
    : ∃ h, Compiler.vectorOperators g = .ok () h
        ∧ h.Conforms (.plain α broad)
        ∧ g.Follows M streams h := by
  exact TypedScope.settle_follows conforms (VectorOperators.rule α broad g.size)
    VectorOperators.runs_replaceOnce (fun inside allowed =>
    ⟨allowed, fun isNew => absurd inside (Nat.not_lt.mpr isNew)⟩)
    fun allowed plain => ⟨allowed.1.1, allowed.1.2, plain⟩

end StreamExpr
