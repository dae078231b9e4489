import StreamExpr.Proofs.Completion
import StreamExpr.Proofs.FoldingStep
import StreamExpr.Proofs.ScalarMeaning

/-! Constant folding keeps values.
Every replacement has the value of what it replaces, by laws of the arithmetic that hold of each
single rule. Operands are folded in place, so a rule sees folded operands of the same values. In any
algebra the same laws, one for each rule, are all that the pass asks for.
-/

namespace StreamExpr

/-- What folding relies on in the arithmetic on single-precision numbers. A comparison by greater is
one by less with the operands exchanged in every arithmetic. -/
structure FloatOps.FoldingLaws (ops : FloatOps) : Prop where
  add_negativeZero : ∀ x, ops.add x .negativeZero = x
  subtract_zero : ∀ x, ops.subtract x .zero = x
  multiply_one : ∀ x, ops.multiply x .one = x
  divide_one : ∀ x, ops.divide x .one = x
  add_comm : ∀ x y, ops.add x y = ops.add y x
  multiply_comm : ∀ x y, ops.multiply x y = ops.multiply y x
  minimum_comm : ∀ x y, ops.minimum x y = ops.minimum y x
  maximum_comm : ∀ x y, ops.maximum x y = ops.maximum y x
  equal_comm : ∀ x y, ops.equal x y = ops.equal y x

namespace Folding

variable {ops : FloatOps}

/-! ## Rules on values -/

theorem evalFloat?_exchanged (laws : ops.FoldingLaws) {op exchanged : BinaryOp}
    (found : op.exchanged? = some exchanged) (x y : Binary32)
    : exchanged.evalFloat? ops y x = op.evalFloat? ops x y := by
  cases op <;> cases found <;>
    simp only [BinaryOp.evalFloat?, laws.add_comm y x, laws.multiply_comm y x,
      laws.minimum_comm y x, laws.maximum_comm y x, laws.equal_comm y x]

theorem evalInt?_exchanged {op exchanged : BinaryOp} (found : op.exchanged? = some exchanged)
    (m n : Int32)
    : exchanged.evalInt? n m = op.evalInt? m n := by
  have least : (if m < n then m else n) = if n < m then n else m := by
    simp only [Int32.lt_iff_toInt_lt]
    split <;> split
    · omega
    · rfl
    · rfl
    · exact Int32.toInt_inj.mp (by omega)
  have greatest : (if n < m then m else n) = if m < n then n else m := by
    simp only [Int32.lt_iff_toInt_lt]
    split <;> split
    · omega
    · rfl
    · rfl
    · exact Int32.toInt_inj.mp (by omega)
  cases op <;> cases found <;>
    simp only [BinaryOp.evalInt?, Int32.add_comm n m, Int32.mul_comm n m, Int32.and_comm n m,
      Int32.or_comm n m, Int32.xor_comm n m, least, greatest, eq_comm, ne_eq]

theorem evalBool?_exchanged {op exchanged : BinaryOp} (found : op.exchanged? = some exchanged)
    (a b : Bool)
    : exchanged.evalBool? b a = op.evalBool? a b := by
  cases op <;> cases found <;>
    simp only [BinaryOp.evalBool?, Bool.and_comm b a, Bool.or_comm b a, bne_comm, Bool.beq_comm]

/-- An operator means the same with its operands exchanged if it has a counterpart. -/
theorem eval?_exchanged {op exchanged : BinaryOp} (found : op.exchanged? = some exchanged)
    (x y : Value) (laws : x.register = .float → ops.FoldingLaws)
    : exchanged.eval? ops y x = op.eval? ops x y := by
  cases x with
  | bool a =>
      cases y with
      | bool b => exact evalBool?_exchanged found a b
      | int _ | float _ => rfl
  | int m =>
      cases y with
      | int n => exact evalInt?_exchanged found m n
      | bool _ | float _ => rfl
  | float x =>
      cases y with
      | float y => exact evalFloat?_exchanged (laws rfl) found x y
      | bool _ | int _ => rfl

/-- An outcome has a value, where a kept operand has the value of the left one. -/
def Outcome.Gives (x v : Value) : Outcome → Prop
  | .keep => True
  | .operand _ => v = x
  | .constant w => v = w

theorem simplify_float (laws : ops.FoldingLaws) {op : BinaryOp} {left : NodeId}
    {x constant : Binary32} {v : Value} (evaluates : op.evalFloat? ops x constant = some v)
    : (simplify op left (.float constant)).Gives (.float x) v := by
  cases op with
  | add =>
      obtain rfl := Option.some.inj evaluates
      simp only [simplify]
      split
      case isTrue neutral =>
        have same : constant = .negativeZero :=
          congrArg Binary32.mk (neutral.2.resolve_left fun impossible => (by cases impossible))
        exact congrArg Value.float (by rw [same, laws.add_negativeZero])
      case isFalse => trivial
  | subtract =>
      obtain rfl := Option.some.inj evaluates
      simp only [simplify]
      split
      case isTrue neutral =>
        have same : constant = .zero :=
          congrArg Binary32.mk (neutral.2.resolve_left fun impossible => (by cases impossible))
        exact congrArg Value.float (by rw [same, laws.subtract_zero])
      case isFalse => trivial
  | multiply =>
      obtain rfl := Option.some.inj evaluates
      simp only [simplify]
      split
      case isTrue neutral =>
        have same : constant = .one := of_decide_eq_true neutral
        exact congrArg Value.float (by rw [same, laws.multiply_one])
      case isFalse =>
        split
        case isTrue isInt =>
          cases isInt.1
        case isFalse => trivial
  | divide =>
      obtain rfl := Option.some.inj evaluates
      simp only [simplify]
      split
      case isTrue neutral =>
        have same : constant = .one := of_decide_eq_true neutral
        exact congrArg Value.float (by rw [same, laws.divide_one])
      case isFalse => trivial
  | bitshiftLeft | bitshiftRight | bitwiseAnd | bitwiseXor | bitwiseOr | logicalAnd | logicalOr =>
      cases evaluates
  | _ => trivial

/-- Zero and one are neutral to integer operators, exactly. -/
theorem simplify_int {op : BinaryOp} {left : NodeId} {m n : Int32} {v : Value}
    (evaluates : op.evalInt? m n = some v)
    : (simplify op left (.int n)).Gives (.int m) v := by
  cases op <;> simp only [BinaryOp.evalInt?, Option.some.injEq, reduceCtorEq] at evaluates <;>
    simp only [simplify] <;> (repeat' split) <;>
      simp_all [Outcome.Gives, Value.isZero, Value.toBool, Value.isOne]

theorem simplify_bool {op : BinaryOp} {left : NodeId} {a b : Bool} {v : Value}
    (evaluates : op.evalBool? a b = some v)
    : (simplify op left (.bool b)).Gives (.bool a) v := by
  cases op <;> simp only [BinaryOp.evalBool?, Option.some.injEq, reduceCtorEq] at evaluates <;>
    simp only [simplify] <;> (repeat' split) <;>
      simp_all [Outcome.Gives, Value.toBool]

/-- What is left of an operator with a constant on its right has the value of the whole. -/
theorem simplify_gives {op : BinaryOp} {left : NodeId} {x constant v : Value}
    (laws : x.register = .float → ops.FoldingLaws) (evaluates : op.eval? ops x constant = some v)
    : (simplify op left constant).Gives x v := by
  cases x with
  | bool a =>
      cases constant with
      | bool b => exact simplify_bool evaluates
      | int _ | float _ => cases evaluates
  | int m =>
      cases constant with
      | int n => exact simplify_int evaluates
      | bool _ | float _ => cases evaluates
  | float x =>
      cases constant with
      | float y => exact simplify_float (laws rfl) evaluates
      | bool _ | int _ => cases evaluates

/-! ## Rules in an algebra -/

/-- What folding relies on in an algebra: what a rule puts in the place of an operator says no
less. -/
structure Laws {V : Type} (A : Algebra V) (ops : FloatOps) : Prop where
  unary : ∀ {op : UnaryOp} {r a w v}, op.eval? ops a r = some w
    → A.order.Covers v (A.unary op r (A.constant a)) → A.order.Less v (A.constant w)
  binary : ∀ {op : BinaryOp} {a b w v}, op.eval? ops a b = some w →
    A.order.Covers v (A.binary op (A.constant a) (A.constant b)) → A.order.Less v (A.constant w)
  ternary : ∀ {op : TernaryOp} {a b c w v}, op.eval? ops a b c = some w →
    A.order.Covers v (A.ternary op (A.constant a) (A.constant b) (A.constant c))
    → A.order.Less v (A.constant w)
  identity : ∀ {op left c x v}, simplify op left c = .operand left
    → A.order.Covers v (A.binary op x (A.constant c)) → A.order.Less v x
  settled : ∀ {op left c w x v}, simplify op left c = .constant w
    → A.order.Covers v (A.binary op x (A.constant c)) → A.order.Less v (A.constant w)
  turned : ∀ {op exchanged : BinaryOp} {x y v}, op.exchanged? = some exchanged
    → A.order.Covers v (A.binary op x y) → A.order.Covers v (A.binary exchanged y x)
  chosen : ∀ {c y z v}, A.order.Covers v (A.ternary .select (A.constant c) y z) →
    A.order.Less v (if c.toBool then y else z)

/-- The laws of the arithmetic are those of the values in an environment. -/
theorem laws_algebra {env : Environment} (laws : env.arithmetic.FoldingLaws)
    : Laws env.algebra env.arithmetic where
  unary evaluates covers := Option.some.inj ((Environment.eq_of_covers covers).symm.trans evaluates)
  binary evaluates covers := Option.some.inj
    ((Environment.eq_of_covers covers).symm.trans evaluates)
  ternary evaluates covers := Option.some.inj
    ((Environment.eq_of_covers covers).symm.trans evaluates)
  identity {op left c x v} keeps covers := by
    have gives : (simplify op left c).Gives x v := simplify_gives (fun _ => laws)
      (Environment.eq_of_covers covers)
    rwa [keeps] at gives
  settled {op left c _ x v} settles covers := by
    have gives : (simplify op left c).Gives x v := simplify_gives (fun _ => laws)
      (Environment.eq_of_covers covers)
    rwa [settles] at gives
  turned exchange covers :=
    .of_eq ((eval?_exchanged exchange _ _ fun _ => laws).trans (Environment.eq_of_covers covers))
  chosen {c _ _ _} covers := by
    have evaluates := Environment.eq_of_covers covers
    cases c with
    | bool _ => exact (Option.some.inj evaluates).symm
    | int _ | float _ => cases evaluates

/-! ## Rules on graphs -/

variable {V : Type} {A : Algebra V} {s : Valuation A.meaning Nat A.order} {id new : NodeId}
    {h : Graph} {fails : Prop}

/-- What folding a node comes to: a node that stands in for it, with nodes added at most. -/
def Folds (s : Valuation A.meaning Nat A.order) (id new : NodeId)
    (t : Valuation A.meaning Nat A.order) : Prop :=
  t.Stands id new ∧ s.graph.Appends t.graph

/-- A constant in the place of a node. -/
theorem exists_constant {w : Value} (isLive : s.live id)
    (less : ∀ {v}, s.value id = some v → A.order.Less v (A.constant w))
    : ∃ t : Valuation A.meaning Nat A.order,
        t.graph = s.graph.pushConstant w ∧ s.Later t ∧ Folds s id s.graph.size t := by
  have operand : ∀ child ∈ (Node.ofKind (.constant w) (.scalarOf w.register)).children,
      s.live child ∧ s.rank child < s.rank id := fun _ member => (List.not_mem_nil member).elim
  have later := s.push_later _ _ operand
  refine ⟨s.push _ (s.rank id) operand, rfl, later,
    ⟨later.live isLive, .inr rfl, ?_, fun {v} found => ?_⟩, Graph.appends_push _ _⟩
  · rw [later.rank isLive]
    exact (Function.update_self ..).le
  · rw [later.value isLive] at found
    exact ⟨_, (Function.update_self ..).trans (Valuation.derived_constant rfl), less found⟩

/-- An operand in the place of a node. -/
theorem stands_operand {kind : NodeKind} (isLive : s.live id)
    (found : (s.graph.node id).kind = kind) {operand : NodeId} (member : operand ∈ kind.children)
    (covers : ∀ {v}, s.value id = some v → A.order.Covers v (s.value operand))
    : s.Stands id operand := by
  obtain ⟨operandLive, below⟩ := s.operand_kind isLive found member
  exact ⟨isLive, operandLive, Nat.le_of_lt below, covers⟩

/-- An operator on constants says no more than its value. -/
theorem less_constantValue {w : Value} (laws : Laws A ops) (isLive : s.live id)
    (evaluates : s.graph.constantValue? ops id = some w) {v : V} (hasValue : s.value id = some v)
    : A.order.Less v (A.constant w) := by
  have less {kind child c x} (isKind : (s.graph.node id).kind = kind)
      (member : child ∈ kind.children) (found : s.graph.value? child = some c)
      (atChild : s.value child = some x) : A.order.Less x (A.constant c) :=
    Valuation.less_constant (s.operand_kind isLive isKind member).1 found atChild
  rw [Graph.constantValue?] at evaluates
  split at evaluates
  next op x kind =>
    obtain ⟨a, foundX, evaluates⟩ := Option.bind_eq_some_iff.mp evaluates
    obtain ⟨_, atX, covers⟩ := Valuation.covers_unary isLive kind hasValue
    exact laws.unary evaluates (A.unary_mono (less kind (.head _) foundX atX) covers)
  next op x y kind =>
    obtain ⟨a, foundX, evaluates⟩ := Option.bind_eq_some_iff.mp evaluates
    obtain ⟨b, foundY, evaluates⟩ := Option.bind_eq_some_iff.mp evaluates
    obtain ⟨_, _, atX, atY, covers⟩ := Valuation.covers_binary isLive kind hasValue
    exact laws.binary evaluates
      (A.binary_mono (less kind (.head _) foundX atX)
      (less kind (.tail _ (.head _)) foundY atY) covers)
  next op x y z kind =>
    obtain ⟨a, foundX, evaluates⟩ := Option.bind_eq_some_iff.mp evaluates
    obtain ⟨b, foundY, evaluates⟩ := Option.bind_eq_some_iff.mp evaluates
    obtain ⟨c, foundZ, evaluates⟩ := Option.bind_eq_some_iff.mp evaluates
    obtain ⟨_, _, _, atX, atY, atZ, covers⟩ := Valuation.covers_ternary isLive kind hasValue
    exact laws.ternary evaluates
      (A.ternary_mono (less kind (.head _) foundX atX) (less kind (.tail _ (.head _)) foundY atY)
        (less kind (.tail _ (.tail _ (.head _))) foundZ atZ) covers)
  · cases evaluates

/-- What an operator with a constant on its right is covered by. -/
theorem covers_aligned {op : BinaryOp} {x y : NodeId} {constant : Value} (isLive : s.live id)
    (kind : (s.graph.node id).kind = .binary op x y) (right : s.graph.value? y = some constant)
    {v : V} (hasValue : s.value id = some v)
    : ∃ a, s.value x = some a ∧ A.order.Covers v (A.binary op a (A.constant constant)) := by
  obtain ⟨a, b, atX, atY, covers⟩ := Valuation.covers_binary isLive kind hasValue
  have yLive := (s.operand_kind isLive kind (.tail _ (.head _))).1
  exact ⟨a, atX, A.binary_mono (A.order.refl a) (Valuation.less_constant yLive right atY) covers⟩

/-- A node that means the same has the constant on its right. Witness: if the operands are turned
around, the new node has the operands of the old one and a value that says no less, so it can take
its place. -/
theorem Aligns.exists_folded {op : BinaryOp} {x y place : NodeId} {constant : Value}
    (laws : Laws A ops) (isLive : s.live id) (aligns : Aligns s.graph id op x y constant h place)
    : ∃ t : Valuation A.meaning Nat A.order,
        t.graph = h
        ∧ s.Later t
        ∧ Folds s id place t
        ∧ (h.node place).kind = .binary op x y
        ∧ h.value? y = some constant := by
  cases aligns with
  | there kind _ right => exact ⟨s, rfl, .refl s, ⟨.refl isLive, .refl _⟩, kind, right⟩
  | @turned former _ _ _ _ kind left _ exchange =>
      let n := s.graph.deduced (.ofKind (.binary op x y) .unknown)
      have operand : ∀ child ∈ n.children, s.live child ∧ s.rank child < s.rank id := by
        intro child member
        have member : child ∈ [x, y] := member
        exact s.operand_kind isLive kind (by simpa [NodeKind.children, or_comm] using member)
      have later := s.push_later n (s.rank id) operand
      have appends := s.graph.appends_push n
      refine ⟨s.push n (s.rank id) operand, rfl, later,
        ⟨⟨later.live isLive, .inr rfl, ?_, fun {v} found => ?_⟩, appends⟩, ?_, ?_⟩
      · rw [later.rank isLive]
        exact (Function.update_self ..).le
      · rw [later.value isLive] at found
        obtain ⟨a, b, atY, atX, covers⟩ := Valuation.covers_binary isLive kind found
        rw [show (s.push n (s.rank id) operand).value s.graph.size = s.derived
          n from Function.update_self .., Valuation.derived_binary
          (show n.kind = .binary op x y from rfl), atX, atY]
        exact laws.turned exchange covers
      · rw [show (s.graph.pushBinary op x y).node s.graph.size = n from Graph.node_push_self _ n]
        rfl
      · rw [Graph.value?, show (s.graph.pushBinary op x y).node y = s.graph.node y from
          appends.node (s.inside (operand y (.tail _ (.head _))).1)]
        exact left

/-- What a step does comes to a node that stands in for the old one. -/
theorem Rewrites.exists_folded (laws : Laws A ops) (isLive : s.live id)
    (rewrites : Rewrites ops s.graph id new h)
    : ∃ t : Valuation A.meaning Nat A.order, t.graph = h ∧ s.Later t ∧ Folds s id new t := by
  cases rewrites with
  | quiet => exact ⟨s, rfl, .refl s, .refl isLive, .refl _⟩
  | value evaluates => exact exists_constant isLive (less_constantValue laws isLive evaluates)
  | identity aligns keeps =>
      obtain ⟨t, rfl, later, ⟨stands, appends⟩, kind, right⟩ := aligns.exists_folded laws isLive
      refine ⟨t, rfl, later, stands.trans
        (stands_operand stands.newLive kind (.head _) fun {v} found => ?_), appends⟩
      obtain ⟨a, atX, covers⟩ := covers_aligned stands.newLive kind right found
      exact ⟨a, atX, laws.identity keeps covers⟩
  | settled aligns settles =>
      obtain ⟨t, rfl, later, ⟨stands, appends⟩, kind, right⟩ := aligns.exists_folded laws isLive
      obtain ⟨u, pushed, laterOn, standsOn, appendsOn⟩ :=
        exists_constant stands.newLive fun {v} found => by
        obtain ⟨a, _, covers⟩ := covers_aligned stands.newLive kind right found
        exact laws.settled settles covers
      exact ⟨u, pushed, later.trans laterOn, (stands.later laterOn).trans standsOn,
        appends.trans appendsOn⟩
  | turned aligns =>
      obtain ⟨t, isGraph, later, folds, _⟩ := aligns.exists_folded laws isLive
      exact ⟨t, isGraph, later, folds⟩
  | @chosen x y z condition kind found =>
      refine ⟨s, rfl, .refl s, stands_operand isLive kind (by split <;> simp [NodeKind.children])
        fun {v} hasValue => ?_, .refl _⟩
      obtain ⟨a, b, c, atX, atY, atZ, covers⟩ := Valuation.covers_ternary isLive kind hasValue
      have less := Valuation.less_constant (s.operand_kind isLive kind (.head _)).1 found atX
      have chosen := laws.chosen (A.ternary_mono less (A.order.refl b) (A.order.refl c) covers)
      refine ⟨_, ?_, chosen⟩
      split
      · exact atY
      · exact atZ

/-- Constants and outputs are not folded. -/
theorem step_fixed {g : Graph} (isFixed : (g.node id).isFixed = true)
    : step ops id g = .ok id g := by
  refine step_quiet ?_
  rw [isQuiet]
  cases kind : (g.node id).kind with
  | constant _ | output _ _ => exact Bool.or_true _
  | _ => simp [Node.isFixed, Node.isConstant, Node.isOutput, kind] at isFixed

/-- What folding keeps up. -/
def invariant (A : Algebra V) : Pass.Invariant Unit (Valuation A.meaning Nat A.order) :=
  Valuation.invariant (fun s => s) (fun _ _ => False)
    (fun {s _ _ _ _} atSlot stands _ _ => ⟨s.setChild atSlot stands, rfl, fun _ spent => spent⟩)
    (fun s index root => ⟨s.setOutput index root, rfl, fun _ spent => spent⟩)

theorem admits_step (laws : Laws A ops)
    : (invariant A).Admits fails (Transform.ofEdit (step ops)) where
  operand {s _ _} isLive member := (s.operand isLive member).1
  step {s id} isLive _ := by
    by_cases isFixed : (s.graph.node id).isFixed = true
    · refine .ofEdit (.of_ok (t := s) (step_fixed isFixed) (.refl s) ?_)
      exact ⟨⟨⟨.refl isLive, fun _ => rfl⟩, trivial, .inl, fun _ _ => rfl, rfl⟩, fun _ => .inl⟩
    · obtain ⟨new, h, ran, rewrites⟩ := step_rewrites ops s.graph id
      obtain ⟨t, rfl, later, stands, appends⟩ := rewrites.exists_folded laws isLive
      have sameFixed := Node.isFixed_eq_of_outline (later.outline isLive)
      refine .ofEdit (.of_ok (t := t) ran later ⟨⟨⟨stands, fun isFixedLater => ?_⟩, trivial,
        fun isOutput => (isFixed (Node.isFixed_of_isOutput isOutput)).elim,
          fun parent parentLive => ?_,
        appends.outputs⟩, fun _ => .inl⟩)
      · exact (isFixed (sameFixed.symm.trans isFixedLater)).elim
      · exact congrArg Node.children (appends.node (s.inside parentLive))

end Folding

/-- Folding a graph without cycles succeeds if all roots are outputs, and refines it in every
algebra that has the laws. Witness: the pass keeps the valuation of the graph up, and outputs stay
in place. -/
theorem folding_refines {V : Type} {A : Algebra V} {ops : FloatOps} {g : Graph}
    (laws : Folding.Laws A ops) (acyclic : g.Acyclic)
    (inside : ∀ {id}, g.Reachable id → id < g.size)
    : match Compiler.folding ops g with
      | .ok _ folded => A.Refines g folded
      | .error _ _ => ¬ g.Rooted := by
  have runs :=
    ((Folding.admits_step laws).runs_postOrder (s := Graph.valuation A strictMono_id acyclic inside)
    acyclic (fun unrooted : ¬ g.Rooted => unrooted) (fun _ => .root) (fun _ => id)).pass
  cases outcome : Compiler.folding ops g with
  | error e left => exact runs.fails_of_error outcome
  | ok _ folded =>
      obtain ⟨t, rfl, later, succeeds⟩ := runs.state_of_ok outcome
      exact later.refines rfl .root (Valuation.outputs_eq_of_succeeds And.right succeeds)

/-- Folding a well-typed graph without cycles succeeds if all roots are outputs, and every output
keeps its value. -/
theorem folding_keeps_values {env : Environment} {g : Graph}
    (laws : env.arithmetic.FoldingLaws) (acyclic : g.Acyclic) (typed : g.WellTyped)
    : match Compiler.folding env.arithmetic g with
      | .ok _ folded =>
          folded.outputs = g.outputs
          ∧ ∀ root ∈ g.outputs, ∀ decl v,
              g.Yields env root decl v → folded.Yields env root decl v
      | .error _ _ => ¬ g.Rooted := by
  have refines := folding_refines (Folding.laws_algebra laws) acyclic typed.lt_size
  cases outcome : Compiler.folding env.arithmetic g with
  | error e left => rwa [outcome] at refines
  | ok _ folded =>
      rw [outcome] at refines
      exact ⟨refines.outputs, fun root member decl v yields => yields.of_refines refines member⟩

/-- An arithmetic on bit patterns that satisfies the laws, though it is not the standard one. -/
def FloatOps.onPatterns : FloatOps :=
  { FloatOps.standard with
    add := fun x y =>
      if y = .negativeZero then x else if x = .negativeZero then y else ⟨x.bits + y.bits⟩
    subtract := fun x y => ⟨x.bits - y.bits⟩
    multiply := fun x y => if y = .one then x else if x = .one then y else ⟨x.bits * y.bits⟩
    divide := fun x y => if y = .one then x else ⟨x.bits / y.bits⟩
    minimum := fun x y => ⟨x.bits &&& y.bits⟩
    maximum := fun x y => ⟨x.bits ||| y.bits⟩
    equal := fun x y => x = y }

theorem FloatOps.onPatterns_foldingLaws : FloatOps.onPatterns.FoldingLaws where
  add_negativeZero x := by simp only [onPatterns, if_true]
  subtract_zero x := congrArg Binary32.mk (UInt32.sub_zero x.bits)
  multiply_one x := by simp only [onPatterns, if_true]
  divide_one x := by simp only [onPatterns, if_true]
  add_comm x y := by
    simp only [onPatterns, UInt32.add_comm x.bits y.bits]
    grind
  multiply_comm x y := by
    simp only [onPatterns, UInt32.mul_comm x.bits y.bits]
    grind
  minimum_comm x y := congrArg Binary32.mk (UInt32.and_comm x.bits y.bits)
  maximum_comm x y := congrArg Binary32.mk (UInt32.or_comm x.bits y.bits)
  equal_comm x y := by simp only [onPatterns, eq_comm]

/-- A choice by a constant of an integer sum with its constant on the left, plus zero; and a float
sum with the negative zero. -/
def foldable : Graph :=
  let int : DataType := .scalarOf .int
  let float : DataType := .scalarOf .float
  let g := ((Graph.empty.declareInput ⟨"x", int⟩).pushConstant (.int 3)).pushConstant (.int 0)
  let g := (g.pushBinary .add 1 0).pushBinary .add 3 2
  let g := (g.pushConstant (.bool true)).pushTernary .select 5 4 1
  let g := (g.declareOutput ⟨"y", int⟩ 6).declareInput ⟨"f", float⟩
  let g := (g.pushConstant (.float .negativeZero)).pushBinary .add 8 9
  g.declareOutput ⟨"z", float⟩ 10

/-- Integers are five and all else is zero. -/
def foldableEnvironment : Environment :=
  .uniform .onPatterns fun
    | .int => .int 5
    | .float => .float .zero
    | _ => .bool false

theorem folding_keeps_values_foldable
    : FloatOps.onPatterns.FoldingLaws
      ∧ foldable.Acyclic
      ∧ foldable.WellTyped
      ∧ foldable.Yields foldableEnvironment 7 ⟨"y", .scalarOf .int⟩ (.int 8)
      ∧ ∃ folded,
          Compiler.folding .onPatterns foldable = .ok () folded
          ∧ folded.outputs = [7, 11]
          ∧ folded.Yields foldableEnvironment 7 ⟨"y", .scalarOf .int⟩ (.int 8) := by
  have acyclic : foldable.Acyclic := Graph.acyclic_of_lt (by decide +kernel)
  have typed : foldable.WellTyped :=
    Graph.wellTyped_of_lt (by decide +kernel) (by decide +kernel) (by decide +kernel)
  have constant (id : NodeId) (w : Value) (kind : (foldable.node id).kind = .constant w) :
      foldable.Has foldableEnvironment.meaning id w :=
    .of_kind kind .nil (by simp only [Environment.meaning, Node.result?, kind])
  have x : foldable.Has foldableEnvironment.meaning 0 (.int 5) := .of_kind rfl .nil rfl
  have sum : foldable.Has foldableEnvironment.meaning 3 (.int 8) :=
    .of_kind rfl (.cons (constant 1 (.int 3) rfl) (.cons x .nil)) rfl
  have same : foldable.Has foldableEnvironment.meaning 4 (.int 8) :=
    .of_kind rfl (.cons sum (.cons (constant 2 (.int 0) rfl) .nil)) rfl
  have yields : foldable.Yields foldableEnvironment 7 ⟨"y", .scalarOf .int⟩ (.int 8) :=
    ⟨6, rfl, .of_kind rfl (.cons (constant 5 (.bool true) rfl)
      (.cons same (.cons (constant 1 (.int 3) rfl) .nil))) rfl⟩
  have kept := @folding_keeps_values foldableEnvironment foldable FloatOps.onPatterns_foldingLaws
    acyclic typed
  refine ⟨FloatOps.onPatterns_foldingLaws, acyclic, typed, yields, ?_⟩
  cases outcome : Compiler.folding .onPatterns foldable with
  | error e left =>
      rw [show foldableEnvironment.arithmetic = .onPatterns from rfl, outcome] at kept
      exact (kept ⟨by decide, by decide⟩).elim
  | ok _ folded =>
      rw [show foldableEnvironment.arithmetic = .onPatterns from rfl, outcome] at kept
      exact ⟨folded, rfl, kept.1, kept.2 7 (by decide) _ _ yields⟩

end StreamExpr
