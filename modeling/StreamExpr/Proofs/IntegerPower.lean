import StreamExpr.Proofs.Lowering

/-! Integer powers with a constant exponent.
Up to the largest exponent that is unrolled, a lowered power is the wrapping power. Past it the
power goes through floats. Neighbouring integers that round to one float then have one power, and a
wrapping power tells them apart.
-/

namespace StreamExpr

open Lowering

/-- A power of an integer stream with a constant exponent. -/
def powerGraph (n : Int32) : Graph :=
  let int : DataType := .scalarOf .int
  let g := (Graph.empty.declareInput ⟨"x", int⟩).pushConstant (.int n)
  (g.pushBinary .pow 0 1).declareOutput ⟨"y", int⟩ 2

/-- The standard arithmetic with one value for all integer streams. -/
def Environment.ofInteger (x : Int32) : Environment :=
  .uniform .standard fun
    | .int => .int x
    | .float => .float .zero
    | _ => .bool false

/-- The power of two whose exponent is a product with a binary logarithm, cut off to an integer. -/
def powerByFloats (x n : Int32) : Int32 :=
  let log := FloatOps.standard.log2 (.ofInt x.toInt)
  (FloatOps.standard.exp2 (FloatOps.standard.multiply (.ofInt n.toInt) log)).toInt32

theorem Environment.ofInteger_respectful (x : Int32) : (ofInteger x).Respectful :=
  uniform_respectful fun r known => by cases r <;> first | rfl | cases known

/-! ## Small exponents -/

section Typed

variable (n : Int32)

theorem powerGraph_eq
    : powerGraph n
      = let int : DataType := .scalarOf .int
        { nodes := ⟨[⟨.input ⟨"x", int⟩, int, none⟩, ⟨.constant (.int n), int, none⟩,
            ⟨.binary .pow 0 1, int, some 1⟩, ⟨.output ⟨"y", int⟩ 2, int, none⟩]⟩
          inputs := [0]
          outputs := [3]
          declared := [⟨"y", int⟩]
          selections := {} } :=
  rfl

-- The exponent is a variable, so that the checks are reduced rather than decided.
theorem acyclic_powerGraph : (powerGraph n).Acyclic := by
  rw [powerGraph_eq]
  exact Graph.acyclic_of_lt (of_decide_eq_true rfl)

theorem wellTyped_powerGraph : (powerGraph n).WellTyped := by
  rw [powerGraph_eq]
  exact Graph.wellTyped_of_lt (of_decide_eq_true rfl) (of_decide_eq_true rfl)
    (of_decide_eq_true rfl)

theorem scalar_powerGraph : (powerGraph n).Scalar := by
  have all : ∀ id < 4, ((powerGraph n).type id).isVector = false := of_decide_eq_true rfl
  exact fun id reachable => all id ((wellTyped_powerGraph n).lt_size reachable)

end Typed

theorem lowersExactly_powerGraph {n : Int32} (nonnegative : 0 ≤ n) (small : n ≤ maxUnrolledExponent)
    {id : NodeId} (inside : id < (powerGraph n).size)
    : (powerGraph n).lowersExactly id = true := by
  have few : id < 4 := inside
  obtain rfl | rfl | rfl | rfl : id = 0 ∨ id = 1 ∨ id = 2 ∨ id = 3 := by
    simp only [NodeId] at few ⊢
    omega
  · rfl
  · rfl
  · exact decide_eq_true ⟨nonnegative, small⟩
  · rfl

theorem yields_powerGraph {n : Int32} (nonnegative : 0 ≤ n) (x : Int32)
    : (powerGraph n).Yields (.ofInteger x) 3 ⟨"y", .scalarOf .int⟩
      (.int (wrappingPower x n.toInt.toNat)) := by
  have base : (powerGraph n).Has (Environment.ofInteger x).meaning 0
    (.int x) := .of_kind rfl .nil rfl
  have exponent : (powerGraph n).Has (Environment.ofInteger x).meaning 1
    (.int n) := .of_kind rfl .nil rfl
  exact ⟨2, rfl, .of_kind rfl (.cons base (.cons exponent .nil))
    (if_neg (Int32.not_lt.mpr nonnegative))⟩

/-- What is unrolled keeps its value. -/
theorem lowering_powerGraph_of_small {n : Int32} (nonnegative : 0 ≤ n)
    (small : n ≤ maxUnrolledExponent)
    : ∃ lowered,
        Compiler.lowering (powerGraph n) = .ok () lowered
        ∧ lowered.outputs = [3]
        ∧ ∀ x,
            lowered.Yields (.ofInteger x) 3 ⟨"y", .scalarOf .int⟩
            (.int (wrappingPower x n.toInt.toNat)) := by
  have lowers (x : Int32) := lowering_refines (grades_algebra (.ofInteger x)) (acyclic_powerGraph n)
    (wellTyped_powerGraph n) (scalar_powerGraph n)
    ((wellTyped_powerGraph n).register_of_has (Environment.ofInteger_respectful x))
    fun reachable => .inr (.inl ⟨laws_algebra FloatOps.standard_equal_zero,
      lowersExactly_powerGraph nonnegative small ((wellTyped_powerGraph n).lt_size reachable)⟩)
  cases outcome : Compiler.lowering (powerGraph n) with
  | error e left =>
      rw [outcome] at lowers
      exact (lowers 0 ⟨of_decide_eq_true rfl, of_decide_eq_true rfl⟩).elim
  | ok _ lowered =>
      rw [outcome] at lowers
      have isRoot : 3 ∈ (powerGraph n).outputs := List.mem_singleton_self 3
      exact ⟨lowered, rfl, (lowers 0).1.outputs,
        fun x => (yields_powerGraph nonnegative x).of_refines (lowers x).1 isRoot⟩

/-! ## Large exponents -/

/-- The power while it is lowered through floats. The output and the last conversion are redirected,
and the float power is lowered in turn. -/
def powerThroughFloats (n : Int32) (expression operand : NodeId) (lowered : List Node) : Graph :=
  let int : DataType := .scalarOf .int
  let float : DataType := .scalarOf .float
  { powerGraph n with
    nodes :=
      ⟨[⟨.input ⟨"x", int⟩, int, none⟩, ⟨.constant (.int n), int, none⟩,
          ⟨.binary .pow 0 1, int, some 1⟩, ⟨.output ⟨"y", int⟩ expression, int, none⟩,
            ⟨.unary .typeConversion 0, float, some 0⟩,
          ⟨.constant (.float (.ofInt n.toInt)), float, none⟩, ⟨.binary .pow 4 5, float, some 0⟩,
          ⟨.unary .typeConversion operand, int, some 0⟩]
        ++ lowered⟩ }

/-- A float power as a power of two. -/
def floatPowerNodes : List Node :=
  let float : DataType := .scalarOf .float
  [⟨.unary .log2 4, float, some 0⟩, ⟨.binary .multiply 5 8, float, some 0⟩,
  ⟨.unary .pow2 9, float, some 0⟩]

theorem EStateM.bind_eq_of_ok {ε σ α β : Type} {x : EStateM ε σ α} {f : α → EStateM ε σ β} {s t : σ}
    {a : α} (ran : x s = .ok a t)
    : (x >>= f) s = f a t := by
  simp only [bind, EStateM.bind, ran]

theorem step_of_lowerOnce {g h : Graph} {id new : NodeId} (lowers : lowerOnce id g = .ok new h)
    (moves : new ≠ id) (settled : lowerOnce new h = .ok new h)
    : step id g = .ok new h := by
  have first : Edit.attempt lowerOnce id g = .ok (.inl new) h := by
    rw [Edit.attempt_of_ok lowers, if_neg moves]
  exact untilDone_of_again first (finishes_of_untilDone (Edit.settle_of_fixed settled))

/-- What a visit to the only pending node does if its only operand is replaced. -/
theorem visit_of_answer {σ : Type} {transform : Transform σ} (parent : NodeId) {child new : NodeId}
    (memo : Pass.Memo) (met : Std.TreeSet NodeId) {w v : Workspace σ}
    (operand : w.graph.children parent = [child]) (isNew : memo[child]? = none)
    (unmet : met.contains new = false) (answers : transform child w = .ok new v)
    (moves : new ≠ child)
    : Pass.visit transform ⟨memo, met, [parent]⟩ w
      = .ok (.inl ⟨(memo.insert child new).insertIfNew new new, met.insert new, [new]⟩)
          ⟨v.graph.setChild parent 0 new, v.memory⟩ := by
  have slots : PassM.read (fun g => List.range (g.children parent).length) w
      = .ok (List.range (w.graph.children parent).length) w := rfl
  have operands : PassM.read (·.children parent) w = .ok (w.graph.children parent) w := rfl
  rw [operand] at slots operands
  have resolves : Pass.resolve transform memo child w = .ok
    (new, (memo.insert child new).insertIfNew new new) v := by
    rw [Pass.resolve, isNew]
    exact EStateM.bind_eq_of_ok answers
  have points : Pass.pointSlot parent 0 child new v = .ok ()
    ⟨v.graph.setChild parent 0 new, v.memory⟩ := by
    rw [Pass.pointSlot, if_neg moves]
    rfl
  have descends : Pass.descend transform parent [0] ⟨memo, met, []⟩ w
      = .ok ⟨(memo.insert child new).insertIfNew new new, met.insert new, [new]⟩
          ⟨v.graph.setChild parent 0 new, v.memory⟩ := by
    rw [Pass.descend, EStateM.bind_eq_of_ok operands]
    refine (EStateM.bind_eq_of_ok resolves).trans ((EStateM.bind_eq_of_ok points).trans ?_)
    rw [Pass.descend, Pass.Frontier.meet, if_neg (by simp [unmet])]
    rfl
  rw [Pass.visit]
  exact (EStateM.bind_eq_of_ok slots).trans (EStateM.bind_eq_of_ok descends)

theorem step_powerGraph {n : Int32} (large : maxUnrolledExponent < n)
    : step 2 (powerGraph n) = .ok 7 (powerThroughFloats n 2 6 []) := by
  have nonzero : n ≠ 0 := by
    rintro rfl
    exact absurd large (by decide)
  have many : ¬ (1 ≤ n ∧ n ≤ maxUnrolledExponent) := fun few => Int32.not_le.mpr large few.2
  have ran : lowerOnce 2 (powerGraph n)
      = (if n = 0 then Edit.constant (.int 1)
        else if 1 ≤ n ∧ n ≤ maxUnrolledExponent then multiplyBy 0 (n.toInt.toNat - 1) 0
        else intPowByFloat 0 1) (powerGraph n) := rfl
  rw [if_neg nonzero, if_neg many, powerGraph_eq] at ran
  rw [powerGraph_eq]
  exact step_of_lowerOnce (ran.trans rfl) (by decide) rfl

theorem step_floatPower (n : Int32)
    : step 6 (powerThroughFloats n 7 6 []) = .ok 10 (powerThroughFloats n 7 6 floatPowerNodes) := by
  have log : (powerThroughFloats n 7 6 []).pushUnary .log2 4 = powerThroughFloats n 7 6
    (floatPowerNodes.take 1) := rfl
  have product : (powerThroughFloats n 7 6 (floatPowerNodes.take 1)).pushBinary .multiply 5 8
      = powerThroughFloats n 7 6 (floatPowerNodes.take 2) := rfl
  have power : (powerThroughFloats n 7 6 (floatPowerNodes.take 2)).pushUnary .pow2 9
      = powerThroughFloats n 7 6 floatPowerNodes := rfl
  have ran : lowerOnce 6 (powerThroughFloats n 7 6 [])
      = .ok 10
        ((((powerThroughFloats n 7 6 []).pushUnary .log2 4).pushBinary .multiply 5 8).pushUnary
        .pow2 9) := rfl
  rw [log, product, power] at ran
  exact step_of_lowerOnce ran (by decide) rfl

/-- The replacements that are made when the float power is lowered. -/
def powerMemo : Pass.Memo :=
  (({} : Pass.Memo).insert 2 7).insertIfNew 7 7

/-- Once the float power is lowered, all that is left is settled. -/
theorem drain_floatPower (n : Int32)
    : ∃ last,
        Pass.drain (.ofEdit step : Transform Unit)
          ⟨(powerMemo.insert 6 10).insertIfNew 10 10,
            ((({} : Std.TreeSet NodeId).insert 3).insert 7).insert 10, [10]⟩
          ⟨powerThroughFloats n 7 10 floatPowerNodes, ()⟩
        = .ok last ⟨powerThroughFloats n 7 10 floatPowerNodes, ()⟩ :=
  ⟨_, rfl⟩

/-- What is not unrolled goes through floats. Witness: the run of the pass, in which only the first
replacement looks at the exponent. -/
theorem lowering_powerGraph_of_large {n : Int32} (large : maxUnrolledExponent < n)
    : Compiler.lowering (powerGraph n) = .ok () (powerThroughFloats n 7 10 floatPowerNodes) := by
  have answers {g h : Graph} {id new : NodeId} (ran : step id g = .ok new h) :
      (.ofEdit step : Transform Unit) id ⟨g, ()⟩ = .ok new ⟨h, ()⟩ := by
    simp only [Transform.ofEdit, PassM.edit, ran]
  have routed : (powerThroughFloats n 2 6 []).setChild 3 0 7 = powerThroughFloats n 7 6 [] := rfl
  have lowered : (powerThroughFloats n 7 6 floatPowerNodes).setChild 7 0 10
      = powerThroughFloats n 7 10 floatPowerNodes := rfl
  have routes := visit_of_answer 3 {} (({} : Std.TreeSet NodeId).insert 3) rfl rfl rfl
    (answers (step_powerGraph large)) (by decide)
  have lowers := visit_of_answer 7 powerMemo ((({} : Std.TreeSet NodeId).insert 3).insert 7) rfl rfl
    rfl (answers (step_floatPower n)) (by decide)
  rw [routed] at routes
  rw [lowered] at lowers
  obtain ⟨last, rest⟩ := drain_floatPower n
  have starts : Pass.run .preOrder (.ofEdit step) ⟨powerGraph n, ()⟩
      = (Pass.drain (.ofEdit step : Transform Unit) ⟨{}, ({} : Std.TreeSet NodeId).insert 3, [3]⟩
          >>= Pass.preOrderRoots (.ofEdit step) []) ⟨powerGraph n, ()⟩ := by
    rw [powerGraph_eq]
    rfl
  have walked : Pass.drain (.ofEdit step) _ ⟨powerGraph n, ()⟩ = _ :=
    (Finishes.again routes (.again lowers (finishes_of_untilDone rest))).untilDone
  rw [EStateM.bind_eq_of_ok walked] at starts
  rw [Compiler.lowering, Edit.pass, starts]
  rfl

theorem yields_throughFloats (n x : Int32)
    : (powerThroughFloats n 7 10 floatPowerNodes).Yields (.ofInteger x) 3 ⟨"y", .scalarOf .int⟩
        (.int (powerByFloats x n)) := by
  let g := powerThroughFloats n 7 10 floatPowerNodes
  let m := (Environment.ofInteger x).meaning
  have base : g.Has m 0 (.int x) := .of_kind rfl .nil rfl
  have floatBase : g.Has m 4 (.float (.ofInt x.toInt)) := .of_kind rfl (.cons base .nil) rfl
  have exponent : g.Has m 5 (.float (.ofInt n.toInt)) := .of_kind rfl .nil rfl
  have log : g.Has m 8 (.float (FloatOps.standard.log2 (.ofInt x.toInt))) :=
    .of_kind rfl (.cons floatBase .nil) rfl
  have product : g.Has m 9 (.float (FloatOps.standard.multiply (.ofInt n.toInt)
      (FloatOps.standard.log2 (.ofInt x.toInt)))) := .of_kind rfl (.cons exponent (.cons log .nil))
      rfl
  have power
      : g.Has m 10
        (.float
        (FloatOps.standard.exp2
        (FloatOps.standard.multiply (.ofInt n.toInt) (FloatOps.standard.log2 (.ofInt x.toInt))))) :=
        .of_kind rfl (.cons product .nil) rfl
  exact ⟨7, rfl, .of_kind rfl (.cons power .nil) rfl⟩

/-! ## All exponents -/

theorem pow_mul_pow_eq_one {a b : Int32} (inverse : a * b = 1) (count : Nat)
    : a ^ count * b ^ count = 1 := by
  induction count with
  | zero => rfl
  | succ count ih =>
      calc a ^ (count + 1) * b ^ (count + 1)
          = (a ^ count * b ^ count) * (a * b) := by
            rw [Int32.pow_succ, Int32.pow_succ, Int32.mul_assoc, ← Int32.mul_assoc a,
              Int32.mul_comm a, Int32.mul_assoc, Int32.mul_assoc]
        _ = 1 := by rw [ih, inverse, Int32.mul_one]

/-- A power that is not unrolled is no wrapping power. Witness: `2 ^ 24` and the next integer round
to one float; the wrapping power of the first one is zero, and that of the other one has an
inverse. -/
theorem exists_ne_powerByFloats {n : Int32} (large : maxUnrolledExponent < n)
    : ∃ x, wrappingPower x n.toInt.toNat ≠ powerByFloats x n := by
  have many : 16 < n.toInt := Int32.lt_iff_toInt_lt.mp large
  have small : n.toInt.toNat < 2 ^ 32 := by
    have bound := n.toInt_lt
    omega
  obtain ⟨count, exponent⟩ : ∃ count, n.toInt.toNat = count + 2 := ⟨n.toInt.toNat - 2, by omega⟩
  have even : wrappingPower 16777216 n.toInt.toNat = 0 := by
    rw [wrappingPower_eq_pow small, exponent, Int32.pow_succ, Int32.pow_succ, Int32.mul_assoc]
    exact Int32.mul_zero
  have odd : wrappingPower 16777217 n.toInt.toNat ≠ 0 := by
    have unit := pow_mul_pow_eq_one
      (show (16777217 : Int32) * (-16777215) = 1 by decide) n.toInt.toNat
    intro zero
    rw [wrappingPower_eq_pow small] at zero
    rw [zero, Int32.zero_mul] at unit
    cases unit
  have rounded : powerByFloats 16777216 n = powerByFloats 16777217 n := by
    have same : Binary32.ofInt (16777216 : Int32).toInt = .ofInt (16777217 : Int32).toInt := by
      decide
    rw [powerByFloats, powerByFloats, same]
  by_contra agree
  refine odd ?_
  calc wrappingPower 16777217 n.toInt.toNat
      = powerByFloats 16777217 n := by_contra fun differs => agree ⟨_, differs⟩
    _ = powerByFloats 16777216 n := rounded.symm
    _ = wrappingPower 16777216 n.toInt.toNat :=
      (by_contra fun differs => agree ⟨_, Ne.symm differs⟩)
    _ = 0 := even

/-- Lowering a power with a constant exponent succeeds. Up to the largest exponent that is unrolled,
the lowered graph yields what folding the power of two constants gives. Past it the graph yields the
power by floats, which is another one for some base. -/
theorem lowered_power_yields (n : Int32) (nonnegative : 0 ≤ n)
    : ∃ lowered,
        Compiler.lowering (powerGraph n) = .ok () lowered
        ∧ lowered.outputs = [3]
        ∧ (n ≤ maxUnrolledExponent → ∀ x, ∃ v,
            BinaryOp.pow.eval? .standard (.int x) (.int n) = some v
            ∧ lowered.Yields (.ofInteger x) 3 ⟨"y", .scalarOf .int⟩ v)
        ∧ (maxUnrolledExponent < n →
            (∀ x, lowered.Yields (.ofInteger x) 3 ⟨"y", .scalarOf .int⟩ (.int (powerByFloats x n)))
            ∧ ∃ x, BinaryOp.pow.eval? .standard (.int x) (.int n) ≠ some
              (.int (powerByFloats x n))) := by
  have folds (x : Int32) : BinaryOp.pow.eval? .standard (.int x) (.int n) = some
    (.int (wrappingPower x n.toInt.toNat)) := if_neg (Int32.not_lt.mpr nonnegative)
  by_cases small : n ≤ maxUnrolledExponent
  · obtain ⟨lowered, lowers, outputs, yields⟩ := lowering_powerGraph_of_small nonnegative small
    exact ⟨lowered, lowers, outputs, fun _ x => ⟨_, folds x, yields x⟩,
      fun large => absurd small (Int32.not_le.mpr large)⟩
  · have large := Int32.not_le.mp small
    refine ⟨_, lowering_powerGraph_of_large large, rfl,
      fun small => absurd small (Int32.not_le.mpr large), fun _ =>
      ⟨yields_throughFloats n, ?_⟩⟩
    obtain ⟨x, differs⟩ := exists_ne_powerByFloats large
    refine ⟨x, fun same => differs ?_⟩
    rw [folds] at same
    exact Value.int.inj (Option.some.inj same)

/-- The cube of minus five. -/
theorem lowered_power_yields_cube
    : (0 : Int32) ≤ 3
      ∧ ∃ lowered,
          Compiler.lowering (powerGraph 3) = .ok () lowered
          ∧ lowered.Yields (.ofInteger (-5)) 3 ⟨"y", .scalarOf .int⟩ (.int (-125)) := by
  refine ⟨by decide, ?_⟩
  obtain ⟨lowered, lowers, _, small, _⟩ := lowered_power_yields 3 (by decide)
  obtain ⟨v, folds, yields⟩ := small (by decide) (-5)
  obtain rfl : v = .int (-125) := Option.some.inj (folds.symm.trans rfl)
  exact ⟨lowered, lowers, yields⟩

/-- The first exponent that is not unrolled: folding tells two neighbouring bases apart, and the
lowered graph yields what folding gives for one of them at most. -/
theorem lowered_power_of_seventeen_differs
    : BinaryOp.pow.eval? .standard (.int 16777216) (.int 17) = some (.int 0)
      ∧ BinaryOp.pow.eval? .standard (.int 16777217) (.int 17) = some (.int 285212673)
      ∧ ∃ lowered,
          Compiler.lowering (powerGraph 17) = .ok () lowered
          ∧ ¬ (lowered.Yields (.ofInteger 16777216) 3 ⟨"y", .scalarOf .int⟩ (.int 0)
            ∧ lowered.Yields (.ofInteger 16777217) 3 ⟨"y", .scalarOf .int⟩ (.int 285212673)) := by
  refine ⟨by decide, by decide, _, lowering_powerGraph_of_large (by decide), ?_⟩
  rintro ⟨first, second⟩
  have zero := (yields_throughFloats 17 16777216).has.unique first.has
  have odd := (yields_throughFloats 17 16777217).has.unique second.has
  have same : Binary32.ofInt (16777216 : Int32).toInt = .ofInt (16777217 : Int32).toInt := by decide
  rw [powerByFloats, same] at zero
  exact absurd (Value.int.inj (zero.symm.trans odd)) (by decide)

end StreamExpr
