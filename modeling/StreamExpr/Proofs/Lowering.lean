import StreamExpr.Proofs.LoweredGraph

/-! Lowering keeps values.
What an operator means on constants and what its replacement computes are told apart here and shown
to agree, rule by rule, so that the values in an environment have the laws that the pass asks for.
-/

namespace StreamExpr

/-! ## Wrapping integers -/

/-- A remainder is what the truncated quotient leaves, also where the quotient wraps. -/
theorem sub_div_mul_eq_mod (m n : Int32) : m - m / n * n = m % n := by
  refine Int32.toInt_inj.mp ?_
  rw [Int32.toInt_sub, Int32.toInt_mul, Int32.toInt_div, Int.bmod_mul_bmod, Int.sub_bmod_bmod,
    Int.mul_comm, ← Int.tmod_def, ← Int32.toInt_mod]
  exact Int.bmod_eq_of_le (Int32.le_toInt _) (Int32.toInt_lt _)

theorem square_pow (base : Int32) (exponent : Nat)
    : (base * base) ^ exponent = base ^ (2 * exponent) := by
  induction exponent with
  | zero => rfl
  | succ exponent ih =>
      rw [Int32.pow_succ, ih, Nat.mul_succ, Int32.pow_succ, Int32.pow_succ, Int32.mul_assoc]

/-- Squaring computes the power if it is given a digit for each one of the exponent. -/
theorem powerBySquaring_eq_pow {digits : Nat} {base : Int32} {exponent : Nat}
    (enough : exponent < 2 ^ digits)
    : powerBySquaring digits base exponent = base ^ exponent := by
  induction digits generalizing base exponent with
  | zero =>
      obtain rfl : exponent = 0 := by omega
      rfl
  | succ digits ih =>
      have halved : exponent / 2 < 2 ^ digits := by
        rw [Nat.pow_succ] at enough
        omega
      rw [powerBySquaring, ih halved, square_pow]
      split
      case isTrue odd =>
        rw [Int32.mul_comm, ← Int32.pow_succ]
        congr
        omega
      case isFalse =>
        congr
        omega

theorem wrappingPower_eq_pow {base : Int32} {exponent : Nat} (small : exponent < 2 ^ 32)
    : wrappingPower base exponent = base ^ exponent :=
  powerBySquaring_eq_pow small

namespace Lowering

/-! ## Rules on values -/

section Values

variable {ops : FloatOps} {x y z v : Value} (target : RegisterClass)

theorem negate_agrees (discrete : v.register ≠ .float)
    (evaluates : UnaryOp.negate.eval? ops x target = some v)
    : BinaryOp.subtract.eval? ops (.int 0) x = some v := by
  cases x with
  | int n =>
      rw [← evaluates]
      exact congrArg (fun m => some (Value.int m)) (Int32.zero_sub n)
  | float n =>
      obtain rfl := Option.some.inj evaluates
      exact (discrete rfl).elim
  | bool _ => cases evaluates

theorem saturate_agrees (discrete : v.register ≠ .float)
    (evaluates : UnaryOp.saturate.eval? ops x target = some v)
    : ((BinaryOp.min.eval? ops x (.int 1)).bind fun capped =>
      BinaryOp.max.eval? ops capped (.int 0))
      = some v := by
  cases x with
  | int n =>
      rw [← evaluates]
      refine congrArg (fun m => some (Value.int m)) ?_
      show (if (if 1 < n then 1 else n) < 0 then 0 else if 1 < n then 1 else n) = _
      simp only [Int32.lt_iff_toInt_lt]
      split <;> split <;> grind
  | float n =>
      obtain rfl := Option.some.inj evaluates
      exact (discrete rfl).elim
  | bool _ => cases evaluates

theorem frac_agrees (evaluates : UnaryOp.frac.eval? ops x target = some v)
    : ((UnaryOp.trunc.eval? ops x target).bind fun whole => BinaryOp.subtract.eval? ops x whole)
      = some v := by
  cases x with
  | float n => exact evaluates
  | int _ | bool _ => cases evaluates

theorem pow2_agrees (discrete : v.register ≠ .float)
    (evaluates : UnaryOp.pow2.eval? ops x target = some v)
    : BinaryOp.bitshiftLeft.eval? ops (.int 1) x = some v := by
  cases x with
  | int n =>
      obtain ⟨shifted, found, rfl⟩ := Option.map_eq_some_iff.mp evaluates
      obtain ⟨_, same⟩ := Option.ite_none_right_eq_some.mp found
      exact congrArg (Option.map Value.int) same
  | float n =>
      obtain rfl := Option.some.inj evaluates
      exact (discrete rfl).elim
  | bool _ => cases evaluates

theorem modulo_agrees (discrete : v.register ≠ .float)
    (evaluates : BinaryOp.modulo.eval? ops x y = some v)
    : ((BinaryOp.divide.eval? ops x y).bind fun quotient =>
      BinaryOp.multiply.eval? ops quotient y).bind
        (BinaryOp.subtract.eval? ops x)
      = some v := by
  cases x with
  | int m =>
      cases y with
      | int n =>
          obtain ⟨nonzero, same⟩ := Option.ite_none_left_eq_some.mp evaluates
          have divides : BinaryOp.divide.eval? ops (.int m) (.int n) = some (.int (m / n)) :=
            if_neg nonzero
          rw [divides, ← same]
          exact congrArg (fun k => some (Value.int k)) (sub_div_mul_eq_mod m n)
      | float _ | bool _ => cases evaluates
  | float m =>
      cases y with
      | float n =>
          obtain rfl := Option.some.inj evaluates
          exact (discrete rfl).elim
      | int _ | bool _ => cases evaluates
  | bool a =>
      cases y with
      | bool _ | int _ | float _ => cases evaluates

theorem log_agrees (evaluates : BinaryOp.log.eval? ops x y = some v)
    : ((UnaryOp.ln.eval? ops x target).bind fun numerator =>
        (UnaryOp.ln.eval? ops y target).bind fun denominator =>
          BinaryOp.divide.eval? ops numerator denominator)
      = some v := by
  cases x <;> cases y <;> exact evaluates

theorem clamp_agrees (evaluates : TernaryOp.clamp.eval? ops x y z = some v)
    : ((BinaryOp.min.eval? ops x z).bind fun capped => BinaryOp.max.eval? ops capped y)
      = some v := by
  cases x <;> cases y <;> cases z <;> exact evaluates

theorem lerp_agrees (evaluates : TernaryOp.lerp.eval? ops x y z = some v)
    : ((BinaryOp.subtract.eval? ops y x).bind fun delta => BinaryOp.multiply.eval? ops delta z).bind
        (BinaryOp.add.eval? ops x)
      = some v := by
  cases x <;> cases y <;> cases z <;> first | exact evaluates | cases evaluates

theorem convert?_register (x : Value) : x.convert? x.register = some x := by
  cases x <;> rfl

/-- A truth value converts to the one or the zero of a class. -/
theorem choice_agrees {condition : Bool} {target : RegisterClass} {one zero : Value}
    (oneOf : Value.one? target = some one) (zeroOf : Value.zero? target = some zero)
    (converts : (Value.bool condition).convert? target = some v)
    : TernaryOp.select.eval? ops (.bool condition) one zero = some v := by
  cases target <;> cases oneOf <;> cases zeroOf <;> cases converts <;> cases condition <;> rfl

/-- A number converts to the truth value that it differs from zero. -/
theorem comparison_agrees (zeroTest : ∀ n, x = .float n → ops.equal n .zero = n.isZero)
    {zero : Value} (zeroOf : Value.zero? x.register = some zero) (isNumber : x.register ≠ .bool)
    (converts : x.convert? .bool = some v)
    : BinaryOp.notEqual.eval? ops x zero = some v := by
  cases x with
  | bool _ => exact (isNumber rfl).elim
  | int n =>
      cases zeroOf
      exact converts
  | float n =>
      cases zeroOf
      rw [← converts]
      exact congrArg (fun b => some (Value.bool !b)) (zeroTest n rfl)

theorem eval?_target {op : UnaryOp} (proper : op ≠ .typeConversion) (x : Value)
    (other : RegisterClass)
    : op.eval? ops x target = op.eval? ops x other := by
  simp only [UnaryOp.eval?, if_neg proper]

/-- The value of an integer power. -/
theorem eval?_pow {n : Int32} (evaluates : BinaryOp.pow.eval? ops x (.int n) = some v)
    : ∃ m, x = .int m ∧ v = .int (m ^ n.toInt.toNat) := by
  cases x with
  | int m =>
      obtain ⟨_, same⟩ := Option.ite_none_left_eq_some.mp evaluates
      have small : n.toInt.toNat < 2 ^ 32 := by
        have := n.toInt_lt
        omega
      rw [wrappingPower_eq_pow small] at same
      exact ⟨m, rfl, (Option.some.inj same).symm⟩
  | float _ | bool _ => cases evaluates

end Values


/-! ## Rules in an algebra -/

theorem discrete {v : Value} (isInt : v.register = .int) : v.register ≠ .float := fun isFloat => by
  cases isInt.symm.trans isFloat

theorem iterate_times {env : Environment} (m n : Int32) (count : Nat)
    : (times env.algebra (some (.int n)))^[count] (some (.int m)) = some
      (.int (m * n ^ count)) := by
  induction count generalizing m with
  | zero => rw [Function.iterate_zero, id, Int32.pow_zero, Int32.mul_one]
  | succ count ih =>
      have step : times env.algebra (some (.int n)) (some (.int m)) = some (.int (m * n)) := rfl
      rw [Function.iterate_succ, Function.comp_apply, step, ih, Int32.pow_succ, Int32.mul_assoc,
        Int32.mul_comm n]


/-- Values have the classes that operators tell. -/
theorem grades_algebra (env : Environment) : Grades env.algebra where
  constant _ := rfl
  conversion made := Value.register_of_convert? made
  operator {_ _ classes r xs _} found entry classed result := by
    have arguments : classes = xs.map Value.register := by
      rw [← List.forall₂_eq_eq_eq, List.forall₂_map_right_iff]
      exact classed.flip.imp fun _ _ => Eq.symm
    exact Node.register_of_result? found entry arguments result
  target proper r other := funext fun x => eval?_target r proper x other

/-- The values in an environment have the laws if its arithmetic compares with zero as conversions
to truth values do. -/
theorem laws_algebra {env : Environment} (zeroTest : ∀ n, env.arithmetic.equal n .zero = n.isZero)
    : Laws env.algebra where
  negate {r _ _} isInt covers :=
    .of_eq (negate_agrees r (discrete isInt) (Environment.eq_of_covers covers))
  saturate {r _ _} isInt covers :=
    .of_eq (saturate_agrees r (discrete isInt) (Environment.eq_of_covers covers))
  frac {r _ _} covers := .of_eq (frac_agrees r (Environment.eq_of_covers covers))
  pow2 {r _ _} isInt covers :=
    .of_eq (pow2_agrees r (discrete isInt) (Environment.eq_of_covers covers))
  modulo isInt covers := .of_eq (modulo_agrees (discrete isInt) (Environment.eq_of_covers covers))
  log covers := .of_eq (log_agrees .unknown (Environment.eq_of_covers covers))
  powerZero covers := by
    obtain ⟨_, _, rfl⟩ := eval?_pow (Environment.eq_of_covers covers)
    rfl
  powerSucc isSucc covers := by
    obtain ⟨m, rfl, rfl⟩ := eval?_pow (Environment.eq_of_covers covers)
    refine .of_eq ?_
    rw [iterate_times, isSucc, Int32.mul_comm, ← Int32.pow_succ]
  clamp covers := .of_eq (clamp_agrees (Environment.eq_of_covers covers))
  lerp covers := .of_eq (lerp_agrees (Environment.eq_of_covers covers))
  same {_ x _} isClass covers := by
    obtain rfl : x.register = _ := isClass
    exact Option.some.inj ((Environment.eq_of_covers covers).symm.trans (convert?_register x))
  choice {_ x _ _ _} isBool oneOf zeroOf covers := by
    cases x with
    | bool condition =>
        exact .of_eq (@choice_agrees env.arithmetic _ _ _ _ _ oneOf zeroOf
          (Environment.eq_of_covers covers))
    | int _ | float _ => cases isBool
  comparison isClass isNumber zeroOf covers := by
    obtain rfl : _ = _ := isClass
    exact .of_eq (comparison_agrees (fun n _ => zeroTest n) zeroOf isNumber
      (Environment.eq_of_covers covers))

end Lowering

/-- Lowering a well-typed graph of scalars without cycles succeeds if all roots are outputs, and
every output keeps its value. The arithmetic has to compare with zero as conversions to truth values
do. -/
theorem lowering_keeps_values {env : Environment} {g : Graph} (respectful : env.Respectful)
    (zeroTest : ∀ x, env.arithmetic.equal x .zero = x.isZero) (acyclic : g.Acyclic)
    (typed : g.WellTyped) (scalar : g.Scalar)
    (exactly : ∀ id, g.Reachable id → g.lowersExactly id = true)
    : match Compiler.lowering g with
      | .ok _ lowered =>
          lowered.outputs = g.outputs
          ∧ ∀ root ∈ g.outputs, ∀ decl v,
              g.Yields env root decl v → lowered.Yields env root decl v
      | .error _ _ => ¬ g.Rooted := by
  have lowers := lowering_refines (Lowering.grades_algebra env) acyclic typed scalar
    (fun reachable has => typed.register_of_has respectful reachable has)
    fun reachable => .inr (.inl ⟨Lowering.laws_algebra zeroTest, exactly _ reachable⟩)
  cases outcome : Compiler.lowering g with
  | error e left => rwa [outcome] at lowers
  | ok _ lowered =>
      rw [outcome] at lowers
      exact ⟨lowers.1.outputs, fun root member decl v yields => yields.of_refines lowers.1 member⟩

/-- The standard arithmetic compares with zero as conversions do. -/
theorem FloatOps.standard_equal_zero (x : Binary32)
    : FloatOps.standard.equal x .zero = x.isZero := by
  have zeroKey : Binary32.zero.orderKey = 0 := by decide
  have zeroNumber : Binary32.zero.isNaN = false := by decide
  have key : x.orderKey = 0 ↔ x.magnitude = 0 := by
    rw [Binary32.orderKey]
    split <;> omega
  have number (isZero : x.magnitude = 0) : x.isNaN = false := by
    simp [Binary32.isNaN, Binary32.exponent, isZero]
  show (!x.isNaN && !Binary32.zero.isNaN && decide (x.orderKey = Binary32.zero.orderKey))
    = decide (x.magnitude = 0)
  rw [zeroKey, zeroNumber]
  by_cases isZero : x.magnitude = 0
  · simp [key.mpr isZero, isZero, number isZero]
  · have nonzero : x.orderKey ≠ 0 := fun same => isZero (key.mp same)
    simp [isZero, nonzero]

/-- The least integer modulo a stream, less the cube of the same stream converted to its own class;
and a float as a truth value. -/
def lowerable : Graph :=
  let int : DataType := .scalarOf .int
  let float : DataType := .scalarOf .float
  let g := (Graph.empty.declareInput ⟨"x", int⟩).pushConstant (.int (-2147483648))
  let g := (g.pushBinary .modulo 1 0).pushConstant (.int 3)
  let g := (g.pushConversion .int 0).pushBinary .pow 4 3
  let g := (g.pushUnary .negate 5).pushBinary .add 2 6
  let g := (g.declareOutput ⟨"y", int⟩ 7).declareInput ⟨"f", float⟩
  (g.pushConversion .bool 9).declareOutput ⟨"z", .scalarOf .bool⟩ 10

/-- Integers are minus one, floats are one. -/
def lowerableEnvironment : Environment :=
  .uniform .standard fun
    | .int => .int (-1)
    | .float => .float .one
    | _ => .bool false

theorem lowering_keeps_values_lowerable
    : lowerableEnvironment.Respectful
      ∧ (∀ x, lowerableEnvironment.arithmetic.equal x .zero = x.isZero)
      ∧ lowerable.Acyclic
      ∧ lowerable.WellTyped
      ∧ lowerable.Scalar
      ∧ (∀ id, lowerable.Reachable id → lowerable.lowersExactly id = true)
      ∧ lowerable.Yields lowerableEnvironment 8 ⟨"y", .scalarOf .int⟩ (.int 1)
      ∧ ∃ lowered,
          Compiler.lowering lowerable = .ok () lowered
          ∧ lowered.outputs = [8, 11]
          ∧ lowered.Yields lowerableEnvironment 8 ⟨"y", .scalarOf .int⟩ (.int 1) := by
  have respectful : lowerableEnvironment.Respectful :=
    Environment.uniform_respectful fun r known => by cases r <;> first | rfl | cases known
  have zeroTest (x : Binary32) : lowerableEnvironment.arithmetic.equal x .zero = x.isZero :=
    FloatOps.standard_equal_zero x
  have acyclic : lowerable.Acyclic := Graph.acyclic_of_lt (by decide +kernel)
  have typed : lowerable.WellTyped :=
    Graph.wellTyped_of_lt (by decide +kernel) (by decide +kernel) (by decide +kernel)
  have every {P : NodeId → Prop} (all : ∀ id < lowerable.size, P id) (id : NodeId)
      (reachable : lowerable.Reachable id) : P id :=
    all id (typed.lt_size reachable)
  have scalar : lowerable.Scalar := every (by decide +kernel)
  have exactly (id : NodeId) (reachable : lowerable.Reachable id) :
      lowerable.lowersExactly id = true :=
    every (P := fun id => lowerable.lowersExactly id = true) (by decide +kernel) id reachable
  have x : lowerable.Has lowerableEnvironment.meaning 0 (.int (-1)) := .of_kind rfl .nil rfl
  have least : lowerable.Has lowerableEnvironment.meaning 1 (.int (-2147483648)) :=
    .of_kind rfl .nil rfl
  have remainder : lowerable.Has lowerableEnvironment.meaning 2 (.int 0) :=
    .of_kind rfl (.cons least (.cons x .nil)) rfl
  have exponent : lowerable.Has lowerableEnvironment.meaning 3 (.int 3) := .of_kind rfl .nil rfl
  have same : lowerable.Has lowerableEnvironment.meaning 4 (.int (-1)) :=
    .of_kind rfl (.cons x .nil) rfl
  have cube : lowerable.Has lowerableEnvironment.meaning 5 (.int (-1)) :=
    .of_kind rfl (.cons same (.cons exponent .nil)) rfl
  have negated : lowerable.Has lowerableEnvironment.meaning 6 (.int 1) :=
    .of_kind rfl (.cons cube .nil) rfl
  have sum : lowerable.Has lowerableEnvironment.meaning 7 (.int 1) :=
    .of_kind rfl (.cons remainder (.cons negated .nil)) rfl
  have yields : lowerable.Yields lowerableEnvironment 8 ⟨"y", .scalarOf .int⟩ (.int 1) :=
    ⟨7, rfl, sum⟩
  have kept := @lowering_keeps_values lowerableEnvironment lowerable respectful zeroTest
    acyclic typed scalar exactly
  refine ⟨respectful, zeroTest, acyclic, typed, scalar, exactly, yields, ?_⟩
  cases outcome : Compiler.lowering lowerable with
  | error e left =>
      rw [outcome] at kept
      exact (kept ⟨by decide, by decide⟩).elim
  | ok _ lowered =>
      rw [outcome] at kept
      exact ⟨lowered, rfl, kept.1, kept.2 8 (by decide) _ _ yields⟩

end StreamExpr
