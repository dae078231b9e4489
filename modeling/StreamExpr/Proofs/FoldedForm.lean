import StreamExpr.Proofs.FoldedGraph
import StreamExpr.Proofs.Unchanged

/-! The normal form of folding.
In a typed graph of scalars a step puts a node of the same type in the place of another, and
whatever it answers is quiet if the operands were. A pass visits operands first, so it leaves quiet
nodes only, and the next pass finds nothing to do.
-/

namespace StreamExpr

/-! ## Typed scalars -/

/-- Typing says enough for folding. -/
theorem Discipline.typed_follows (types : DataType → Prop) : Folding.Follows (.typed types) where
  scalars {ops g id} allowed operands _ := by
    exact ⟨allowed.1.known, allowed.2.1, (Graph.typedAt_iff.mpr allowed.1).signature,
      fun child isOperand =>
      ⟨(operands child isOperand).2.1, (operands child isOperand).1.register_value⟩⟩
  allows allowed _ sound type width :=
    ⟨⟨sound.known, sound.inferred, sound.classes⟩, width, type ▸ allowed.2.2⟩
  serves {new old} type constant := ⟨type, fun _ found => by cases constant.symm.trans found⟩

/-! ## The normal form -/

/-- Constants on the right of an operator that make it its left operand or a constant, whatever the
left operand is. -/
def BinaryOp.isIdle : BinaryOp → Value → Bool
  | .add, .int n | .subtract, .int n | .bitwiseAnd, .int n | .bitwiseOr,
    .int n | .bitwiseXor, .int n
  | .bitshiftLeft, .int n | .bitshiftRight, .int n => n = 0
  | .multiply, .int n => n = 0 || n = 1
  | .divide, .int n => n = 1
  | .add, .float x => x = .negativeZero
  | .subtract, .float x => x = .zero
  | .multiply, .float x | .divide, .float x => x = .one
  | .logicalAnd, .bool _ | .logicalOr, .bool _ => true
  | _, _ => false

/-- A node of which folding has nothing to make: it has no value made of constants, no constant on
its left that could be on its right, no constant on its right that it is idle with, and is no choice
by a constant. -/
structure Graph.Normal (ops : FloatOps) (g : Graph) (id : NodeId) : Prop where
  unevaluated : g.constantValue? ops id = none
  aligned : ∀ {op x y}, (g.node id).kind = .binary op x y → (g.value? x).isSome = true
    → g.value? y = none → op.exchanged? = none
  busy : ∀ {op x y constant}, (g.node id).kind = .binary op x y → g.value? y = some constant →
    op.isIdle constant = false
  undecided : ∀ {x y z}, (g.node id).kind = .ternary .select x y z → g.value? x = none

namespace Folding

variable {ops : FloatOps} {g : Graph} {id : NodeId}

/-- What is not simplified is not idle. -/
theorem isIdle_of_keep {op : BinaryOp} {x : NodeId} {constant : Value}
    (kept : simplify op x constant = .keep)
    : op.isIdle constant = false := by
  have negative : Binary32.negativeZero.isZero = true := rfl
  have positive : Binary32.zero.isZero = true := rfl
  have bits : Binary32.zero.bits = 0 := rfl
  cases op <;> cases constant <;>
    simp only [simplify, BinaryOp.isIdle, Value.isZero, Value.isOne, Value.toBool, Value.register,
      Value.bits] at kept ⊢ <;>
    grind

/-- An operator that is idle has a value on operands of its classes. -/
theorem isSome_of_isIdle (ops : FloatOps) {op : BinaryOp} {r : RegisterClass}
    {left constant : Value} (entry : ⟨r, [left.register, constant.register]⟩ ∈ op.signatures)
    (idle : op.isIdle constant = true)
    : (op.eval? ops left constant).isSome = true := by
  cases op <;> cases constant <;> simp only [BinaryOp.isIdle, Bool.false_eq_true,
    decide_eq_true_eq] at idle <;>
    cases left <;> simp [BinaryOp.signatures, Signature.closed, Value.register] at entry <;>
      simp [BinaryOp.eval?, BinaryOp.evalInt?, BinaryOp.evalFloat?, BinaryOp.evalBool?, idle]

/-- An operator on constants has the value that they give it, whatever the streams carry. -/
theorem has_of_constantValue? {env : Environment} {v : Value}
    (evaluates : g.constantValue? env.arithmetic id = some v)
    : g.Has env.meaning id v := by
  have operand {x : NodeId} {a : Value} (found : g.value? x = some a) : g.Has env.meaning x a :=
    .of_kind (Graph.kind_of_value? found) .nil (Node.result?_constant (Graph.kind_of_value? found))
  rw [Graph.constantValue?] at evaluates
  split at evaluates
  next op x kind =>
    obtain ⟨a, atX, evaluates⟩ := Option.bind_eq_some_iff.mp evaluates
    exact .of_kind kind (.cons (operand atX) .nil) ((Node.result?_unary kind).trans evaluates)
  next op x y kind =>
    obtain ⟨a, atX, evaluates⟩ := Option.bind_eq_some_iff.mp evaluates
    obtain ⟨b, atY, evaluates⟩ := Option.bind_eq_some_iff.mp evaluates
    exact .of_kind kind (.cons (operand atX) (.cons (operand atY) .nil))
      ((Node.result?_binary kind).trans evaluates)
  next op x y z kind =>
    obtain ⟨a, atX, evaluates⟩ := Option.bind_eq_some_iff.mp evaluates
    obtain ⟨b, atY, evaluates⟩ := Option.bind_eq_some_iff.mp evaluates
    obtain ⟨c, atZ, evaluates⟩ := Option.bind_eq_some_iff.mp evaluates
    exact .of_kind kind (.cons (operand atX) (.cons (operand atY) (.cons (operand atZ) .nil)))
      ((Node.result?_ternary kind).trans evaluates)
  · cases evaluates

/-- Streams and functions that are zero. -/
def idleEnvironment (ops : FloatOps) : Environment :=
  .uniform ops fun r => (Value.zero? r).getD (.bool false)

theorem idleEnvironment_respectful (ops : FloatOps) : (idleEnvironment ops).Respectful :=
  Environment.uniform_respectful fun r known => by cases r <;> first | rfl | cases known

section Reachable

variable (wellTyped : g.WellTyped) (reachable : g.Reachable id)

include wellTyped reachable

/-- The value that constants give to an operator has its class. -/
theorem register_of_constantValue? {v : Value} (evaluates : g.constantValue? ops id = some v)
    : v.register = g.register id :=
  have respectful := idleEnvironment_respectful ops
  wellTyped.register_of_has respectful reachable (has_of_constantValue? evaluates)

/-- A quiet node of a typed graph of scalars is normal. -/
theorem normal_of_quiet (isScalar : g.Scalar) (quiet : isQuiet ops g (g.node id) = true)
    : g.Normal ops id := by
  have known : (g.node id).type.isKnown = true := (wellTyped id reachable).1
  have isSingle : (g.node id).type.isVector = false := isScalar id reachable
  simp only [isQuiet, known, isSingle, Bool.not_true, Bool.or_false, Bool.false_or] at quiet
  have unevaluated : g.constantValue? ops id = none := by
    by_contra found
    obtain ⟨v, evaluates⟩ := Option.ne_none_iff_exists'.mp found
    have replaced : evaluated (g.register id) (some v) ≠ .keep := by
      rw [evaluated, if_pos (register_of_constantValue? wellTyped reachable evaluates)]
      exact fun same => by cases same
    rw [Graph.constantValue?] at evaluates
    split at evaluates
    next op x kind =>
      simp only [kind, foldUnary] at quiet
      exact replaced (evaluates ▸ of_decide_eq_true quiet)
    next op x y kind =>
      obtain ⟨a, atX, evaluates⟩ := Option.bind_eq_some_iff.mp evaluates
      obtain ⟨b, atY, evaluates⟩ := Option.bind_eq_some_iff.mp evaluates
      simp only [kind, atX, atY, evaluates, decide_eq_true_eq] at quiet
      exact replaced quiet
    next op x y z kind =>
      obtain ⟨a, atX, evaluates⟩ := Option.bind_eq_some_iff.mp evaluates
      rw [kind] at quiet
      cases op with
      | select => simp only [foldTernary, atX, decide_eq_true_eq, reduceCtorEq] at quiet
      | clamp | lerp =>
          simp only [foldTernary, atX, evaluates, decide_eq_true_eq] at quiet
          exact replaced quiet
    · cases evaluates
  refine ⟨unevaluated, fun {op x y} kind left right => ?_, fun {op x y constant} kind right => ?_,
    fun {x y z} kind => ?_⟩
  · obtain ⟨a, atLeft⟩ := Option.isSome_iff_exists.mp left
    simp only [kind, atLeft, right] at quiet
    exact Option.isNone_iff_eq_none.mp quiet
  · cases atLeft : g.value? x with
    | none =>
        simp only [kind, atLeft, right, decide_eq_true_eq] at quiet
        exact isIdle_of_keep quiet
    | some a =>
        -- An idle operator on constants would have been evaluated.
        by_contra idle
        have operands : g.children id = [x, y] := congrArg NodeKind.children kind
        have proper : op ≠ .cross := fun isCross => idle (by rw [isCross]; cases constant <;> rfl)
        have typed {child} (uses : child ∈ g.children id) :=
          wellTyped child (reachable.operand uses)
        have entry := (wellTyped id reachable).signature
          (show (g.node id).kind.signatures? = some op.signatures from kind ▸ if_neg proper)
        rw [operands, List.map_cons, List.map_cons, List.map_nil,
          ← (Graph.typedAt_iff.mp (typed (by simp [operands]))).register_value atLeft,
          ← (Graph.typedAt_iff.mp (typed (by simp [operands]))).register_value right] at entry
        have evaluates := isSome_of_isIdle ops entry (Bool.eq_true_of_not_eq_false idle)
        simp only [Graph.constantValue?, kind, atLeft, right, Option.bind_some] at unevaluated
        rw [unevaluated] at evaluates
        cases evaluates
  · cases found : g.value? x with
    | none => rfl
    | some condition =>
        simp only [kind, foldTernary, found, decide_eq_true_eq, reduceCtorEq] at quiet

end Reachable

/-- Folding leaves a graph alone whose nodes are quiet. -/
theorem folding_of_quiet (acyclic : g.Acyclic) (rooted : g.Rooted)
    (quiet : ∀ {id}, g.Reachable id → isQuiet ops g (g.node id) = true)
    : Compiler.folding ops g = .ok () g := by
  have agrees : Edit.Agrees g (fun _ => True) False (step ops) := fun id reachable =>
    .of_ok (t := ()) (step_quiet (quiet reachable)) trivial ⟨rfl, trivial⟩
  obtain ⟨_, _, ran, _⟩ := (agrees.runs_postOrder acyclic fun unrooted => unrooted rooted).exists_ok
  exact ran

end Folding

/-- Folding reaches its normal form in one run: it leaves every node of the result alone, no node of
the result has anything left to fold, and folding the result leaves its arena and its roots as they
are. -/
theorem folding_reaches_normal_form (ops : FloatOps) {g : Graph} (acyclic : g.Acyclic)
    (wellTyped : g.WellTyped) (isScalar : g.Scalar)
    : match Compiler.folding ops g with
      | .ok _ h =>
          (∀ id, h.Reachable id → Folding.step ops id h = .ok id h ∧ h.Normal ops id)
          ∧ Compiler.folding ops h = .ok () h
      | .error _ _ => ¬ g.Rooted := by
  have folds := folding_obeys ops (Discipline.typed_follows fun _ => True)
    (wellTyped.obeys acyclic isScalar fun _ _ => trivial)
  cases outcome : Compiler.folding ops g with
  | error e h =>
      rw [outcome] at folds
      exact folds
  | ok _ h =>
      rw [outcome] at folds
      obtain ⟨obeys, rooted, _, quiet⟩ := folds
      refine ⟨fun id reachable => ⟨Folding.step_quiet (quiet id reachable), ?_⟩,
        Folding.folding_of_quiet obeys.acyclic rooted fun {id} => quiet id⟩
      exact Folding.normal_of_quiet obeys.wellTyped reachable obeys.isScalar (quiet id reachable)

/-- A choice by a constant of a sum whose constant is on its left and is zero, times a product of
constants, divided by zero. -/
def entangled : Graph :=
  let int : DataType := .scalarOf .int
  let g := ((Graph.empty.declareInput ⟨"x", int⟩).pushConstant (.int 0)).pushConstant (.int 3)
  let g := (g.pushBinary .add 1 0).pushBinary .multiply 2 2
  let g := (g.pushConstant (.bool false)).pushTernary .select 5 1 3
  let g := (g.pushBinary .multiply 4 6).pushBinary .divide 7 1
  g.declareOutput ⟨"y", int⟩ 8

theorem folding_reaches_normal_form_entangled
    : entangled.Acyclic
      ∧ entangled.WellTyped
      ∧ entangled.Scalar
      ∧ ∃ h,
          Compiler.folding .standard entangled = .ok () h
          ∧ (∀ id, h.Reachable id → Folding.step .standard id h = .ok id h ∧ h.Normal .standard id)
          ∧ Compiler.folding .standard h = .ok () h := by
  have acyclic : entangled.Acyclic := Graph.acyclic_of_lt (by decide +kernel)
  have wellTyped : entangled.WellTyped :=
    Graph.wellTyped_of_lt (by decide +kernel) (by decide +kernel) (by decide +kernel)
  have isScalar : entangled.Scalar := by
    have every : ∀ id < entangled.size, (entangled.type id).isVector = false := by decide +kernel
    exact fun id reachable => every id (wellTyped.lt_size reachable)
  have reached := folding_reaches_normal_form .standard acyclic wellTyped isScalar
  refine ⟨acyclic, wellTyped, isScalar, ?_⟩
  cases outcome : Compiler.folding .standard entangled with
  | error e left =>
      rw [outcome] at reached
      exact (reached ⟨by decide, by decide⟩).elim
  | ok _ h =>
      rw [outcome] at reached
      exact ⟨h, rfl, reached⟩

end StreamExpr
