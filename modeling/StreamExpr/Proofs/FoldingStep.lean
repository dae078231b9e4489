import StreamExpr.Compiler
import StreamExpr.Proofs.Pass

/-! What one step of constant folding can do.
A step leaves a node alone, or puts a constant, an operand or the node with its operands turned
around in its place. Everything about folding is proved by these cases.
-/

namespace StreamExpr

theorem Transform.ofEdit_of_ok {σ : Type} {step : NodeId → Edit NodeId} {id new : NodeId}
    {g h : Graph} (ran : step id g = .ok new h) (memory : σ)
    : Transform.ofEdit step id ⟨g, memory⟩ = .ok new ⟨h, memory⟩ := by
  rw [Transform.ofEdit, PassM.edit, ran]

/-- The value of an operator all of whose operands are constants. -/
def Graph.constantValue? (ops : FloatOps) (g : Graph) (id : NodeId) : Option Value :=
  match (g.node id).kind with
  | .unary op x => (g.value? x).bind fun a => op.eval? ops a (g.register id)
  | .binary op x y => (g.value? x).bind fun a => (g.value? y).bind fun b => op.eval? ops a b
  | .ternary op x y z =>
      (g.value? x).bind fun a => (g.value? y).bind fun b =>
      (g.value? z).bind fun c => op.eval? ops a b c
  | _ => none

namespace Folding

variable {ops : FloatOps} {g h : Graph} {id new place x y z : NodeId}
    {op : BinaryOp} {constant : Value}

/-! ## Nodes that folding leaves alone -/

/-- Nodes of which nothing can be made. -/
def isQuiet (ops : FloatOps) (g : Graph) (n : Node) : Bool :=
  n.type.isVector
  || !n.type.isKnown
  || match n.kind with
    | .unary op x => foldUnary ops g op x n.register = .keep
    | .binary op x y =>
        match g.value? x, g.value? y with
        | some a, some b => evaluated n.register (op.eval? ops a b) = .keep
        | some _, none => op.exchanged?.isNone
        | none, some b => simplify op x b = .keep
        | none, none => true
    | .ternary op x y z => foldTernary ops g op x y z n.register = .keep
    | _ => true

/-- What folding makes of a scalar of known type. -/
theorem step_scalar (known : ((g.type id).isVector || !(g.type id).isKnown) = false)
    : step ops id g
      = (match (g.node id).kind with
        | .unary op x => (foldUnary ops g op x (g.register id)).apply id
        | .binary op x y => foldBinary ops op id x y (g.register id)
        | .ternary op x y z => (foldTernary ops g op x y z (g.register id)).apply id
        | _ => return id) g := by
  rw [step, Edit.read_bind]
  change (if ((g.type id).isVector || !(g.type id).isKnown) = true then
    _ else _ : Edit NodeId) g = _
  rw [known]
  cases (g.node id).kind <;> rfl

theorem foldBinary_eq {op : BinaryOp} {x y : NodeId} {target : RegisterClass}
    : foldBinary ops op id x y target g
      = (match g.value? x, g.value? y with
        | some a, some b => (evaluated target (op.eval? ops a b)).apply id
        | some a, none => swapConstant op id x y a
        | none, some b => (simplify op x b).apply id
        | none, none => return id) g := by
  rw [foldBinary, Edit.read_bind]
  cases g.value? x <;> cases g.value? y <;> rfl

theorem step_quiet (quiet : isQuiet ops g (g.node id) = true) : step ops id g = .ok id g := by
  rw [isQuiet] at quiet
  cases known : ((g.type id).isVector || !(g.type id).isKnown) with
  | true =>
      rw [step, Edit.read_bind]
      change (if ((g.type id).isVector || !(g.type id).isKnown) = true then
        _ else _ : Edit NodeId) g = _
      rw [known]
      rfl
  | false =>
      rw [show ((g.node id).type.isVector || !(g.node id).type.isKnown) = false from known,
        Bool.false_or] at quiet
      rw [step_scalar known]
      cases kind : (g.node id).kind with
      | unary op x =>
          rw [kind] at quiet
          simp only
          rw [show foldUnary ops g op x (g.register id) = .keep from of_decide_eq_true quiet]
          rfl
      | binary op x y =>
          rw [kind] at quiet
          simp only at quiet ⊢
          rw [foldBinary_eq]
          cases atLeft : g.value? x <;> cases atRight : g.value? y <;>
            simp only [atLeft, atRight] at quiet ⊢
          · rfl
          · rw [of_decide_eq_true quiet]
            rfl
          · rw [swapConstant, Option.isNone_iff_eq_none.mp quiet]
            rfl
          · rw [show evaluated (g.register id) _ = .keep from of_decide_eq_true quiet]
            rfl
      | ternary op x y z =>
          rw [kind] at quiet
          simp only
          rw [show foldTernary ops g op x y z (g.register id) = .keep from of_decide_eq_true quiet]
          rfl
      | _ => rfl

/-! ## Nodes that are replaced -/

/-- Only the left operand is kept. -/
theorem eq_left_of_simplify {op : BinaryOp} {left id : NodeId} {constant : Value}
    (kept : simplify op left constant = .operand id)
    : id = left := by
  cases op <;> simp only [simplify] at kept <;> (repeat' split at kept) <;> cases kept <;> rfl

/-- A node has a constant on its right and no constant on its left, or a node is added that has so
and means the same. It is told with its operator, its operands and the graph it stands in. -/
inductive Aligns (g : Graph) (id : NodeId)
    : BinaryOp → NodeId → NodeId → Value → Graph → NodeId → Prop
  | there {op : BinaryOp} {x y : NodeId} {constant : Value}
    (kind : (g.node id).kind = .binary op x y) (left : g.value? x = none)
    (right : g.value? y = some constant)
    : Aligns g id op x y constant g id
  | turned {op exchanged : BinaryOp} {x y : NodeId} {constant : Value}
    (kind : (g.node id).kind = .binary op x y) (left : g.value? x = some constant)
    (right : g.value? y = none) (exchange : op.exchanged? = some exchanged)
    : Aligns g id exchanged y x constant (g.pushBinary exchanged y x) g.size

/-- What a step can do with a node: leave it, put in its place the constant that it evaluates to,
its left operand, the constant that it comes to, the node with its operands turned around, or the
branch that a constant chooses. -/
inductive Rewrites (ops : FloatOps) (g : Graph) (id : NodeId) : NodeId → Graph → Prop
  | quiet (quiet : isQuiet ops g (g.node id) = true) : Rewrites ops g id id g
  | value {v : Value} (evaluates : g.constantValue? ops id = some v)
    (register : v.register = g.register id)
    : Rewrites ops g id g.size (g.pushConstant v)
  | identity {op : BinaryOp} {x y place : NodeId} {constant : Value} {h : Graph}
    (aligns : Aligns g id op x y constant h place) (keeps : simplify op x constant = .operand x)
    : Rewrites ops g id x h
  | settled {op : BinaryOp} {x y place : NodeId} {constant v : Value} {h : Graph}
    (aligns : Aligns g id op x y constant h place) (settles : simplify op x constant = .constant v)
    : Rewrites ops g id h.size (h.pushConstant v)
  | turned {op : BinaryOp} {x y place : NodeId} {constant : Value} {h : Graph}
    (aligns : Aligns g id op x y constant h place) (quiet : simplify op x constant = .keep)
    : Rewrites ops g id place h
  | chosen {x y z : NodeId} {condition : Value} (kind : (g.node id).kind = .ternary .select x y z)
    (found : g.value? x = some condition)
    : Rewrites ops g id (if condition.toBool then y else z) g

theorem rewrites_evaluated {result : Option Value} (evaluates : g.constantValue? ops id = result)
    (busy : evaluated (g.register id) result ≠ .keep)
    : ∃ new h, (evaluated (g.register id) result).apply id g = .ok new h
      ∧ Rewrites ops g id new h := by
  cases result with
  | none => exact (busy rfl).elim
  | some v =>
      by_cases register : v.register = g.register id
      · rw [evaluated, if_pos register]
        exact ⟨g.size, g.pushConstant v, rfl, .value evaluates register⟩
      · exact (busy (if_neg register)).elim

/-- What comes of a node that is aligned. -/
theorem rewrites_aligned (aligns : Aligns g id op x y constant h place)
    : ∃ new k, (simplify op x constant).apply place h = .ok new k ∧ Rewrites ops g id new k := by
  cases outcome : simplify op x constant with
  | keep => exact ⟨place, h, rfl, .turned aligns outcome⟩
  | operand z =>
      obtain rfl := eq_left_of_simplify outcome
      exact ⟨z, h, rfl, .identity aligns outcome⟩
  | constant v => exact ⟨h.size, h.pushConstant v, rfl, .settled aligns outcome⟩

theorem rewrites_foldTernary {op : TernaryOp} (kind : (g.node id).kind = .ternary op x y z)
    (busy : foldTernary ops g op x y z (g.register id) ≠ .keep)
    : ∃ new h, (foldTernary ops g op x y z (g.register id)).apply id g = .ok new h
      ∧ Rewrites ops g id new h := by
  rw [foldTernary.eq_def] at busy ⊢
  cases found : g.value? x with
  | none =>
      simp only [found] at busy
      cases op <;> exact (busy rfl).elim
  | some a =>
      cases op with
      | select => exact ⟨_, g, rfl, .chosen kind found⟩
      | clamp | lerp =>
          simp only [found] at busy ⊢
          refine rewrites_evaluated ?_ busy
          rw [Graph.constantValue?, kind]
          simp only [found, Option.bind_some]

/-- A step does one of these. -/
theorem step_rewrites (ops : FloatOps) (g : Graph) (id : NodeId)
    : ∃ new h, step ops id g = .ok new h ∧ Rewrites ops g id new h := by
  cases busy : isQuiet ops g (g.node id) with
  | true => exact ⟨id, g, step_quiet busy, .quiet busy⟩
  | false =>
      obtain ⟨known, busy⟩ := Bool.or_eq_false_iff.mp busy
      rw [step_scalar known]
      cases kind : (g.node id).kind with
      | unary op x =>
          rw [kind] at busy
          refine rewrites_evaluated ?_ (of_decide_eq_false busy)
          rw [Graph.constantValue?, kind]
      | binary op x y =>
          rw [kind] at busy
          simp only at busy ⊢
          rw [foldBinary_eq]
          cases atLeft : g.value? x with
          | none =>
              cases atRight : g.value? y with
              | none =>
                  simp only [atLeft, atRight] at busy
                  cases busy
              | some b => exact rewrites_aligned (.there kind atLeft atRight)
          | some a =>
              cases atRight : g.value? y with
              | none =>
                  simp only [atLeft, atRight] at busy ⊢
                  cases exchange : op.exchanged? with
                  | none =>
                      rw [exchange] at busy
                      cases busy
                  | some exchanged =>
                      rw [swapConstant, exchange]
                      exact rewrites_aligned (.turned kind atLeft atRight exchange)
              | some b =>
                  simp only [atLeft, atRight] at busy ⊢
                  refine rewrites_evaluated ?_ (of_decide_eq_false busy)
                  rw [Graph.constantValue?, kind]
                  simp only [atLeft, atRight, Option.bind_some]
      | ternary op x y z =>
          rw [kind] at busy
          exact rewrites_foldTernary kind (of_decide_eq_false busy)
      | _ =>
          rw [kind] at busy
          cases busy

/-- Nodes that are added and not used: at most one on the operands of the node. -/
inductive Pads (g : Graph) (id : NodeId) : Graph → Prop
  | none : Pads g id g
  | turned {op : BinaryOp} {x y : NodeId} (operands : ∀ child ∈ [x, y], child ∈ g.children id)
    : Pads g id (g.pushBinary op x y)

theorem Aligns.pads (aligns : Aligns g id op x y constant h place) : Pads g id h := by
  cases aligns with
  | there => exact .none
  | turned kind =>
      refine .turned fun child member => ?_
      rw [show g.children id = _ from congrArg NodeKind.children kind]
      simpa [NodeKind.children, or_comm] using member

theorem Aligns.value (aligns : Aligns g id op x y constant h place) : g.isOutput id = false := by
  cases aligns with
  | there kind | turned kind => rw [Graph.isOutput, Node.isOutput, kind]

end Folding

end StreamExpr
