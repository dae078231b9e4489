import StreamExpr.Proofs.Bindings
import StreamExpr.Proofs.SharedGraph

/-! The passes of a compile bind a graph to nothing new.
They add operators, selections, constructions and constants, and calls of functions that are called
already. Only the splitting of streams adds nodes that read or write one.
-/

namespace StreamExpr

open Evolution

/-- Graphs, each bound as those before it. -/
def bindings : Evolution Graph Graph where
  view g := g
  Later := Graph.Binds
  refl := .refl
  trans := .trans

theorem bindings_pointable : bindings.Pointable where
  point g parent slot new := ⟨_, rfl, g.binds_setChild parent slot new⟩
  redirect g index root := ⟨_, rfl, g.binds_setOutput index root⟩

/-! ## Edits -/

theorem stays_modify {f : Graph → Graph} (binds : ∀ g : Graph, g.Binds (f g))
    : bindings.Stays (modify f : Edit Unit) :=
  fun g => .of_ok (t := f g) rfl (binds g) trivial

theorem stays_add {push : Graph → Graph} (binds : ∀ g : Graph, g.Binds (push g))
    : bindings.Stays (Edit.add push) :=
  fun g => .of_ok (t := push g) rfl (binds g) trivial

theorem stays_constant (value : Value) : bindings.Stays (Edit.constant value) :=
  stays_add fun _ => Graph.binds_push_of_none rfl

theorem stays_unary (op : UnaryOp) (x : NodeId) : bindings.Stays (Edit.unary op x) :=
  stays_add fun _ => Graph.binds_pushDeduced_of_none rfl

theorem stays_conversion (target : RegisterClass) (x : NodeId)
    : bindings.Stays (Edit.conversion target x) :=
  stays_add fun _ => Graph.binds_push_of_none rfl

theorem stays_binary (op : BinaryOp) (x y : NodeId) : bindings.Stays (Edit.binary op x y) :=
  stays_add fun _ => Graph.binds_pushDeduced_of_none rfl

theorem stays_ternary (op : TernaryOp) (x y z : NodeId) : bindings.Stays (Edit.ternary op x y z) :=
  stays_add fun _ => Graph.binds_pushDeduced_of_none rfl

theorem stays_construct (type : DataType) (arguments : List NodeId)
    : bindings.Stays (Edit.construct type arguments) :=
  stays_add fun _ => Graph.binds_push_of_none rfl

theorem stays_swizzle (x : NodeId) (components : List Nat)
    : bindings.Stays (Edit.swizzle x components) :=
  stays_add fun _ => Graph.binds_pushDeduced_of_none rfl

theorem stays_component (x : NodeId) (c : Nat) : bindings.Stays (Edit.component x c) :=
  fun g => .of_ok (t := (g.component x c).2) rfl (g.binds_component x c) trivial

/-- A new call of functions that some node calls. -/
theorem runs_call {g : Graph} {candidates : List FunctionSig} {source : NodeId}
    (called : (g.node source).kind.binding? = some (.call candidates)) (arguments : List NodeId)
    : bindings.Runs True g (Edit.call candidates arguments) fun _ _ => True := by
  refine .of_ok (t := g.pushCall candidates arguments) rfl
    (Graph.binds_pushDeduced fun b own => ?_) trivial
  obtain rfl := Option.some.inj own
  exact ⟨rfl, source, called⟩

/-! ## Typing -/

namespace Typing

theorem stays_convert (id : NodeId) (target : RegisterClass)
    : bindings.Stays (convert id target) := by
  refine .bind (.read _) fun value => ?_
  split
  · exact stays_constant _
  · exact stays_conversion target id

theorem stays_convertSlot (id : NodeId) (slot : Nat) : bindings.Stays (convertSlot id slot) := by
  refine .bind (.read _) fun asked => ?_
  split
  · exact .bind (stays_convert _ _) fun converted => stays_modify fun g =>
      g.binds_setChild id slot converted
  · exact .pure ()

theorem stays_adaptWidth (expression : NodeId) (target : DataType)
    : bindings.Stays (adaptWidth expression target) := by
  refine .bind (.read _) fun width => ?_
  split
  · exact .pure expression
  · split
    · exact stays_swizzle _ _
    · exact stays_construct _ _

theorem stays_adaptOutput (id : NodeId) : bindings.Stays (adaptOutput id) := by
  refine .bind (.read _) fun n => ?_
  split
  · refine .bind (stays_adaptWidth _ _) fun adapted => ?_
    split
    · exact stays_modify fun g => g.binds_setChild id 0 adapted
    · exact .pure ()
  · exact .pure ()

theorem stays_step (id : NodeId) : bindings.Stays (step id) := by
  have convertAll (slots : List Nat) : bindings.Stays (slots.forM (convertSlot id)) := by
    induction slots with
    | nil => exact .pure ()
    | cons slot slots ih => exact .bind (stays_convertSlot id slot) fun _ => ih
  refine .bind (stays_modify fun g => g.binds_deduce id) fun _ => .bind (.read _) fun isKnown => ?_
  have goesOn := Stays.bind (.read fun g => List.range (g.children id).length) fun slots =>
    Stays.bind (convertAll slots) fun _ => Stays.bind (stays_adaptOutput id) fun _ =>
    .pure (E := bindings) id
  split
  · exact .bind (.read _) fun e => .bind (.throw (Fault.abandoned e)) fun _ => goesOn
  · exact goesOn

end Typing

theorem stays_typing : bindings.Stays Compiler.typing :=
  bindings_pointable.stays_pass Typing.stays_step .postOrder

/-! ## Vectors -/

namespace VectorOperators

theorem stays_magnitude (v : NodeId) : bindings.Stays (magnitude v) := by
  refine .bind (.read _) fun width => ?_
  split
  · exact stays_unary _ _
  · exact .bind (stays_binary _ _ _) fun dot => stays_unary _ dot

theorem stays_minor (a b : NodeId) (i j : Nat) : bindings.Stays (minor a b i j) :=
  .bind (stays_component a i) fun _ => .bind (stays_component b j) fun _ =>
  .bind (stays_component a j) fun _ =>
    .bind (stays_component b i) fun _ => .bind (stays_binary _ _ _) fun _ =>
    .bind (stays_binary _ _ _) fun _ =>
      stays_binary _ _ _

theorem stays_replaceOnce (id : NodeId) : bindings.Stays (replaceOnce id) := by
  refine .bind (.read _) fun n => ?_
  split
  · exact stays_magnitude _
  · exact .bind (stays_magnitude _) fun length => stays_binary _ _ length
  · refine .bind (.read _) fun width => ?_
    split <;> exact .pure _
  · refine .bind (.read _) fun width => ?_
    split <;> exact .pure _
  · refine .bind (.read _) fun isVector => ?_
    split
    · exact .pure _
    · exact stays_binary _ _ _
  · exact .bind (stays_minor _ _ _ _) fun _ => .bind (stays_minor _ _ _ _) fun _ =>
      .bind (stays_minor _ _ _ _) fun _ => stays_construct _ _
  · exact .pure _

end VectorOperators

theorem stays_vectorOperators : bindings.Stays Compiler.vectorOperators :=
  bindings_pointable.stays_pass (.settle VectorOperators.stays_replaceOnce) .preOrder

namespace Scalarization

theorem stays_componentsAt (c : Nat) (ids : List NodeId) : bindings.Stays (componentsAt c ids) := by
  induction ids with
  | nil => exact .pure []
  | cons id ids ih => exact .bind (stays_component id c) fun _ => .bind ih fun _ => .pure _

theorem stays_constructed (vector : NodeId) (arguments : List NodeId) (c : Nat)
    : bindings.Stays (constructed vector arguments c) := by
  refine .bind (.read _) fun single => ?_
  split
  · exact .pure _
  · refine .bind (.read _) fun place => ?_
    split
    · exact stays_component _ _
    · refine .bind (.read _) fun register => ?_
      split
      · exact stays_constant _
      · exact .bind (.read _) fun _ => .throw _

/-- A selection of a call is a call of the same functions. -/
theorem stays_extract (selection vector : NodeId) (c : Nat)
    : bindings.Stays (extract selection vector c) := by
  intro g
  rw [extract, Evolution.runs_read]
  split
  · exact .pure trivial
  split
  · exact stays_constructed _ _ _ g
  · exact stays_component _ _ g
  · exact Stays.bind (stays_component _ _) (fun x => stays_conversion _ x) g
  · split
    · exact .pure trivial
    · exact Stays.bind (stays_component _ _) (fun x => stays_unary _ x) g
  · split
    · exact .pure trivial
    · exact Stays.bind (stays_component _ _)
        (fun x => .bind (stays_component _ _) fun y => stays_binary _ x y) g
  · exact Stays.bind (stays_component _ _) (fun x => .bind (stays_component _ _) fun y =>
      .bind (stays_component _ _) fun z => stays_ternary _ x y z) g
  next candidates arguments kind =>
    refine .bind (stays_componentsAt c arguments g) fun parts h later _ => ?_
    exact runs_call (later.kept (NodeKind.binding?_eq_call.mpr ⟨arguments, kind⟩)) parts
  · exact .pure trivial
  · exact .pure trivial
  · exact .pure trivial

theorem stays_reduceFrom (op : BinaryOp) (vector : NodeId) (cs : List Nat) (result : NodeId)
    : bindings.Stays (reduceFrom op vector cs result) := by
  induction cs generalizing result with
  | nil => exact .pure result
  | cons c cs ih =>
      exact .bind (stays_component _ _) fun _ => .bind (stays_binary _ _ _) fun next => ih next

theorem stays_reduce (op : BinaryOp) (vector : NodeId) : bindings.Stays (reduce op vector) :=
  .bind (.read _) fun _ => .bind (stays_component _ _) fun first =>
  stays_reduceFrom op vector _ first

theorem stays_product (a b : NodeId) (c : Nat) : bindings.Stays (product a b c) :=
  .bind (stays_component _ _) fun _ => .bind (stays_component _ _) fun _ => stays_binary _ _ _

theorem stays_dotFrom (a b : NodeId) (cs : List Nat) (sum : NodeId)
    : bindings.Stays (dotFrom a b cs sum) := by
  induction cs generalizing sum with
  | nil => exact .pure sum
  | cons c cs ih =>
      exact .bind (stays_product a b c) fun _ => .bind (stays_binary _ _ _) fun next => ih next

theorem stays_scalarizeOnce (id : NodeId) : bindings.Stays (scalarizeOnce id) := by
  refine .bind (.read _) fun n => ?_
  split
  · split
    · exact stays_extract _ _ _
    · exact .pure _
  · refine .bind (.read _) fun isVector => ?_
    split
    · exact stays_reduce _ _
    · exact .pure _
  · refine .bind (.read _) fun isVector => ?_
    split
    · exact stays_reduce _ _
    · exact .pure _
  · exact .bind (.read _) fun _ => .bind (stays_product _ _ _) fun first =>
      stays_dotFrom _ _ _ first
  · exact .pure _

theorem stays_pass : bindings.Stays (Edit.pass .preOrder step) :=
  bindings_pointable.stays_pass (.settle stays_scalarizeOnce) .preOrder

end Scalarization

/-! ## Folding -/

namespace Folding

theorem stays_apply (id : NodeId) (outcome : Outcome) : bindings.Stays (outcome.apply id) := by
  cases outcome with
  | keep => exact .pure id
  | operand other => exact .pure other
  | constant value => exact stays_constant value

theorem stays_foldBinary (ops : FloatOps) (op : BinaryOp) (id left right : NodeId)
    (target : RegisterClass)
    : bindings.Stays (foldBinary ops op id left right target) := by
  refine .bind (.read _) fun values => ?_
  split
  · exact stays_apply _ _
  · rw [swapConstant]
    split
    · exact .bind (stays_binary _ _ _) fun swapped => stays_apply swapped _
    · exact .pure id
  · exact stays_apply _ _
  · exact .pure id

theorem stays_step (ops : FloatOps) (id : NodeId) : bindings.Stays (step ops id) := by
  refine .bind (.read _) fun n => ?_
  split
  · exact .pure id
  · split
    · exact .bind (.read _) fun outcome => stays_apply id outcome
    · exact stays_foldBinary _ _ _ _ _ _
    · exact .bind (.read _) fun outcome => stays_apply id outcome
    · exact .pure id

end Folding

theorem stays_folding (ops : FloatOps) : bindings.Stays (Compiler.folding ops) :=
  bindings_pointable.stays_pass (Folding.stays_step ops) .postOrder

/-! ## Lowering -/

namespace Lowering

theorem stays_addZero (register : RegisterClass) : bindings.Stays (addZero register) := by
  rw [addZero]
  split
  · exact stays_constant _
  · exact .throw _

theorem stays_addOne (register : RegisterClass) : bindings.Stays (addOne register) := by
  rw [addOne]
  split
  · exact stays_constant _
  · exact .throw _

theorem stays_conversion (id operand : NodeId) (target : RegisterClass)
    : bindings.Stays (conversion id operand target) := by
  have choice : bindings.Stays (do
      let oneId ← addOne target
      let zeroId ← addZero target
      Edit.ternary .select operand oneId zeroId) :=
    .bind (stays_addOne target) fun _ => .bind (stays_addZero target) fun _ => stays_ternary _ _ _ _
  refine .bind (.read _) fun source => ?_
  split
  · exact .pure operand
  · split
    · exact choice
    · exact choice
    · exact .bind (stays_addZero _) fun _ => stays_binary _ _ _
    · exact .bind (stays_addZero _) fun _ => stays_binary _ _ _
    · exact .pure id

theorem stays_modulo (register : RegisterClass) (x y : NodeId)
    : bindings.Stays (modulo register x y) := by
  refine .bind (stays_binary _ _ _) fun quotient => ?_
  have goesOn (whole : NodeId) : bindings.Stays (do
      let product ← Edit.binary .multiply whole y
      Edit.binary .subtract x product) :=
    .bind (stays_binary _ _ _) fun _ => stays_binary _ _ _
  split
  · exact .bind (.pure quotient) goesOn
  · exact .bind (stays_unary _ _) goesOn

theorem stays_multiplyBy (x : NodeId) (times : Nat) (product : NodeId)
    : bindings.Stays (multiplyBy x times product) := by
  induction times generalizing product with
  | zero => exact .pure product
  | succ times ih => exact .bind (stays_binary _ _ _) fun next => ih next

theorem stays_intPowByFloat (x y : NodeId) : bindings.Stays (intPowByFloat x y) :=
  .bind (Typing.stays_convert _ _) fun _ => .bind (Typing.stays_convert _ _) fun _ =>
    .bind (stays_binary _ _ _) fun power => StreamExpr.stays_conversion _ power

theorem stays_intPow (x y : NodeId) : bindings.Stays (intPow x y) := by
  refine .bind (.read _) fun value => ?_
  split
  · split
    · exact stays_constant _
    · split
      · exact stays_multiplyBy _ _ _
      · exact stays_intPowByFloat _ _
  · exact stays_intPowByFloat _ _

theorem stays_lowerOnce (id : NodeId) : bindings.Stays (lowerOnce id) := by
  refine .bind (.read _) fun n => ?_
  dsimp only
  split
  · exact stays_conversion _ _ _
  · exact .bind (stays_addZero _) fun _ => stays_binary _ _ _
  · exact .bind (stays_addZero _) fun _ => .bind (stays_addOne _) fun _ =>
      .bind (stays_binary _ _ _) fun _ =>
      stays_binary _ _ _
  · exact .bind (stays_constant _) fun _ => stays_binary _ _ _
  · exact .bind (stays_constant _) fun _ => stays_binary _ _ _
  · exact .bind (stays_unary _ _) fun _ => stays_binary _ _ _
  · split
    · exact .bind (stays_constant _) fun _ => stays_binary _ _ _
    · exact .pure id
  · exact stays_modulo _ _ _
  · exact .bind (stays_unary _ _) fun _ => .bind (stays_unary _ _) fun _ => stays_binary _ _ _
  · split
    · exact stays_intPow _ _
    · exact .bind (stays_unary _ _) fun _ => .bind (stays_binary _ _ _) fun _ => stays_unary _ _
  · exact .bind (stays_binary _ _ _) fun _ => stays_binary _ _ _
  · exact .bind (stays_binary _ _ _) fun _ => .bind (stays_binary _ _ _) fun _ => stays_binary _ _ _
  · exact .pure id

end Lowering

theorem stays_lowering : bindings.Stays Compiler.lowering :=
  bindings_pointable.stays_pass (.settle Lowering.stays_lowerOnce) .preOrder

/-! ## Sharing and validation -/

/-- Sharing edits no graph. -/
theorem Sharing.stays_step (id : NodeId) : (bindings.remembering Table).Stays (step id) := by
  intro s
  cases own : key? (s.1.node id) with
  | none =>
      refine .of_ok (a := id) (t := s) ?_ (Graph.Binds.refl _) trivial
      change step id ⟨s.1, s.2⟩ = .ok id ⟨s.1, s.2⟩
      rw [step_of_key, own]
  | some key =>
      cases stands : s.2.find? key with
      | some shared =>
          refine .of_ok (a := shared) (t := s) ?_ (Graph.Binds.refl _) trivial
          change step id ⟨s.1, s.2⟩ = .ok shared ⟨s.1, s.2⟩
          rw [step_of_key, own]
          simp only [stands]
      | none =>
          refine .of_ok (a := id) (t := (s.1, s.2.insert key id)) ?_ (Graph.Binds.refl _) trivial
          change step id ⟨s.1, s.2⟩ = .ok id ⟨s.1, s.2.insert key id⟩
          rw [step_of_key, own]
          simp only [stands]

theorem stays_sharing : bindings.Stays Compiler.sharing := by
  intro g
  have alike (id : NodeId) : (bindings_pointable.staying _).Alike (Sharing.step id)
    (Sharing.step id) := Sharing.stays_step id
  have runs := (bindings_pointable.staying _).run alike .postOrder (g, .empty)
  rw [Runs] at runs ⊢
  have view : (bindings.remembering Sharing.Table).view (g, .empty) = ⟨g, .empty⟩ := rfl
  rw [view] at runs
  simp only [Compiler.sharing, bindings]
  cases ran : Pass.run .postOrder Sharing.step ⟨g, .empty⟩ with
  | error e w => trivial
  | ok a w =>
      rw [ran] at runs
      obtain ⟨t, same, later, _⟩ := runs
      exact ⟨t.1, congrArg Workspace.graph same, later, trivial⟩

theorem Validation.stays_step (id : NodeId) : bindings.Stays (step id) := by
  refine .bind (.read _) fun failure => ?_
  split
  · exact .throw _
  · exact .pure id

theorem stays_validation : bindings.Stays Compiler.validation :=
  bindings_pointable.stays_pass Validation.stays_step .preOrder

end StreamExpr
