import StreamExpr.Proofs.Validation
import StreamExpr.Proofs.WellFormedness

/-! Well-typed programs compile.
Once types are deduced, every stage succeeds. Scalars that are left over after lowering have an
instruction, so what is left over passes validation, and its outputs are declared, so a program is
generated.
-/

namespace StreamExpr

/-! ## The stages of a compile -/

namespace Compiler

/-- All stages of a compiler without custom passes. -/
def pipeline (ops : FloatOps) : Edit Program := do
  typing
  vectorOperators
  scalarization
  folding ops
  lowering
  folding ops
  sharing
  validation
  generation

theorem edit_bind {α β δ : Type} (first : Edit α) (next : α → Edit β)
    : (edit (first >>= next) : CompileM δ β) = edit first >>= fun a => edit (next a) := by
  funext ⟨g, notes⟩
  simp only [edit, bind, EStateM.bind]
  cases first g <;> rfl

/-- A compile without custom passes runs the pipeline. -/
theorem compile_standard (g : Graph)
    : standard.compile g () = match pipeline .standard g with
      | .ok program h => ⟨.ok program, h, ()⟩
      | .error e h => ⟨.error e, h, ()⟩ := by
  have same : (standard.run : CompileM Unit Program) = edit (pipeline .standard) := by
    simp only [pipeline, edit_bind]
    rfl
  rw [compile, same, edit]
  cases pipeline .standard g <;> rfl

theorem compile_eq_ok_iff {g h : Graph} {program : Program}
    : standard.compile g () = ⟨.ok program, h, ()⟩ ↔ pipeline .standard g = .ok program h := by
  rw [compile_standard]
  cases pipeline .standard g <;> simp

/-- The graphs between the stages of a compile. -/
structure Stages (ops : FloatOps) (g typed plain scalar folded lowered refolded shared : Graph)
    : Prop where
  types : typing g = .ok () typed
  replaces : vectorOperators typed = .ok () plain
  scalarizes : scalarization plain = .ok () scalar
  folds : folding ops scalar = .ok () folded
  lowers : lowering folded = .ok () lowered
  refolds : folding ops lowered = .ok () refolded
  shares : sharing refolded = .ok () shared

theorem Stages.pipeline_eq {ops : FloatOps}
    {g typed plain scalar folded lowered refolded shared : Graph}
    (stages : Stages ops g typed plain scalar folded lowered refolded shared)
    : pipeline ops g = (do validation; generation) shared := by
  simp only [pipeline, bind, EStateM.bind, stages.types, stages.replaces, stages.scalarizes,
    stages.folds, stages.lowers, stages.refolds, stages.shares]

theorem Stages.pipeline_of_generated {ops : FloatOps}
    {g typed plain scalar folded lowered refolded shared : Graph}
    (stages : Stages ops g typed plain scalar folded lowered refolded shared)
    (accepted : validation shared = .ok () shared) {program : Program}
    (generated : generate shared = .ok program)
    : pipeline ops g = .ok program shared := by
  rw [stages.pipeline_eq]
  simp only [bind, EStateM.bind, accepted, generation, generated]

end Compiler

theorem Graph.Scalarizes.stages {broad : Prop} {ops : FloatOps}
    {base g plain carried written scalar folded lowered refolded shared : Graph}
    (front : g.Scalarizes broad .trivial (fun _ _ => ()) plain carried written scalar)
    (back : scalar.Optimizes ops broad folded lowered refolded shared)
    (typed : Compiler.typing base = .ok () g)
    : Compiler.Stages ops base g plain scalar folded lowered refolded shared :=
  ⟨typed, front.replaced, front.scalarization, back.folds, back.lowers, back.refolds, back.shares⟩

/-! ## Instructions -/

section Instructions

variable {r a b c : RegisterClass}

/-- Operators of one operand that are lowered have a code for their class. -/
theorem UnaryOp.exists_code {op : UnaryOp} {x : NodeId} (entry : ⟨r, [a]⟩ ∈ op.signatures)
    (plain : op.isVectorOp = false)
    (lowered : Lowering.isSettled (.unary op x) = true ∨ op = .pow2 ∧ r ≠ .int)
    : ∃ code, op.code? r = some code := by
  refine Option.isSome_iff_exists.mp ?_
  rcases lowered with settled | ⟨rfl, notInt⟩
  · have all : ∀ s ∈ op.signatures, (op.code? s.result).isSome = true := by
      cases op <;> first | decide | (cases plain; done) | cases settled
    exact all _ entry
  · have all : ∀ s ∈ pow2.signatures, s.result ≠ .int → (pow2.code? s.result).isSome = true := by
      decide
    exact all _ entry notInt

/-- Operators of two operands that are lowered have a code for the class of the left one. -/
theorem BinaryOp.exists_code {op : BinaryOp} {x y : NodeId} (entry : ⟨r, [a, b]⟩ ∈ op.signatures)
    (plain : op.isVectorOp = false) (settled : Lowering.isSettled (.binary op x y) = true)
    : ∃ code, op.code? a = some code := by
  have all : ∀ s ∈ op.signatures, (op.code? (s.argument 0)).isSome = true := by
    cases op <;> first | decide | (cases plain; done) | cases settled
  exact Option.isSome_iff_exists.mp (all _ entry)

/-- A choice has a code for its class. -/
theorem TernaryOp.exists_code {op : TernaryOp} {x y z : NodeId}
    (entry : ⟨r, [a, b, c]⟩ ∈ op.signatures)
    (settled : Lowering.isSettled (.ternary op x y z) = true)
    : ∃ code, op.code? r = some code := by
  obtain rfl : op = .select := of_decide_eq_true settled
  have all : ∀ s ∈ select.signatures, (select.code? s.result).isSome = true := by decide
  exact Option.isSome_iff_exists.mp (all _ entry)

end Instructions

namespace Graph

variable {g h : Graph} {id : NodeId}

/-- What is typed by components, lowered and not put together from parts has an instruction. -/
theorem Loose.exists_code (loose : g.Loose (g.node id)) (lowered : g.isLowered (g.node id) = true)
    (whole : (g.node id).kind.isAssembly = false)
    : ∃ code, g.opCode? id = some code := by
  have known := loose.known
  have unmixed := loose.unmixed
  rw [isLowered, Bool.or_eq_true_iff] at lowered
  cases kind : (g.node id).kind with
  | constant value => exact ⟨_, by rw [opCode?, kind]⟩
  | call candidates arguments => exact ⟨_, by rw [opCode?, kind]⟩
  | input decl =>
      simp only [opCode?, kind]
      cases register : (g.node id).register <;> first | exact ⟨_, rfl⟩ | simp [register,
        RegisterClass.isKnown] at known
  | output decl e =>
      simp only [opCode?, kind]
      cases register : (g.node id).register <;> first | exact ⟨_, rfl⟩ | simp [register,
        RegisterClass.isKnown] at known
  | unary op x =>
      rw [kind] at lowered unmixed
      simp only [opCode?, kind]
      by_cases converts : op = .typeConversion
      · subst converts
        rcases lowered with settled | between
        · cases settled
        · rcases of_decide_eq_true between with ⟨_, register⟩
            | ⟨_, register⟩ <;> rw [register] <;> exact ⟨_, rfl⟩
      · have found : (g.node id).kind.signatures? = some op.signatures := kind ▸ if_neg converts
        have entry := loose.signature found
        rw [Node.children, kind] at entry
        have isLowered : Lowering.isSettled (.unary op x) = true ∨ op = .pow2
          ∧ (g.node id).register ≠ .int := by
          refine lowered.imp_right fun stays => ?_
          cases op <;>
            first | exact ⟨rfl, of_decide_eq_true stays⟩ | exact (converts rfl).elim | cases stays
        obtain ⟨code, found⟩ := UnaryOp.exists_code entry unmixed isLowered
        exact ⟨_, congrArg (Option.map _) found⟩
  | binary op x y =>
      rw [kind] at lowered unmixed
      have settled := lowered.resolve_right Bool.false_ne_true
      have proper : op ≠ .cross := by
        rintro rfl
        cases unmixed
      have found : (g.node id).kind.signatures? = some op.signatures := kind ▸ if_neg proper
      have entry := loose.signature found
      rw [Node.children, kind] at entry
      obtain ⟨code, found⟩ := BinaryOp.exists_code entry unmixed settled
      simp only [opCode?, kind, OpCode.withConstant?_map]
      exact ⟨_, congrArg (Option.map _) found⟩
  | ternary op x y z =>
      rw [kind] at lowered
      have settled := lowered.resolve_right Bool.false_ne_true
      have found : (g.node id).kind.signatures? = some op.signatures := kind ▸ rfl
      have entry := loose.signature found
      rw [Node.children, kind] at entry
      obtain ⟨code, found⟩ := TernaryOp.exists_code entry settled
      simp only [opCode?, kind]
      exact ⟨_, congrArg (Option.map _) found⟩
  | construct _ | swizzle _ _ =>
      rw [kind] at whole
      cases whole

/-! ## Validation and generation -/

/-- A typed scalar without operators on vectors that has an instruction passes validation. -/
theorem Sound.passes {code : OpCode} (sound : g.Sound (g.node id))
    (scalar : (g.type id).isVector = false) (unmixed : (g.node id).kind.mixes = false)
    (found : g.opCode? id = some code)
    : Validation.failure? g id = none := by
  have complete : Validation.leftover? (g.node id) = none := by
    rw [Validation.leftover?]
    cases kind : (g.node id).kind with
    | construct _ | swizzle _ _ =>
        simp only [opCode?, kind, reduceCtorEq] at found
    | unary op _ | binary op _ _ =>
        rw [kind] at unmixed
        exact if_neg (Bool.eq_false_iff.mp unmixed)
    | call candidates arguments =>
        obtain ⟨f, function⟩ := sound.exists_function kind
        simp only [function]
        rfl
    | output decl e =>
        refine if_neg ?_
        rw [← (sound.type_output kind).1]
        exact Bool.eq_false_iff.mp scalar
    | constant _ | input _ | ternary _ _ _ _ => rfl
  have known : (!(g.node id).type.isKnown) = false := by rw [sound.known, Bool.not_true]
  have isScalar : (g.node id).type.isVector = false := scalar
  simp only [Validation.failure?, known, isScalar, complete, found, Bool.false_eq_true,
    if_false, Option.isNone_some]

theorem Orders.passes {broad : Prop} (orders : g.Orders (.loose broad True))
    (whole : ∀ {id}, g.Reachable id → (g.node id).kind.isAssembly = false)
    (reachable : g.Reachable id)
    : Validation.failure? g id = none := by
  obtain ⟨loose, _, lowered⟩ := orders.allowed reachable
  obtain ⟨code, found⟩ := loose.exists_code (lowered trivial) (whole reachable)
  exact (orders.sound whole reachable).passes
    (DataType.isVector_eq_false (orders.scalar whole reachable)) loose.unmixed found

/-- A validated graph whose roots are declared is generated. -/
theorem exists_generated (tidy : g.Tidy) (rooted : g.Rooted) (declares : g.Declares)
    (passes : ∀ id, g.Reachable id → Validation.failure? g id = none)
    : ∃ program, Compiler.generate g = .ok program := by
  have scheduled := Schedule.ofGraph_of_roots rooted.1 rooted.2
  have covers := Schedule.covers_ofGraph scheduled
  have passed id isListed := Validation.passed_of_failure?
    (passes id (covers.reachable id isListed))
  have ready
    : Emission.Ready g (Schedule.ofNodes g (g.postOrder g.registerOperands g.outputs.reverse)) := by
    refine ⟨fun id isListed decl e kind => ?_, fun id _ child isOperand => tidy.unused isOperand⟩
    have isRoot := (covers.reachable id isListed).mem_outputs
      (by rw [Graph.isOutput, Node.isOutput, kind]) tidy.unused
    obtain ⟨own, _, isKind, isDeclared⟩ := declares isRoot
    obtain ⟨rfl, _⟩ := NodeKind.output.inj (isKind.symm.trans kind)
    exact ⟨own, isDeclared, rfl⟩
  obtain ⟨program, emitted⟩ := (Emission.emit_eq_ok_iff covers passed).mpr ready
  refine ⟨program, ?_⟩
  rw [Compiler.generate, scheduled]
  exact emitted

end Graph

/-- A typed graph without selections or vectors built from parts that are scalar goes through all
stages, and a program is generated. -/
theorem Graph.Conforms.exists_program (ops : FloatOps) {base typed : Graph}
    (conforms : typed.Conforms (.typed Unit True)) (declares : typed.Declares)
    (deduced : Compiler.typing base = .ok () typed)
    : ∃ plain carried written scalar folded lowered refolded shared program,
        typed.Scalarizes True .trivial (fun _ _ => ()) plain carried written scalar
        ∧ scalar.Optimizes ops True folded lowered refolded shared
        ∧ Compiler.pipeline ops base = .ok program shared := by
  obtain ⟨plain, carried, written, scalar, front⟩ := conforms.exists_scalar declares
  obtain ⟨folded, lowered, refolded, shared, back⟩ := front.isSettled.orders.exists_optimized ops
  have isShared := back.isShared.loosely
  have passes (id) (reachable : shared.Reachable id) := isShared.passes isShared.whole reachable
  obtain ⟨program, generated⟩ := exists_generated isShared.toTidy isShared.rooted
    (Graph.Declares.of_outlines front.declares back.keeps.outputs back.keeps.declared
    back.keeps.outline) passes
  have accepted := Validation.validation_of_passed isShared.toEnclosed isShared.rooted passes
  exact ⟨plain, carried, written, scalar, folded, lowered, refolded, shared, program, front, back,
    (front.stages back deduced).pipeline_of_generated accepted generated⟩

/-- Well-typed programs compile. On a graph that was built, with vectors built from parts, no output
as an operand and calls that give all inputs, every stage succeeds if type deduction does. What is
reachable after scalarization is scalar, without selections, vectors built from parts or operators
on vectors, and what is reachable after lowering has an instruction for its class. -/
theorem well_typed_compiles {base typed : Graph} (built : Built base)
    (requires : ∀ id, (base.node id).kind.requiresInputs = true)
    (unused : ∀ {id child}, base.Uses id child → base.isOutput child = false)
    (broad : ∀ id < base.size, base.Broad id) (deduced : Compiler.typing base = .ok () typed)
    : ∃ plain scalar folded lowered graph program,
        Compiler.vectorOperators typed = .ok () plain
        ∧ Compiler.scalarization plain = .ok () scalar
        ∧ (∀ id, scalar.Reachable id →
            (scalar.type id).isVector = false
            ∧ (scalar.node id).kind.isAssembly = false
            ∧ (scalar.node id).kind.mixes = false)
        ∧ Compiler.folding .standard scalar = .ok () folded
        ∧ Compiler.lowering folded = .ok () lowered
        ∧ (∀ id, lowered.Reachable id → ∃ code, lowered.opCode? id = some code)
        ∧ Compiler.standard.compile base () = ⟨.ok program, graph, ()⟩ := by
  obtain ⟨conforms, declares⟩ := built.conforms requires unused (fun _ => broad) deduced
  obtain ⟨plain, _, _, scalar, folded, lowered, _, shared, program, front, back, generated⟩ :=
    conforms.exists_program .standard declares deduced
  have isScalar := front.isSettled.orders
  refine ⟨plain, scalar, folded, lowered, shared, program, front.replaced, front.scalarization,
    fun id reachable => ?_, back.folds, back.lowers, fun id reachable => ?_,
      Compiler.compile_eq_ok_iff.mpr generated⟩
  · exact ⟨DataType.isVector_eq_false (isScalar.scalar isScalar.whole reachable),
      isScalar.whole reachable, (isScalar.allowed reachable).1.unmixed⟩
  · obtain ⟨loose, _, isLowered⟩ := back.isLowered.allowed reachable
    exact loose.exists_code (isLowered trivial) (back.isLowered.whole reachable)

theorem well_typed_compiles_mixedStreams
    : Built mixedStreams
      ∧ (∀ id, (mixedStreams.node id).kind.requiresInputs = true)
      ∧ (∀ {id child}, mixedStreams.Uses id child → mixedStreams.isOutput child = false)
      ∧ (∀ id < mixedStreams.size, mixedStreams.Broad id)
      ∧ ∃ typed, Compiler.typing mixedStreams = .ok () typed
        ∧ ∃ plain scalar folded lowered graph program,
            Compiler.vectorOperators typed = .ok () plain
            ∧ Compiler.scalarization plain = .ok () scalar
            ∧ (∀ id, scalar.Reachable id →
                (scalar.type id).isVector = false
                ∧ (scalar.node id).kind.isAssembly = false
                ∧ (scalar.node id).kind.mixes = false)
            ∧ Compiler.folding .standard scalar = .ok () folded
            ∧ Compiler.lowering folded = .ok () lowered
            ∧ (∀ id, lowered.Reachable id → ∃ code, lowered.opCode? id = some code)
            ∧ Compiler.standard.compile mixedStreams () = ⟨.ok program, graph, ()⟩ := by
  obtain ⟨typed, deduced⟩ := exists_typed_mixedStreams
  exact ⟨built_mixedStreams, requires_mixedStreams, unused_mixedStreams, broad_mixedStreams, typed,
    deduced, well_typed_compiles built_mixedStreams requires_mixedStreams unused_mixedStreams
    broad_mixedStreams deduced⟩

end StreamExpr
