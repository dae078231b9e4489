import StreamExpr.Proofs.LoweredGraph
import StreamExpr.Proofs.SharedGraph
import StreamExpr.Proofs.VectorElimination

/-! Typing and shape are kept by all stages.
Type deduction leaves a well-formed graph, and so does every stage after it. Up to scalarization all
that is reachable is typed. From there on it is typed by components, and what is reachable in a
graph without vectors is scalar.
-/

namespace StreamExpr

namespace Graph

variable {g h : Graph} {n : Node} {id : NodeId} {broad low : Prop}

/-! ## Well-formed graphs -/

/-- A graph whose handles are places of its arena, without cycles, whose roots are outputs and whose
outputs are no operands. What is reachable has the type and the overload that its operands give, and
these have the classes that are asked for. The expression of an output has the type of the
output. -/
structure WellFormed (g : Graph) : Prop where
  operand : ∀ {id child}, child ∈ g.children id → child < g.size
  output : ∀ root ∈ g.outputs, root < g.size
  input : ∀ id ∈ g.inputs, id < g.size
  acyclic : g.Acyclic
  rooted : ∀ root ∈ g.outputs, g.isOutput root = true
  unused : ∀ {id child}, child ∈ g.children id → g.isOutput child = false
  known : ∀ {id}, g.Reachable id → (g.type id).isKnown = true
  inferred : ∀ {id}, g.Reachable id → g.infer (g.node id) = (g.type id, (g.node id).overload)
  classes : ∀ {id slot child r}, g.Reachable id → (g.children id)[slot]? = some child →
    g.expected? id slot = some r → r.isKnown = true → g.register child = r
  written : ∀ {id decl e}, g.Reachable id → (g.node id).kind = .output decl e → g.type e = g.type id

theorem wellFormed_of_sound (tidy : g.Tidy) (acyclic : g.Acyclic) (rooted : g.Rooted)
    (sound : ∀ {id}, g.Reachable id → g.Sound (g.node id))
    : g.WellFormed where
  operand := tidy.operand
  output := tidy.output
  input := tidy.input
  acyclic := acyclic
  rooted := rooted.2
  unused := tidy.unused
  known reachable := (sound reachable).known
  inferred reachable := (sound reachable).inferred
  classes {id slot child r} reachable atSlot asked known := by
    have atType : ((g.node id).children.map g.type)[slot]? = some (g.type child) := by
      rw [List.getElem?_map]
      exact congrArg (Option.map g.type) atSlot
    exact (sound reachable).classes atType ((g.expected?_eq_asks? id slot).symm.trans asked) known
  written {id decl e} reachable kind := by
    have written := (sound reachable).written (by rw [Node.isOutput, kind])
    rw [Node.children, kind] at written
    exact (List.cons.inj written).1

theorem Conforms.wellFormed {α : Type} {D : Dialect α} (conforms : g.Conforms D) : g.WellFormed :=
  wellFormed_of_sound conforms.toTidy conforms.acyclic conforms.rooted conforms.sound

/-- What is reachable from scalar outputs without passing vectors that are put together is
scalar. -/
theorem scalar_of_loose (rooted : g.Rooted) (loose : ∀ {id}, g.Reachable id → g.Loose (g.node id))
    (whole : ∀ {id}, g.Reachable id → (g.type id).width = 1 → (g.node id).kind.isAssembly = false)
    (reachable : g.Reachable id)
    : (g.type id).width = 1 := by
  obtain ⟨root, isRoot, path⟩ := reachable
  induction path with
  | refl =>
      have isOutput := rooted.2 root isRoot
      refine (loose (.root isRoot)).scalar ?_
      rw [Graph.isOutput, Node.isOutput] at isOutput
      cases kind : (g.node root).kind <;> rw [kind] at isOutput <;> first | rfl | cases isOutput
  | tail path uses ih =>
      have reachable : g.Reachable _ := ⟨root, isRoot, path⟩
      exact (loose reachable).scalars (whole reachable ih) ih _ uses

/-- What is reachable in good order without vectors that are put together is a scalar. -/
theorem Orders.scalar (orders : g.Orders (.loose broad low))
    (whole : ∀ {id}, g.Reachable id → (g.node id).kind.isAssembly = false)
    (reachable : g.Reachable id)
    : (g.type id).width = 1 :=
  scalar_of_loose orders.rooted (fun reachable => (orders.allowed reachable).1)
    (fun reachable _ => whole reachable) reachable

/-- What is reachable in good order without vectors that are put together is typed. -/
theorem Orders.sound (orders : g.Orders (.loose broad low))
    (whole : ∀ {id}, g.Reachable id → (g.node id).kind.isAssembly = false)
    (reachable : g.Reachable id)
    : g.Sound (g.node id) :=
  (orders.allowed reachable).1.typed (whole reachable) (orders.scalar whole reachable)

theorem Orders.whole (orders : g.Orders (.loose True low)) (reachable : g.Reachable id)
    : (g.node id).kind.isAssembly = false :=
  (orders.allowed reachable).2.1 trivial

theorem Orders.wellFormed (orders : g.Orders (.loose True low)) : g.WellFormed :=
  wellFormed_of_sound orders.toTidy orders.acyclic orders.rooted (orders.sound orders.whole)

/-! ## From scalarization on -/

/-- Once components are pushed down, no operator on vectors is left, and streams are scalar. -/
theorem Conforms.loose {α : Type} (conforms : g.Conforms (.settled α broad))
    (reachable : g.Reachable id)
    : g.Loose (g.node id) := by
  have sound := conforms.sound reachable
  obtain ⟨⟨_, _, plain, narrow⟩, settled⟩ := conforms.allowed reachable
  rw [isSettled_shape, Node.isSettled] at settled
  rw [Shape.isPlain, shape, shapeOf, Node.outline] at plain
  rw [Shape.isNarrow, shape, shapeOf, Node.outline] at narrow
  refine sound.loose ?_ fun terminal => ?_
  · cases kind : (g.node id).kind with
    | unary op x =>
        rw [kind] at plain settled
        cases op <;> first | rfl | cases plain | cases settled
    | binary op x y =>
        rw [kind] at plain settled
        cases op <;> first | rfl | cases plain | cases settled
    | _ => rfl
  · cases kind : (g.node id).kind with
    | constant value =>
        have inferred := sound.inferred
        rw [infer.eq_def] at inferred
        simp only [kind] at inferred
        exact congrArg (fun answer : DataType × Option Nat => answer.1.width) inferred.symm
    | input _ | output _ _ =>
        rw [kind] at narrow
        have scalar : (!(g.node id).type.isVector) = true := narrow
        exact DataType.width_eq_one (by simpa using scalar)
    | _ =>
        rw [kind] at terminal
        cases terminal

/-- A scalar is not put together from parts where selections of one component are gone and what is
built from parts is a vector. -/
theorem Conforms.whole {α : Type} (conforms : g.Conforms (.settled α broad)) (isBroad : broad)
    (reachable : g.Reachable id) (width : (g.type id).width = 1)
    : (g.node id).kind.isAssembly = false := by
  obtain ⟨⟨_, broadly, _, _⟩, settled⟩ := conforms.allowed reachable
  cases kind : (g.node id).kind with
  | construct arguments =>
      have isVector : (g.type id).isVector = true :=
        broadly isBroad (congrArg NodeKind.outline kind)
      cases (DataType.isVector_eq_false width).symm.trans isVector
  | swizzle x chosen =>
      rw [isSettled_shape, Node.isSettled, kind] at settled
      have isSelection : (g.node id).selection? = some chosen := by rw [Node.selection?, kind]
      obtain ⟨components, rfl⟩ := (conforms.sound reachable).selection isSelection
      rw [type, (conforms.loose reachable).selected kind, DataType.withWidth,
        DataType.width_of (Selection.count_ofList_pos _) (Selection.count_ofList_le _)] at width
      exact (of_decide_eq_true settled width).elim
  | _ => rfl

theorem Conforms.orders {α : Type} (conforms : g.Conforms (.settled α broad))
    : g.Orders (.loose broad False) where
  toTidy := conforms.toTidy
  acyclic := conforms.acyclic
  rooted := conforms.rooted
  allowed reachable := by
    refine ⟨conforms.loose reachable, fun isBroad => conforms.whole isBroad
      reachable ?_, False.elim⟩
    exact scalar_of_loose conforms.rooted conforms.loose (conforms.whole isBroad) reachable

/-- The graphs that the stages after scalarization go through, all of them in good order. In the
last one, nothing is left to lower, to fold or to share. -/
structure Optimizes (ops : FloatOps) (broad : Prop) (g folded lowered refolded shared : Graph)
    : Prop where
  folds : Compiler.folding ops g = .ok () folded
  isFolded : folded.Orders (.loose broad False)
  lowers : Compiler.lowering folded = .ok () lowered
  isLowered : lowered.Orders (.loose broad True)
  refolds : Compiler.folding ops lowered = .ok () refolded
  isRefolded : refolded.Orders (.quiet ops broad)
  shares : Compiler.sharing refolded = .ok () shared
  isShared : shared.Orders (.quiet ops broad)
  distinct : shared.Shared
  keeps : g.Keeps shared

/-- A graph in good order goes through all stages after scalarization. -/
theorem Orders.exists_optimized (orders : g.Orders (.loose broad False)) (ops : FloatOps)
    : ∃ folded lowered refolded shared, g.Optimizes ops broad folded lowered refolded shared := by
  obtain ⟨folded, folds, isFolded, keepsFolded, _⟩ := folding_orders ops orders
  obtain ⟨lowered, lowers, isLowered, keepsLowered⟩ := lowering_orders isFolded
  obtain ⟨refolded, refolds, loosely, keepsRefolded, quiet⟩ := folding_orders ops isLowered
  have isRefolded : refolded.Orders (.quiet ops broad) :=
    { loosely with allowed := fun reachable => ⟨loosely.allowed reachable, quiet _ reachable⟩ }
  have loose {g n} (allowed : (Discipline.quiet ops broad).Allows g n) : g.Loose n := allowed.1.1
  obtain ⟨shared, shares, isShared, keepsShared, distinct⟩ :=
    sharing_orders loose trivial isRefolded
  exact ⟨folded, lowered, refolded, shared, {
    folds, isFolded, lowers, isLowered, refolds, isRefolded, shares, isShared, distinct
    keeps := ((keepsFolded.trans keepsLowered).trans keepsRefolded).trans keepsShared
  }⟩

/-- Good order with nothing left to fold is good order. -/
theorem Orders.loosely {ops : FloatOps} (orders : g.Orders (.quiet ops broad))
    : g.Orders (.loose broad True) :=
  { orders with allowed := fun reachable => (orders.allowed reachable).1 }

end Graph

/-! ## The stages together -/

/-- A graph that was built and typed conforms, and its roots are declared. -/
theorem Built.conforms {broad : Prop} {base g : Graph} (built : Built base)
    (requires : ∀ id, (base.node id).kind.requiresInputs = true)
    (unused : ∀ {id child}, base.Uses id child → base.isOutput child = false)
    (isBroad : broad → ∀ id < base.size, base.Broad id) (typed : Compiler.typing base = .ok () g)
    : g.Conforms (.typed Unit broad) ∧ g.Declares :=
  ⟨Typing.conforms built.orderly requires unused (.inr inferInstance) isBroad typed,
    (Typing.declares built.orderly requires unused typed).1⟩

/-- A typed graph goes through all stages of vector elimination, whatever operators mean. -/
theorem Graph.Conforms.exists_scalar {broad : Prop} {g : Graph}
    (conforms : g.Conforms (.typed Unit broad)) (declares : g.Declares)
    : ∃ plain carried written scalar,
        g.Scalarizes broad .trivial (fun _ _ => ()) plain carried written scalar :=
  conforms.exists_scalarized declares fun _ _ _ _ => rfl

/-- Type deduction on a graph that was built leaves a well-formed graph if it succeeds, and then all
stages up to sharing succeed in the order of the compiler and leave well-formed graphs, whatever
arithmetic constants are folded by. Witness: each stage keeps up what types its nodes; scalars that
are typed by components are typed. -/
theorem stages_keep_wellFormed (ops : FloatOps) {base typed : Graph} (built : Built base)
    (requires : ∀ id, (base.node id).kind.requiresInputs = true)
    (unused : ∀ {id child}, base.Uses id child → base.isOutput child = false)
    (broad : ∀ id < base.size, base.Broad id) (deduced : Compiler.typing base = .ok () typed)
    : typed.WellFormed
      ∧ ∃ plain carried written scalar folded lowered refolded shared,
          (Compiler.vectorOperators typed = .ok () plain ∧ plain.WellFormed)
          ∧ (StreamSplitting.splitInputs plain = .ok () carried ∧ carried.WellFormed)
          ∧ (StreamSplitting.splitOutputs carried = .ok () written ∧ written.WellFormed)
          ∧ (Edit.pass .preOrder Scalarization.step written = .ok () scalar ∧ scalar.WellFormed)
          ∧ (Compiler.folding ops scalar = .ok () folded ∧ folded.WellFormed)
          ∧ (Compiler.lowering folded = .ok () lowered ∧ lowered.WellFormed)
          ∧ (Compiler.folding ops lowered = .ok () refolded ∧ refolded.WellFormed)
          ∧ Compiler.sharing refolded = .ok () shared ∧ shared.WellFormed := by
  have started : typed.Conforms (.typed Unit True) ∧ typed.Declares :=
    built.conforms requires unused (fun _ => broad) deduced
  obtain ⟨conforms, declares⟩ := started
  obtain ⟨plain, carried, written, scalar, front⟩ := conforms.exists_scalar declares
  obtain ⟨folded, lowered, refolded, shared, back⟩ := front.isSettled.orders.exists_optimized ops
  refine ⟨conforms.wellFormed, plain, carried, written, scalar, folded,
    lowered, refolded, shared, ?_⟩
  exact ⟨⟨front.replaced, front.isPlain.wellFormed⟩, ⟨front.splitIn, front.isCarried.wellFormed⟩,
    ⟨front.splitOut, front.isWritten.wellFormed⟩, ⟨front.pushed, front.isSettled.wellFormed⟩,
    ⟨back.folds, back.isFolded.wellFormed⟩, ⟨back.lowers, back.isLowered.wellFormed⟩,
    ⟨back.refolds, back.isRefolded.loosely.wellFormed⟩, back.shares,
      back.isShared.loosely.wellFormed⟩

/-- A vector input, normalized where a power of another input is not zero. One output takes
components of that and the length of the vector, another one the length as an integer. -/
def mixedStreams : Graph :=
  let g := (Graph.empty.declareInput ⟨"v", .of .float 3⟩).declareInput ⟨"n", .scalarOf .int⟩
  let g := (g.pushUnary .normalize 0).pushBinary .dot 0 2
  let g := (g.pushConstant (.int 20)).pushBinary .pow 1 4
  let g := (g.pushConversion .bool 5).pushTernary .select 6 2 0
  let g := (g.pushSwizzle 7 [2, 0]).pushConstruct (.of .float 4) [8, 3]
  (g.declareOutput ⟨"u", .of .float 4⟩ 9).declareOutput ⟨"k", .scalarOf .int⟩ 3

theorem built_mixedStreams : Built mixedStreams :=
  .declareOutput _ (by decide) <| .declareOutput _ (by decide) <| .construct _ (by decide) <|
    .swizzle _ (by decide) <| .ternary _ (by decide) <| .conversion _ (by decide) <| .binary _
      (by decide) <| .constant _ <| .binary _ (by decide) <| .unary _ (by decide) <| .declareInput _
      <| .declareInput _ .empty

theorem requires_mixedStreams : ∀ id, (mixedStreams.node id).kind.requiresInputs = true :=
  Graph.forall_node (P := fun n => n.kind.requiresInputs = true) rfl (by decide)

theorem unused_mixedStreams {id child : NodeId} (uses : mixedStreams.Uses id child)
    : mixedStreams.isOutput child = false := by
  have operands : ∀ id < mixedStreams.size, ∀ child ∈ mixedStreams.children id,
      mixedStreams.isOutput child = false := by
    decide
  exact operands id uses.lt_size child uses

theorem broad_mixedStreams : ∀ id < mixedStreams.size, mixedStreams.Broad id := by
  have wide : ∀ id < mixedStreams.size, (mixedStreams.node id).kind.isAssembly = true →
      (mixedStreams.type id).isVector = true := by
    decide
  intro id inside arguments kind
  exact wide id inside (by rw [kind]; rfl)

theorem exists_typed_mixedStreams : ∃ typed, Compiler.typing mixedStreams = .ok () typed :=
  ⟨_, rfl⟩

theorem stages_keep_wellFormed_mixedStreams
    : Built mixedStreams
      ∧ (∀ id, (mixedStreams.node id).kind.requiresInputs = true)
      ∧ (∀ {id child}, mixedStreams.Uses id child → mixedStreams.isOutput child = false)
      ∧ (∀ id < mixedStreams.size, mixedStreams.Broad id)
      ∧ ∃ typed, Compiler.typing mixedStreams = .ok () typed
        ∧ typed.WellFormed
        ∧ ∃ plain carried written scalar folded lowered refolded shared,
            (Compiler.vectorOperators typed = .ok () plain ∧ plain.WellFormed)
            ∧ (StreamSplitting.splitInputs plain = .ok () carried ∧ carried.WellFormed)
            ∧ (StreamSplitting.splitOutputs carried = .ok () written ∧ written.WellFormed)
            ∧ (Edit.pass .preOrder Scalarization.step written = .ok () scalar ∧ scalar.WellFormed)
            ∧ (Compiler.folding .standard scalar = .ok () folded ∧ folded.WellFormed)
            ∧ (Compiler.lowering folded = .ok () lowered ∧ lowered.WellFormed)
            ∧ (Compiler.folding .standard lowered = .ok () refolded ∧ refolded.WellFormed)
            ∧ Compiler.sharing refolded = .ok () shared ∧ shared.WellFormed := by
  obtain ⟨typed, deduced⟩ := exists_typed_mixedStreams
  exact ⟨built_mixedStreams, requires_mixedStreams, unused_mixedStreams, broad_mixedStreams, typed,
    deduced, stages_keep_wellFormed .standard built_mixedStreams requires_mixedStreams
      unused_mixedStreams broad_mixedStreams deduced⟩

end StreamExpr
