import StreamExpr.Proofs.Scalarization

/-! Vector elimination keeps the meaning of a graph.
A graph that was typed computes vectors. Once operators on vectors are replaced, vector streams
split and components pushed down to scalars, it writes the components of what it wrote before,
whatever the scalar operators and functions mean. The streams that vector inputs are split into have
to have names of their own.
-/

namespace StreamExpr

variable {α : Type}

/-! ## Streams by name -/

/-- Streams that are told by their names. -/
def byName (env : String → Nat → α) (decl : StreamDecl) : Nat → α :=
  env decl.name

/-- The stream that an input reads. -/
def NodeKind.source? : NodeKind → Option StreamDecl
  | .input decl => some decl
  | _ => none

theorem NodeKind.source?_eq_some {kind : NodeKind} {decl : StreamDecl}
    : kind.source? = some decl ↔ kind = .input decl := by
  cases kind <;> simp [source?]

namespace Graph

/-- The components of the vector inputs. -/
def vectorComponents (g : Graph) : List (StreamDecl × Nat) :=
  (List.range g.size).flatMap fun id =>
    match (g.node id).kind.source? with
    | some decl => if decl.type.isVector then (List.range decl.type.width).map (decl, ·) else []
    | none => []

/-- What streams carry once vector inputs are split: a stream that is named like a component carries
it. -/
def splitEnv (g : Graph) (env : String → Nat → α) (name : String) : Nat → α :=
  match g.vectorComponents.find? fun part => (part.1.component part.2).name = name with
  | some part => fun _ => env part.1.name part.2
  | none => env name

/-- No input is named like a component of a vector input. -/
def NamesApart (g : Graph) : Prop :=
  ∀ part ∈ g.vectorComponents, ∀ id < g.size, ∀ decl ∈ (g.node id).kind.source?,
    decl.name ≠ (part.1.component part.2).name

instance (g : Graph) : Decidable g.NamesApart :=
  inferInstanceAs
    (Decidable (∀ part ∈ g.vectorComponents, ∀ id < g.size, ∀ decl ∈ (g.node id).kind.source?,
    decl.name ≠ (part.1.component part.2).name))

theorem mem_vectorComponents {g : Graph} {part : StreamDecl × Nat}
    : part ∈ g.vectorComponents
      ↔ (∃ id, (g.node id).kind = .input part.1) ∧ part.1.type.isVector = true
        ∧ part.2 < part.1.type.width := by
  obtain ⟨decl, c⟩ := part
  rw [vectorComponents, List.mem_flatMap]
  constructor
  · rintro ⟨id, _, member⟩
    split at member
    next own source =>
      split at member
      case isTrue isVector =>
        obtain ⟨d, inside, same⟩ := List.mem_map.mp member
        obtain ⟨rfl, rfl⟩ := Prod.mk.inj same
        exact ⟨⟨id, NodeKind.source?_eq_some.mp source⟩, isVector, List.mem_range.mp inside⟩
      case isFalse => cases member
    · cases member
  · rintro ⟨⟨id, kind⟩, isVector, inside⟩
    refine ⟨id, List.mem_range.mpr (lt_size_of_input kind), ?_⟩
    rw [NodeKind.source?_eq_some.mpr kind]
    simp only at isVector inside ⊢
    rw [if_pos isVector]
    exact List.mem_map.mpr ⟨c, List.mem_range.mpr inside, rfl⟩

end Graph

theorem componentName_inj {c d : Nat} (small : c < 4) (otherSmall : d < 4)
    (same : componentName c = componentName d)
    : c = d := by
  have all : ∀ c < 4, ∀ d < 4, componentName c = componentName d → c = d := by decide
  exact all c small d otherSmall same

/-- The name of a component tells the stream and the component. -/
theorem StreamDecl.name_component_inj {first second : StreamDecl} {c d : Nat} (small : c < 4)
    (otherSmall : d < 4) (same : (first.component c).name = (second.component d).name)
    : first.name = second.name ∧ c = d := by
  have letters := congrArg String.toList same
  simp only [component, componentStreamName, String.toList_append, Char.toString,
    String.toList_singleton] at letters
  obtain ⟨front, back⟩ := List.append_inj' letters rfl
  obtain ⟨name, _⟩ := List.append_inj' front rfl
  refine ⟨String.toList_inj.mp name, componentName_inj small otherSmall ?_⟩
  exact (List.cons.inj back).1

/-- Only inputs read streams. -/
theorem Node.lanes?_of_streams {M : ScalarModel α} {streams others : StreamDecl → Nat → α}
    {n : Node} (same : ∀ decl, n.kind = .input decl → others decl = streams decl)
    : n.lanes? M others = n.lanes? M streams := by
  obtain ⟨kind, type, overload⟩ := n
  funext operands
  cases kind with
  | input decl => rw [lanes?_input rfl, lanes?_input rfl, same decl rfl]
  | _ => rcases operands with _ | ⟨x, _ | ⟨y, _ | ⟨z, _ | ⟨more, operands⟩⟩⟩⟩ <;> rfl

namespace Graph

variable {base g : Graph} {decl : StreamDecl} {id : NodeId} {env : String → Nat → α}

/-- An input carries what it carried before. -/
theorem NamesApart.splitEnv_input (apart : base.NamesApart)
    (kind : (base.node id).kind = .input decl)
    : base.splitEnv env decl.name = env decl.name := by
  have none : base.vectorComponents.find?
    (fun part => (part.1.component part.2).name = decl.name) = none := by
    refine List.find?_eq_none.mpr fun part member same => ?_
    exact apart part member id (lt_size_of_input kind) decl (NodeKind.source?_eq_some.mpr kind)
      (of_decide_eq_true same).symm
  rw [splitEnv, none]

/-- The stream of a component carries the component. Witness: its name tells which one that is. -/
theorem splitEnv_component (kind : (base.node id).kind = .input decl)
    (isVector : decl.type.isVector = true) {c : Nat} (inside : c < decl.type.width)
    : base.splitEnv env (decl.component c).name 0 = env decl.name c := by
  have own : (decl, c) ∈ base.vectorComponents := mem_vectorComponents.mpr
    ⟨⟨id, kind⟩, isVector, inside⟩
  cases found : base.vectorComponents.find? fun part =>
      (part.1.component part.2).name = (decl.component c).name with
  | none => exact (List.find?_eq_none.mp found (decl, c) own (decide_eq_true rfl)).elim
  | some part =>
      obtain ⟨_, _, partInside⟩ := mem_vectorComponents.mp (List.mem_of_find?_eq_some found)
      have same : (part.1.component part.2).name = (decl.component c).name := by
        simpa using List.find?_some found
      obtain ⟨name, rfl⟩ := StreamDecl.name_component_inj
        (Nat.lt_of_lt_of_le partInside part.1.type.width_le_four)
        (Nat.lt_of_lt_of_le inside decl.type.width_le_four) same
      rw [splitEnv, found]
      exact congrArg (env · part.2) name

/-- A node has its value from all streams that give the inputs theirs. -/
theorem Has.of_streams {M : ScalarModel α} {streams others : StreamDecl → Nat → α}
    (same : ∀ {id decl}, (g.node id).kind = .input decl → others decl = streams decl)
    {x : VectorValue α} (has : g.Has (M.meaning streams) id x)
    : g.Has (M.meaning others) id x := by
  induction has using Evaluates.induct with
  | step id operands value values result =>
      refine .of_kind rfl (values.imp fun _ _ found => found.choose_spec) ?_
      change ((g.node id).lanes? M others operands).map _ = _
      rw [Node.lanes?_of_streams fun decl => same]
      exact result

theorem DeliversAll.of_streams {M : ScalarModel α} {streams others : StreamDecl → Nat → α}
    (same : ∀ {id decl}, (g.node id).kind = .input decl → others decl = streams decl)
    {writes : List (StreamDecl × VectorValue α)} (delivers : g.DeliversAll M streams writes)
    : g.DeliversAll M others writes :=
  delivers.imp fun _ _ ⟨e, kind, has⟩ => ⟨e, kind, .of_streams same has⟩

/-- A graph that serves for another delivers the same to all streams. -/
theorem Serves.deliversAll {M : ScalarModel α} {streams : StreamDecl → Nat → α} {h : Graph}
    (serves : g.Serves M streams h) {writes : List (StreamDecl × VectorValue α)}
    (delivers : g.DeliversAll M streams writes)
    : h.DeliversAll M streams writes := by
  rw [DeliversAll, serves.outputs]
  refine List.forall₂_iff_zip.mpr ⟨delivers.length_eq, fun {root write} paired => ?_⟩
  exact serves.delivers (List.of_mem_zip paired).1 ((List.forall₂_iff_zip.mp delivers).2 paired)

/-- Roots stay declared where they keep their outlines. -/
theorem Declares.of_outlines {g h : Graph} (declares : g.Declares) (outputs : h.outputs = g.outputs)
    (declared : h.declared = g.declared)
    (outline : ∀ {root}, root ∈ g.outputs → (h.node root).outline = (g.node root).outline)
    : h.Declares := by
  intro root isRoot
  rw [outputs] at isRoot
  obtain ⟨decl, e, kind, isDeclared⟩ := declares isRoot
  have outline : (h.node root).kind.outline = (g.node root).kind.outline :=
    congrArg Node.kind (outline isRoot)
  rw [kind] at outline
  cases own : (h.node root).kind <;> rw [own] at outline <;> cases outline
  exact ⟨decl, _, rfl, declared ▸ isDeclared⟩

theorem Serves.declares {M : ScalarModel α} {streams : StreamDecl → Nat → α} {h : Graph}
    (serves : g.Serves M streams h) (declares : g.Declares)
    : h.Declares :=
  declares.of_outlines serves.outputs serves.declared serves.outline

end Graph

/-- Type deduction changes neither the streams of inputs nor what outputs are declared. -/
theorem Typing.declares {base g : Graph} (orderly : base.Orderly)
    (requires : ∀ id, (base.node id).kind.requiresInputs = true)
    (unused : ∀ {id child}, base.Uses id child → base.isOutput child = false)
    (accepted : Compiler.typing base = .ok () g)
    : g.Declares ∧ ∀ {id decl}, (g.node id).kind = .input decl
      → (base.node id).kind = .input decl := by
  obtain ⟨t, rfl, _⟩ := Typing.exists_state orderly requires unused accepted
  refine ⟨fun {root} isRoot => ?_, t.carries⟩
  rw [t.outputs] at isRoot
  obtain ⟨decl, e, kind, isDeclared⟩ := orderly.rooted isRoot
  have outline : (t.graph.node root).kind.outline = (base.node root).kind.outline :=
    congrArg Node.kind (t.outline (orderly.lt_size (.root isRoot)))
  rw [kind] at outline
  cases own : (t.graph.node root).kind <;> rw [own] at outline <;> cases outline
  exact ⟨decl, _, rfl, t.declared ▸ isDeclared⟩

/-! ## The stages together -/

/-- Operators on nothing in particular. -/
def ScalarModel.trivial : ScalarModel Unit where
  constant _ := ()
  unary _ _ _ := ()
  binary _ _ _ _ := ()
  ternary _ _ _ _ _ := ()
  convert _ _ _ := ()
  call _ _ := ()

/-- The graphs that vector elimination goes through, all of them typed. In the last one all streams
are scalar. -/
structure Graph.Scalarizes (broad : Prop) (M : ScalarModel α) (streams : StreamDecl → Nat → α)
    (g plain carried written scalar : Graph)
    : Prop where
  replaced : Compiler.vectorOperators g = .ok () plain
  isPlain : plain.Conforms (.plain α broad)
  splitIn : StreamSplitting.splitInputs plain = .ok () carried
  isCarried : carried.Conforms (.plain α broad)
  splitOut : StreamSplitting.splitOutputs carried = .ok () written
  isWritten : written.Conforms (.narrow α broad)
  pushed : Edit.pass .preOrder Scalarization.step written = .ok () scalar
  isSettled : scalar.Conforms (.settled α broad)
  narrow : ∀ id, StreamSplitting.Narrow scalar id
  declares : scalar.Declares
  declared : ∀ decl ∈ scalar.declared, decl.type.isVector = false
  delivers : ∀ {writes}, g.DeliversAll M streams writes → scalar.DeliversAll M streams
    (writes.flatMap splitWrite)

theorem Graph.Scalarizes.scalarization {broad : Prop} {M : ScalarModel α}
    {streams : StreamDecl → Nat → α} {g plain carried written scalar : Graph}
    (stages : g.Scalarizes broad M streams plain carried written scalar)
    : Compiler.scalarization plain = .ok () scalar := by
  simp only [Compiler.scalarization, bind, EStateM.bind, stages.splitIn, stages.splitOut]
  exact stages.pushed

/-- A typed graph goes through all stages of vector elimination. -/
theorem Graph.Conforms.exists_scalarized {broad : Prop} {M : ScalarModel α}
    {streams : StreamDecl → Nat → α} {g : Graph} (conforms : g.Conforms (.typed α broad))
    (declares : g.Declares) (parts : ∀ {id decl}, (g.node id).kind = .input decl
      → decl.type.isVector = true → ∀ c < decl.type.width,
        streams (decl.component c) 0 = streams decl c)
    : ∃ plain carried written scalar, g.Scalarizes broad M streams plain
      carried written scalar := by
  have replaces : ∃ plain, Compiler.vectorOperators g = .ok () plain
      ∧ plain.Conforms (.plain α broad) ∧ g.Follows M streams plain :=
    vectorOperators_follows conforms
  obtain ⟨plain, replaced, isPlain, follows⟩ := replaces
  have carries : ∃ carried, StreamSplitting.splitInputs plain = .ok () carried
      ∧ carried.Conforms (.plain α broad)
      ∧ (∀ id, StreamSplitting.Narrow carried id) ∧ plain.Serves M streams carried :=
    splitInputs_serves isPlain fun kind => parts (follows.carries kind)
  obtain ⟨carried, splitIn, isCarried, carriedNarrow, serves⟩ := carries
  obtain ⟨written, splitOut, isWritten, narrow, writtenDeclares, declared, _, splits⟩ :=
    splitOutputs_writes isCarried carriedNarrow
      (serves.declares (follows.toServes.declares declares))
  have pushes : ∃ scalar, Edit.pass .preOrder Scalarization.step written = .ok () scalar
      ∧ scalar.Conforms (.settled α broad) ∧ written.Follows M streams scalar :=
    scalarize_follows isWritten
  obtain ⟨scalar, pushed, isSettled, followsLast⟩ := pushes
  refine ⟨plain, carried, written, scalar, ?_⟩
  exact {
    replaced, isPlain, splitIn, isCarried, splitOut, isWritten, pushed, isSettled
    narrow := fun id {decl} kind => narrow id (followsLast.carries kind)
    declares := followsLast.toServes.declares writtenDeclares
    declared := followsLast.declared ▸ declared
    delivers := fun delivers =>
      followsLast.toServes.deliversAll
        (splits (serves.deliversAll (follows.toServes.deliversAll delivers)))
  }

theorem Graph.Conforms.eliminates {broad : Prop} {M : ScalarModel α}
    {streams : StreamDecl → Nat → α} {g : Graph} (conforms : g.Conforms (.typed α broad))
    (declares : g.Declares) (parts : ∀ {id decl}, (g.node id).kind = .input decl
      → decl.type.isVector = true → ∀ c < decl.type.width,
        streams (decl.component c) 0 = streams decl c)
    : ∃ plain h, Compiler.vectorOperators g = .ok () plain
        ∧ Compiler.scalarization plain = .ok () h
        ∧ h.Conforms (.settled α broad)
        ∧ ∀ {writes}, g.DeliversAll M streams writes →
            h.DeliversAll M streams (writes.flatMap splitWrite) := by
  obtain ⟨plain, _, _, scalar, stages⟩ := conforms.exists_scalarized (M := M) declares parts
  exact ⟨plain, scalar, stages.replaced, stages.scalarization, stages.isSettled, stages.delivers⟩

/-- Vector elimination succeeds on a graph that was built and typed, and keeps its meaning: what
each output wrote is written component by component. Witness: replacing operators on vectors,
splitting streams and pushing selections down each keep a value for every node in use. -/
theorem vector_elimination_keeps_meaning {base g : Graph} (built : Built base)
    (requires : ∀ id, (base.node id).kind.requiresInputs = true)
    (unused : ∀ {id child}, base.Uses id child → base.isOutput child = false)
    (within : ∀ id, base.SelectsWithin id) (apart : base.NamesApart)
    (typed : Compiler.typing base = .ok () g)
    : ∃ plain h, Compiler.vectorOperators g = .ok () plain
        ∧ Compiler.scalarization plain = .ok () h
        ∧ ∀ {α : Type} (M : ScalarModel α) (env : String → Nat → α), ∃ writes,
            g.DeliversAll M (byName env) writes
            ∧ h.DeliversAll M (byName (base.splitEnv env)) (writes.flatMap splitWrite) := by
  have orderly := built.orderly
  obtain ⟨declares, carries⟩ := Typing.declares orderly requires unused typed
  have conforms (α : Type) : g.Conforms (.typed α False) :=
    Typing.conforms orderly requires unused (.inl within) False.elim typed
  have eliminates {α : Type} (M : ScalarModel α) (env : String → Nat → α)
      : ∃ plain h, Compiler.vectorOperators g = .ok () plain
          ∧ Compiler.scalarization plain = .ok () h
          ∧ h.Conforms (.settled α False)
          ∧ ∀ {writes}, g.DeliversAll M (byName (base.splitEnv env)) writes →
              h.DeliversAll M (byName (base.splitEnv env)) (writes.flatMap splitWrite) := by
    refine (conforms α).eliminates declares fun kind isVector c inside => ?_
    rw [byName, byName, Graph.splitEnv_component (carries kind) isVector inside,
      apart.splitEnv_input (carries kind)]
  -- The stages do not depend on the meaning, so any one shows that they succeed.
  obtain ⟨plain, h, replaced, pushed, _, _⟩ := eliminates (ScalarModel.trivial) fun _ _ => ()
  refine ⟨plain, h, replaced, pushed, fun {α} M env => ?_⟩
  obtain ⟨writes, delivers⟩ := (conforms α).exists_writes M (byName env)
  obtain ⟨other, last, replacedAlso, pushedAlso, _, written⟩ := eliminates M env
  cases replaced.symm.trans replacedAlso
  cases pushed.symm.trans pushedAlso
  refine ⟨writes, delivers, written (delivers.of_streams fun kind => ?_)⟩
  exact apart.splitEnv_input (carries kind)

instance (t : DataType) (c : Nat) : Decidable (t.HasComponent c) :=
  inferInstanceAs (Decidable (_ ∨ _))

instance (g : Graph) (id : NodeId) : Decidable (g.SelectsWithin id) :=
  decidable_of_iff
    (∀ chosen ∈ (g.node id).selection?, ∀ x ∈ g.children id, ∀ place < chosen.count,
      (g.type x).HasComponent (chosen.lane place))
    ⟨fun within x chosen kind => within chosen (by rw [Node.selection?, kind]; rfl) x
        (by rw [Graph.children, Node.children, kind]; exact List.mem_singleton_self x),
      fun within chosen found x operand => by
        obtain ⟨y, kind⟩ := Node.kind_of_selection? found
        rw [Graph.children, Node.children, kind] at operand
        exact List.mem_singleton.mp operand ▸ within y chosen kind⟩

/-- What holds of an absent node and of all nodes in the arena holds of every node. -/
theorem Graph.forall_node {g : Graph} {P : Node → Prop} (absent : P .absent)
    (inside : ∀ id < g.size, P (g.node id)) (id : NodeId)
    : P (g.node id) := by
  by_cases isInside : id < g.size
  · exact inside id isInside
  · rw [node_of_size_le (Nat.le_of_not_lt isInside)]
    exact absent

/-- A vector input, its normalized reverse and the product of both, in one output and apart. -/
def mixedVectors : Graph :=
  let g := Graph.empty.declareInput ⟨"v", .of .float 3⟩
  let g := (g.pushSwizzle 0 [2, 1, 0]).pushUnary .normalize 1
  let g := (g.pushBinary .dot 0 2).pushConstruct (.of .float 4) [2, 3]
  (g.declareOutput ⟨"n", .of .float 4⟩ 4).declareOutput ⟨"d", .scalarOf .float⟩ 3

theorem vector_elimination_keeps_meaning_mixedVectors
    : Built mixedVectors
      ∧ (∀ id, (mixedVectors.node id).kind.requiresInputs = true)
      ∧ (∀ {id child}, mixedVectors.Uses id child → mixedVectors.isOutput child = false)
      ∧ (∀ id, mixedVectors.SelectsWithin id)
      ∧ mixedVectors.NamesApart
      ∧ ∃ g, Compiler.typing mixedVectors = .ok () g
        ∧ ∃ plain h, Compiler.vectorOperators g = .ok () plain
            ∧ Compiler.scalarization plain = .ok () h
            ∧ ∀ {α : Type} (M : ScalarModel α) (env : String → Nat → α), ∃ writes,
                g.DeliversAll M (byName env) writes
                ∧ h.DeliversAll M (byName (mixedVectors.splitEnv env))
                  (writes.flatMap splitWrite) := by
  have built : Built mixedVectors :=
    .declareOutput _ (by decide) <| .declareOutput _ (by decide) <| .construct _ (by decide) <|
      .binary _ (by decide) <| .unary _ (by decide) <| .swizzle _
      (by decide) <| .declareInput _ .empty
  have requires : ∀ id, (mixedVectors.node id).kind.requiresInputs = true :=
    Graph.forall_node (P := fun n => n.kind.requiresInputs = true) rfl (by decide)
  have operands : ∀ id < mixedVectors.size, ∀ child ∈ mixedVectors.children id,
      mixedVectors.isOutput child = false := by
    decide
  have unused {id child} (uses : mixedVectors.Uses id child)
    : mixedVectors.isOutput child = false := operands id uses.lt_size child uses
  have inside : ∀ id < mixedVectors.size, mixedVectors.SelectsWithin id := by decide
  have within (id) : mixedVectors.SelectsWithin id := by
    by_cases isInside : id < mixedVectors.size
    · exact inside id isInside
    · intro x chosen kind
      rw [Graph.node_of_size_le (Nat.le_of_not_lt isInside)] at kind
      cases kind
  have apart : mixedVectors.NamesApart := by decide +kernel
  obtain ⟨g, typed⟩ : ∃ g, Compiler.typing mixedVectors = .ok () g := ⟨_, rfl⟩
  exact ⟨built, requires, unused, within, apart, g, typed,
    vector_elimination_keeps_meaning built requires unused within apart typed⟩

end StreamExpr
