import StreamExpr.Proofs.TypedScope

/-! Edits that add typed nodes.
A rule of a pass puts a replacement together from operands, components and a few operators. It never
fails: each node that it adds is typed, has a value and ranks between its operands and the node it
is made for.
-/

namespace StreamExpr

variable {α : Type} {M : ScalarModel α} {streams : StreamDecl → Nat → α} {T : Stage α}

/-! ## Graphs that grow -/

/-- What a stage adds to a graph: nodes of certain shapes, and shared selections of the components
of certain vectors. -/
structure Supply (T : Stage α) where
  Accepts : Shape → Prop
  Splits : NodeId → Prop
  allowed : ∀ {shape}, Accepts shape → ∀ id, T.Allows id shape
  proper : ∀ {shape decl}, Accepts shape → shape.node.kind ≠ .input decl
  selects : ∀ {t : DataType} {c}, t.isVector = true → t.isKnown = true → t.Yields α c →
    ∀ id, T.Allows id (t.selection c)
  splits : ∀ {id shape}, T.Allows id shape → shape.node.type.isVector = true → Splits id

namespace Graph

variable {g h : Graph}

theorem component_scalar {v : NodeId} {c : Nat} (scalar : (g.type v).isVector = false)
    : g.component v c = (v, g) := by
  rw [component, scalar]
  rfl

theorem component_cached {v selection : NodeId} {c : Nat} (isVector : (g.type v).isVector = true)
    (found : g.selections[(v, c)]? = some selection)
    : g.component v c = (selection, g) := by
  rw [component, if_pos isVector, found]

theorem component_new {v : NodeId} {c : Nat} (isVector : (g.type v).isVector = true)
    (isNew : g.selections[(v, c)]? = none)
    : g.component v c = (g.size, (g.push (g.selectionOf v c)).share v c g.size) := by
  rw [component, if_pos isVector, isNew]
  rfl

/-- A graph with nodes added, and shared selections of components. -/
inductive Grows (P : Supply T) (g : Graph) : Graph → Prop
  | refl : Grows P g g
  | push {h : Graph} {n : Node} (grows : Grows P g h)
    (operands : ∀ child ∈ n.children, child < h.size) (accepted : P.Accepts (h.shapeOf n))
    : Grows P g (h.push n)
  | select {h : Graph} {v : NodeId} {c : Nat} (grows : Grows P g h) (inside : v < h.size)
    (isNew : h.selections[(v, c)]? = none) (splits : P.Splits v) (small : c < 4)
    : Grows P g ((h.push (h.selectionOf v c)).share v c h.size)

variable {P : Supply T}

theorem Grows.trans {i : Graph} (first : Grows P g h) (second : Grows P h i) : Grows P g i := by
  induction second with
  | refl => exact first
  | push _ operands accepted ih => exact .push ih operands accepted
  | select _ inside isNew splits small ih => exact .select ih inside isNew splits small

theorem appends_share (g : Graph) (v : NodeId) (c : Nat) (selection : NodeId)
    : g.Appends (g.share v c selection) :=
  ⟨fun _ => rfl, Nat.le_refl _, rfl⟩

theorem Grows.appends (grows : Grows P g h) : g.Appends h := by
  induction grows with
  | refl => exact .refl g
  | push _ _ _ ih => exact ih.trans (appends_push _ _)
  | select _ _ _ _ _ ih => exact (ih.trans (appends_push _ _)).trans (appends_share _ _ _ _)

end Graph

namespace TypedScope

variable {P : Supply T} {s t : TypedScope M streams T} {bound : ℚ} {id v new : NodeId} {c : Nat}
  {x y : VectorValue α} {β γ : Type}

/-! ## Edits that build -/

/-- An edit adds nodes and selections. It does not fail. -/
structure Builds (s : TypedScope M streams T) (P : Supply T) (edit : Edit β)
    (post : β → TypedScope M streams T → Prop)
    : Prop where
  runs : (edits M streams T).Runs False s edit fun b t => post b t ∧ Graph.Grows P s.graph t.graph

/-- An edit finds or adds a node below a level that has the given value. -/
def Makes (s : TypedScope M streams T) (P : Supply T) (edit : Edit NodeId) (bound : ℚ)
    (x : VectorValue α) : Prop :=
  s.Builds P edit fun new t => t.Computes bound new x

/-- An edit adds a node below a level that has the given value, of a shape that may be added. -/
def Adds (s : TypedScope M streams T) (P : Supply T) (edit : Edit NodeId) (bound : ℚ)
    (x : VectorValue α) : Prop :=
  s.Builds P edit fun new t => t.Computes bound new x ∧ P.Accepts (t.graph.shape new)

theorem Builds.pure {post : β → TypedScope M streams T → Prop} {b : β} (holds : post b s)
    : s.Builds P (Pure.pure b) post :=
  ⟨.pure ⟨holds, .refl⟩⟩

theorem Builds.bind {first : Edit β} {next : β → Edit γ}
    {between : β → TypedScope M streams T → Prop} {post : γ → TypedScope M streams T → Prop}
    (builds : s.Builds P first between)
    (goesOn : ∀ b t, s.Later t → between b t → t.Builds P (next b) post)
    : s.Builds P (first >>= next) post :=
  ⟨builds.runs.bind fun b t later holds =>
    (goesOn b t later holds.1).runs.imp fun _ _ _ more => ⟨more.1, holds.2.trans more.2⟩⟩

theorem Builds.imp {edit : Edit β} {post weaker : β → TypedScope M streams T → Prop}
    (builds : s.Builds P edit post) (implied : ∀ b t, s.Later t → post b t → weaker b t)
    : s.Builds P edit weaker :=
  ⟨builds.runs.imp fun b t later holds => ⟨implied b t later holds.1, holds.2⟩⟩

theorem Adds.makes {edit : Edit NodeId} (adds : s.Adds P edit bound x) : s.Makes P edit bound x :=
  Builds.imp adds fun _ _ _ found => found.1

theorem Builds.adds {first : Edit β} {next : β → Edit NodeId}
    {between : β → TypedScope M streams T → Prop} (builds : s.Builds P first between)
    (goesOn : ∀ b t, s.Later t → between b t → t.Adds P (next b) bound x)
    : s.Adds P (first >>= next) bound x :=
  Builds.bind builds goesOn

/-- What has been added for a node replaces it. -/
theorem Adds.replaces {edit : Edit NodeId} (adds : s.Adds P edit (s.level id) x)
    (isLive : s.live id) (hasValue : s.value id = some x) (moves : ¬ T.Stays (s.graph.shape id))
    : s.Builds P edit fun new t =>
        t.Replaces id new ∧ P.Accepts (t.graph.shape new) := by
  refine Builds.imp adds fun new t later found => ⟨?_, found.2⟩
  have level : s.level id = t.level id := (congrArg Rank.level (later.rank isLive)).symm
  refine (level ▸ found.1).replaces (later.live isLive) ((later.value isLive).trans hasValue) ?_
  rw [later.shape isLive]
  exact moves

theorem builds_read {f : Graph → β} {next : β → Edit γ} {post : γ → TypedScope M streams T → Prop}
    : s.Builds P (Edit.read f >>= next) post ↔ s.Builds P (next (f s.graph)) post :=
  ⟨fun builds => ⟨runs_read.mp builds.runs⟩, fun builds => ⟨runs_read.mpr builds.runs⟩⟩

/-! ## Components -/

/-- Nodes are on levels that had nodes before. -/
def KeepsLevels (s t : TypedScope M streams T) : Prop :=
  ∀ id, t.live id → ∃ old, s.live old ∧ t.level id = s.level old

theorem KeepsLevels.refl : s.KeepsLevels s :=
  fun id isLive => ⟨id, isLive, rfl⟩

/-- A vector is not a shared selection. -/
theorem isShared_of_vector (isLive : s.live v) (isVector : (s.graph.type v).isVector = true)
    : (s.rank v).isShared = false := by
  refine isShared_eq_false isLive fun chosen selects single => ?_
  obtain ⟨operand, kind⟩ := Node.kind_of_selection? selects
  have inferred := congrArg Prod.fst (s.sound isLive).inferred
  rw [Graph.infer.eq_def] at inferred
  simp only [kind, single] at inferred
  rw [Graph.type, ← inferred] at isVector
  cases isVector

/-- A selection that is not there yet can be added on the level of its vector. -/
theorem accepts_selectionOf (P : Supply T) (isLive : s.live v)
    (isVector : (s.graph.type v).isVector = true) (isValue : s.graph.isOutput v = false)
    (yields : (s.graph.type v).Yields α c)
    : s.Accepts (s.graph.selectionOf v c) (toLex (s.level v, true)) where
  operand child member := by
    obtain rfl := List.mem_singleton.mp member
    refine ⟨isLive, Prod.Lex.lt_iff.mpr (.inr ⟨rfl, ?_⟩)⟩
    change (s.rank child).isShared < true
    rw [isShared_of_vector isLive isVector]
    exact Bool.false_lt_true
  isValue child member := List.mem_singleton.mp member ▸ isValue
  sound := Graph.sound_selectionOf (s.sound isLive).known
  allowed := P.selects isVector (s.sound isLive).known yields _
  shared _ := ⟨.ofList [c], rfl, rfl⟩

/-- A component of a node is shared, and found or added on the level of the node. -/
theorem builds_component (computes : s.Computes bound v x) (yields : x.type.Yields α c)
    : s.Builds P (Edit.component v c) fun new t =>
        t.Computes bound new (x.part c) ∧ s.KeepsLevels t := by
  have ran {new : NodeId} {h : Graph} (found : s.graph.component v c = (new, h)) :
      Edit.component v c s.graph = .ok new h := by
    change (match s.graph.component v c with | (a, g) => EStateM.Result.ok a g) = _
    rw [found]
  have type := computes.type
  cases isVector : x.type.isVector with
  | false =>
      refine ⟨.of_ok (t := s) (ran (Graph.component_scalar (type ▸ isVector))) (.refl _)
        ⟨⟨?_, .refl⟩, .refl⟩⟩
      rw [VectorValue.part_of_scalar isVector]
      exact computes
  | true =>
      cases found : s.graph.selections[(v, c)]? with
      | some selection =>
          obtain ⟨isLive, isValue, level, value⟩ :=
            s.cached computes.live computes.value isVector yields found
          exact ⟨.of_ok (t := s) (ran (Graph.component_cached (type ▸ isVector) found)) (.refl _)
            ⟨⟨⟨isLive, isValue, lt_of_le_of_lt level computes.below, value⟩, .refl⟩, .refl⟩⟩
      | none =>
          have isVector : (s.graph.type v).isVector = true := type ▸ isVector
          have accepts := accepts_selectionOf P computes.live isVector
            computes.isValue (type.symm ▸ yields)
          have later := later_push accepts fun _ => nofun
          have value : (s.push accepts).value s.graph.size = some (x.part c) := by
            have operand : (s.graph.selectionOf v c).children.mapM s.value = some [x] :=
              mapM_eq_some.mpr (.cons computes.value .nil)
            rw [value_push, Valuation.derived, operand]
            exact Graph.apply_selectionOf type.symm (type.symm ▸ yields)
          have sameLevel {id} (isLive : s.live id) : (s.push accepts).level id = s.level id :=
            congrArg Rank.level (later.rank isLive)
          have level : (s.push accepts).level s.graph.size = s.level v := level_push accepts
          -- The selection that was added is on the level of the vector, as those found in the cache
          -- are.
          have selects : (s.push accepts).Selects v c s.graph.size := {
            vector := .inl computes.live
            live := .inr rfl
            level := le_of_eq (level.trans (sameLevel computes.live).symm)
            value := fun {y} hasValue => by
              rw [later.value computes.live, computes.value] at hasValue
              exact Option.some.inj hasValue ▸ value
            node := by
              refine (Graph.node_push_self _ _).trans (congrArg (fun t : DataType =>
                Node.ofKind (.swizzle v (.ofList [c])) (t.withWidth 1)) ?_)
              exact (later.type computes.live).symm }
          refine ⟨.of_ok (t := (s.push accepts).share selects)
            (ran (Graph.component_new isVector found)) (later.trans (later_share selects))
            ⟨⟨⟨.inr rfl, ?_, ?_, value⟩, ?_⟩, ?_⟩⟩
          · exact congrArg Node.isOutput (Graph.node_push_self s.graph (s.graph.selectionOf v c))
          · exact lt_of_eq_of_lt level computes.below
          · rintro id (before | rfl)
            · exact ⟨id, before, sameLevel before⟩
            · exact ⟨v, computes.live, level⟩
          · exact .select .refl (s.inside computes.live) found
              (P.splits (s.allowed computes.live) isVector)
              (yields.lt_four (type ▸ isVector))

theorem makes_component (computes : s.Computes bound v x) (yields : x.type.Yields α c)
    : s.Makes P (Edit.component v c) bound (x.part c) :=
  (builds_component computes yields).imp fun _ _ _ found => found.1

/-! ## Nodes -/

theorem types_of_computes {ids : List NodeId} {xs : List (VectorValue α)}
    (operands : List.Forall₂ (s.Computes bound) ids xs)
    : ids.map s.graph.type = xs.map (·.type) := by
  induction operands with
  | nil => rfl
  | cons head _ ih => rw [List.map_cons, List.map_cons, ih, head.type]

/-- A typed node whose operands are below a level can be added below that level. -/
theorem adds_node {push : Graph → Graph} {n : Node} {xs : List (VectorValue α)} {lanes : Nat → α}
    (operands : List.Forall₂ (s.Computes bound) n.children xs) (sound : s.graph.Sound n)
    (made : n.lanes? M streams xs = some lanes) (pushes : push s.graph = s.graph.push n)
    (isValue : n.isOutput = false) (accepted : P.Accepts ⟨n.outline, xs.map (·.type)⟩)
    : s.Adds P (Edit.add push) bound (.of n.type lanes) := by
  have accepted : P.Accepts (s.graph.shapeOf n) := by
    rw [Graph.shapeOf, types_of_computes operands]
    exact accepted
  have computes (child) (member : child ∈ n.children) : ∃ x, s.Computes bound child x := by
    obtain ⟨place, inside, rfl⟩ := List.getElem_of_mem member
    exact ⟨_, operands.get inside (operands.length_eq ▸ inside)⟩
  obtain ⟨level, lower, above⟩ := Rank.exists_level fun child (member : child ∈ n.children) =>
    (computes child member).choose_spec.below
  have accepts : s.Accepts n (toLex (level, false)) := {
    operand := fun child member =>
      ⟨(computes child member).choose_spec.live, Rank.lt_of_level (above child member)⟩
    isValue := fun child member => (computes child member).choose_spec.isValue
    sound := sound
    allowed := P.allowed accepted _
    shared := fun isShared => by cases isShared }
  have inside (child) (member : child ∈ n.children) : child < s.graph.size :=
    s.inside (computes child member).choose_spec.live
  have noInput (decl) : n.kind ≠ .input decl := by
    intro kind
    exact P.proper accepted (show n.kind.outline = .input decl from congrArg NodeKind.outline kind)
  have value : (s.push accepts).value s.graph.size = some (.of n.type lanes) := by
    have values : n.children.mapM s.value = some xs :=
      mapM_eq_some.mpr (operands.imp fun _ _ computes => computes.value)
    rw [value_push, Valuation.derived, values]
    exact congrArg (Option.map (VectorValue.of n.type)) made
  have node : (s.push accepts).graph.node s.graph.size = n := Graph.node_push_self _ _
  have shape : (s.push accepts).graph.shape s.graph.size = s.graph.shapeOf n := by
    rw [Graph.shape, node]
    exact Graph.shapeOf_appends (s.graph.appends_push n) inside
  have ran : Edit.add push s.graph = .ok s.graph.size (s.graph.push n) :=
    congrArg (EStateM.Result.ok s.graph.size) pushes
  exact ⟨.of_ok (t := s.push accepts) ran (later_push accepts noInput)
    ⟨⟨⟨.inr rfl, (congrArg Node.isOutput node).trans isValue,
      lt_of_eq_of_lt (level_push accepts) lower, value⟩, shape ▸ accepted⟩,
      .push .refl inside accepted⟩⟩

/-- A node whose type is deduced can be added if it is typed. -/
theorem adds_deduced {kind : NodeKind} {n : Node} {xs : List (VectorValue α)} {lanes : Nat → α}
    (operands : List.Forall₂ (s.Computes bound) n.children xs)
    (deduced : s.graph.deduced (.ofKind kind .unknown) = n) (sound : s.graph.Sound n)
    (made : n.lanes? M streams xs = some lanes) (isValue : n.isOutput = false)
    (accepted : P.Accepts ⟨n.outline, xs.map (·.type)⟩)
    : s.Adds P (Edit.add (·.pushDeduced kind)) bound (.of n.type lanes) :=
  adds_node operands sound made (congrArg s.graph.push deduced) isValue accepted

/-- An operator can be added if the classes of its operands are those of the entry that they
select. -/
theorem adds_operator {kind : NodeKind} {table : List Signature} {i width : Nat} {r : RegisterClass}
    {xs : List (VectorValue α)} {lanes : Nat → α}
    (operands : List.Forall₂ (s.Computes bound) kind.children xs)
    (found : kind.signatures? = some table)
    (selects : Signature.Selects table (xs.map (·.type.register)) i r)
    (broad : kind.width? i (xs.map (·.type)) = some width) (known : r.isKnown = true)
    (made : Node.lanes? M streams ⟨kind, .of r width, some i⟩ xs = some lanes)
    (accepted : P.Accepts ⟨⟨kind.outline, .of r width, some i⟩, xs.map (·.type)⟩)
    : s.Adds P (Edit.add (·.pushDeduced kind)) bound (.of (.of r width) lanes) := by
  have types := types_of_computes operands
  have registers : kind.children.map s.graph.register = xs.map (·.type.register) := by
    have registers := congrArg (List.map DataType.register) types
    rwa [List.map_map, List.map_map] at registers
  rw [← registers] at selects
  rw [← types] at broad
  obtain ⟨deduced, sound⟩ := Graph.sound_operator found selects broad known
  exact adds_deduced operands deduced sound made (Graph.plain_of_signatures? found).2.2 accepted

theorem adds_unary {op : UnaryOp} {a : NodeId} {i : Nat} {r : RegisterClass}
    (atX : s.Computes bound a x) (componentwise : (NodeKind.unary op a).isComponentwise = true)
    (selects : Signature.Selects op.signatures [x.type.register] i r) (known : r.isKnown = true)
    (accepted : P.Accepts ⟨⟨.unary op 0, .of r x.type.width, some i⟩, [x.type]⟩)
    : s.Adds P (Edit.unary op a) bound
        (.of (.of r x.type.width) fun c => M.unary op x.type.register (x.lane c)) := by
  obtain ⟨proper, plain⟩ : op ≠ .typeConversion ∧ op.isVectorOp = false := by
    simpa [NodeKind.isComponentwise] using componentwise
  have keepsWidth : op.isReduction = false := by cases op <;> first | rfl | cases plain
  have found : (NodeKind.unary op a).signatures? = some op.signatures := if_neg proper
  have width : (NodeKind.unary op a).width? i [x.type] = some x.type.width := by
    rw [NodeKind.width?, keepsWidth]
    rfl
  exact adds_operator (.cons atX .nil) found selects width known
    (congrArg some (M.unaryLane_of_componentwise componentwise)) accepted

theorem adds_binary {op : BinaryOp} {a b : NodeId} {i width : Nat} {r : RegisterClass}
    (atX : s.Computes bound a x) (atY : s.Computes bound b y)
    (componentwise : op.isVectorOp = false)
    (selects : Signature.Selects op.signatures [x.type.register, y.type.register] i r)
    (broad : DataType.broadcastWidth? [x.type, y.type] = some width) (known : r.isKnown = true)
    (accepted : P.Accepts ⟨⟨.binary op 0 0, .of r width, some i⟩, [x.type, y.type]⟩)
    : s.Adds P (Edit.binary op a b) bound
        (.of (.of r width) fun c => M.binary op y.type.register (x.lane c) (y.lane c)) := by
  have proper : op ≠ .cross := by
    rintro rfl
    cases componentwise
  have found : (NodeKind.binary op a b).signatures? = some op.signatures := if_neg proper
  have common : (NodeKind.binary op a b).width? i [x.type, y.type] = some width := by
    cases op <;> first | exact broad | cases componentwise
  exact adds_operator (.cons atX (.cons atY .nil)) found selects common known
    (congrArg some (M.binaryLane_of_componentwise componentwise)) accepted

/-- An operator on two scalars of its class can be added. -/
theorem adds_scalars {op : BinaryOp} {r : RegisterClass} {i : Nat} {a b : NodeId} {left right : α}
    (componentwise : op.isVectorOp = false) (selects : Signature.Selects op.signatures [r, r] i r)
    (known : r.isKnown = true) (atLeft : s.Computes bound a (.of (.scalarOf r) fun _ => left))
    (atRight : s.Computes bound b (.of (.scalarOf r) fun _ => right))
    (accepted : P.Accepts ⟨⟨.binary op 0 0, .scalarOf r, some i⟩, [.scalarOf r, .scalarOf r]⟩)
    : s.Adds P (Edit.binary op a b) bound
      (.of (.scalarOf r) fun _ => M.binary op r left right) := by
  have adds := adds_binary atLeft atRight componentwise selects rfl known accepted
  have value : (VectorValue.of (.of r 1) fun c => M.binary op r
      ((VectorValue.of (.scalarOf r) fun _ => left).lane c)
      ((VectorValue.of (.scalarOf r) fun _ => right).lane c))
      = .of (.scalarOf r) fun _ => M.binary op r left right :=
    congrArg (VectorValue.of _) (funext fun c => by
      rw [VectorValue.lane_of_scalar, VectorValue.lane_of_scalar])
  exact value ▸ adds

/-- The dot product of two nodes can be added. -/
theorem adds_dot {a b : NodeId} {i width : Nat} {r : RegisterClass} (atX : s.Computes bound a x)
    (atY : s.Computes bound b y)
    (selects : Signature.Selects BinaryOp.dot.signatures [x.type.register, y.type.register] i r)
    (broad : DataType.broadcastWidth? [x.type, y.type] = some width) (known : r.isKnown = true)
    (accepted : P.Accepts ⟨⟨.binary .dot 0 0, .scalarOf r, some i⟩, [x.type, y.type]⟩)
    : s.Adds P (Edit.binary .dot a b) bound (.of (.scalarOf r) fun _ => M.dot x y) := by
  have scalar : (NodeKind.binary .dot a b).width? i [x.type, y.type] = some 1 :=
    congrArg (Option.map _) broad
  exact adds_operator (.cons atX (.cons atY .nil)) rfl selects scalar known rfl accepted

theorem adds_constant {value : Value}
    (accepted : P.Accepts ⟨.ofKind (.constant value) (.scalarOf value.register), []⟩)
    : s.Adds P (Edit.constant value) bound
        (.of (.scalarOf value.register) fun _ => M.constant value) :=
  adds_node (n := .ofKind (.constant value) (.scalarOf value.register)) .nil
    (s.graph.sound_constant value) rfl rfl rfl accepted

theorem adds_construct {type : DataType} {arguments : List NodeId} {xs : List (VectorValue α)}
    (operands : List.Forall₂ (s.Computes bound) arguments xs) (known : type.isKnown = true)
    (classes : ∀ x ∈ xs, x.type.register = type.register)
    (accepted : P.Accepts ⟨.ofKind (.construct (arguments.map fun _ => 0)) type, xs.map (·.type)⟩)
    : s.Adds P (Edit.construct type arguments) bound
      (.of type (M.constructLane type.register xs)) := by
  have sound : s.graph.Sound (.ofKind (.construct arguments) type) := by
    refine Graph.sound_construct known fun a member => ?_
    have isType : s.graph.type a ∈ xs.map (·.type) :=
      types_of_computes operands ▸ List.mem_map_of_mem member
    obtain ⟨x, isValue, same⟩ := List.mem_map.mp isType
    exact (congrArg DataType.register same).symm.trans (classes x isValue)
  exact adds_node (n := .ofKind (.construct arguments) type) operands sound rfl rfl rfl accepted

theorem adds_conversion {a : NodeId} {target : RegisterClass} (atX : s.Computes bound a x)
    (known : target.isKnown = true)
    (accepted : P.Accepts
    ⟨⟨.unary .typeConversion 0, x.type.withRegister target, some 0⟩, [x.type]⟩)
    : s.Adds P (Edit.conversion target a) bound
        (.of (x.type.withRegister target) fun c => M.convert x.type.register target
        (x.lane c)) := by
  have sound := Graph.sound_conversion (g := s.graph) (x := a) known
  rw [atX.type] at sound
  refine adds_node (n := ⟨.unary .typeConversion a, x.type.withRegister target, some 0⟩)
    (.cons atX .nil) sound rfl ?_ rfl accepted
  simp only [Graph.pushConversion, atX.type]

/-- What works component by component can be applied to scalars of the classes it was typed for. -/
theorem adds_parts {kind : NodeKind} {n : Node} {xs : List (VectorValue α)} {lanes : Nat → α}
    (sound : s.graph.Sound n) (componentwise : n.kind.isComponentwise = true)
    (outline : kind.outline = n.kind.outline)
    (operands : List.Forall₂ (s.Computes bound) kind.children xs)
    (registers : xs.map (·.type.register) = n.children.map s.graph.register)
    (scalars : ∀ x ∈ xs, x.type.width = 1)
    (made : Node.lanes? M streams ⟨kind, n.type.scalar, n.overload⟩ xs = some lanes)
    (accepted : P.Accepts ⟨⟨kind.outline, n.type.scalar, n.overload⟩, xs.map (·.type)⟩)
    : s.Adds P (Edit.add (·.pushDeduced kind)) bound (.of n.type.scalar lanes) := by
  have types := types_of_computes operands
  have own : kind.children.map s.graph.register = n.children.map s.graph.register := by
    have same := congrArg (List.map DataType.register) types
    rw [List.map_map, List.map_map] at same
    exact same.trans registers
  have allScalar : ∀ t ∈ kind.children.map s.graph.type, t.width = 1 := by
    rw [types]
    intro t member
    obtain ⟨x, isValue, rfl⟩ := List.mem_map.mp member
    exact scalars x isValue
  obtain ⟨deduced, partSound⟩ := sound.parts (h := s.graph) componentwise outline own allScalar
  have isValue : Node.isOutput ⟨kind, n.type.scalar, n.overload⟩ = false := by
    obtain ⟨old, type, overload⟩ := n
    cases kind with
    | output _ _ => cases old <;> first | (cases outline; done) | cases componentwise
    | _ => rfl
  exact adds_deduced operands deduced partSound made isValue accepted

end TypedScope

end StreamExpr
