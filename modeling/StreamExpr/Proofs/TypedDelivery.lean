import StreamExpr.Proofs.TypedScope

/-! Scopes of typed graphs, and what a graph delivers.
A typed graph has a scope with a value for every node that is reachable. What its outputs write in a
later scope they write in the graph of that scope.
-/

namespace StreamExpr

variable {α : Type} {M : ScalarModel α} {streams : StreamDecl → Nat → α}

namespace Graph

variable {D : Dialect α} {g : Graph}

/-- A selection that is cached for a component of a reachable vector. -/
def Shares (α : Type) (g : Graph) (v : NodeId) (c : Nat) (selection : NodeId) : Prop :=
  g.Reachable v ∧ (g.type v).isVector = true ∧ (g.type v).Yields α c
    ∧ g.selections[(v, c)]? = some selection

open Classical in
/-- The rank of a node: a shared selection is on the level of its vector. -/
noncomputable def sharedRank (α : Type) (g : Graph) (id : NodeId) : Rank :=
  if ∃ v c, g.Shares α v c id then toLex (((g.children id).map g.rank).headD 0, true)
  else toLex ((g.rank id : ℚ), false)

theorem Conforms.node_of_shares (conforms : g.Conforms D) {v c id : Nat}
    (shares : g.Shares α v c id)
    : g.node id = g.selectionOf v c :=
  conforms.cached shares.1 shares.2.1 shares.2.2.2

theorem Conforms.sharedRank_of_shares (conforms : g.Conforms D) {v c id : Nat}
    (shares : g.Shares α v c id)
    : g.sharedRank α id = toLex ((g.rank v : ℚ), true) := by
  rw [sharedRank, if_pos ⟨v, c, shares⟩, children, conforms.node_of_shares shares]
  rfl

/-- A vector is no shared selection. -/
theorem Conforms.sharedRank_of_vector (conforms : g.Conforms D) {v : NodeId}
    (isVector : (g.type v).isVector = true)
    : g.sharedRank α v = toLex ((g.rank v : ℚ), false) := by
  rw [sharedRank, if_neg]
  rintro ⟨w, c, shares⟩
  rw [type, conforms.node_of_shares shares] at isVector
  cases isVector

/-- A shared selection is no higher than it ranks in the graph. -/
theorem Conforms.level_sharedRank_le (conforms : g.Conforms D) {id : NodeId}
    (reachable : g.Reachable id)
    : (g.sharedRank α id).level ≤ g.rank id := by
  by_cases shared : ∃ v c, g.Shares α v c id
  · obtain ⟨v, c, shares⟩ := shared
    rw [conforms.sharedRank_of_shares shares]
    have uses : g.Uses id v := by
      rw [Uses, children, conforms.node_of_shares shares]
      exact List.mem_singleton_self v
    exact Nat.cast_le.mpr (Nat.le_of_lt (conforms.acyclic.rank_lt reachable uses))
  · rw [sharedRank, if_neg shared]
    exact le_refl _

theorem Conforms.lt_size_of_shares (conforms : g.Conforms D) {v c id : Nat}
    (shares : g.Shares α v c id)
    : id < g.size := by
  by_contra outside
  have selects := conforms.node_of_shares shares
  rw [node_of_size_le (Nat.le_of_not_lt outside)] at selects
  cases congrArg Node.kind selects

/-- Operands of what is reachable or shared rank below it. -/
theorem Conforms.sharedRank_lt (conforms : g.Conforms D) {id child : NodeId}
    (live : g.Reachable id ∨ ∃ v c, g.Shares α v c id) (uses : g.Uses id child)
    : g.Reachable child ∧ g.sharedRank α child < g.sharedRank α id := by
  by_cases shared : ∃ v c, g.Shares α v c id
  · obtain ⟨v, c, shares⟩ := shared
    rw [Uses, children, conforms.node_of_shares shares] at uses
    obtain rfl : child = v := List.mem_singleton.mp uses
    rw [conforms.sharedRank_of_shares shares, conforms.sharedRank_of_vector shares.2.1]
    exact ⟨shares.1, Prod.Lex.lt_iff.mpr (.inr ⟨rfl, Bool.false_lt_true⟩)⟩
  · have reachable := live.resolve_right shared
    have childReachable := reachable.operand uses
    refine ⟨childReachable, Rank.lt_of_level ?_⟩
    refine lt_of_le_of_lt (conforms.level_sharedRank_le childReachable) ?_
    rw [sharedRank, if_neg shared]
    exact Nat.cast_lt.mpr (conforms.acyclic.rank_lt reachable uses)

end Graph

namespace TypedScope

variable {D : Dialect α} {T : Stage α} {g : Graph}

/-- The values of a typed graph. -/
noncomputable def valuation (M : ScalarModel α) (streams : StreamDecl → Nat → α)
    (conforms : g.Conforms D)
    : Valuation (M.meaning streams) Rank :=
  .ofGraph _ g (fun id => g.Reachable id ∨ ∃ v c, g.Shares α v c id) (g.sharedRank α)
    (fun live => live.elim conforms.lt_size fun shared =>
      conforms.lt_size_of_shares shared.choose_spec.choose_spec)
    fun live uses =>
      have below := conforms.sharedRank_lt live uses
      ⟨.inl below.1, below.2⟩

theorem valuation_sound (conforms : g.Conforms D) {id : NodeId}
    (isLive : (valuation M streams conforms).live id)
    : g.Sound (g.node id) := by
  rcases isLive with reachable | ⟨v, c, shares⟩
  · exact conforms.sound reachable
  · rw [conforms.node_of_shares shares]
    exact Graph.sound_selectionOf (conforms.sound shares.1).known

/-- Every node in use has a value. Witness: what its operands have makes it one, for it is typed. -/
theorem valuation_total (M : ScalarModel α) (streams : StreamDecl → Nat → α)
    (conforms : g.Conforms D) {id : NodeId}
    (isLive : (valuation M streams conforms).live id)
    : ∃ x, (valuation M streams conforms).value id = some x := by
  refine (valuation M streams conforms).induction
    (P := fun id => ∃ x, (valuation M streams conforms).value id = some x)
    (fun {id} isLive ih => ?_) isLive
  have operands : ∀ child ∈ g.children id, ∃ x, g.Has (M.meaning streams) child x :=
    fun child member =>
    (ih child member).imp fun x found => Graph.valueOf?_eq_some.mp found
  obtain ⟨xs, values⟩ := exists_forall₂ operands
  obtain ⟨lanes, made⟩ := (valuation_sound conforms isLive).exists_lanes M streams
    values.length_eq.symm
  exact ⟨.of (g.type id) lanes, Graph.valueOf?_eq_some.mpr
    (.intro values (congrArg (Option.map (VectorValue.of (g.type id))) made))⟩

/-- The scope of a typed graph: what is reachable, and the selections that are shared. -/
noncomputable def ofConforms (M : ScalarModel α) (streams : StreamDecl → Nat → α)
    (conforms : g.Conforms D)
    (allowed : ∀ {id}, g.Reachable id → T.Allows id (g.shape id))
    (selects : ∀ {v c id}, g.Shares α v c id → T.Allows id ((g.type v).selection c))
    : TypedScope M streams T where
  toValuation := valuation M streams conforms
  tidy := conforms.toTidy
  total := valuation_total M streams conforms
  sound := valuation_sound conforms
  allowed {id} isLive := by
    rcases isLive with reachable | ⟨v, c, shares⟩
    · exact allowed reachable
    · have shape : g.shape id = (g.type v).selection c := by
        rw [Graph.shape, conforms.node_of_shares shares, Graph.shapeOf_selectionOf]
      exact shape ▸ selects shares
  shared {id} isLive isShared := by
    by_cases shared : ∃ v c, g.Shares α v c id
    · obtain ⟨v, c, shares⟩ := shared
      refine ⟨.ofList [c], ?_, rfl⟩
      change (g.node id).selection? = _
      rw [conforms.node_of_shares shares]
      rfl
    · change (g.sharedRank α id).isShared = true at isShared
      rw [Graph.sharedRank, if_neg shared] at isShared
      cases isShared
  cached {v c selection x} isLive hasValue isVector yields found := by
    have type := Valuation.type_of_value isLive hasValue
    rw [type] at isVector yields
    have reachable : g.Reachable v := by
      refine isLive.resolve_right ?_
      rintro ⟨w, d, shares⟩
      change (g.type v).isVector = true at isVector
      rw [Graph.type, conforms.node_of_shares shares] at isVector
      cases isVector
    have shares : g.Shares α v c selection := ⟨reachable, isVector, yields, found⟩
    refine ⟨.inr ⟨v, c, shares⟩, congrArg Node.isOutput (conforms.node_of_shares shares), ?_, ?_⟩
    · change (g.sharedRank α selection).level ≤ (g.sharedRank α v).level
      rw [conforms.sharedRank_of_shares shares, conforms.sharedRank_of_vector isVector]
      exact le_refl _
    · have value := Graph.valueOf?_eq_some.mp hasValue
      have selects := conforms.node_of_shares shares
      refine Graph.valueOf?_eq_some.mpr
        (.of_kind (congrArg Node.kind selects) (.cons value .nil) ?_)
      rw [selects]
      exact Graph.apply_selectionOf type yields
  direct {v c selection} isLive isVector _ found := by
    rcases isLive with reachable | ⟨w, d, shares⟩
    · exact conforms.cached reachable isVector found
    · change (g.type v).isVector = true at isVector
      rw [Graph.type, conforms.node_of_shares shares] at isVector
      cases isVector

/-- A scope is of a typed graph if all that is reachable is in use and stays. -/
theorem conforms (s : TypedScope M streams T) (rooted : s.graph.Rooted)
    (reached : ∀ {id}, s.graph.Reachable id → s.live id ∧ T.Stays (s.graph.shape id))
    (allows : ∀ {id shape}, T.Allows id shape → T.Stays shape → D.Allows id shape)
    : s.graph.Conforms D where
  toTidy := s.tidy
  acyclic := Graph.acyclic_of_rank s.rank fun reachable uses =>
    (s.operand (reached reachable).1 uses).2
  rooted := rooted
  sound reachable := s.sound (reached reachable).1
  allowed reachable := allows (s.allowed (reached reachable).1) (reached reachable).2
  cached reachable isVector found := s.direct (reached reachable).1 isVector
    (reached reachable).2 found

end TypedScope

/-! ## What a graph delivers -/

/-- A graph with the same roots that delivers the same values. -/
structure Graph.Serves (M : ScalarModel α) (streams : StreamDecl → Nat → α) (g h : Graph)
    : Prop where
  outputs : h.outputs = g.outputs
  declared : h.declared = g.declared
  outline : ∀ {root}, root ∈ g.outputs → (h.node root).outline = (g.node root).outline
  delivers : ∀ {root decl x}, root ∈ g.outputs → g.Delivers M streams root decl x →
    h.Delivers M streams root decl x

/-- A graph that delivers the same values from the same inputs. -/
structure Graph.Follows (M : ScalarModel α) (streams : StreamDecl → Nat → α) (g h : Graph) : Prop
    extends g.Serves M streams h where
  inputs : h.inputs = g.inputs
  carries : ∀ {id decl}, (h.node id).kind = .input decl → (g.node id).kind = .input decl

namespace TypedScope

variable {T : Stage α} {s t : TypedScope M streams T}

/-- An output in use writes a value to a stream. -/
def Writes (s : TypedScope M streams T) (root : NodeId) (p : StreamDecl × VectorValue α) : Prop :=
  s.live root ∧ ∃ e, (s.graph.node root).kind = .output p.1 e ∧ s.value e = some p.2

theorem Writes.later {root : NodeId} {p : StreamDecl × VectorValue α} (writes : s.Writes root p)
    (later : s.Later t)
    : t.Writes root p := by
  obtain ⟨isLive, e, kind, value⟩ := writes
  obtain ⟨e', kind'⟩ : ∃ e', (t.graph.node root).kind = .output p.1 e' := by
    have outline := congrArg Node.kind (later.outline isLive)
    change (t.graph.node root).kind.outline = (s.graph.node root).kind.outline at outline
    rw [kind] at outline
    cases found : (t.graph.node root).kind <;> rw [found] at outline <;> cases outline
    exact ⟨_, rfl⟩
  refine ⟨later.live isLive, e', kind', ?_⟩
  rw [(value_output (later.live isLive) kind').2, later.value isLive,
    ← (value_output isLive kind).2, value]

theorem Writes.delivers {root : NodeId} {p : StreamDecl × VectorValue α} (writes : s.Writes root p)
    : s.graph.Delivers M streams root p.1 p.2 := by
  obtain ⟨isLive, e, kind, value⟩ := writes
  exact ⟨e, kind, s.has (value_output isLive kind).1 value⟩

theorem writes_of_delivers {root : NodeId} {p : StreamDecl × VectorValue α} (isLive : s.live root)
    (delivers : s.graph.Delivers M streams root p.1 p.2)
    : s.Writes root p := by
  obtain ⟨e, kind, has⟩ := delivers
  have operandLive := (value_output isLive kind).1
  obtain ⟨y, value⟩ := s.total operandLive
  exact ⟨isLive, e, kind, (s.has operandLive value).unique has ▸ value⟩

/-- A later scope with the same roots delivers the same. -/
theorem Later.follows (later : s.Later t) (outputs : t.graph.outputs = s.graph.outputs)
    (live : ∀ root ∈ s.graph.outputs, s.live root)
    : s.graph.Follows M streams t.graph where
  outputs := outputs
  declared := later.declared
  inputs := later.inputs
  carries := later.carries
  outline isRoot := later.outline (live _ isRoot)
  delivers {root decl x} isRoot delivers :=
    ((writes_of_delivers (p := (decl, x)) (live root isRoot) delivers).later later).delivers

/-- What is reachable from roots in use is in use. -/
theorem live_of_reachable {id : NodeId} (live : ∀ root ∈ s.graph.outputs, s.live root)
    (reachable : s.graph.Reachable id)
    : s.live id := by
  obtain ⟨root, isRoot, path⟩ := reachable
  induction path with
  | refl => exact live root isRoot
  | tail _ uses ih => exact (s.operand ih uses).1

/-- Roots that are outputs stay where outputs do. -/
theorem outputs_eq_of_replaces (stays : ∀ {shape : Shape}, shape.node.isOutput = true
    → T.Stays shape) {roots new : List NodeId}
    (replaces : List.Forall₂ (fun old new => s.graph.isOutput old = true
    ∧ s.Replaces old new) roots new)
    : new = roots := by
  induction replaces with
  | nil => rfl
  | cons head _ ih => rw [head.2.stays (stays ((s.graph.isOutput_shape _).trans head.1)), ih]

/-- A pass that visits parents first and keeps outputs leaves a typed graph that delivers the
same. -/
theorem preOrder_follows {S : Type} {val : S → TypedScope M streams T} {left Spent point redirect}
    {step : NodeId → Edit NodeId}
    (admits : (invariant val left Spent point redirect).Admits False (Transform.ofEdit step))
    (start : S) (rooted : (val start).graph.Rooted)
    (live : ∀ root ∈ (val start).graph.outputs, (val start).live root)
    (unspent : ∀ id, ¬ Spent start id) (keepsOutputs : ∀ {shape : Shape}, shape.node.isOutput = true
    → T.Stays shape) {D : Dialect α} (allows : ∀ {id shape}, T.Allows id shape → T.Stays shape
      → D.Allows id shape)
    : ∃ h, Edit.pass .preOrder step (val start).graph = .ok () h
        ∧ h.Conforms D
        ∧ (val start).graph.Follows M streams h := by
  have runs := (admits.leads.runs_preOrder_finished (s := start) (.inr ⟨descent⟩)
    (fun unrooted => (unrooted rooted).elim) live unspent).pass
  obtain ⟨_, t, ran, later, succeeds, finished⟩ := runs.exists_ok
  have outputs : (val t).graph.outputs = (val start).graph.outputs :=
    outputs_eq_of_replaces (s := val t) keepsOutputs
      (succeeds.imp fun _ _ found => ⟨found.isOutput, found.stands⟩)
  have stillRooted : (val t).graph.Rooted := by
    refine ⟨outputs ▸ rooted.1, fun root isRoot => ?_⟩
    rw [outputs] at isRoot
    exact (later.1.isOutput (live root isRoot)).trans (rooted.2 root isRoot)
  exact ⟨(val t).graph, ran,
    (val t).conforms stillRooted (fun reachable => (finished _ reachable).2) allows,
    later.1.follows outputs live⟩

end TypedScope

end StreamExpr
