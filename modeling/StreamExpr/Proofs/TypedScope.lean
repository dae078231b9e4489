import Mathlib.Algebra.Order.Field.Basic
import Mathlib.Algebra.Order.Field.Rat
import Mathlib.Data.Prod.Lex
import Mathlib.Order.Lex
import StreamExpr.Proofs.TypedOperator
import StreamExpr.Proofs.VectorMeaning

/-! Typed graphs with a value for every node in use.
A selection that is shared by all who ask for it may be added long after the vector it selects from,
and used below nodes that were there before. Nodes have levels for this reason, and a shared
selection ranks above its vector on the level of the vector.
-/

namespace StreamExpr

variable {α : Type} {M : ScalarModel α} {streams : StreamDecl → Nat → α}

/-! ## Ranks -/

/-- A level, and whether the node is a shared selection from a node on that level. -/
abbrev Rank := ℚ ×ₗ Bool

namespace Rank

def level (r : Rank) : ℚ :=
  (ofLex r).1

def isShared (r : Rank) : Bool :=
  (ofLex r).2

theorem lt_of_level {a b : Rank} (lower : a.level < b.level) : a < b :=
  Prod.Lex.lt_iff.mpr (.inl lower)

theorem level_le {a b : Rank} (lower : a < b) : a.level ≤ b.level := by
  rcases Prod.Lex.lt_iff.mp lower with below | ⟨same, _⟩
  · exact le_of_lt below
  · exact le_of_eq same

theorem level_lt {a b : Rank} (lower : a < b) (plain : b.isShared = false) : a.level < b.level := by
  rcases Prod.Lex.lt_iff.mp lower with below | ⟨_, shared⟩
  · exact below
  · rw [show (ofLex b).2 = false from plain] at shared
    exact (not_lt_bot shared).elim

/-- There is a level above some levels that are below a bound, and below that bound. -/
theorem exists_level {β : Type} {level : β → ℚ} {bound : ℚ} {xs : List β}
    (below : ∀ x ∈ xs, level x < bound)
    : ∃ between < bound, ∀ x ∈ xs, level x < between := by
  induction xs with
  | nil =>
      obtain ⟨between, lower⟩ := exists_lt bound
      exact ⟨between, lower, fun x member => (List.not_mem_nil member).elim⟩
  | cons x xs ih =>
      obtain ⟨others, othersLower, aboveOthers⟩ :=
        ih fun y member => below y (List.mem_cons_of_mem _ member)
      obtain ⟨between, above, lower⟩ := exists_between
        (max_lt othersLower (below x List.mem_cons_self))
      refine ⟨between, lower, fun y member => ?_⟩
      rcases List.mem_cons.mp member with rfl | later
      · exact (le_max_right _ _).trans_lt above
      · exact (aboveOthers y later).trans ((le_max_left _ _).trans_lt above)

end Rank

/-! ## Values of typed nodes -/

theorem ScalarModel.unaryLane_of_componentwise {op : UnaryOp} {operand : NodeId}
    {target : RegisterClass} {x : VectorValue α}
    (componentwise : (NodeKind.unary op operand).isComponentwise = true)
    : M.unaryLane op target x = fun c => M.unary op x.type.register (x.lane c) := by
  cases op <;> first | rfl | cases componentwise

theorem ScalarModel.binaryLane_of_componentwise {op : BinaryOp} {x y : VectorValue α}
    (componentwise : op.isVectorOp = false)
    : M.binaryLane op x y = fun c => M.binary op y.type.register (x.lane c) (y.lane c) := by
  cases op <;> first | rfl | cases componentwise

/-- A typed node makes a value of any values for its operands. -/
theorem Graph.Sound.exists_lanes (M : ScalarModel α) (streams : StreamDecl → Nat → α) {g : Graph}
    {n : Node} (sound : g.Sound n) {xs : List (VectorValue α)}
    (count : xs.length = n.children.length)
    : ∃ lanes, n.lanes? M streams xs = some lanes := by
  rw [Node.children] at count
  cases kind : n.kind with
  | call candidates arguments =>
      obtain ⟨f, function⟩ := sound.exists_function kind
      simp only [Node.lanes?, kind, function, Option.map_some, Option.some.injEq, exists_eq']
  | _ =>
      rw [kind] at count
      simp only [Node.lanes?, kind]
      rcases xs with _ | ⟨x, _ | ⟨y, _ | ⟨z, _ | ⟨more, xs⟩⟩⟩⟩ <;>
        first | exact ⟨_, rfl⟩ | simp [NodeKind.children] at count

/-- The value of a node has the type of the node. -/
theorem Valuation.type_of_value {R : Type} [LinearOrder R] {s : Valuation (M.meaning streams) R}
    {id : NodeId} {x : VectorValue α} (isLive : s.live id) (hasValue : s.value id = some x)
    : x.type = s.graph.type id := by
  obtain ⟨operands, _, result⟩ := s.valued isLive hasValue
  obtain ⟨lanes, _, rfl⟩ := Option.map_eq_some_iff.mp result
  rfl

/-- A node that selects a component has the value of that component. -/
theorem Graph.apply_selectionOf {g : Graph} {v : NodeId} {c : Nat} {x : VectorValue α}
    (type : x.type = g.type v) (yields : (g.type v).Yields α c)
    : (M.meaning streams).apply (g.selectionOf v c) [x] = some (x.part c) := by
  refine congrArg some (VectorValue.eq_part (congrArg DataType.scalar type.symm) ?_)
  refine (VectorValue.lane_of_scalar _ _ 0).trans ?_
  rw [Selection.lane_ofList]
  rcases yields with (inside | scalar) | ⟨_, single⟩
  · refine congrArg x.lane (Nat.min_eq_left (Nat.le_of_lt_succ ?_))
    exact Nat.lt_of_lt_of_le inside (g.type v).width_le_four
  · rw [← type] at scalar
    rw [VectorValue.lane_eq_of_scalar scalar, VectorValue.lane_eq_of_scalar scalar c]
  · exact single.elim _ _

/-! ## Scopes -/

/-- A dialect with the shapes of the nodes that stay in place. -/
structure Stage (α : Type) extends Dialect α where
  Stays : Shape → Prop

/-- A typed graph in a dialect with a value for every node in use. Shared selections have the values
of the components they are shared for, and those of a node that stays select from that node. -/
structure TypedScope (M : ScalarModel α) (streams : StreamDecl → Nat → α) (T : Stage α)
    extends Valuation (M.meaning streams) Rank where
  tidy : graph.Tidy
  total : ∀ {id}, live id → ∃ x, value id = some x
  sound : ∀ {id}, live id → graph.Sound (graph.node id)
  allowed : ∀ {id}, live id → T.Allows id (graph.shape id)
  shared : ∀ {id}, live id → (rank id).isShared = true →
    ∃ chosen, (graph.node id).selection? = some chosen ∧ chosen.count = 1
  cached : ∀ {v c selection : Nat} {x}, live v → value v = some x → x.type.isVector = true →
    x.type.Yields α c → graph.selections[(v, c)]? = some selection →
      live selection
      ∧ graph.isOutput selection = false
      ∧ (rank selection).level ≤ (rank v).level
      ∧ value selection = some (x.part c)
  direct : ∀ {v c selection : Nat}, live v → (graph.type v).isVector = true
    → T.Stays (graph.shape v) → graph.selections[(v, c)]? = some selection
      → graph.node selection = graph.selectionOf v c

namespace TypedScope

variable {T : Stage α}

/-- The level of a node. -/
def level (s : TypedScope M streams T) (id : NodeId) : ℚ :=
  (s.rank id).level

/-- A node in use has a value and is below a level. -/
structure Computes (s : TypedScope M streams T) (bound : ℚ) (id : NodeId) (x : VectorValue α)
    : Prop where
  live : s.live id
  isValue : s.graph.isOutput id = false
  below : s.level id < bound
  value : s.value id = some x

/-- A later scope: what was in use still is, with its rank, its value and its shape. Inputs are
neither added nor changed. -/
structure Later (s t : TypedScope M streams T)
    : Prop extends s.toValuation.Later t.toValuation where
  shape : ∀ {id}, s.live id → t.graph.shape id = s.graph.shape id
  inputs : t.graph.inputs = s.graph.inputs
  declared : t.graph.declared = s.graph.declared
  carries : ∀ {id decl}, (t.graph.node id).kind = .input decl → (s.graph.node id).kind = .input decl

theorem Later.refl (s : TypedScope M streams T) : s.Later s :=
  ⟨.refl _, fun _ => rfl, rfl, rfl, fun kind => kind⟩

theorem Later.trans {s t u : TypedScope M streams T} (first : s.Later t) (second : t.Later u)
    : s.Later u where
  toLater := first.toLater.trans second.toLater
  shape isLive := (second.shape (first.live isLive)).trans (first.shape isLive)
  inputs := second.inputs.trans first.inputs
  declared := second.declared.trans first.declared
  carries kind := first.carries (second.carries kind)

variable {s t : TypedScope M streams T} {bound : ℚ} {id v new : NodeId}
    {c : Nat} {x : VectorValue α}

theorem Later.isOutput (later : s.Later t) (isLive : s.live id)
    : t.graph.isOutput id = s.graph.isOutput id :=
  Node.isOutput_eq_of_outline (later.outline isLive)

theorem Later.type (later : s.Later t) (isLive : s.live id) : t.graph.type id = s.graph.type id :=
  Node.type_eq_of_outline (later.outline isLive)

theorem Computes.type (computes : s.Computes bound id x) : s.graph.type id = x.type :=
  (Valuation.type_of_value computes.live computes.value).symm

theorem Computes.known (computes : s.Computes bound id x) : x.type.isKnown = true := by
  rw [← computes.type]
  exact (s.sound computes.live).known

theorem Computes.later (computes : s.Computes bound id x) (later : s.Later t)
    : t.Computes bound id x where
  live := later.live computes.live
  isValue := (later.isOutput computes.live).trans computes.isValue
  below := by
    rw [level, later.rank computes.live]
    exact computes.below
  value := (later.value computes.live).trans computes.value

theorem Computes.mono {higher : ℚ} (computes : s.Computes bound id x) (le : bound ≤ higher)
    : s.Computes higher id x :=
  { computes with below := lt_of_lt_of_le computes.below le }

/-- A node that is not a selection of one component has its operands below its own level. -/
theorem isShared_eq_false (isLive : s.live id)
    (plain : ∀ chosen, (s.graph.node id).selection? = some chosen → chosen.count ≠ 1)
    : (s.rank id).isShared = false := by
  refine Bool.eq_false_iff.mpr fun isShared => ?_
  obtain ⟨chosen, selects, single⟩ := s.shared isLive isShared
  exact plain chosen selects single

/-- The operands of a node have values, and the node makes its own of them. -/
theorem exists_operands (isLive : s.live id)
    : ∃ xs lanes,
        List.Forall₂ (fun child x =>
            s.live child ∧ s.graph.isOutput child = false ∧ s.rank child < s.rank id
            ∧ s.value child = some x)
          (s.graph.children id) xs
        ∧ (s.graph.node id).lanes? M streams xs = some lanes
        ∧ s.value id = some (.of (s.graph.type id) lanes) := by
  obtain ⟨x, hasValue⟩ := s.total isLive
  obtain ⟨xs, values, result⟩ := s.valued isLive hasValue
  obtain ⟨lanes, found, rfl⟩ := Option.map_eq_some_iff.mp result
  refine ⟨xs, lanes, List.forall₂_iff_zip.mpr ⟨values.length_eq, fun {child y} paired => ?_⟩, found,
    hasValue⟩
  have isOperand := (List.of_mem_zip paired).1
  obtain ⟨childLive, below⟩ := s.operand isLive isOperand
  exact ⟨childLive, s.tidy.unused isOperand, below, (List.forall₂_iff_zip.mp values).2 paired⟩

/-- The operands of a node that is not a shared selection are below its level. -/
theorem exists_computes {kind : NodeKind} (isLive : s.live id)
    (plain : (s.rank id).isShared = false) (found : (s.graph.node id).kind = kind)
    : ∃ xs lanes,
        List.Forall₂ (s.Computes (s.level id)) kind.children xs
        ∧ (s.graph.node id).lanes? M streams xs = some lanes
        ∧ s.value id = some (.of (s.graph.type id) lanes) := by
  obtain ⟨xs, lanes, operands, made, hasValue⟩ := s.exists_operands isLive
  refine ⟨xs, lanes, ?_, made, hasValue⟩
  subst found
  refine operands.imp fun child x computed => ?_
  exact ⟨computed.1, computed.2.1, Rank.level_lt computed.2.2.1 plain, computed.2.2.2⟩

/-- The operands of a node that selects nothing are below its level, and its value is made of
theirs. -/
theorem computes_operands {kind : NodeKind} (isLive : s.live id)
    (found : (s.graph.node id).kind = kind) (noSelection : ∀ x chosen, kind ≠ .swizzle x chosen)
    : ∃ xs lanes,
        List.Forall₂ (s.Computes (s.level id)) kind.children xs
        ∧ (s.graph.node id).lanes? M streams xs = some lanes
        ∧ s.value id = some (.of (s.graph.type id) lanes) := by
  refine exists_computes isLive (isShared_eq_false isLive fun chosen selects _ => ?_) found
  obtain ⟨x, swizzles⟩ := Node.kind_of_selection? selects
  exact noSelection x chosen (found.symm.trans swizzles)

theorem computes_unary {op : UnaryOp} (isLive : s.live id)
    (kind : (s.graph.node id).kind = .unary op v)
    : ∃ x, s.Computes (s.level id) v x
        ∧ s.value id = some (.of (s.graph.type id) (M.unaryLane op (s.graph.register id) x)) := by
  obtain ⟨xs, lanes, operands, made, hasValue⟩ := computes_operands isLive kind fun _ _ => nofun
  cases operands with
  | cons atX rest =>
      cases rest
      rw [Node.lanes?_unary kind] at made
      obtain rfl := Option.some.inj made
      exact ⟨_, atX, hasValue⟩

theorem computes_binary {op : BinaryOp} {a b : NodeId} (isLive : s.live id)
    (kind : (s.graph.node id).kind = .binary op a b)
    : ∃ x y, s.Computes (s.level id) a x ∧ s.Computes (s.level id) b y
        ∧ s.value id = some (.of (s.graph.type id) (M.binaryLane op x y)) := by
  obtain ⟨xs, lanes, operands, made, hasValue⟩ := computes_operands isLive kind fun _ _ => nofun
  cases operands with
  | cons atX rest =>
      cases rest with
      | cons atY rest =>
          cases rest
          rw [Node.lanes?_binary kind] at made
          obtain rfl := Option.some.inj made
          exact ⟨_, _, atX, atY, hasValue⟩

/-- An output has the value of its expression. -/
theorem value_output {root e : NodeId} {decl : StreamDecl} (isLive : s.live root)
    (kind : (s.graph.node root).kind = .output decl e)
    : s.live e ∧ s.value e = s.value root := by
  obtain ⟨xs, lanes, operands, made, hasValue⟩ := s.exists_operands isLive
  have written := (s.sound isLive).written (by rw [Node.isOutput, kind])
  rw [Node.children, kind] at written
  rw [Graph.children, Node.children, kind] at operands
  obtain ⟨type, _⟩ := List.cons.inj written
  cases operands with
  | @cons _ x _ _ computed rest =>
      cases rest
      have own : x.type = s.graph.type e := Valuation.type_of_value computed.1 computed.2.2.2
      rw [Node.lanes?_output kind] at made
      obtain rfl := Option.some.inj made
      refine ⟨computed.1, ?_⟩
      rw [hasValue, computed.2.2.2, Graph.type, ← type, ← own, VectorValue.of_lane]

/-- What stands in for a node has its type. -/
theorem type_of_stands {old : NodeId} (stands : s.toValuation.Stands old new)
    : s.graph.type new = s.graph.type old := by
  obtain ⟨x, hasValue⟩ := s.total stands.oldLive
  rw [← Valuation.type_of_value stands.oldLive hasValue,
    ← Valuation.type_of_value stands.newLive (stands.value hasValue)]

/-- A node that replaces another: it stands in for it, it is no output unless the other is, and
nodes that stay are replaced by themselves only. -/
structure Replaces (s : TypedScope M streams T) (old new : NodeId) : Prop
    extends s.toValuation.Stands old new where
  isValue : s.graph.isOutput old = false → s.graph.isOutput new = false
  stays : T.Stays (s.graph.shape old) → new = old

theorem Replaces.refl (isLive : s.live id) : s.Replaces id id :=
  ⟨.refl isLive, fun isValue => isValue, fun _ => rfl⟩

theorem Replaces.trans {first second third : NodeId} (left : s.Replaces first second)
    (right : s.Replaces second third)
    : s.Replaces first third where
  toStands := left.toStands.trans right.toStands
  isValue isValue := right.isValue (left.isValue isValue)
  stays stays := by
    obtain rfl := left.stays stays
    exact right.stays stays

theorem Replaces.later {old : NodeId} (replaces : s.Replaces old new) (later : s.Later t)
    : t.Replaces old new where
  toStands := replaces.toStands.later later.toLater
  isValue := by
    rw [later.isOutput replaces.oldLive, later.isOutput replaces.newLive]
    exact replaces.isValue
  stays := by
    rw [later.shape replaces.oldLive]
    exact replaces.stays

/-- A node below the level of another replaces it if it has its value. -/
theorem Computes.replaces (computes : s.Computes (s.level id) new x) (isLive : s.live id)
    (hasValue : s.value id = some x) (moves : ¬ T.Stays (s.graph.shape id))
    : s.Replaces id new where
  oldLive := isLive
  newLive := computes.live
  rank := le_of_lt (Rank.lt_of_level computes.below)
  covers found := .of_eq (by rw [computes.value, ← hasValue, found])
  isValue _ := computes.isValue
  stays stays := (moves stays).elim

/-! ## Edits -/

/-- Point a slot at what replaces its operand. -/
def setChild (s : TypedScope M streams T) {parent child new : NodeId} {slot : Nat}
    (atSlot : (s.graph.children parent)[slot]? = some child) (replaces : s.Replaces child new)
    : TypedScope M streams T where
  toValuation := s.toValuation.setChild atSlot replaces.toStands
  tidy := s.tidy.setChild (s.inside replaces.newLive)
    (replaces.isValue (s.tidy.unused (List.mem_of_getElem? atSlot)))
  total := s.total
  sound {id} isLive :=
    (s.sound isLive).of_shape (Graph.shape_setChild atSlot (type_of_stands replaces.toStands))
  allowed {id} isLive := by
    have same : (s.graph.setChild parent slot new).shape id = s.graph.shape id :=
      Graph.shape_setChild atSlot (type_of_stands replaces.toStands)
    exact same ▸ s.allowed isLive
  shared {id} isLive isShared := by
    obtain ⟨chosen, selects, single⟩ := s.shared isLive isShared
    refine ⟨chosen, ?_, single⟩
    rw [← Node.selection?_outline, (s.setChild_later atSlot replaces.toStands).outline isLive,
      Node.selection?_outline, selects]
  cached isLive hasValue isVector yields found := by
    rw [Valuation.setChild, Graph.isOutput_setChild]
    exact s.cached isLive hasValue isVector yields found
  direct {v c selection} isLive isVector stays found := by
    have types (other) : (s.graph.setChild parent slot new).type other = s.graph.type other :=
      s.graph.type_setChild parent other slot new
    have sameShape : (s.graph.setChild parent slot new).shape v = s.graph.shape v :=
      Graph.shape_setChild atSlot (type_of_stands replaces.toStands)
    simp only [Valuation.setChild] at isVector stays found ⊢
    rw [types] at isVector
    rw [sameShape] at stays
    have before := s.direct isLive isVector stays found
    rw [Graph.node_setChild]
    split
    case isTrue here =>
      subst here
      have own : (s.graph.children selection) = [v] := by
        rw [Graph.children, before]
        rfl
      obtain ⟨rfl, rfl⟩ : slot = 0 ∧ child = v := by
        rw [own] at atSlot
        cases slot with
        | zero => exact ⟨rfl, (Option.some.inj atSlot).symm⟩
        | succ _ => cases atSlot
      rw [Graph.selectionOf, types, replaces.stays stays, before, Graph.selectionOf]
      rfl
    case isFalse => rw [before, Graph.selectionOf, Graph.selectionOf, types]

/-- Replace a root. -/
def setOutput (s : TypedScope M streams T) (index : Nat) {root : NodeId} (isLive : s.live root)
    : TypedScope M streams T :=
  { s with
    graph := s.graph.setOutput index root
    tidy := s.tidy.setOutput index (s.inside isLive)
    sound := fun isLive => (s.sound isLive).of_shape rfl }

/-- A node that can be added: its operands are values in use and rank below it, it is typed and in
the dialect. -/
structure Accepts (s : TypedScope M streams T) (n : Node) (rank : Rank) : Prop where
  operand : ∀ child ∈ n.children, s.live child ∧ s.rank child < rank
  isValue : ∀ child ∈ n.children, s.graph.isOutput child = false
  sound : s.graph.Sound n
  allowed : T.Allows s.graph.size (s.graph.shapeOf n)
  shared : rank.isShared = true → ∃ chosen, n.selection? = some chosen ∧ chosen.count = 1

/-- A typed node whose operands are in use has a value. -/
theorem Accepts.exists_derived {n : Node} {rank : Rank} (accepts : s.Accepts n rank)
    : ∃ x, s.derived n = some x := by
  have values : ∃ xs, n.children.mapM s.value = some xs := by
    have live := accepts.operand
    generalize n.children = ids at live
    induction ids with
    | nil => exact ⟨[], rfl⟩
    | cons id ids ih =>
        obtain ⟨x, found⟩ := s.total (live id (.head _)).1
        obtain ⟨xs, others⟩ := ih fun child member => live child (.tail _ member)
        exact ⟨x :: xs, mapM_eq_some.mpr (.cons found (mapM_eq_some.mp others))⟩
  obtain ⟨xs, found⟩ := values
  obtain ⟨lanes, made⟩ : ∃ lanes, n.lanes? M streams xs = some lanes :=
    accepts.sound.exists_lanes M streams (mapM_eq_some.mp found).length_eq.symm
  refine ⟨.of n.type lanes, ?_⟩
  rw [Valuation.derived, found, Option.bind_some]
  exact congrArg (Option.map (VectorValue.of n.type)) made

/-- Add a node. -/
def push (s : TypedScope M streams T) {n : Node} {rank : Rank} (accepts : s.Accepts n rank)
    : TypedScope M streams T where
  toValuation := s.toValuation.push n rank accepts.operand
  tidy := s.tidy.push fun child member =>
    ⟨s.inside (accepts.operand child member).1, accepts.isValue child member⟩
  total {id} isLive := by
    rcases isLive with before | rfl
    · rw [(s.push_later n rank accepts.operand).value before]
      exact s.total before
    · simp only [Valuation.push, Function.update_self]
      exact accepts.exists_derived
  sound {id} isLive := by
    rcases isLive with before | rfl
    · exact (s.sound before).of_shape
        (Graph.shape_appends (s.graph.appends_push n) s.tidy.toEnclosed (s.inside before))
    · simp only [Valuation.push, Graph.node_push_self]
      exact accepts.sound.of_shape
        (Graph.shapeOf_appends (s.graph.appends_push n) fun child member =>
        s.inside (accepts.operand child member).1)
  allowed {id} isLive := by
    rcases isLive with before | rfl
    · have same : (s.graph.push n).shape id = s.graph.shape id :=
        Graph.shape_appends (s.graph.appends_push n) s.tidy.toEnclosed (s.inside before)
      exact same ▸ s.allowed before
    · have same : (s.graph.push n).shape s.graph.size = s.graph.shapeOf n := by
        rw [Graph.shape, Graph.node_push_self]
        exact Graph.shapeOf_appends (s.graph.appends_push n) fun child member =>
          s.inside (accepts.operand child member).1
      exact same ▸ accepts.allowed
  shared {id} isLive isShared := by
    rcases isLive with before | rfl
    · rw [(s.push_later n rank accepts.operand).rank before] at isShared
      simp only [Valuation.push, Graph.node_push_of_lt n (s.inside before)]
      exact s.shared before isShared
    · simp only [Valuation.push, Function.update_self] at isShared
      simp only [Valuation.push, Graph.node_push_self]
      exact accepts.shared isShared
  cached {v c selection x} isLive hasValue isVector yields found := by
    have later := s.push_later n rank accepts.operand
    have wasLive := isLive.resolve_right (Nat.ne_of_lt (s.tidy.keyed found))
    rw [later.value wasLive] at hasValue
    obtain ⟨selectionLive, isValue, level, value⟩ := s.cached wasLive hasValue isVector yields found
    rw [later.rank selectionLive, later.rank wasLive, later.value selectionLive]
    exact ⟨later.live selectionLive,
      (Node.isOutput_eq_of_outline (later.outline selectionLive)).trans isValue, level, value⟩
  direct {v c selection} isLive isVector stays found := by
    have inside := s.tidy.keyed found
    have wasLive := isLive.resolve_right (Nat.ne_of_lt inside)
    have sameNode : (s.graph.push n).node v = s.graph.node v := Graph.node_push_of_lt n inside
    have sameShape : (s.graph.push n).shape v = s.graph.shape v :=
      Graph.shape_appends (s.graph.appends_push n) s.tidy.toEnclosed inside
    have before := s.direct wasLive ((congrArg (·.type.isVector) sameNode).symm.trans isVector)
      (sameShape ▸ stays) found
    have selectionInside : selection < s.graph.size := by
      by_contra outside
      rw [Graph.node_of_size_le (Nat.le_of_not_lt outside)] at before
      cases congrArg Node.kind before
    simp only [Valuation.push]
    rw [Graph.node_push_of_lt n selectionInside, before, Graph.selectionOf, Graph.selectionOf,
      Graph.type, Graph.type, sameNode]

section Push

variable {n : Node} {rank : Rank} (accepts : s.Accepts n rank)

theorem later_push (noInput : ∀ decl, n.kind ≠ .input decl) : s.Later (s.push accepts) where
  toLater := s.push_later n rank accepts.operand
  shape isLive := Graph.shape_appends (s.graph.appends_push n) s.tidy.toEnclosed (s.inside isLive)
  inputs := rfl
  declared := rfl
  carries {id decl} kind := by
    change ((s.graph.push n).node id).kind = .input decl at kind
    rw [Graph.node_push] at kind
    split at kind
    · exact (noInput decl kind).elim
    · exact kind

theorem level_push : (s.push accepts).level s.graph.size = rank.level :=
  congrArg Rank.level (Function.update_self (f := s.rank) ..)

theorem value_push : (s.push accepts).value s.graph.size = s.derived n :=
  Function.update_self (f := s.value) ..

end Push

/-- A node that can be shared with all who ask for a component: it has the value of that component,
and it selects it. -/
structure Selects (s : TypedScope M streams T) (v : NodeId) (c : Nat) (selection : NodeId)
    : Prop where
  vector : s.live v
  live : s.live selection
  level : s.level selection ≤ s.level v
  value : ∀ {x}, s.value v = some x → s.value selection = some (x.part c)
  node : s.graph.node selection = s.graph.selectionOf v c

/-- Share a selection with all who ask for the component. -/
def share (s : TypedScope M streams T) {v selection : NodeId} {c : Nat}
    (selects : s.Selects v c selection)
    : TypedScope M streams T where
  toValuation := { s.toValuation with graph := s.graph.share v c selection }
  tidy := s.tidy.share (s.inside selects.vector) c selection
  total := s.total
  sound isLive := (s.sound isLive).of_shape rfl
  allowed := s.allowed
  shared := s.shared
  cached {w d other x} otherLive hasValue isVector inside found := by
    rcases Graph.eq_or_selections_of_share found with ⟨rfl, rfl, rfl⟩ | before
    · exact ⟨selects.live, congrArg Node.isOutput selects.node, selects.level,
        selects.value hasValue⟩
    · exact s.cached otherLive hasValue isVector inside before
  direct {w d other} isLive isVector stays found := by
    rcases Graph.eq_or_selections_of_share found with ⟨rfl, rfl, rfl⟩ | before
    · exact selects.node
    · exact s.direct isLive isVector stays before

theorem later_share {selection : NodeId} (selects : s.Selects v c selection)
    : s.Later (s.share selects) where
  toLater := ⟨fun isLive => isLive, fun _ => rfl, fun _ => rfl, fun _ => rfl⟩
  shape _ := rfl
  inputs := rfl
  declared := rfl
  carries kind := kind

theorem later_setChild {parent child : NodeId} {slot : Nat}
    (atSlot : (s.graph.children parent)[slot]? = some child) (replaces : s.Replaces child new)
    : s.Later (s.setChild atSlot replaces) where
  toLater := s.setChild_later atSlot replaces.toStands
  shape _ := Graph.shape_setChild atSlot (type_of_stands replaces.toStands)
  inputs := rfl
  declared := rfl
  carries {id decl} kind := by
    change ((s.graph.setChild parent slot new).node id).kind = .input decl at kind
    rw [Graph.node_setChild] at kind
    split at kind
    · exact Node.kind_of_setChild_input kind
    · exact kind

theorem later_setOutput {root : NodeId} (index : Nat) (isLive : s.live root)
    : s.Later (s.setOutput index isLive) where
  toLater := s.setOutput_later index root
  shape _ := rfl
  inputs := rfl
  declared := rfl
  carries kind := kind

/-- Replace the roots and the table of outputs. -/
def setRoots (s : TypedScope M streams T) {outputs : List NodeId}
    (live : ∀ root ∈ outputs, s.live root) (declared : List StreamDecl)
    : TypedScope M streams T :=
  { s with
    graph := { s.graph with outputs, declared }
    tidy := { s.tidy with output := fun root isRoot => s.inside (live root isRoot) }
    sound := fun isLive => (s.sound isLive).of_shape rfl }

/-! ## Passes -/

section Passes

-- States carry a scope, and perhaps more that a pass relies on.
variable {S : Type}

/-- States in the order of time, seen as graphs. -/
def evolution (val : S → TypedScope M streams T) : Evolution Graph S where
  view s := (val s).graph
  Later s t := (val s).Later (val t)
  refl s := .refl (val s)
  trans := .trans

/-- Scopes themselves in the order of time. -/
abbrev edits (M : ScalarModel α) (streams : StreamDecl → Nat → α) (T : Stage α)
    : Evolution Graph (TypedScope M streams T) :=
  evolution fun s => s

theorem runs_read {β γ : Type} {fails : Prop} {f : Graph → β} {next : β → Edit γ}
    {post : γ → TypedScope M streams T → Prop}
    : (edits M streams T).Runs fails s (Edit.read f >>= next) post
      ↔ (edits M streams T).Runs fails s (next (f s.graph)) post :=
  ⟨.congr rfl, .congr rfl⟩

/-- What a pass keeps up that replaces nodes by nodes of the same type and value. It is finished
with the nodes that stay. -/
def invariant (val : S → TypedScope M streams T) (left : S → ℕ ×ₗ ℕ) (Spent : S → NodeId → Prop)
    (point : ∀ {s parent child new slot}
      (atSlot : ((val s).graph.children parent)[slot]? = some child)
      (replaces : (val s).Replaces child new),
        ∃ t, val t = (val s).setChild atSlot replaces ∧ left t = left s ∧ ∀ id,
        Spent t id → Spent s id)
    (redirect : ∀ {s root} (index) (isLive : (val s).live root),
      ∃ t, val t = (val s).setOutput index isLive ∧ left t = left s ∧ ∀ id, Spent t id → Spent s id)
    : Pass.Invariant Unit S where
  toEvolution := ((evolution val).declining left fun s => (val s).graph.size).workspace
  Live s := (val s).live
  Stands s := (val s).Replaces
  Spent := Spent
  Finished s id := (val s).live id ∧ T.Stays ((val s).graph.shape id)
  live_later later := later.1.live
  stands_later later stands := stands.later later.1
  finished_later later finished := ⟨later.1.live finished.1, later.1.shape finished.1 ▸ finished.2⟩
  stands_refl := .refl
  live_of_stands stands := stands.newLive
  isOutput_later later isLive := later.1.isOutput isLive
  point {s parent slot child new} _ atSlot replaces := by
    obtain ⟨t, carried, same, spent⟩ := point atSlot replaces
    refine ⟨t, ?_, ⟨?_, ?_⟩, spent⟩
    · exact congrArg (fun u : TypedScope M streams T => (⟨u.graph, ()⟩ : Workspace Unit)) carried
    · exact (congrArg (val s).Later carried).mpr (later_setChild atSlot replaces)
    · have size : (val t).graph.size = (val s).graph.size :=
        (congrArg (·.graph.size) carried).trans (Graph.size_setChild ..)
      exact Prod.Lex.toLex_le_toLex.mpr (.inr ⟨same, size.le⟩)
  redirect {s index _ new} _ replaces := by
    obtain ⟨t, carried, same, spent⟩ := redirect index replaces.newLive
    refine ⟨t, ?_, ⟨?_, ?_⟩, spent⟩
    · exact congrArg (fun u : TypedScope M streams T => (⟨u.graph, ()⟩ : Workspace Unit)) carried
    · exact (congrArg (val s).Later carried).mpr (later_setOutput index replaces.newLive)
    · have size : (val t).graph.size = (val s).graph.size := congrArg (·.graph.size) carried
      exact Prod.Lex.toLex_le_toLex.mpr (.inr ⟨same, size.le⟩)

/-- What replaces nodes in this way comes to an end. -/
def descent {val : S → TypedScope M streams T} {left Spent point redirect}
    : (invariant val left Spent point redirect).Descent where
  left := left
  bound s := (val s).graph.size
  inside {s _} isLive := (val s).inside isLive
  later later := later.2

end Passes

end TypedScope

end StreamExpr
