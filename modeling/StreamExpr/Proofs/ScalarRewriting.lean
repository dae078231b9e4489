import StreamExpr.Proofs.Rewriting
import StreamExpr.Proofs.Scalarization

/-! The replacement of components by scalars comes to an end.
What is added is a scalar. So only vectors that were there are asked for components, and each has
four of them: all selections that can ever be shared are paid for in advance. Any other node that is
added is stable, and rewriting one node takes seven of them at most.
-/

namespace StreamExpr

/-! ## Operators on scalars -/

section Scalars

variable {g : Graph} {kind : NodeKind}

/-- What works component by component is a scalar on scalars, also where no overload admits it. -/
theorem Graph.isVector_deduced (componentwise : kind.isComponentwise = true)
    (scalar : ∀ child ∈ kind.children, (g.type child).isVector = false)
    : (g.deduced (.ofKind kind .unknown)).type.isVector = false := by
  change (g.infer (.ofKind kind .unknown)).1.isVector = false
  obtain ⟨⟨inputs, found⟩, _⟩ := NodeKind.overloads_of_componentwise componentwise
  rcases g.infer_cases (n := .ofKind kind .unknown) found with unknown
    | ⟨i, width, _, broad, inferred⟩
  · rw [unknown]
    rfl
  · have single := NodeKind.width?_scalars componentwise broad
      (List.forall_mem_map.mpr fun child member => DataType.width_eq_one (scalar child member))
    obtain rfl := Option.some.inj (single.symm.trans broad)
    rw [inferred]
    rfl

end Scalars

namespace Scalarization

/-! ## What it costs -/

/-- How many nodes the replacement of a node takes, selections apart. -/
def need (n : Node) : Nat :=
  if n.isSettled then 0 else 7

theorem need_outline {n other : Node} (same : n.outline = other.outline) : need n = need other := by
  rw [need, need, ← Node.isSettled_outline n, same, Node.isSettled_outline]

theorem need_le (n : Node) : need n ≤ 7 := by
  rw [need]
  split <;> decide

/-- What is spared for selections: each of them, with what it takes to replace it. -/
def spare (base : Nat) (g : Graph) : Nat :=
  8 * (unasked base g).card

theorem spare_selections {base : Nat} {g h : Graph} (same : h.selections = g.selections)
    : spare base h = spare base g := by
  rw [spare, spare, unasked, unasked, same]

theorem scalar_outline {n other : Node} (same : n.outline = other.outline)
    (scalar : n.type.isVector = false)
    : other.type.isVector = false := by
  rw [← Node.type_eq_of_outline same]
  exact scalar

/-- What the replacement of components costs. -/
def tariff : Tariff where
  need := need
  mild := 7
  grant := 7
  spare := spare
  Allows n := n.type.isVector = false
  need_outline := need_outline
  allows_outline := scalar_outline
  spare_selections := spare_selections
  granted := need_le

theorem fits_of_settled {n : Node} (settled : n.isSettled = true) (scalar : n.type.isVector = false)
    : tariff.Fits 0 n := by
  have nothing : need n = 0 := by rw [need, settled, if_pos rfl]
  exact ⟨scalar, Nat.le_of_eq nothing, (Nat.le_of_eq nothing).trans (Nat.zero_le 7)⟩

variable {base limit : Nat} {bound : ℚ} {s t : RankedGraph} {v x new : NodeId} {c : Nat}
    {vectors scalars : List NodeId}

/-! ## Parts to build from -/

/-- Nodes at hand of which some are scalars. -/
structure Parts (base : Nat) (bound : ℚ) (limit : Nat) (vectors scalars : List NodeId)
    (t : RankedGraph) : Prop where
  stock : tariff.Stock base bound limit (scalars ++ vectors) t
  scalar : ∀ id ∈ scalars, (t.graph.type id).isVector = false

theorem Parts.grow (parts : Parts base bound limit vectors scalars s)
    (later : tariff.building.Later s t) {more : Nat}
    (stock : tariff.Stock base bound more (new :: (scalars ++ vectors)) t)
    (scalar : (t.graph.type new).isVector = false)
    : Parts base bound more vectors (new :: scalars) t := by
  refine ⟨stock, fun id member => ?_⟩
  rcases List.mem_cons.mp member with rfl | before
  · exact scalar
  · rw [Graph.type, later.appends.node
      (parts.stock.below id (List.mem_append_left _ before)).inside]
    exact parts.scalar id before

theorem Parts.mono {fewer : List NodeId} (parts : Parts base bound limit vectors scalars s)
    (known : fewer ⊆ scalars)
    : Parts base bound limit vectors fewer s where
  stock := parts.stock.mono (Nat.le_refl _) (List.append_subset.mpr
    ⟨fun _ member => List.mem_append_left _ (known member), List.subset_append_right _ _⟩)
  scalar id member := parts.scalar id (known member)

/-- A component takes no more than was spared for it. -/
theorem Parts.component (parts : Parts base bound limit vectors scalars s) (member : v ∈ vectors)
    (small : c < 4)
    : tariff.building.Concludes s (Edit.component v c) fun id t =>
        s.Component v c id t ∧ Parts base bound limit vectors (id :: scalars) t := by
  have below := parts.stock.below v (List.mem_append_right _ member)
  have paid (isVector : (s.graph.type v).isVector = true)
      (unshared : s.graph.selections[(v, c)]? = none) : tariff.Fits 7 (s.graph.selectionOf v c)
      ∧ tariff.spare base ((s.graph.push (s.graph.selectionOf v c)).share v c s.graph.size)
        + (7 + 1) ≤ tariff.spare base s.graph + 0 := by
    have old : v < base := by
      by_contra added
      cases isVector.symm.trans (parts.stock.fair.allows (Nat.le_of_not_lt added) below.inside)
    refine ⟨⟨rfl, Nat.le_refl 7, Nat.le_refl 7⟩, ?_⟩
    change 8 * (unasked base ((s.graph.push (s.graph.selectionOf v c)).share v c s.graph.size)).card
      + (7 + 1) ≤ 8 * (unasked base s.graph).card + 0
    have fewer := card_unasked_share (n := s.graph.selectionOf v c) old small unshared s.graph.size
    omega
  refine (parts.stock.component (List.mem_append_right _ member) paid).imp
    fun id t later found => ?_
  exact ⟨found.1, parts.grow later found.2 found.1.scalar⟩

/-- What is built: a settled scalar. -/
structure Built (base : Nat) (bound : ℚ) (limit : Nat) (vectors scalars : List NodeId)
    (id : NodeId) (t : RankedGraph)
    : Prop where
  settled : (t.graph.node id).isSettled = true
  parts : Parts base bound limit vectors (id :: scalars) t

theorem Built.alone (built : Built base bound limit vectors scalars new t)
    : Built base bound limit vectors [] new t :=
  ⟨built.settled, built.parts.mono (by simp)⟩

theorem Parts.concludes_of_made {edit : Edit NodeId} {n : Node}
    (parts : Parts base bound limit vectors scalars s) (settled : n.isSettled = true)
    (scalar : n.type.isVector = false)
    (concludes : tariff.building.Concludes s edit
    (tariff.Made base bound (limit + 1) (scalars ++ vectors) n))
    : tariff.building.Concludes s edit (Built base bound (limit + 1) vectors scalars) := by
  refine concludes.imp fun id t later made => ⟨made.node ▸ settled, parts.grow later made.stock ?_⟩
  rw [Graph.type, made.node]
  exact scalar

/-- What works component by component, on scalars. -/
theorem Parts.operation {kind : NodeKind} (parts : Parts base bound limit vectors scalars s)
    (componentwise : kind.isComponentwise = true)
    (operands : ∀ child ∈ kind.children, child ∈ scalars)
    : tariff.building.Concludes s (Edit.add (·.pushDeduced kind))
      (Built base bound (limit + 1) vectors scalars) := by
  have scalar := s.graph.isVector_deduced componentwise fun child member =>
    parts.scalar child (operands child member)
  have settled : (s.graph.deduced (.ofKind kind .unknown)).isSettled = true := by
    rw [Node.isSettled]
    rcases s.graph.kind_deduced_cases (.ofKind kind .unknown) with same | ⟨_, _, _, _, isCall⟩
    · rw [same, Node.ofKind]
      cases kind with
      | unary op x => cases op <;> first | rfl | cases componentwise
      | binary op x y => cases op <;> first | rfl | cases componentwise
      | ternary op x y z => rfl
      | call candidates arguments => rfl
      | _ => cases componentwise
    · rw [isCall]
  refine parts.concludes_of_made settled scalar (parts.stock.operation (fun v chosen same => ?_)
    (fun child member => List.mem_append_left _ (operands child member))
    (fits_of_settled settled scalar))
  rw [same] at componentwise
  cases componentwise

theorem Parts.binary {op : BinaryOp} {y : NodeId} (parts : Parts base bound limit vectors scalars s)
    (componentwise : op.isVectorOp = false) (left : x ∈ scalars) (right : y ∈ scalars)
    : tariff.building.Concludes s (Edit.binary op x y)
      (Built base bound (limit + 1) vectors scalars) := by
  refine parts.operation (by rw [NodeKind.isComponentwise, componentwise]; rfl)
    fun child member => ?_
  rcases List.mem_pair.mp member with rfl | rfl
  · exact left
  · exact right

theorem Parts.unary {op : UnaryOp} (parts : Parts base bound limit vectors scalars s)
    (componentwise : (NodeKind.unary op x).isComponentwise = true) (member : x ∈ scalars)
    : tariff.building.Concludes s (Edit.unary op x)
      (Built base bound (limit + 1) vectors scalars) :=
  parts.operation componentwise fun _ isOperand => List.mem_singleton.mp isOperand ▸ member

theorem Parts.constant (parts : Parts base bound limit vectors scalars s) (value : Value)
    : tariff.building.Concludes s (Edit.constant value)
      (Built base bound (limit + 1) vectors scalars) :=
  parts.concludes_of_made rfl rfl (parts.stock.constant (fits_of_settled rfl rfl))

theorem Parts.conversion (parts : Parts base bound limit vectors scalars s) (member : x ∈ scalars)
    (target : RegisterClass)
    : tariff.building.Concludes s (Edit.conversion target x)
      (Built base bound (limit + 1) vectors scalars) := by
  have scalar : ((s.graph.type x).withRegister target).isVector = false := by
    rw [DataType.withRegister, DataType.width_eq_one (parts.scalar x member)]
    rfl
  exact parts.concludes_of_made rfl scalar
    (parts.stock.conversion (List.mem_append_left _ member) (fits_of_settled rfl scalar))

/-- The same component of several vectors. -/
theorem Parts.componentsAt {arguments : List NodeId}
    (parts : Parts base bound limit vectors scalars s) (known : ∀ x ∈ arguments, x ∈ vectors)
    (small : c < 4)
    : tariff.building.Concludes s (componentsAt c arguments) fun ids t =>
        Parts base bound limit vectors (ids ++ scalars) t := by
  induction arguments generalizing s scalars with
  | nil => exact .pure parts
  | cons x arguments ih =>
      refine .bind (parts.component (known x List.mem_cons_self) small) fun id t _ found => ?_
      refine .bind (ih found.2 fun y member => known y (List.mem_cons_of_mem x member))
        fun ids u _ parts => ?_
      refine .pure (parts.mono fun y member => ?_)
      rcases List.mem_cons.mp member with rfl | rest
      · simp
      · rcases List.mem_append.mp rest with isPart | before
        · exact List.mem_append_left _ isPart
        · exact List.mem_append_right _ (List.mem_cons_of_mem id before)

/-- The components of a vector are combined from left to right. -/
theorem Parts.reduceFrom {op : BinaryOp} {cs : List Nat}
    (parts : Parts base bound limit vectors scalars s) (componentwise : op.isVectorOp = false)
    (vector : v ∈ vectors) (small : ∀ c ∈ cs, c < 4) (member : x ∈ scalars)
    (settled : cs ≠ [] ∨ (s.graph.node x).isSettled = true)
    : tariff.building.Concludes s (reduceFrom op v cs x)
      (Built base bound (limit + cs.length) vectors []) := by
  induction cs generalizing s scalars x limit with
  | nil =>
      exact .pure ⟨settled.resolve_left fun nonempty => nonempty rfl,
        parts.mono (by simpa using member)⟩
  | cons c cs ih =>
      refine .bind (parts.component vector (small c List.mem_cons_self)) fun next t _ found => ?_
      refine .bind (found.2.binary componentwise (by simp [member]) (by simp))
        fun result u _ built => ?_
      have rest := ih built.parts (fun d rest => small d (List.mem_cons_of_mem c rest))
        (by simp) (.inr built.settled)
      refine rest.imp fun id w _ result => ?_
      rw [List.length_cons, Nat.add_comm cs.length, ← Nat.add_assoc]
      exact result

theorem Parts.product {y : NodeId} (parts : Parts base bound limit vectors scalars s)
    (left : x ∈ vectors) (right : y ∈ vectors) (small : c < 4)
    : tariff.building.Concludes s (product x y c)
      (Built base bound (limit + 1) vectors scalars) := by
  refine .bind (parts.component left small) fun a t _ found => ?_
  refine .bind (found.2.component right small) fun b u _ found => ?_
  refine (found.2.binary rfl (by simp) (by simp)).imp fun id w _ built => ?_
  refine ⟨built.settled, built.parts.mono fun z member => ?_⟩
  rcases List.mem_cons.mp member with rfl | before <;> simp [*]

theorem Parts.dotFrom {cs : List Nat} {a b : NodeId}
    (parts : Parts base bound limit vectors scalars s) (left : a ∈ vectors) (right : b ∈ vectors)
    (small : ∀ c ∈ cs, c < 4) (member : x ∈ scalars) (settled : (s.graph.node x).isSettled = true)
    : tariff.building.Concludes s (dotFrom a b cs x)
      (Built base bound (limit + 2 * cs.length) vectors []) := by
  induction cs generalizing s scalars x limit with
  | nil => exact .pure ⟨settled, parts.mono (by simpa using member)⟩
  | cons c cs ih =>
      refine .bind (parts.product left right (small c List.mem_cons_self)) fun next t _ built => ?_
      refine .bind (built.parts.binary rfl (by simp [member]) (by simp)) fun sum u _ built => ?_
      refine (ih built.parts (fun d rest => small d (List.mem_cons_of_mem c rest))
        (by simp) built.settled).imp ?_
      intro id w _ result
      rw [show limit + 2 * (c :: cs).length = limit + 1 + 1 + 2
        * cs.length by rw [List.length_cons]; omega]
      exact result

/-! ## One replacement -/

variable {id : NodeId}

theorem need_of_busy (busy : (s.graph.node id).isSettled = false) : need (s.graph.node id) = 7 := by
  rw [need, busy]
  rfl

/-- A settled scalar that is built below a node is its replacement. -/
theorem advances_of_parts {edit : Edit NodeId} (busy : (s.graph.node id).isSettled = false)
    (atMost : bound ≤ (s.rank id).level) {cost : Nat} (few : cost ≤ 7)
    (concludes : tariff.building.Concludes s edit
    (Built base bound (tariff.worth base s.graph + cost) vectors []))
    : tariff.Advances scalarizeOnce base s id edit := by
  refine Tariff.advances_of_built atMost (concludes.imp fun new t _ built =>
    ⟨scalarizeOnce_of_settled built.settled, ?_⟩)
  refine built.parts.stock.mono (Nat.add_le_add_left ?_ _) (by simp)
  exact few.trans (Nat.le_of_eq (need_of_busy busy).symm)

/-- The operands of a node that is no shared selection are at hand. -/
theorem parts_of_operands (fair : tariff.Fair base s.graph) (plain : (s.rank v).isShared = false)
    : Parts base (s.rank v).level (tariff.worth base s.graph) (s.graph.children v) [] s :=
  ⟨fair.stock plain, fun _ member => by cases member⟩

/-- A component of an operand of the vector may take the place of a selection. Witness: the vector
is between them. -/
theorem advances_of_component (fair : tariff.Fair base s.graph) (inside : id < s.graph.size)
    (busy : (s.graph.node id).isSettled = false) (uses : s.graph.Uses id v)
    (isVector : (s.graph.type v).isVector = true) (operand : x ∈ s.graph.children v) (small : c < 4)
    : tariff.Advances scalarizeOnce base s id (Edit.component x c) := by
  have plain := RankedGraph.isShared_of_isVector isVector
  have parts := parts_of_operands fair plain
  obtain ⟨vectorInside, between⟩ := s.operand uses
  have below := RankedGraph.below_operand plain operand
  have large := need_of_busy busy
  refine (Tariff.concludes_of_building (parts.component operand small)).imp ?_
  intro new t later found
  obtain ⟨_, component, made⟩ := found
  have kept := later.rank inside
  have lower : t.rank new ≤ s.rank v := le_of_lt ((component.below below).rank_lt (le_refl _))
  have less : tariff.need (t.graph.node new) ≤ tariff.need (s.graph.node id) :=
    (tariff.granted _).trans (Nat.le_of_eq large.symm)
  have enough : 2 < tariff.need (s.graph.node id) := Nat.lt_of_lt_of_eq (by decide) large.symm
  refine Tariff.advances_of_moves ⟨lower.trans_lt between, fun added isInside => tariff.granted _,
    ?_⟩ made.stock.fair component.inside kept
    (RankedGraph.depth_lt later vectorInside between lower fun i isInside deeper => ?_) enough
  · exact Nat.add_le_add made.stock.worth less
  · cases component.yields with
    | there => exact isInside
    | added _ _ isNew graph _ =>
        rw [graph] at isInside
        change i < (s.graph.push _).size at isInside
        rw [Graph.size_push] at isInside
        by_contra outside
        have same : i = new :=
          (Nat.le_antisymm (Nat.le_of_lt_succ isInside) (Nat.le_of_not_lt outside)).trans isNew.symm
        rw [same] at deeper
        exact lt_irrefl _ deeper

/-- What holds an argument is found among the arguments, at a place no later than the component. -/
theorem locate?_mem {width : NodeId → Nat} {before place argument : Nat} {arguments : List NodeId}
    (found : locate? width c arguments before = some (argument, place))
    : argument ∈ arguments ∧ place ≤ c := by
  induction arguments generalizing before with
  | nil => cases found
  | cons first arguments ih =>
      rw [locate?] at found
      split at found
      · cases found
        exact ⟨List.mem_cons_self, Nat.sub_le _ _⟩
      · exact (ih found).imp_left (List.mem_cons_of_mem first)

section Extract

variable (fair : tariff.Fair base s.graph) (inside : id < s.graph.size)
  (busy : (s.graph.node id).isSettled = false) (uses : s.graph.Uses id v)

include fair busy uses

/-- A node below a selection may take its place. -/
theorem advances_of_rank (lower : new = v ∨ s.graph.Uses v new)
    : tariff.Advances scalarizeOnce base s id (pure new) := by
  obtain ⟨vectorInside, below⟩ := s.operand uses
  have less : tariff.need (s.graph.node new) ≤ tariff.need (s.graph.node id) :=
    (tariff.granted _).trans (Nat.le_of_eq (need_of_busy busy).symm)
  have enough : 2 < tariff.need (s.graph.node id) := Nat.lt_of_lt_of_eq (by decide)
    (need_of_busy busy).symm
  rcases lower with rfl | operand
  · exact .pure (Tariff.advances_of_lower fair vectorInside below less enough)
  · exact .pure (Tariff.advances_of_lower fair (s.operand operand).1
      ((s.operand operand).2.trans below) less enough)

variable (isVector : (s.graph.type v).isVector = true)

include isVector

/-- A settled scalar that is built from the operands of the vector takes the place of a
selection. -/
theorem advances_of_vector {edit : Edit NodeId}
    (built : Parts base (s.rank v).level (tariff.worth base s.graph) (s.graph.children v) [] s →
      tariff.building.Concludes s edit
        (Built base (s.rank v).level (tariff.worth base s.graph + 1) (s.graph.children v) []))
    : tariff.Advances scalarizeOnce base s id edit :=
  advances_of_parts busy (Rank.level_le (s.operand uses).2) (by decide)
    (built (parts_of_operands fair (RankedGraph.isShared_of_isVector isVector)))

include inside

theorem concludes_constructed {arguments : List NodeId}
    (kind : (s.graph.node v).kind = .construct arguments) (small : c < 4)
    : tariff.Advances scalarizeOnce base s id (constructed v arguments c) := by
  have operands : s.graph.children v = arguments := by rw [Graph.children, Node.children, kind]; rfl
  rw [Tariff.Advances, constructed, RankedGraph.concludes_read]
  split
  next argument single =>
    refine advances_of_rank fair busy uses (.inr ?_)
    rw [Graph.Uses, operands]
    split at single
    · split at single
      · cases single
      · rw [Option.some.inj single]
        exact List.mem_singleton_self _
    · cases single
  · rw [RankedGraph.concludes_read]
    split
    next argument place found =>
      obtain ⟨member, before⟩ := locate?_mem found
      exact advances_of_component fair inside busy uses isVector (operands.symm ▸ member)
        (Nat.lt_of_le_of_lt before small)
    · rw [RankedGraph.concludes_read]
      split
      · exact advances_of_vector fair busy uses isVector fun parts => parts.constant _
      · rw [RankedGraph.concludes_read]
        exact .throw fun same => by cases same

theorem concludes_extract (small : c < 4)
    : tariff.Advances scalarizeOnce base s id (extract id v c) := by
  have stays : tariff.Advances scalarizeOnce base s id (pure id) :=
    .pure (.stays (Tariff.Ends.refl fair inside))
  have children : s.graph.children v = (s.graph.node v).kind.children := rfl
  rw [Tariff.Advances, extract, RankedGraph.concludes_read,
    show (s.graph.node v).type.isVector = true from isVector]
  cases kind : (s.graph.node v).kind with
  | constant value => exact stays
  | input decl => exact stays
  | output decl e => exact stays
  | construct arguments => exact concludes_constructed fair inside busy uses isVector kind small
  | swizzle operand chosen =>
      exact advances_of_component fair inside busy uses isVector
        (by simp [children, kind, NodeKind.children]) ((s.selects v).lane kind c)
  | unary op operand =>
      have member : operand ∈ s.graph.children v := by simp [children, kind, NodeKind.children]
      have lifted (componentwise : (NodeKind.unary op operand).isComponentwise = true) :
          tariff.Advances scalarizeOnce base s id (Edit.component operand c >>= Edit.unary op) := by
        refine advances_of_vector fair busy uses isVector fun parts => ?_
        refine .bind (parts.component member small) fun x _ _ found => ?_
        exact (found.2.unary (x := x) componentwise (by simp)).imp fun _ _ _ built => built.alone
      cases op with
      | length | normalize | all | any => exact stays
      | typeConversion =>
          refine advances_of_vector fair busy uses isVector fun parts => ?_
          refine .bind (parts.component member small) fun x _ _ found => ?_
          exact (found.2.conversion (by simp) _).imp fun _ _ _ built => built.alone
      | _ => exact lifted rfl
  | binary op left right =>
      simp only [Bool.not_true, Bool.false_eq_true, if_false]
      split
      case isTrue => exact stays
      case isFalse componentwise =>
        refine advances_of_vector fair busy uses isVector fun parts => ?_
        refine .bind (parts.component (by simp [children, kind, NodeKind.children]) small)
          fun x _ _ found => ?_
        refine .bind (found.2.component (by simp [children, kind, NodeKind.children]) small)
          fun y _ _ found => ?_
        exact (found.2.binary (Bool.eq_false_iff.mpr componentwise) (by simp) (by simp)).imp
          fun _ _ _ built => built.alone
  | ternary op first second third =>
      refine advances_of_vector fair busy uses isVector fun parts => ?_
      refine .bind (parts.component (by simp [children, kind, NodeKind.children]) small)
        fun x _ _ found => ?_
      refine .bind (found.2.component (by simp [children, kind, NodeKind.children]) small)
        fun y _ _ found => ?_
      refine .bind (found.2.component (by simp [children, kind, NodeKind.children]) small)
        fun z _ _ found => ?_
      exact (found.2.operation rfl (by simp [NodeKind.children])).imp fun _ _ _ built => built.alone
  | call candidates arguments =>
      refine advances_of_vector fair busy uses isVector fun parts => ?_
      have operands : s.graph.children v = arguments := by rw [children, kind]; rfl
      refine .bind (parts.componentsAt (fun x member => operands ▸ member) small)
        fun ids _ _ parts => ?_
      exact (parts.operation rfl (by simp [NodeKind.children])).imp fun _ _ _ built => built.alone

end Extract

/-- The operands of a node other than a selection are at hand for its replacement. -/
theorem advances_of_operands {edit : Edit NodeId} {kind : NodeKind} {cost : Nat}
    (fair : tariff.Fair base s.graph) (busy : (s.graph.node id).isSettled = false)
    (own : (s.graph.node id).kind = kind) (proper : ∀ v chosen, kind ≠ .swizzle v chosen)
    (few : cost ≤ 7) (built : Parts base (s.rank id).level (tariff.worth base s.graph) kind.children
      [] s → tariff.building.Concludes s edit
      (Built base (s.rank id).level (tariff.worth base s.graph + cost) kind.children []))
    : tariff.Advances scalarizeOnce base s id edit := by
  subst own
  exact advances_of_parts busy (le_refl _) few
    (built (parts_of_operands fair (s.isShared_of_kind proper)))

theorem concludes_reduce {op : BinaryOp} (parts : Parts base bound limit vectors scalars s)
    (componentwise : op.isVectorOp = false) (vector : v ∈ vectors)
    (isVector : (s.graph.type v).isVector = true)
    : tariff.building.Concludes s (reduce op v) (Built base bound (limit + 3) vectors []) := by
  have narrow := (s.graph.type v).width_le_four
  have wide : 1 < (s.graph.type v).width := of_decide_eq_true isVector
  rw [reduce, Tariff.concludes_read]
  refine .bind (parts.component vector (by decide)) fun first t _ found => ?_
  refine (found.2.reduceFrom componentwise vector (fun c member => ?_) (by simp)
    (.inl fun none => ?_)).imp ?_
  · obtain ⟨_, _, rfl⟩ := List.mem_range'.mp member
    omega
  · rw [List.range'_eq_nil_iff] at none
    omega
  · intro id u _ built
    refine ⟨built.settled, built.parts.stock.mono ?_ (List.Subset.refl _), built.parts.scalar⟩
    rw [List.length_range']
    omega

theorem concludes_dot {a b : NodeId} (parts : Parts base bound limit vectors scalars s)
    (left : a ∈ vectors) (right : b ∈ vectors)
    : tariff.building.Concludes s (dot a b) (Built base bound (limit + 7) vectors []) := by
  have narrow : max (s.graph.type a).width (s.graph.type b).width ≤ 4 :=
    Nat.max_le.mpr ⟨(s.graph.type a).width_le_four, (s.graph.type b).width_le_four⟩
  rw [dot, Tariff.concludes_read]
  refine .bind (parts.product left right (by decide)) fun first t _ built => ?_
  refine (built.parts.dotFrom left right (fun c member => ?_) (by simp) built.settled).imp ?_
  · obtain ⟨_, _, rfl⟩ := List.mem_range'.mp member
    omega
  · intro id u _ built
    refine ⟨built.settled, built.parts.stock.mono ?_ (List.Subset.refl _), built.parts.scalar⟩
    rw [List.length_range']
    omega

theorem covers_scalarizeOnce : tariff.Covers scalarizeOnce where
  output isOutput := scalarizeOnce_of_settled (Node.isSettled_of_isOutput isOutput)
  advances {base s id} fair inside := by
    rcases scalarizeOnce_or_busy s.graph id with ⟨_, fixed⟩ | ⟨busy, found⟩
    · exact .of_ok (t := s) fixed ((RankedGraph.edits _).refl s)
        (.stays (Tariff.Ends.refl fair inside))
    rw [Tariff.Advances, scalarizeOnce, RankedGraph.concludes_read]
    cases found with
    | @select v chosen kind single =>
        rw [kind]
        simp only
        rw [if_pos single]
        have uses : s.graph.Uses id v := by
          simp [Graph.Uses, Graph.children, Node.children, kind, NodeKind.children]
        cases isVector : (s.graph.type v).isVector with
        | false =>
            rw [extract, RankedGraph.concludes_read,
              show (s.graph.node v).type.isVector = false from isVector]
            exact advances_of_rank fair busy uses (.inl rfl)
        | true =>
            exact concludes_extract fair inside busy uses isVector ((s.selects id).lane kind 0)
    | @reduction op v kind reduces =>
        rcases reduces with rfl | rfl <;>
        · rw [kind]
          simp only
          rw [RankedGraph.concludes_read]
          split
          · exact advances_of_operands fair busy kind (fun _ _ found => by cases found) (by decide)
              fun parts =>
              concludes_reduce parts rfl (by simp [NodeKind.children]) ‹_›
          · exact .pure (.stays (Tariff.Ends.refl fair inside))
    | dot kind =>
        rw [kind]
        exact advances_of_operands fair busy kind (fun _ _ found => by cases found) (Nat.le_refl 7)
          fun parts =>
          concludes_dot parts (by simp [NodeKind.children]) (by simp [NodeKind.children])

/-! ## Failures -/

/-- What holds an argument is found before anything is added. -/
theorem clean_constructed (vector : NodeId) (arguments : List NodeId) (c : Nat)
    : Edit.Clean (constructed vector arguments c) := by
  refine .read fun single => ?_
  cases single with
  | some argument => exact .of_total .pure
  | none =>
      refine .read fun located => ?_
      cases located with
      | some found => exact .of_total .component
      | none =>
          refine .read fun register => ?_
          cases Value.zero? register with
          | some zero => exact .of_total .add
          | none => exact .read fun description => .throw

theorem total_componentsAt (c : Nat) (ids : List NodeId) : Edit.Total (componentsAt c ids) := by
  induction ids with
  | nil => exact .pure
  | cons id ids ih => exact .bind .component fun _ => .bind ih fun _ => .pure

theorem total_reduceFrom (op : BinaryOp) (vector : NodeId) (cs : List Nat) (result : NodeId)
    : Edit.Total (reduceFrom op vector cs result) := by
  induction cs generalizing result with
  | nil => exact .pure
  | cons c cs ih => exact .bind .component fun _ => .bind .add ih

theorem total_product (a b : NodeId) (c : Nat) : Edit.Total (product a b c) :=
  .bind .component fun _ => .bind .component fun _ => .add

theorem total_dotFrom (a b : NodeId) (cs : List Nat) (sum : NodeId)
    : Edit.Total (dotFrom a b cs sum) := by
  induction cs generalizing sum with
  | nil => exact .pure
  | cons c cs ih => exact .bind (total_product a b c) fun _ => .bind .add ih

theorem clean_extract (selection vector : NodeId) (c : Nat)
    : Edit.Clean (extract selection vector c) := by
  refine .read fun n => ?_
  split
  · exact .of_total .pure
  · cases n.kind with
    | construct arguments => exact clean_constructed vector arguments c
    | swizzle operand chosen => exact .of_total .component
    | unary op operand =>
        refine .of_total ?_
        cases op with
        | length | normalize | all | any => exact .pure
        | _ => exact .bind .component fun _ => .add
    | binary op left right =>
        refine .of_total ?_
        simp only
        split
        · exact .pure
        · exact .bind .component fun _ => .bind .component fun _ => .add
    | ternary op first second third =>
        exact .of_total (.bind .component fun _ => .bind .component fun _ =>
          .bind .component fun _ => .add)
    | call candidates arguments =>
        exact .of_total (.bind (total_componentsAt c arguments) fun _ => .add)
    | constant _ | input _ | output _ _ => exact .of_total .pure

/-- A replacement that fails has added nothing. -/
theorem clean_scalarizeOnce (id : NodeId) : Edit.Clean (scalarizeOnce id) := by
  have reduces (op : BinaryOp) (vector : NodeId) : Edit.Total (reduce op vector) :=
    .bind .read fun _ => .bind .component fun _ => total_reduceFrom op vector _ _
  refine .read fun n => ?_
  split
  · split
    · exact clean_extract _ _ _
    · exact .of_total .pure
  · refine .read fun isVector => .of_total ?_
    split
    · exact reduces _ _
    · exact .pure
  · refine .read fun isVector => .of_total ?_
    split
    · exact reduces _ _
    · exact .pure
  · exact .of_total (.bind .read fun _ => .bind (total_product _ _ 0) fun _ =>
      total_dotFrom _ _ _ _)
  · exact .of_total .pure

/-- What all replacements may cost: eight nodes for each component of a node and seven for the node
itself. -/
theorem load_le (g : Graph) : tariff.load g.size g ∅ ≤ 40 * g.size := by
  have few := card_unasked_le g.size g
  rw [Tariff.load_empty]
  change g.size + 8 * (unasked g.size g).card + 7 * g.size ≤ _
  omega

end Scalarization

end StreamExpr
