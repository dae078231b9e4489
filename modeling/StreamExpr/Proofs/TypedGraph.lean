import StreamExpr.Proofs.Typing

/-! Typed graphs.
What a pass relies on is told by the shape of each node: its outline and the types of its operands.
So it survives when operands are replaced by others of the same types. The shapes that may be
reachable after a stage make up a dialect.
-/

namespace StreamExpr

/-! ## Shapes -/

/-- What is known of a node without the names of its operands: its outline and the types of the
operands. -/
structure Shape where
  node : Node
  operands : List DataType

namespace Graph

def shapeOf (g : Graph) (n : Node) : Shape :=
  ⟨n.outline, n.children.map g.type⟩

def shape (g : Graph) (id : NodeId) : Shape :=
  g.shapeOf (g.node id)

end Graph

theorem Graph.isOutput_shape (g : Graph) (id : NodeId)
    : (g.shape id).node.isOutput = g.isOutput id := by
  rw [isOutput, shape, shapeOf]
  obtain ⟨kind, _, _⟩ := g.node id
  cases kind <;> rfl

/-- The shape of a node that selects one component of an operand of a type. -/
def DataType.selection (t : DataType) (c : Nat) : Shape :=
  ⟨.ofKind (.swizzle 0 (.ofList [c])) (t.withWidth 1), [t]⟩

/-- The components that a selection chooses. -/
def Node.selection? (n : Node) : Option Selection :=
  match n.kind with
  | .swizzle _ chosen => some chosen
  | _ => none

/-- The class that a node asks of the operand in a slot. -/
def Node.asks? (n : Node) (slot : Nat) : Option RegisterClass :=
  (Graph.empty.push n).expected? 0 slot

/-- The class that a node asks of all its operands, where vector elimination relies on it. -/
def Node.uniform? (n : Node) : Option RegisterClass :=
  match n.kind with
  | .unary .length _ | .unary .normalize _ | .binary .cross _ _ => some .float
  | .unary .all _ | .unary .any _ => some .bool
  | .binary .dot _ _ | .construct _ => some n.register
  | _ => none

theorem Node.kind_of_selection? {n : Node} {chosen : Selection} (found : n.selection? = some chosen)
    : ∃ x, n.kind = .swizzle x chosen := by
  rw [selection?] at found
  split at found
  next x other kind =>
    exact ⟨x, Option.some.inj found ▸ kind⟩
  · cases found

@[simp]
theorem Node.selection?_outline (n : Node) : n.outline.selection? = n.selection? := by
  obtain ⟨kind, type, overload⟩ := n
  cases kind <;> rfl

theorem Graph.expected?_eq_asks? (g : Graph) (id : NodeId) (slot : Nat)
    : g.expected? id slot = (g.node id).asks? slot :=
  Graph.expected?_eq_of_outline
    (by rw [show (0 : NodeId) = Graph.empty.size from rfl, node_push_self])

@[simp]
theorem Node.asks?_outline (n : Node) (slot : Nat) : n.outline.asks? slot = n.asks? slot := by
  obtain ⟨kind, type, overload⟩ := n
  cases kind with
  | unary op _ => cases op <;> rfl
  | _ => rfl

namespace Graph

/-- A typed node: its type is known and the one that its operands give, a call has no spare
arguments, the operands have the classes that are asked for, and an output has an expression of its
own type. -/
structure Sound (g : Graph) (n : Node) : Prop where
  known : n.type.isKnown = true
  inferred : g.infer n = (n.type, n.overload)
  trimmed : ∀ {f}, n.function? = some f → n.children.length ≤ f.arity
  selection : ∀ {chosen}, n.selection? = some chosen → ∃ components, chosen = .ofList components
  classes : ∀ {slot t r}, (n.children.map g.type)[slot]? = some t → n.asks? slot = some r →
    r.isKnown = true → t.register = r
  written : n.isOutput = true → n.children.map g.type = [n.type]

variable {g h : Graph} {id : NodeId} {n m : Node}

/-- Typing is a matter of the shape. -/
theorem Sound.of_shape (sound : g.Sound n) (same : h.shapeOf m = g.shapeOf n) : h.Sound m := by
  obtain ⟨outline, types⟩ := Shape.mk.inj same
  have ownType : m.type = n.type := Node.type_eq_of_outline outline
  have overload : m.overload = n.overload :=
    (congrArg Node.overload outline : m.outline.overload = n.outline.overload)
  have function : m.function? = n.function? := by
    rw [← Node.function?_outline, outline, Node.function?_outline]
  have selection : m.selection? = n.selection? := by
    rw [← Node.selection?_outline, outline, Node.selection?_outline]
  have asks (slot) : m.asks? slot = n.asks? slot := by
    rw [← Node.asks?_outline, outline, Node.asks?_outline]
  constructor
  · rw [ownType]
    exact sound.known
  · rw [infer_eq_of_outline outline types, ownType, overload]
    exact sound.inferred
  · rw [function, Node.length_children_eq_of_outline outline]
    exact sound.trimmed
  · rw [selection]
    exact sound.selection
  · rw [types]
    intro slot t r atSlot asked
    rw [asks] at asked
    exact sound.classes atSlot asked
  · rw [Node.isOutput_eq_of_outline outline, types, ownType]
    exact sound.written

/-- A node keeps its shape when nodes are added. -/
theorem shapeOf_appends (appends : g.Appends h) (inside : ∀ child ∈ n.children, child < g.size)
    : h.shapeOf n = g.shapeOf n :=
  congrArg (Shape.mk n.outline) (List.map_congr_left fun child member =>
    congrArg Node.type (appends.node (inside child member)))

theorem shape_appends (appends : g.Appends h) (enclosed : g.Enclosed) (inside : id < g.size)
    : h.shape id = g.shape id := by
  rw [shape, appends.node inside]
  exact shapeOf_appends appends fun child isOperand => enclosed.operand isOperand

/-- A node keeps its shape when a slot is pointed at an operand of the same type. -/
theorem shape_setChild {parent child new : NodeId} {slot : Nat}
    (atSlot : (g.children parent)[slot]? = some child) (same : g.type new = g.type child)
    : (g.setChild parent slot new).shape id = g.shape id := by
  have types : (g.setChild parent slot new).type = g.type :=
    funext fun other => g.type_setChild parent other slot new
  rw [shape, shape, shapeOf, shapeOf, types, node_setChild]
  split
  case isTrue here =>
    rw [Node.outline_setChild, Node.children_setChild, map_set_of_eq (here ▸ atSlot) same]
  case isFalse => rfl

/-! ## Classes of operands -/

/-- A node with a single overload has selected it once its type is known. -/
theorem Sound.overload_eq_zero {expected : List RegisterClass} (sound : g.Sound n)
    (found : n.kind.inputs? = some [expected]) (requires : n.kind.requiresInputs = true)
    : n.overload = some 0 := by
  obtain ⟨i, _, selected, resolved, _⟩ := overloaded found sound.known sound.inferred
  rw [NodeKind.resolve?_eq_closest? found requires] at resolved
  obtain ⟨_, entry, _⟩ := closest?_eq_some resolved
  have first := (List.getElem?_eq_some_iff.mp entry).1
  rwa [Nat.lt_one_iff.mp first] at selected

/-- A dot product has the class that it asks of its operands. -/
theorem Sound.asks?_of_dot {x y : NodeId} {slot : Nat} (sound : g.Sound n)
    (kind : n.kind = .binary .dot x y) (inside : slot < 2)
    : n.asks? slot = some n.register := by
  have known := sound.known
  obtain ⟨i, _, overload, _, _, register, _⟩ := overloaded (by rw [kind]; rfl) known sound.inferred
  rw [DataType.isKnown, ← Node.register, register, kind] at known
  rw [register, kind]
  obtain ⟨_, ownType, _⟩ := n
  obtain rfl : _ = NodeKind.binary .dot x y := kind
  obtain rfl : _ = some i := overload
  obtain rfl | rfl : slot = 0 ∨ slot = 1 := by omega
  all_goals
    rcases i with _ | _ | i
    · rfl
    · rfl
    · cases known

/-- A node that asks for one class asks it of every operand. -/
theorem Sound.asks?_of_uniform {r : RegisterClass} {slot : Nat} (sound : g.Sound n)
    (found : n.uniform? = some r) (inside : slot < n.children.length)
    : n.asks? slot = some r ∧ r.isKnown = true := by
  have single {expected} (found : n.kind.inputs? = some [expected])
      (requires : n.kind.requiresInputs = true) : n.overload = some 0 :=
    sound.overload_eq_zero found requires
  have ofDot {x y} (kind : n.kind = .binary .dot x y) (inside : slot < 2) :
      n.asks? slot = some n.register := sound.asks?_of_dot kind inside
  have known := sound.known
  obtain ⟨kind, type, overload⟩ := n
  rw [Node.uniform?] at found
  split at found
  case h_8 => cases found
  all_goals
    rename_i isKind
    obtain rfl : kind = _ := isKind
    cases found
  case h_3 =>
    obtain rfl : overload = some 0 := single rfl rfl
    obtain rfl | rfl : slot = 0 ∨ slot = 1 := by
      simp only [Node.children, NodeKind.children, List.length_cons, List.length_nil] at inside
      omega
    · exact ⟨rfl, rfl⟩
    · exact ⟨rfl, rfl⟩
  case h_6 => exact ⟨ofDot rfl inside, known⟩
  case h_7 => exact ⟨rfl, known⟩
  all_goals
    obtain rfl : overload = some 0 := single rfl rfl
    obtain rfl : slot = 0 := Nat.lt_one_iff.mp inside
    exact ⟨rfl, rfl⟩

/-- The operands of a node that asks for one class have it. -/
theorem Sound.uniform {r : RegisterClass} (sound : g.Sound n) (found : n.uniform? = some r)
    : ∀ t ∈ n.children.map g.type, t.register = r := by
  intro t member
  obtain ⟨slot, inside, atSlot⟩ := List.getElem_of_mem member
  obtain ⟨asked, known⟩ := sound.asks?_of_uniform found (by simpa using inside)
  exact sound.classes (List.getElem?_eq_some_iff.mpr ⟨inside, atSlot⟩) asked known

/-! ## Dialects -/

/-- The node that selects one component. -/
def selectionOf (g : Graph) (v : NodeId) (c : Nat) : Node :=
  .ofKind (.swizzle v (.ofList [c])) ((g.type v).withWidth 1)

theorem shapeOf_selectionOf (g : Graph) (v : NodeId) (c : Nat)
    : g.shapeOf (g.selectionOf v c) = (g.type v).selection c :=
  rfl

/-- Share a selection with all who ask for the component. -/
def share (g : Graph) (v : NodeId) (c : Nat) (selection : NodeId) : Graph :=
  { g with selections := g.selections.insert (v, c) selection }

theorem eq_or_selections_of_share {v w selection other : NodeId} {c d : Nat}
    (found : (g.share v c selection).selections[(w, d)]? = some other)
    : (w = v ∧ d = c ∧ other = selection) ∨ g.selections[(w, d)]? = some other := by
  simp only [share, Std.TreeMap.getElem?_insert] at found
  split at found
  case isTrue same =>
    obtain ⟨rfl, rfl⟩ := Prod.mk.inj (Std.LawfulEqCmp.eq_of_compare same)
    exact .inl ⟨rfl, rfl, (Option.some.inj found).symm⟩
  case isFalse => exact .inr found

theorem Tidy.share (tidy : g.Tidy) {v : NodeId} (inside : v < g.size) (c : Nat) (selection : NodeId)
    : (g.share v c selection).Tidy where
  operand := tidy.operand
  output := tidy.output
  input := tidy.input
  unused := tidy.unused
  keyed {w d other} found := by
    rcases eq_or_selections_of_share found with ⟨rfl, _, _⟩ | before
    · exact inside
    · exact tidy.keyed before

end Graph

/-- One of four components that the operand has, unless components cannot be told apart. -/
def DataType.Yields (α : Type) (t : DataType) (c : Nat) : Prop :=
  t.HasComponent c ∨ c < 4 ∧ Subsingleton α

theorem DataType.Yields.lt_four {α : Type} {t : DataType} {c : Nat} (yields : t.Yields α c)
    (isVector : t.isVector = true)
    : c < 4 := by
  rcases yields with (within | scalar) | ⟨small, _⟩
  · exact Nat.lt_of_lt_of_le within t.width_le_four
  · cases scalar.symm.trans isVector
  · exact small

namespace Shape

/-- A selection chooses components that its operand has. -/
def Within (α : Type) (s : Shape) : Prop :=
  ∀ {chosen}, s.node.selection? = some chosen →
    ∀ t ∈ s.operands, ∀ place < chosen.count, t.Yields α (chosen.lane place)

/-- What is built from parts is a vector. -/
def Broad (s : Shape) : Prop :=
  ∀ {arguments}, s.node.kind = .construct arguments → s.node.type.isVector = true

end Shape

/-- The shapes that nodes may have at each place, for values with components in a type. -/
structure Dialect (α : Type) where
  Allows : NodeId → Shape → Prop
  within : ∀ {id s}, Allows id s → s.Within α

/-- The nodes from a place on are in another dialect too. -/
def Dialect.since {α : Type} (D : Dialect α) (base : Nat) (E : Dialect α) : Dialect α where
  Allows id s := D.Allows id s ∧ (base ≤ id → E.Allows id s)
  within allowed := D.within allowed.1

/-- A typed graph without cycles, in which what is reachable from the roots is in a dialect. Cached
selections of reachable vectors select the component they are cached for. -/
structure Graph.Conforms {α : Type} (g : Graph) (D : Dialect α) : Prop extends g.Tidy where
  acyclic : g.Acyclic
  rooted : g.Rooted
  sound : ∀ {id}, g.Reachable id → g.Sound (g.node id)
  allowed : ∀ {id}, g.Reachable id → D.Allows id (g.shape id)
  cached : ∀ {v c s : Nat}, g.Reachable v → (g.type v).isVector = true →
    g.selections[(v, c)]? = some s → g.node s = g.selectionOf v c

/-- What type deduction leaves over. -/
def Dialect.typed (α : Type) (broad : Prop) : Dialect α where
  Allows _ s := s.Within α ∧ (broad → s.Broad)
  within := And.left

/-! ## Graphs that were typed -/

namespace Typing.State

open Graph

variable {base : Graph} (t : State base) {id : NodeId}

/-- A node that fits is typed. -/
theorem sound (fit : t.graph.Fit id) : t.graph.Sound (t.graph.node id) := by
  have formed := t.formed fit.lt_size
  have asks {child r} (slot) (atSlot : (t.graph.children id)[slot]? = some child)
      (asked : (t.graph.node id).asks? slot = some r) (known : r.isKnown = true) :
      (t.graph.type child).register = r :=
    fit.classes atSlot ((t.graph.expected?_eq_asks? id slot).trans asked) known
  refine ⟨fit.known, formed.inferred (t.requires id), formed.trimmed, fun {chosen} found => ?_,
    fun {slot type r} atSlot asked known => ?_, fun isOutput => ?_⟩
  · obtain ⟨x, kind⟩ := Node.kind_of_selection? found
    exact formed.selection kind
  · rw [List.getElem?_map] at atSlot
    obtain ⟨child, atChild, rfl⟩ := Option.map_eq_some_iff.mp atSlot
    exact asks slot atChild asked known
  · rw [Node.isOutput] at isOutput
    split at isOutput
    next decl e kind =>
      have only : t.graph.children id = [e] := congrArg NodeKind.children kind
      have register := fit.classes (by rw [only]; rfl)
        (by simp only [expected?, kind]; rfl : t.graph.expected? id 0 = some (t.graph.register id))
        fit.known
      have type : t.graph.type e = t.graph.type id := DataType.ext register (fit.width kind)
      exact (congrArg (List.map t.graph.type) only).trans (congrArg (fun u : DataType => [u]) type)
    · cases isOutput

/-- What is reachable was reachable before or has been added. -/
theorem covers_of_reachable (orderly : base.Orderly) (reachable : t.graph.Reachable id)
    : base.Covers id ∧ id < t.graph.size := by
  obtain ⟨root, isRoot, path⟩ := reachable
  rw [t.outputs] at isRoot
  induction path with
  | refl => exact ⟨.inl (.root isRoot), Nat.lt_of_lt_of_le (orderly.lt_size (.root isRoot)) t.grown⟩
  | tail _ uses ih => exact ⟨t.covered ih.1 uses, (t.operand uses).1⟩

theorem within_shape {α : Type} (isInside : id < t.graph.size)
    (within : (∀ id, base.SelectsWithin id) ∨ Subsingleton α)
    : (t.graph.shape id).Within α := by
  intro chosen found type member place inside
  obtain ⟨x, kind⟩ := Node.kind_of_selection? (Node.selection?_outline _ ▸ found)
  rcases within with within | single
  · obtain ⟨child, isOperand, rfl⟩ := List.mem_map.mp member
    rw [Node.children, kind] at isOperand
    rw [List.mem_singleton.mp isOperand]
    exact .inl (t.within within id x chosen kind place inside)
  · obtain ⟨components, rfl⟩ := (t.formed isInside).selection kind
    refine .inr ⟨?_, single⟩
    rw [Selection.lane_ofList]
    omega

theorem broad_shape (inside : id < t.graph.size) (broad : ∀ id < base.size, base.Broad id)
    : (t.graph.shape id).Broad := by
  intro arguments kind
  have isConstruct : ∃ arguments, (t.graph.node id).kind = .construct arguments := by
    have outline : (t.graph.node id).kind.outline = .construct arguments := kind
    cases found : (t.graph.node id).kind <;> rw [found] at outline <;> cases outline
    exact ⟨_, rfl⟩
  obtain ⟨own, found⟩ := isConstruct
  exact t.broad broad id inside own found

end Typing.State

/-- Type deduction leaves a typed graph. -/
theorem Typing.conforms {α : Type} {broad : Prop} {base g : Graph} (orderly : base.Orderly)
    (requires : ∀ id, (base.node id).kind.requiresInputs = true)
    (unused : ∀ {id child}, base.Uses id child → base.isOutput child = false)
    (within : (∀ id, base.SelectsWithin id) ∨ Subsingleton α)
    (isBroad : broad → ∀ id < base.size, base.Broad id)
    (accepted : Compiler.typing base = .ok () g)
    : g.Conforms (.typed α broad) := by
  obtain ⟨t, rfl, fits⟩ := Typing.exists_state orderly requires unused accepted
  have outputs (root) (isRoot : root ∈ t.graph.outputs) : t.graph.isOutput root = true := by
    rw [t.outputs] at isRoot
    exact (Node.isOutput_eq_of_outline (t.outline (orderly.lt_size (.root isRoot)))).trans
      (orderly.isOutput isRoot)
  exact {
    toTidy := t.tidy
    acyclic := Graph.acyclic_of_rank t.rank fun _ uses => (t.operand uses).2
    rooted := ⟨by rw [t.outputs]; exact Edit.outputs_ne_nil_of_pass accepted, outputs⟩
    sound := fun {id} reachable => by
      obtain ⟨wasReachable | isNew, inside⟩ := t.covers_of_reachable orderly reachable
      · exact t.sound (fits id wasReachable)
      · exact t.sound (t.added isNew inside)
    allowed := fun reachable =>
      have inside := (t.covers_of_reachable orderly reachable).2
      ⟨t.within_shape inside within, fun isBroadly => t.broad_shape inside (isBroad isBroadly)⟩
    cached := fun {v c s} reachable _ found => by
      rw [t.selections] at found
      obtain ⟨_, inside, selects⟩ := orderly.cached found
      have isOperand : v ∈ base.children s := by
        rw [Graph.children, selects]
        exact List.mem_singleton_self v
      have type : t.graph.type v = base.type v :=
        Node.type_eq_of_outline (t.outline (Nat.lt_trans (orderly.before isOperand) inside))
      rw [Graph.selectionOf, type, t.swizzle inside (by rw [selects]; rfl)]
      exact selects
  }

end StreamExpr
