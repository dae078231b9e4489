import StreamExpr.Proofs.Discipline
import StreamExpr.Proofs.LoweringRules
import StreamExpr.Proofs.Scalarization

/-! Typing by components.
Vectors may be left over below what is built from parts, and a pass may use a scalar in place of
such a vector. So a node is typed loosely there: with all types narrowed to those of components it
is typed, and its operands have its width or are scalars. A scalar that is typed loosely and not put
together from parts is typed.
-/

namespace StreamExpr

/-! ## Narrowed types -/

/-- A type that serves where another one was: of the same class, and a scalar if it is of another
width. -/
structure DataType.Narrows (new old : DataType) : Prop where
  register : new.register = old.register
  width : new.width = 1 ∨ new.width = old.width

namespace DataType

theorem Narrows.refl (t : DataType) : t.Narrows t :=
  ⟨rfl, .inr rfl⟩

theorem Narrows.trans {t u v : DataType} (first : t.Narrows u) (second : u.Narrows v)
    : t.Narrows v :=
  ⟨first.register.trans second.register, first.width.elim .inl fun same =>
    second.width.imp same.trans same.trans⟩

theorem Narrows.scalar {t u : DataType} (narrows : t.Narrows u) : t.scalar = u.scalar :=
  congrArg scalarOf narrows.register

theorem scalar_eq_self {t : DataType} (width : t.width = 1) : t.scalar = t :=
  ext rfl width.symm

theorem isVector_eq_false {t : DataType} (width : t.width = 1) : t.isVector = false := by
  rw [isVector, width]
  rfl

end DataType

/-- A node of the type of one component. -/
def Node.narrowed (n : Node) : Node :=
  { n with type := n.type.scalar }

/-- A graph with the types of all nodes narrowed to those of components. -/
def Graph.narrowed (g : Graph) : Graph :=
  { g with nodes := g.nodes.map Node.narrowed }

theorem Graph.node_narrowed (g : Graph) (id : NodeId)
    : g.narrowed.node id = (g.node id).narrowed := by
  simp only [node, narrowed, Array.getD_eq_getD_getElem?, Array.getElem?_map]
  cases g.nodes[id]? <;> rfl

theorem Graph.type_narrowed (g : Graph) (id : NodeId)
    : g.narrowed.type id = (g.type id).scalar := by
  rw [type, node_narrowed]
  rfl

theorem Graph.map_type_narrowed (g : Graph) (ids : List NodeId)
    : ids.map g.narrowed.type = (ids.map g.type).map DataType.scalar := by
  rw [List.map_map]
  exact List.map_congr_left fun id _ => g.type_narrowed id

theorem Graph.map_register_narrowed (g : Graph) (ids : List NodeId)
    : ids.map g.narrowed.register = ids.map g.register :=
  List.map_congr_left fun id _ => by
    rw [register, node_narrowed]
    rfl

/-- Scalars have the shape that they are narrowed to. -/
theorem Graph.shapeOf_narrowed {g : Graph} {n : Node} (width : n.type.width = 1)
    (scalars : ∀ child ∈ n.children, (g.type child).width = 1)
    : g.narrowed.shapeOf n.narrowed = g.shapeOf n := by
  have outline : n.narrowed.outline = n.outline := by
    rw [Node.narrowed, DataType.scalar_eq_self width]
  have types : n.children.map g.narrowed.type = n.children.map g.type :=
    List.map_congr_left fun child isOperand => by
      rw [type_narrowed, DataType.scalar_eq_self (scalars child isOperand)]
  exact congrArg₂ Shape.mk outline types

/-! ## Loosely typed nodes -/

namespace NodeKind

/-- Vectors that are put together from parts or from selected components. -/
def isAssembly : NodeKind → Bool
  | .construct _ | .swizzle _ _ => true
  | _ => false

/-- Operators that mix the components of a vector. -/
def mixes : NodeKind → Bool
  | .unary op _ => op.isVectorOp
  | .binary op _ _ => op.isVectorOp
  | _ => false

/-- Constants, inputs and outputs. -/
def isTerminal : NodeKind → Bool
  | .constant _ | .input _ | .output _ _ => true
  | _ => false

@[simp]
theorem isAssembly_outline (kind : NodeKind) : kind.outline.isAssembly = kind.isAssembly := by
  cases kind <;> rfl

@[simp]
theorem mixes_outline (kind : NodeKind) : kind.outline.mixes = kind.mixes := by
  cases kind <;> rfl

@[simp]
theorem isTerminal_outline (kind : NodeKind) : kind.outline.isTerminal = kind.isTerminal := by
  cases kind <;> rfl

end NodeKind

namespace Graph

/-- A node that is typed by components. -/
structure Loose (g : Graph) (n : Node) : Prop where
  known : n.register.isKnown = true
  unmixed : n.kind.mixes = false
  sound : n.kind.isAssembly = false → g.narrowed.Sound n.narrowed
  widths : n.kind.isAssembly = false → ∀ t ∈ n.children.map g.type,
    t.width = 1 ∨ t.width = n.type.width
  scalar : n.kind.isTerminal = true → n.type.width = 1
  selected : ∀ {x chosen}, n.kind = .swizzle x chosen → n.type = (g.type x).withWidth chosen.count

variable {g h : Graph} {n m : Node}

/-- A node stays typed loosely when its operands are replaced by others whose types serve for
theirs. -/
theorem Loose.kept (loose : g.Loose n) (outline : m.outline = n.outline)
    (types : List.Forall₂ DataType.Narrows (m.children.map h.type) (n.children.map g.type))
    : h.Loose m := by
  have kinds : m.kind.outline = n.kind.outline := congrArg Node.kind outline
  have type : m.type = n.type := Node.type_eq_of_outline outline
  have assembly : m.kind.isAssembly = n.kind.isAssembly := by
    rw [← NodeKind.isAssembly_outline, kinds, NodeKind.isAssembly_outline]
  have narrowed : h.narrowed.shapeOf m.narrowed = g.narrowed.shapeOf n.narrowed := by
    refine congrArg₂ Shape.mk (congrArg Node.narrowed outline) ?_
    change m.children.map h.narrowed.type = n.children.map g.narrowed.type
    rw [map_type_narrowed, map_type_narrowed]
    rw [← List.forall₂_eq_eq_eq, List.forall₂_map_left_iff, List.forall₂_map_right_iff]
    exact types.imp fun _ _ => DataType.Narrows.scalar
  refine ⟨?_, ?_, fun plain => (loose.sound (assembly ▸ plain)).of_shape narrowed,
    fun plain t member => ?_,
    fun terminal => ?_, fun {x chosen} kind => ?_⟩
  · rw [Node.register, type]
    exact loose.known
  · rw [← NodeKind.mixes_outline, kinds, NodeKind.mixes_outline]
    exact loose.unmixed
  · rw [assembly] at plain
    rw [type]
    obtain ⟨slot, inside, rfl⟩ := List.getElem_of_mem member
    have narrows := (List.forall₂_iff_get.mp types).2 slot inside (types.length_eq ▸ inside)
    refine narrows.width.elim .inl fun same => ?_
    exact (loose.widths plain _ (List.getElem_mem _)).imp same.trans same.trans
  · rw [← NodeKind.isTerminal_outline, kinds, NodeKind.isTerminal_outline] at terminal
    rw [type]
    exact loose.scalar terminal
  · cases old : n.kind <;> rw [kind, old] at kinds <;> cases kinds
    rw [type, loose.selected old]
    rw [Node.children, kind, Node.children, old] at types
    cases types with | cons narrows _ =>
    exact congrArg (DataType.of · chosen.count) narrows.register.symm

/-- The operands of a scalar that is not put together from parts are scalars. -/
theorem Loose.scalars (loose : g.Loose n) (plain : n.kind.isAssembly = false)
    (width : n.type.width = 1)
    : ∀ child ∈ n.children, (g.type child).width = 1 := by
  intro child isOperand
  refine (loose.widths plain _ (List.mem_map_of_mem isOperand)).elim id fun same => same.trans width

/-- A scalar that is not put together from parts is typed. -/
theorem Loose.typed (loose : g.Loose n) (plain : n.kind.isAssembly = false)
    (width : n.type.width = 1)
    : g.Sound n :=
  (loose.sound plain).of_shape (shapeOf_narrowed width (loose.scalars plain width)).symm

/-- A typed node without operators on vectors is typed loosely. Witness: what works component by
component is typed on components, and all else is a scalar. -/
theorem Sound.loose (sound : g.Sound n) (unmixed : n.kind.mixes = false)
    (scalar : n.kind.isTerminal = true → n.type.width = 1)
    : g.Loose n := by
  have inferred := sound.inferred
  have ofScalar (width : n.type.width = 1) (scalars : ∀ child ∈ n.children,
    (g.type child).width = 1)
      : g.narrowed.Sound n.narrowed ∧ ∀ t ∈ n.children.map g.type,
        t.width = 1 ∨ t.width = n.type.width :=
    ⟨sound.of_shape (shapeOf_narrowed width scalars), List.forall_mem_map.mpr fun child isOperand =>
      .inl (scalars child isOperand)⟩
  have ofComponents (componentwise : n.kind.isComponentwise = true)
      : g.narrowed.Sound n.narrowed ∧ ∀ t ∈ n.children.map g.type,
        t.width = 1 ∨ t.width = n.type.width := by
    refine ⟨(sound.parts (h := g.narrowed) componentwise rfl (g.map_register_narrowed _) ?_).2,
      DataType.width_of_broadcastWidth? (sound.broadcasts componentwise)⟩
    change ∀ t ∈ n.children.map g.narrowed.type, t.width = 1
    rw [map_type_narrowed]
    exact List.forall_mem_map.mpr fun _ _ => rfl
  have ofConversion {x} (kind : n.kind = .unary .typeConversion x)
      : g.narrowed.Sound n.narrowed ∧ ∀ t ∈ n.children.map g.type,
        t.width = 1 ∨ t.width = n.type.width := by
    rw [infer.eq_def] at inferred
    simp only [kind, Node.children, NodeKind.children, List.map_cons, List.map_nil,
      List.headD_cons] at inferred
    obtain ⟨type, overload⟩ := Prod.mk.inj inferred
    have width : n.type.width = (g.type x).width := by
      rw [← type]
      exact DataType.width_of (g.type x).width_pos (g.type x).width_le_four
    have converted : n.narrowed
        = ⟨.unary .typeConversion x, (g.narrowed.type x).withRegister n.register, some 0⟩ := by
      rw [Node.narrowed, kind, ← overload, type_narrowed]
      rfl
    refine ⟨converted ▸ sound_conversion sound.known, ?_⟩
    rw [Node.children, kind]
    exact List.forall_mem_singleton.mpr (.inr width.symm)
  have both (plain : n.kind.isAssembly = false)
      : g.narrowed.Sound n.narrowed ∧ ∀ t ∈ n.children.map g.type,
        t.width = 1 ∨ t.width = n.type.width := by
    cases kind : n.kind with
    | construct _ | swizzle _ _ =>
        rw [kind] at plain
        cases plain
    | constant _ | input _ =>
        refine ofScalar (scalar (by rw [kind]; rfl)) fun child isOperand => ?_
        rw [Node.children, kind] at isOperand
        cases isOperand
    | output decl e =>
        have width := scalar (by rw [kind]; rfl)
        have written := sound.written (by rw [Node.isOutput, kind])
        refine ofScalar width fun child isOperand => ?_
        have member := List.mem_map_of_mem (f := g.type) isOperand
        rw [written] at member
        rw [List.mem_singleton.mp member, width]
    | unary op x =>
        by_cases converts : op = .typeConversion
        · subst converts
          exact ofConversion kind
        · refine ofComponents ?_
          rw [kind, NodeKind.mixes] at unmixed
          simpa [kind, NodeKind.isComponentwise, converts] using unmixed
    | binary op x y =>
        refine ofComponents ?_
        rw [kind, NodeKind.mixes] at unmixed
        simpa [kind, NodeKind.isComponentwise] using unmixed
    | ternary _ _ _ _ | call _ _ => exact ofComponents (by rw [kind]; rfl)
  refine ⟨sound.known, unmixed, fun plain => (both plain).1, fun plain => (both plain).2, scalar,
    fun {x chosen} kind => ?_⟩
  rw [infer.eq_def] at inferred
  simp only [kind] at inferred
  exact (congrArg Prod.fst inferred).symm

/-! ## Operators -/

theorem plain_of_found {kind : NodeKind} {table : List Signature}
    (found : kind.signatures? = some table)
    : kind.isAssembly = false ∧ kind.isTerminal = false := by
  cases kind <;> first | exact ⟨rfl, rfl⟩ | cases found

/-- The classes of an operator and its operands are an entry of its table. -/
theorem Loose.signature {table : List Signature} (loose : g.Loose n)
    (found : n.kind.signatures? = some table)
    : ⟨n.register, n.children.map g.register⟩ ∈ table := by
  obtain ⟨i, _, selects⟩ := (loose.sound (plain_of_found found).1).selects found
  have entry := List.mem_of_getElem? selects.entry
  rwa [show n.narrowed.children = n.children from rfl, map_register_narrowed] at entry

theorem Loose.register_constant {value : Value} (loose : g.Loose n)
    (kind : n.kind = .constant value)
    : value.register = n.register := by
  have inferred := (loose.sound (by rw [kind]; rfl)).inferred
  rw [infer.eq_def] at inferred
  simp only [show n.narrowed.kind = .constant value from kind] at inferred
  exact congrArg (fun answer : DataType × Option Nat => answer.1.register) inferred

/-- A new operator without mixing is typed if its operands have the classes of an entry. -/
theorem sound_deduced {kind : NodeKind} {table : List Signature} {r : RegisterClass} {width : Nat}
    (found : kind.signatures? = some table) (unmixed : kind.mixes = false)
    (entry : ⟨r, kind.children.map g.register⟩ ∈ table) (known : r.isKnown = true)
    (widths : ∀ t ∈ kind.children.map g.type, t.width = 1 ∨ t.width = width)
    : (g.deduced (.ofKind kind .unknown)).kind = kind
      ∧ g.Sound (g.deduced (.ofKind kind .unknown))
      ∧ (g.deduced (.ofKind kind .unknown)).register = r
      ∧ ((g.deduced (.ofKind kind .unknown)).type.width = 1
        ∨ (g.deduced (.ofKind kind .unknown)).type.width = width) := by
  obtain ⟨i, selects⟩ := NodeKind.selects_of_mem found entry
  obtain ⟨common, broad, isWidth⟩ := DataType.broadcastWidth?_of_widths widths
  have gives : kind.width? i (kind.children.map g.type) = some common := by
    rw [← broad]
    cases kind with
    | unary op x =>
        have keepsWidth : op.isReduction = false := by cases op <;> first | rfl | cases unmixed
        rw [NodeKind.width?, keepsWidth]
        exact (DataType.broadcastWidth?_singleton (g.type x)).symm
    | binary op x y => cases op <;> first | rfl | cases unmixed
    | ternary op x y z => rfl
    | _ => cases found
  obtain ⟨isNode, sound⟩ := sound_operator found selects gives known
  rw [isNode]
  refine ⟨rfl, sound, rfl, ?_⟩
  change (DataType.of r common).width = 1 ∨ (DataType.of r common).width = width
  rwa [DataType.of_broadcastWidth? r broad]

/-! ## Lowered nodes -/

/-- Nodes that lowering leaves as they are: conversions between integers and floats stay, and so
does a power of two that is no integer. -/
def isLowered (g : Graph) (n : Node) : Bool :=
  Lowering.isSettled n.kind
  || match n.kind with
    | .unary .typeConversion x =>
        g.register x = .int ∧ n.register = .float ∨ g.register x = .float ∧ n.register = .int
    | .unary .pow2 _ => n.register ≠ .int
    | _ => false

theorem isLowered_of_isSettled (settled : Lowering.isSettled n.kind = true)
    : g.isLowered n = true := by
  rw [isLowered, settled, Bool.true_or]

/-- Whether a node is lowered is told by its outline and the classes of its operands. -/
theorem isLowered_kept (outline : m.outline = n.outline)
    (registers : m.children.map h.register = n.children.map g.register)
    : h.isLowered m = g.isLowered n := by
  obtain ⟨kind, type, overload⟩ := n
  obtain ⟨otherKind, otherType, otherOverload⟩ := m
  obtain ⟨kinds, rfl, rfl⟩ := Node.mk.inj outline
  have settled : Lowering.isSettled otherKind = Lowering.isSettled kind := by
    rw [← Lowering.isSettled_outline, kinds, Lowering.isSettled_outline]
  simp only [isLowered, settled]
  refine congrArg _ ?_
  cases kind <;> cases otherKind <;> simp only [NodeKind.outline, reduceCtorEq] at kinds
  case unary op x otherOp y =>
    obtain ⟨rfl, _⟩ := NodeKind.unary.inj kinds
    have register : h.register y = g.register x := (List.cons.inj registers).1
    cases otherOp with
    | typeConversion =>
        simp only [register]
        rfl
    | _ => rfl
  all_goals rfl

theorem lowerOnce_lowered {id : NodeId} (lowered : g.isLowered (g.node id) = true)
    : Lowering.lowerOnce id g = .ok id g := by
  rw [isLowered, Bool.or_eq_true_iff] at lowered
  rcases lowered with settled | stays
  · exact Lowering.lowerOnce_settled settled
  · split at stays
    next x kind =>
      rw [Lowering.lowerOnce, Edit.read_bind]
      simp only [kind]
      rw [Lowering.conversion, Edit.read_bind]
      rcases of_decide_eq_true stays with ⟨source, target⟩ | ⟨source, target⟩ <;>
        rw [source, target] <;> rfl
    next kind =>
      rw [Lowering.lowerOnce, Edit.read_bind]
      simp only [kind]
      rw [if_neg (of_decide_eq_true stays)]
      rfl
    · cases stays

end Graph

/-- Loose typing, without vectors built from parts or only with lowered nodes where that is asked
for. -/
def Discipline.loose (broad low : Prop) : Discipline where
  Tidies := True
  Allows g n := g.Loose n ∧ (broad → n.kind.isAssembly = false) ∧ (low → g.isLowered n = true)
  Serves new old := new.type.Narrows old.type
  refl f := .refl f.type
  trans := .trans
  kept {g h n m} allowed outline serves := by
    obtain ⟨loose, whole, lowered⟩ := allowed
    have types : List.Forall₂ DataType.Narrows (m.children.map h.type) (n.children.map g.type) := by
      rw [List.forall₂_map_left_iff, List.forall₂_map_right_iff] at serves ⊢
      exact serves
    have registers : m.children.map h.register = n.children.map g.register := by
      rw [List.forall₂_map_left_iff, List.forall₂_map_right_iff] at types
      rw [← List.forall₂_eq_eq_eq, List.forall₂_map_left_iff, List.forall₂_map_right_iff]
      exact types.imp fun _ _ => DataType.Narrows.register
    refine ⟨loose.kept outline types, fun isBroad => ?_, fun isLow => ?_⟩
    · rw [← NodeKind.isAssembly_outline, show m.kind.outline = n.kind.outline from congrArg
        Node.kind outline, NodeKind.isAssembly_outline]
      exact whole isBroad
    · rw [Graph.isLowered_kept outline registers]
      exact lowered isLow

/-! ## Typed scalars -/

namespace Graph

variable {g h : Graph} {id : NodeId} {n m : Node}

/-- A node of known type that its operands give, with operands of the classes that it asks for. -/
structure TypedNode (g : Graph) (n : Node) : Prop where
  known : n.type.isKnown = true
  inferred : g.infer n = (n.type, n.overload)
  classes : ∀ {slot t r}, (n.children.map g.type)[slot]? = some t → n.asks? slot = some r →
    r.isKnown = true → t.register = r

theorem typedAt_iff : g.TypedAt id ↔ g.TypedNode (g.node id) := by
  constructor
  · rintro ⟨known, inferred, classes⟩
    refine ⟨known, inferred, fun {slot t r} atSlot asked isKnown => ?_⟩
    rw [List.getElem?_map] at atSlot
    obtain ⟨child, atChild, rfl⟩ := Option.map_eq_some_iff.mp atSlot
    rw [← expected?_eq_asks?] at asked
    exact classes slot (List.getElem?_eq_some_iff.mp atChild).1 child atChild r asked isKnown
  · rintro ⟨known, inferred, classes⟩
    refine ⟨known, inferred, fun slot _ child atSlot expected asked isKnown => ?_⟩
    rw [expected?_eq_asks?] at asked
    have atType : ((g.node id).children.map g.type)[slot]? = some (g.type child) := by
      rw [List.getElem?_map, show (g.node id).children[slot]? = some child from atSlot]
      rfl
    exact classes atType asked isKnown

/-- Whether a node is typed is told by its shape. -/
theorem TypedNode.of_shape (typed : g.TypedNode n) (same : h.shapeOf m = g.shapeOf n)
    : h.TypedNode m := by
  obtain ⟨outline, types⟩ := Shape.mk.inj same
  have type : m.type = n.type := Node.type_eq_of_outline outline
  refine ⟨type ▸ typed.known, ?_, fun {slot t r} atSlot asked => ?_⟩
  · rw [infer_eq_of_outline outline types, type, Node.overload_eq_of_outline outline]
    exact typed.inferred
  · rw [types] at atSlot
    rw [← Node.asks?_outline, outline, Node.asks?_outline] at asked
    exact typed.classes atSlot asked

/-- A typed constant has the class of its value. -/
theorem TypedNode.register_value {value : Value} (typed : g.TypedNode (g.node id))
    (found : g.value? id = some value)
    : value.register = g.register id := by
  have inferred := congrArg Prod.fst typed.inferred
  rw [infer.eq_def, kind_of_value? found] at inferred
  exact congrArg DataType.register inferred

end Graph

/-- Typed scalars of certain types. Nodes are replaced by others of the same type, and constants
stay. -/
def Discipline.typed (types : DataType → Prop) : Discipline where
  Tidies := False
  Allows g n := g.TypedNode n ∧ n.type.width = 1 ∧ types n.type
  Serves new old := new.type = old.type ∧ ∀ v, old.value? = some v → new.value? = some v
  refl _ := ⟨rfl, fun _ found => found⟩
  trans first second := ⟨first.1.trans second.1, fun v found => first.2 v (second.2 v found)⟩
  kept {g h n m} allowed outline serves := by
    obtain ⟨typed, width, among⟩ := allowed
    have type : m.type = n.type := Node.type_eq_of_outline outline
    rw [List.forall₂_map_left_iff, List.forall₂_map_right_iff] at serves
    have types : m.children.map h.type = n.children.map g.type := by
      rw [← List.forall₂_eq_eq_eq, List.forall₂_map_left_iff, List.forall₂_map_right_iff]
      exact serves.imp fun _ _ => And.left
    exact ⟨typed.of_shape (congrArg₂ Shape.mk outline types), type ▸ width, type ▸ among⟩

namespace Graph

variable {g : Graph} {types : DataType → Prop}

theorem WellTyped.obeys (wellTyped : g.WellTyped) (acyclic : g.Acyclic) (isScalar : g.Scalar)
    (among : ∀ id, g.Reachable id → types (g.type id))
    : g.Obeys (.typed types) where
  tidy := False.elim
  inside := wellTyped.lt_size
  acyclic := acyclic
  allowed {id} reachable :=
    ⟨typedAt_iff.mp (wellTyped id reachable), DataType.width_eq_one (isScalar id reachable),
      among id reachable⟩

theorem Obeys.wellTyped (obeys : g.Obeys (.typed types)) : g.WellTyped := fun _ reachable =>
  typedAt_iff.mpr (obeys.allowed reachable).1

theorem Obeys.isScalar (obeys : g.Obeys (.typed types)) : g.Scalar := fun _ reachable =>
  DataType.isVector_eq_false (obeys.allowed reachable).2.1

end Graph

end StreamExpr
