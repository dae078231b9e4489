import StreamExpr.Proofs.Completion
import StreamExpr.Proofs.TypedGraph
import StreamExpr.Proofs.Valuation

/-! What passes on scalars keep up.
A discipline says what nodes have to be like, and what can be used in place of an operand without
harm to its users. A pass that keeps to it leaves a graph that is in good order if it was given one.
-/

namespace StreamExpr

/-! ## Disciplines -/

/-- What a user sees of an operand: its type, and its value if it is a constant. -/
structure Face where
  type : DataType
  value? : Option Value

def Graph.face (g : Graph) (id : NodeId) : Face :=
  ⟨g.type id, g.value? id⟩

@[simp]
theorem Graph.face_setChild (g : Graph) (id other : NodeId) (slot : Nat) (child : NodeId)
    : (g.setChild id slot child).face other = g.face other :=
  congrArg₂ Face.mk (g.type_setChild id other slot child) (g.value?_setChild id other slot child)

theorem Graph.Appends.face {g h : Graph} (appends : g.Appends h)
    {id : NodeId} (inside : id < g.size)
    : h.face id = g.face id := by
  rw [Graph.face, Graph.type, Graph.value?, appends.node inside]
  rfl

/-- What the nodes of a graph have to be like, and which operands serve where others were. It may
ask in addition that all handles are places of the arena and that no output is an operand. -/
structure Discipline where
  Tidies : Prop
  Allows : Graph → Node → Prop
  Serves : Face → Face → Prop
  refl : ∀ f, Serves f f
  trans : ∀ {first second third}, Serves first second → Serves second third → Serves first third
  kept : ∀ {g h : Graph} {n m : Node}, Allows g n → m.outline = n.outline →
    List.Forall₂ Serves (m.children.map h.face) (n.children.map g.face) → Allows h m

/-- A graph in good order: its handles are places of its arena, it has no cycles, its roots are
outputs, and its reachable nodes are as they have to be. -/
structure Graph.Orders (g : Graph) (D : Discipline) : Prop extends g.Tidy where
  acyclic : g.Acyclic
  rooted : g.Rooted
  allowed : ∀ {id}, g.Reachable id → D.Allows g (g.node id)

/-- What a pass may be given: no cycles, and reachable nodes that stand in the arena and are as they
have to be. -/
structure Graph.Obeys (g : Graph) (D : Discipline) : Prop where
  tidy : D.Tidies → g.Tidy
  inside : ∀ {id}, g.Reachable id → id < g.size
  acyclic : g.Acyclic
  allowed : ∀ {id}, g.Reachable id → D.Allows g (g.node id)

theorem Graph.Orders.obeys {g : Graph} {D : Discipline} (orders : g.Orders D) : g.Obeys D :=
  ⟨fun _ => orders.toTidy, orders.lt_size, orders.acyclic, orders.allowed⟩

theorem Graph.Obeys.orders {g : Graph} {D : Discipline} (obeys : g.Obeys D)
    (tidies : D.Tidies) (rooted : g.Rooted)
    : g.Orders D :=
  { obeys.tidy tidies with acyclic := obeys.acyclic, rooted := rooted, allowed := obeys.allowed }

/-- What a pass on scalars leaves of the streams of a graph: the roots with their outlines, and what
is declared. No input is added. -/
structure Graph.Keeps (g h : Graph) : Prop where
  outputs : h.outputs = g.outputs
  outline : ∀ {root}, root ∈ g.outputs → (h.node root).outline = (g.node root).outline
  inputs : h.inputs = g.inputs
  declared : h.declared = g.declared
  carries : ∀ {id decl}, (h.node id).kind = .input decl → (g.node id).kind = .input decl

theorem Graph.Keeps.trans {first second third : Graph} (left : first.Keeps second)
    (right : second.Keeps third)
    : first.Keeps third where
  outputs := right.outputs.trans left.outputs
  outline isRoot := (right.outline (left.outputs ▸ isRoot)).trans (left.outline isRoot)
  inputs := right.inputs.trans left.inputs
  declared := right.declared.trans left.declared
  carries found := left.carries (right.carries found)

/-! ## States -/

namespace Discipline

variable {D : Discipline}

/-- A graph with its nodes in use, all of which are as they have to be. -/
structure State (D : Discipline) where
  graph : Graph
  live : NodeId → Prop
  tidy : D.Tidies → graph.Tidy
  inside : ∀ {id}, live id → id < graph.size
  operand : ∀ {id child}, live id → child ∈ graph.children id → live child
  allowed : ∀ {id}, live id → D.Allows graph (graph.node id)

namespace State

/-- A graph with its reachable nodes in use. -/
def ofGraph {g : Graph} (obeys : g.Obeys D) : D.State where
  graph := g
  live := g.Reachable
  tidy := obeys.tidy
  inside := obeys.inside
  operand isLive := isLive.operand
  allowed := obeys.allowed

/-- A later state: what was in use still is, with its outline, and the streams are the same. -/
structure Later (s t : D.State) : Prop where
  live : ∀ {id}, s.live id → t.live id
  outline : ∀ {id}, s.live id → (t.graph.node id).outline = (s.graph.node id).outline
  inputs : t.graph.inputs = s.graph.inputs
  declared : t.graph.declared = s.graph.declared
  carries : ∀ {id decl}, (t.graph.node id).kind = .input decl → (s.graph.node id).kind = .input decl

theorem Later.refl (s : D.State) : s.Later s :=
  ⟨id, fun _ => rfl, rfl, rfl, id⟩

theorem Later.trans {s t u : D.State} (first : s.Later t) (second : t.Later u) : s.Later u where
  live isLive := second.live (first.live isLive)
  outline isLive := (second.outline (first.live isLive)).trans (first.outline isLive)
  inputs := second.inputs.trans first.inputs
  declared := second.declared.trans first.declared
  carries found := first.carries (second.carries found)

theorem Later.face {s t : D.State} (later : s.Later t) {id : NodeId} (isLive : s.live id)
    : t.graph.face id = s.graph.face id := by
  have value (n : Node) : n.outline.value? = n.value? := by
    obtain ⟨kind, _, _⟩ := n
    cases kind <;> rfl
  have outline := later.outline isLive
  refine congrArg₂ Face.mk (Node.type_eq_of_outline outline) ?_
  rw [Graph.value?, ← value, outline, value]
  rfl

theorem Later.isOutput {s t : D.State} (later : s.Later t) {id : NodeId} (isLive : s.live id)
    : t.graph.isOutput id = s.graph.isOutput id :=
  Node.isOutput_eq_of_outline (later.outline isLive)

/-- A node that can be used in place of another. An output stays, and nothing else becomes one. -/
structure Stands (s : D.State) (old new : NodeId) : Prop where
  oldLive : s.live old
  newLive : s.live new
  serves : D.Serves (s.graph.face new) (s.graph.face old)
  value : D.Tidies → s.graph.isOutput old = false → s.graph.isOutput new = false
  output : s.graph.isOutput old = true → new = old

theorem Stands.refl {s : D.State} {id : NodeId} (isLive : s.live id) : s.Stands id id :=
  ⟨isLive, isLive, D.refl _, fun _ isValue => isValue, fun _ => rfl⟩

theorem Stands.trans {s : D.State} {first second third : NodeId} (left : s.Stands first second)
    (right : s.Stands second third)
    : s.Stands first third where
  oldLive := left.oldLive
  newLive := right.newLive
  serves := D.trans right.serves left.serves
  value tidies isValue := right.value tidies (left.value tidies isValue)
  output isOutput := by
    obtain rfl := left.output isOutput
    exact right.output isOutput

theorem Stands.later {s t : D.State} {old new : NodeId}
    (stands : s.Stands old new) (later : s.Later t)
    : t.Stands old new where
  oldLive := later.live stands.oldLive
  newLive := later.live stands.newLive
  serves := by
    rw [later.face stands.oldLive, later.face stands.newLive]
    exact stands.serves
  value tidies isValue := by
    rw [later.isOutput stands.newLive]
    exact stands.value tidies (later.isOutput stands.oldLive ▸ isValue)
  output isOutput := stands.output (later.isOutput stands.oldLive ▸ isOutput)

/-! ## Edits -/

/-- Operands that look the same serve for each other. -/
theorem serves_of_eq {fs gs : List Face} (same : fs = gs) : List.Forall₂ D.Serves fs gs := by
  subst same
  exact List.forall₂_same.mpr fun f _ => D.refl f

/-- What a node may be it may be in a graph with nodes added. -/
theorem allows_appends {g h : Graph} {n : Node} (appends : g.Appends h)
    (inside : ∀ child ∈ n.children, child < g.size) (allowed : D.Allows g n)
    : D.Allows h n :=
  D.kept allowed rfl
  (serves_of_eq (List.map_congr_left fun child isOperand => appends.face (inside child isOperand)))

/-- Add a node that is not in use. -/
def pad (s : D.State) (n : Node)
    (operand : D.Tidies → ∀ child ∈ n.children, child < s.graph.size
    ∧ s.graph.isOutput child = false)
    : D.State where
  graph := s.graph.push n
  live := s.live
  tidy tidies := (s.tidy tidies).push (operand tidies)
  inside isLive := Nat.lt_of_lt_of_le (s.inside isLive) (s.graph.appends_push n).size
  operand {id child} isLive isOperand := by
    rw [Graph.children, Graph.node_push_of_lt n (s.inside isLive)] at isOperand
    exact s.operand isLive isOperand
  allowed {id} isLive := by
    rw [Graph.node_push_of_lt n (s.inside isLive)]
    exact allows_appends (s.graph.appends_push n)
      (fun child isOperand => s.inside (s.operand isLive isOperand)) (s.allowed isLive)

theorem pad_later (s : D.State) (n : Node)
    (operand : D.Tidies → ∀ child ∈ n.children, child < s.graph.size ∧ s.graph.isOutput child
    = false) (isNoInput : ∀ decl, n.kind ≠ .input decl)
    : s.Later (s.pad n operand) where
  live isLive := isLive
  outline isLive := by rw [pad, Graph.node_push_of_lt n (s.inside isLive)]
  inputs := rfl
  declared := rfl
  carries {id decl} found := by
    simp only [pad, Graph.node_push] at found
    split at found
    · exact (isNoInput decl found).elim
    · exact found

/-- Add a node whose operands are in use. -/
def push (s : D.State) (n : Node)
    (operand : ∀ child ∈ n.children, s.live child ∧ (D.Tidies → s.graph.isOutput child = false))
    (allowed : D.Allows s.graph n)
    : D.State :=
  let t := s.pad n fun tidies child isOperand => (operand child isOperand).imp s.inside (· tidies)
  have isNode : t.graph.node s.graph.size = n := s.graph.node_push_self n
  { t with
    live := fun id => s.live id ∨ id = s.graph.size
    inside := fun isLive => isLive.elim t.inside fun same =>
      Nat.lt_of_lt_of_eq (same ▸ Nat.lt_succ_self _) (s.graph.size_push n).symm
    operand := fun {id child} isLive isOperand => by
      rcases isLive with before | rfl
      · exact .inl (t.operand before isOperand)
      · rw [Graph.children, isNode] at isOperand
        exact .inl (operand child isOperand).1
    allowed := fun {id} isLive => by
      rcases isLive with before | rfl
      · exact t.allowed before
      · rw [isNode]
        exact allows_appends (s.graph.appends_push n)
          (fun child isOperand => s.inside (operand child isOperand).1) allowed }

theorem push_later (s : D.State) (n : Node)
    (operand : ∀ child ∈ n.children, s.live child ∧ (D.Tidies → s.graph.isOutput child = false))
    (allowed : D.Allows s.graph n) (isNoInput : ∀ decl, n.kind ≠ .input decl)
    : s.Later (s.push n operand allowed) :=
  have later := s.pad_later n (fun tidies child isOperand =>
    (operand child isOperand).imp s.inside (· tidies)) isNoInput
  ⟨.inl, later.outline, rfl, rfl, later.carries⟩

theorem kind_setChild_eq_input {kind : NodeKind} {slot : Nat} {child : NodeId} {decl : StreamDecl}
    (found : kind.setChild slot child = .input decl)
    : kind = .input decl := by
  cases kind <;> cases found
  rfl

/-- Point a slot at what stands in for its operand. -/
def setChild (s : D.State) {parent child new : NodeId} {slot : Nat}
    (atSlot : (s.graph.children parent)[slot]? = some child) (stands : s.Stands child new)
    : D.State where
  graph := s.graph.setChild parent slot new
  live := s.live
  tidy tidies := (s.tidy tidies).setChild (s.inside stands.newLive)
    (stands.value tidies ((s.tidy tidies).unused (List.mem_of_getElem? atSlot)))
  inside isLive := by
    rw [Graph.size_setChild]
    exact s.inside isLive
  operand {id other} isLive isOperand := by
    rcases Graph.uses_setChild isOperand with before | ⟨_, rfl⟩
    · exact s.operand isLive before
    · exact stands.newLive
  allowed {id} isLive := by
    have faces (ids : List NodeId)
        : ids.map (s.graph.setChild parent slot new).face = ids.map s.graph.face :=
      List.map_congr_left fun other _ => s.graph.face_setChild parent other slot new
    rw [Graph.node_setChild]
    split
    case isTrue here =>
      subst here
      refine D.kept (s.allowed isLive) (Node.outline_setChild _ _ _) ?_
      rw [faces, Node.children_setChild, List.forall₂_map_left_iff, List.forall₂_map_right_iff]
      have own : List.Forall₂ (fun a b => D.Serves (s.graph.face a) (s.graph.face b))
          (s.graph.children id) (s.graph.children id) :=
        List.forall₂_same.mpr fun other _ => D.refl _
      exact forall₂_set own atSlot fun other serves => D.trans stands.serves serves
    case isFalse => exact D.kept (s.allowed isLive) rfl (serves_of_eq (faces _))

theorem setChild_later (s : D.State) {parent child new : NodeId} {slot : Nat}
    (atSlot : (s.graph.children parent)[slot]? = some child) (stands : s.Stands child new)
    : s.Later (s.setChild atSlot stands) where
  live isLive := isLive
  outline _ := by
    simp only [setChild, Graph.node_setChild]
    split
    · exact Node.outline_setChild _ _ _
    · rfl
  inputs := rfl
  declared := rfl
  carries {id decl} found := by
    simp only [setChild, Graph.node_setChild] at found
    split at found
    · exact kind_setChild_eq_input found
    · exact found

/-- Replace a root by a node in use. -/
def setOutput (s : D.State) (index : Nat) {root : NodeId} (isLive : s.live root) : D.State where
  graph := s.graph.setOutput index root
  live := s.live
  tidy tidies := (s.tidy tidies).setOutput index (s.inside isLive)
  inside := s.inside
  operand := s.operand
  allowed isLive := D.kept (s.allowed isLive) rfl (serves_of_eq rfl)

theorem setOutput_later (s : D.State) (index : Nat) {root : NodeId} (isLive : s.live root)
    : s.Later (s.setOutput index isLive) :=
  ⟨id, fun _ => rfl, rfl, rfl, id⟩

/-- Adding a node whose operands are in use. -/
structure Added (s t : D.State) (n : Node) (new : NodeId) : Prop where
  later : s.Later t
  live : t.live new
  node : t.graph.node new = n
  appends : s.graph.Appends t.graph

theorem push_added (s : D.State) (n : Node)
    (operand : ∀ child ∈ n.children, s.live child ∧ (D.Tidies → s.graph.isOutput child = false))
    (allowed : D.Allows s.graph n) (isNoInput : ∀ decl, n.kind ≠ .input decl)
    : s.Added (s.push n operand allowed) n s.graph.size where
  later := s.push_later n operand allowed isNoInput
  live := .inr rfl
  node := s.graph.node_push_self n
  appends := s.graph.appends_push n

/-- The streams of a graph are kept where the roots stay. -/
theorem Later.keeps {s t : D.State} (later : s.Later t)
    (live : ∀ root ∈ s.graph.outputs, s.live root) (outputs : t.graph.outputs = s.graph.outputs)
    : s.graph.Keeps t.graph where
  outputs := outputs
  outline isRoot := later.outline (live _ isRoot)
  inputs := later.inputs
  declared := later.declared
  carries := later.carries

end State

end Discipline

end StreamExpr
