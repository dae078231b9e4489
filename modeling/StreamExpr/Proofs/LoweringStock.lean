import Mathlib.Algebra.Order.Field.Basic
import Mathlib.Algebra.Order.Field.Rat
import StreamExpr.Compiler
import StreamExpr.Proofs.LooseTyping

/-! States of lowering.
A node that is lowered stays so when operands are pointed at others that pass for them. The float
power that an integer power is computed by is young, and lowered when it is visited.
-/

namespace StreamExpr.Lowering

variable {V : Type} {A : Algebra V} {D : Discipline}

/-- What a discipline has to say for lowering: operators have the classes of an entry, typed nodes
that are no wider than a node may be added below it, and they serve in its place. -/
structure Follows (D : Discipline) : Prop where
  known : ∀ {g n}, D.Allows g n → n.register.isKnown = true
  widths : ∀ {g n}, D.Allows g n → (∀ child ∈ n.children, D.Allows g (g.node child))
    → n.kind.isAssembly = false → ∀ t ∈ n.children.map g.type, t.width = 1 ∨ t.width = n.type.width
  signature : ∀ {g id table}, D.Allows g (g.node id) → (g.node id).kind.signatures? = some table →
    ⟨g.register id, (g.children id).map g.register⟩ ∈ table
  allows : ∀ {g old n}, D.Allows g old → g.Sound n → n.kind.mixes = false
    → n.kind.isAssembly = false → (n.kind.isTerminal = true → n.type.width = 1) → n.type.width = 1
      ∨ n.type.width = old.type.width → D.Allows g n
  serves : ∀ {g old f}, D.Allows g old → f.type.Narrows old.type
    → (∀ v, old.value? = some v → f.value? = some v) → D.Serves f ⟨old.type, old.value?⟩

/-- What may be used in place of an operand: it has the same class, and the same value if that is a
constant. -/
def Passes (g h : Graph) (new old : NodeId) : Prop :=
  h.register new = g.register old ∧ ∀ c, g.value? old = some c → h.value? new = some c

theorem passes_appends {g h : Graph} {ids : List NodeId} (appends : g.Appends h)
    (inside : ∀ id ∈ ids, id < g.size)
    : List.Forall₂ (Passes g h) ids ids :=
  List.forall₂_same.mpr fun id member => by
    simp only [Passes, Graph.register, Graph.value?, appends.node (inside id member)]
    exact ⟨trivial, fun _ found => found⟩

theorem isLowered_passes {g h : Graph} {n m : Node} (outline : m.outline = n.outline)
    (operands : List.Forall₂ (Passes g h) m.children n.children)
    : h.isLowered m = g.isLowered n := by
  refine Graph.isLowered_kept outline ?_
  rw [← List.forall₂_eq_eq_eq, List.forall₂_map_left_iff, List.forall₂_map_right_iff]
  exact operands.imp fun _ _ => And.left

/-- Whether a node is lowered exactly is told by its outline and by its constant operands. -/
theorem lowersExactly_passes {g h : Graph} {id : NodeId}
    (outline : (h.node id).outline = (g.node id).outline)
    (operands : List.Forall₂ (Passes g h) (h.children id) (g.children id))
    (exactly : g.lowersExactly id = true)
    : h.lowersExactly id = true := by
  have kinds : (h.node id).kind.outline = (g.node id).kind.outline := congrArg Node.kind outline
  have register : h.register id = g.register id := congrArg DataType.register
    (Node.type_eq_of_outline outline)
  rw [Graph.lowersExactly] at exactly ⊢
  rw [register]
  simp only [Graph.children, Node.children] at operands
  generalize (g.node id).kind = kind at kinds exactly operands
  generalize (h.node id).kind = laterKind at kinds operands ⊢
  cases kind with
  | unary op x =>
      cases laterKind <;> cases kinds
      cases op <;> exact exactly
  | binary op x y =>
      cases laterKind <;> cases kinds
      cases op with
      | pow =>
          cases operands with | cons _ operands =>
          cases operands with | cons atExponent _ =>
          obtain ⟨isInt, small⟩ := Bool.and_eq_true_iff.mp exactly
          cases found : g.value? y with
          | none => simp [found] at small
          | some c =>
              simp only [atExponent.2 c found, ← found]
              exact exactly
      | _ => exact exactly
  | _ => cases laterKind <;> first | rfl | cases kinds

/-- Nodes that have no value to keep, but for powers with coarse ones. -/
def Coarsely (A : Algebra V) (n : Node) (made : Option V) : Prop :=
  Coarsens A ∧ ∀ {v}, made = some v → Coarse A v ∧ ∃ x y, n.kind = .binary .pow x y

/-- Nodes that are lowered, lower exactly, or have no value to keep that lowering could change. -/
def Handles (A : Algebra V) (g : Graph) (value : NodeId → Option V) (id : NodeId) : Prop :=
  g.isLowered (g.node id) = true ∨ (Laws A ∧ g.lowersExactly id = true)
    ∨ Coarsely A (g.node id) (value id)

theorem Handles.kept {g h : Graph} {value other : NodeId → Option V} {id : NodeId}
    (handles : Handles A g value id) (outline : (h.node id).outline = (g.node id).outline)
    (operands : List.Forall₂ (Passes g h) (h.children id) (g.children id))
    (same : other id = value id)
    : Handles A h other id := by
  rcases handles with lowered | ⟨laws, exactly⟩ | ⟨coarsens, coarse⟩
  · exact .inl ((isLowered_passes outline operands).trans lowered)
  · exact .inr (.inl ⟨laws, lowersExactly_passes outline operands exactly⟩)
  · refine .inr (.inr ⟨coarsens, fun found => ?_⟩)
    obtain ⟨isCoarse, x, y, kind⟩ := coarse (same.symm.trans found)
    have kinds : (h.node id).kind.outline = (g.node id).kind.outline := congrArg Node.kind outline
    rw [kind] at kinds
    refine ⟨isCoarse, ?_⟩
    cases later : (h.node id).kind <;> rw [later] at kinds <;> cases kinds
    exact ⟨_, _, rfl⟩

/-! ## States -/

/-- A valuation that keeps to a discipline, whose values have the classes of their nodes, with the
float powers that have been added. -/
structure Stock (D : Discipline) (A : Algebra V) extends Valuation A.meaning ℚ A.order where
  tidy : D.Tidies → graph.Tidy
  allowed : ∀ {id}, live id → D.Allows graph (graph.node id)
  classed : ∀ {id v}, live id → value id = some v → A.Classed v (graph.register id)
  handles : ∀ {id}, live id → Handles A graph value id
  young : Finset NodeId
  powers : ∀ {id}, id ∈ young →
    live id ∧ graph.register id = .float ∧ ∃ x y, (graph.node id).kind = .binary .pow x y

/-- A node in use is lowered. -/
def Lowered (s : Stock D A) (id : NodeId) : Prop :=
  s.graph.isLowered (s.graph.node id) = true

namespace Stock

/-- The state without its values. -/
def state (s : Stock D A) : D.State where
  graph := s.graph
  live := s.live
  tidy := s.tidy
  inside := s.inside
  operand isLive isOperand := (s.operand isLive isOperand).1
  allowed := s.allowed

/-- A later state: nodes in use keep their ranks and values and stay lowered. -/
structure Later (s t : Stock D A) : Prop where
  values : s.toValuation.Later t.toValuation
  state : s.state.Later t.state
  lowered : ∀ {id}, s.live id → Lowered s id → Lowered t id

theorem Later.refl (s : Stock D A) : s.Later s :=
  ⟨.refl _, .refl _, fun _ lowered => lowered⟩

theorem Later.trans {s t u : Stock D A} (first : s.Later t) (second : t.Later u) : s.Later u where
  values := first.values.trans second.values
  state := first.state.trans second.state
  lowered isLive before := second.lowered (first.values.live isLive) (first.lowered isLive before)

/-- A node that can be used in place of another. -/
structure Stands (s : Stock D A) (old new : NodeId) : Prop where
  values : s.toValuation.Stands old new
  state : s.state.Stands old new
  passes : Passes s.graph s.graph new old

theorem Stands.refl {s : Stock D A} {id : NodeId} (isLive : s.live id) : s.Stands id id :=
  ⟨.refl isLive, .refl isLive, rfl, fun _ found => found⟩

theorem Stands.trans {s : Stock D A} {first second third : NodeId} (left : s.Stands first second)
    (right : s.Stands second third)
    : s.Stands first third :=
  ⟨left.values.trans right.values, left.state.trans right.state, right.passes.1.trans left.passes.1,
    fun c found => right.passes.2 c (left.passes.2 c found)⟩

theorem Stands.later {s t : Stock D A} {old new : NodeId}
    (stands : s.Stands old new) (later : s.Later t)
    : t.Stands old new where
  values := stands.values.later later.values
  state := stands.state.later later.state
  passes := by
    have faces : t.graph.face new = s.graph.face new ∧ t.graph.face old = s.graph.face old :=
      ⟨later.state.face stands.values.newLive, later.state.face stands.values.oldLive⟩
    have value (id : NodeId) (same : t.graph.face id = s.graph.face id)
      : t.graph.value? id = s.graph.value? id := congrArg Face.value? same
    refine ⟨?_, fun c found => ?_⟩
    · exact (congrArg (fun face : Face => face.type.register) faces.1).trans
        (stands.passes.1.trans (congrArg (fun face : Face => face.type.register) faces.2).symm)
    · rw [value _ faces.1]
      exact stands.passes.2 c ((value _ faces.2).symm.trans found)

theorem lowered_appends {s t : Stock D A} {id : NodeId} (appends : s.graph.Appends t.graph)
    (isLive : s.live id) (lowered : Lowered s id)
    : Lowered t id := by
  rw [Lowered, appends.node (s.inside isLive)]
  refine (isLowered_passes rfl (passes_appends appends ?_)).trans lowered
  exact fun child isOperand => s.inside (s.operand isLive isOperand).1

/-- Add a node that ranks above its operands. -/
def push (s : Stock D A) (n : Node) (rank : ℚ)
    (operand : ∀ child ∈ n.children, s.live child ∧ s.rank child < rank)
    (isValue : ∀ child ∈ n.children, s.live child ∧ (D.Tidies → s.graph.isOutput child = false))
    (allowed : D.Allows s.graph n) (classed : ∀ {v}, s.derived n = some v → A.Classed v n.register)
    (handles : s.graph.isLowered n = true ∨ Coarsely A n (s.derived n))
    : Stock D A :=
  have appends := s.graph.appends_push n
  have isNode := s.graph.node_push_self n
  { s.toValuation.push n rank operand with
    tidy := (s.state.push n isValue allowed).tidy
    allowed := (s.state.push n isValue allowed).allowed
    classed := fun {id v} isLive found => by
      change Function.update s.value s.graph.size (s.derived n) id = some v at found
      change A.Classed v ((s.graph.push n).node id).register
      rcases isLive with before | rfl
      · rw [Function.update_of_ne (Nat.ne_of_lt (s.inside before))] at found
        rw [appends.node (s.inside before)]
        exact s.classed before found
      · rw [Function.update_self] at found
        rw [isNode]
        exact classed found
    handles := fun {id} isLive => by
      change Handles A (s.graph.push n) (Function.update s.value s.graph.size (s.derived n)) id
      rcases isLive with before | rfl
      · have inside := s.inside before
        refine (s.handles before).kept (congrArg Node.outline (appends.node inside)) ?_
          (Function.update_of_ne (Nat.ne_of_lt inside) _ _)
        rw [Graph.children, appends.node inside]
        exact passes_appends appends fun child isOperand => s.inside (s.operand before isOperand).1
      · have lowered : (s.graph.push n).isLowered n = s.graph.isLowered n :=
          isLowered_passes rfl (passes_appends appends fun child isOperand =>
            s.inside (operand child isOperand).1)
        rw [Handles, Function.update_self, isNode, lowered]
        exact handles.imp_right .inr
    young := s.young
    powers := fun {id} isYoung => by
      obtain ⟨wasLive, register, kind⟩ := s.powers isYoung
      change (s.live id ∨ _) ∧ ((s.graph.push n).node id).register = _ ∧ ∃ x y,
        ((s.graph.push n).node id).kind = _
      rw [appends.node (s.inside wasLive)]
      exact ⟨.inl wasLive, register, kind⟩ }

/-- Note that a node is a float power. -/
def mark (s : Stock D A) {id : NodeId} (isLive : s.live id)
    (register : s.graph.register id = .float)
    (kind : ∃ x y, (s.graph.node id).kind = .binary .pow x y)
    : Stock D A :=
  { s with
    young := insert id s.young
    powers := fun isYoung => by
      rcases Finset.mem_insert.mp isYoung with rfl | before
      · exact ⟨isLive, register, kind⟩
      · exact s.powers before }

/-- The values of nodes in use have their classes. -/
theorem classes (s : Stock D A) {ids : List NodeId} {xs : List V} (live : ∀ id ∈ ids, s.live id)
    (values : List.Forall₂ (fun id x => s.value id = some x) ids xs)
    : List.Forall₂ (fun id x => A.Classed x (s.graph.register id)) ids xs := by
  induction values with
  | nil => exact .nil
  | cons head _ ih =>
      exact .cons (s.classed (live _ (.head _)) head) (ih fun id member => live id (.tail _ member))

end Stock

/-- States in the order of time, seen as graphs. -/
def evolution (D : Discipline) (A : Algebra V) : Evolution Graph (Stock D A) where
  view s := s.graph
  Later := Stock.Later
  refl := .refl
  trans := .trans

end StreamExpr.Lowering
