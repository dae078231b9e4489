import StreamExpr.Proofs.Termination
import StreamExpr.Proofs.TypedEdits

/-! Ranked graphs.
Every place of the arena has a rank, and operands rank below their users. A shared selection is on
the level of the vector it selects from, so a component of an operand is as low as the operand,
whether it was asked for before or not. Nothing is asked of types, save that a single component is
no vector.
-/

namespace StreamExpr

/-! ## Selections of one component -/

/-- A selection of a single component. -/
def Node.isPick (n : Node) : Bool :=
  match n.kind with
  | .swizzle _ chosen => chosen.count = 1
  | _ => false

/-- A selection is one of four components, and a single component is no vector. -/
structure Node.Selects (n : Node) : Prop where
  lane : ∀ {v chosen}, n.kind = .swizzle v chosen → ∀ place, chosen.lane place < 4
  scalar : n.isPick = true → n.type.isVector = false

namespace Node

variable {n other : Node}

theorem exists_of_isPick (isPick : n.isPick = true)
    : ∃ v chosen, n.kind = .swizzle v chosen ∧ chosen.count = 1 := by
  rw [Node.isPick] at isPick
  split at isPick
  next v chosen kind =>
    exact ⟨v, chosen, kind, of_decide_eq_true isPick⟩
  · cases isPick

theorem isPick_eq_of_outline (same : n.outline = other.outline) : n.isPick = other.isPick := by
  have forgets (n : Node) : n.outline.isPick = n.isPick := by
    obtain ⟨kind, type, overload⟩ := n
    cases kind <;> rfl
  rw [← forgets, same, forgets]

theorem Selects.of_outline (selects : n.Selects) (same : n.outline = other.outline)
    : other.Selects where
  lane {v chosen} kind := by
    have outline : n.kind.outline = .swizzle 0 chosen := by
      rw [show n.kind.outline = other.kind.outline from congrArg Node.kind same, kind]
      rfl
    cases own : n.kind with
    | swizzle w others =>
        rw [own] at outline
        cases outline
        exact selects.lane own
    | _ =>
        rw [own] at outline
        cases outline
  scalar isPick := by
    rw [← type_eq_of_outline same]
    exact selects.scalar ((isPick_eq_of_outline same).trans isPick)

/-- Nodes of other kinds select nothing. -/
theorem selects_of_ne (proper : ∀ v chosen, n.kind ≠ .swizzle v chosen) : n.Selects where
  lane kind := (proper _ _ kind).elim
  scalar isPick := by
    obtain ⟨v, chosen, kind, _⟩ := exists_of_isPick isPick
    exact (proper v chosen kind).elim

/-- A selection takes its type from its vector. -/
theorem selects_swizzle {g : Graph} {v : NodeId} {components : List Nat}
    (kind : n.kind = .swizzle v (.ofList components))
    (type : n.type = (g.type v).withWidth (Selection.ofList components).count)
    : n.Selects where
  lane found place := by
    cases kind.symm.trans found
    exact Nat.lt_succ_of_le (Selection.lane_ofList_le components place)
  scalar isPick := by
    obtain ⟨w, chosen, found, single⟩ := exists_of_isPick isPick
    cases kind.symm.trans found
    rw [type, single]
    rfl

end Node

/-! ## Ranks of a whole arena -/

/-- A graph with a rank for each place. Operands rank below their users, roots are outputs, and
shared selections are no higher than the vectors they are shared for. -/
structure RankedGraph where
  graph : Graph
  rank : NodeId → Rank
  operand : graph.Ranked rank
  root : ∀ {root}, root ∈ graph.outputs → graph.isOutput root = true
  selects : ∀ id, (graph.node id).Selects
  shared : ∀ {id}, (rank id).isShared = true → (graph.node id).isPick = true
  cached : ∀ {v c s : Nat}, graph.selections[(v, c)]? = some s →
    v < graph.size
    ∧ s < graph.size
    ∧ (rank s).level ≤ (rank v).level
    ∧ (graph.node s).isPick = true

namespace RankedGraph

variable {s t : RankedGraph}

/-- A node of a level below a bound. -/
structure Below (s : RankedGraph) (bound : ℚ) (id : NodeId) : Prop where
  inside : id < s.graph.size
  level : (s.rank id).level < bound

theorem isShared_of_not_isPick {id : NodeId} (isOther : (s.graph.node id).isPick = false)
    : (s.rank id).isShared = false := by
  cases flag : (s.rank id).isShared with
  | false => rfl
  | true => cases isOther.symm.trans (s.shared flag)

theorem isShared_of_kind (s : RankedGraph) {id : NodeId}
    (proper : ∀ v chosen, (s.graph.node id).kind ≠ .swizzle v chosen)
    : (s.rank id).isShared = false := by
  refine isShared_of_not_isPick (Bool.eq_false_iff.mpr fun isPick => ?_)
  obtain ⟨v, chosen, found, _⟩ := Node.exists_of_isPick isPick
  exact proper v chosen found

/-- A vector is no shared selection. -/
theorem isShared_of_isVector {id : NodeId} (isVector : (s.graph.type id).isVector = true)
    : (s.rank id).isShared = false := by
  cases flag : (s.rank id).isShared with
  | false => rfl
  | true => cases isVector.symm.trans ((s.selects id).scalar (s.shared flag))

/-- An operand is below the level of a user that is no shared selection. -/
theorem below_operand {parent child : NodeId} (plain : (s.rank parent).isShared = false)
    (uses : s.graph.Uses parent child)
    : s.Below (s.rank parent).level child :=
  ⟨(s.operand uses).1, Rank.level_lt (s.operand uses).2 plain⟩

theorem Below.rank_lt {bound : ℚ} {id other : NodeId} (below : s.Below bound id)
    (atMost : bound ≤ (t.rank other).level)
    : s.rank id < t.rank other :=
  Rank.lt_of_level (below.level.trans_le atMost)

theorem acyclic (s : RankedGraph) : s.graph.Acyclic :=
  Graph.acyclic_of_rank s.rank fun _ uses => (s.operand uses).2

/-! ## Edits -/

/-- A node that may be added with a rank. -/
structure Admits (s : RankedGraph) (n : Node) (rank : Rank) : Prop where
  operand : ∀ child ∈ n.children, child < s.graph.size ∧ s.rank child < rank
  selects : n.Selects
  shared : rank.isShared = true → n.isPick = true

/-- Add a node with a rank. -/
def push (s : RankedGraph) {n : Node} {rank : Rank} (admits : s.Admits n rank) : RankedGraph where
  graph := s.graph.push n
  rank := Function.update s.rank s.graph.size rank
  operand := s.operand.push admits.operand
  root {root} isRoot := by
    have isOutput := s.root isRoot
    rw [Graph.isOutput, Graph.node_push_of_lt n (Graph.lt_size_of_isOutput isOutput)]
    exact isOutput
  selects id := by
    rw [Graph.node_push]
    split
    · exact admits.selects
    · exact s.selects id
  shared {id} isShared := by
    rw [Graph.node_push]
    split
    case isTrue isNew =>
      rw [isNew, Function.update_self] at isShared
      exact admits.shared isShared
    case isFalse isOld =>
      rw [Function.update_of_ne isOld] at isShared
      exact s.shared isShared
  cached {v c selection} found := by
    obtain ⟨inside, selectionInside, level, isPick⟩ := s.cached found
    rw [Function.update_of_ne (Nat.ne_of_lt inside),
      Function.update_of_ne (Nat.ne_of_lt selectionInside), Graph.node_push_of_lt n selectionInside,
      Graph.size_push]
    exact ⟨Nat.lt_succ_of_lt inside, Nat.lt_succ_of_lt selectionInside, level, isPick⟩

/-- Share a selection that is no higher than the vector it selects from. -/
def share (s : RankedGraph) {v selection : NodeId} (c : Nat) (inside : v < s.graph.size)
    (selectionInside : selection < s.graph.size)
    (level : (s.rank selection).level ≤ (s.rank v).level)
    (isPick : (s.graph.node selection).isPick = true)
    : RankedGraph where
  graph := s.graph.share v c selection
  rank := s.rank
  operand := s.operand
  root := s.root
  selects := s.selects
  shared := s.shared
  cached {w d other} found := by
    rcases Graph.eq_or_selections_of_share found with ⟨rfl, rfl, rfl⟩ | before
    · exact ⟨inside, selectionInside, level, isPick⟩
    · exact s.cached before

/-- A node that may be put in place of another. -/
structure Accepts (s : RankedGraph) (id : NodeId) (n : Node) : Prop where
  operand : ∀ child ∈ n.children, child < s.graph.size ∧ s.rank child < s.rank id
  selects : n.Selects
  isPick : (s.graph.node id).isPick = true → n.isPick = true
  isOutput : (s.graph.node id).isOutput = true → n.isOutput = true

/-- Put a graph that differs in one node in place of a graph. -/
def overwrite (s : RankedGraph) {id : NodeId} {n : Node} (accepts : s.Accepts id n) (g : Graph)
    (size : g.size = s.graph.size) (node : ∀ other,
    g.node other = if other = id then n else s.graph.node other)
    (outputs : g.outputs = s.graph.outputs) (selections : g.selections = s.graph.selections)
    : RankedGraph where
  graph := g
  rank := s.rank
  operand parent child uses := by
    rw [Graph.Uses, Graph.children, node] at uses
    rw [size]
    split at uses
    case isTrue here =>
      rw [here]
      exact accepts.operand child uses
    case isFalse => exact s.operand uses
  root {root} isRoot := by
    rw [outputs] at isRoot
    have isOutput := s.root isRoot
    rw [Graph.isOutput] at isOutput
    rw [Graph.isOutput, node]
    split
    case isTrue here =>
      exact accepts.isOutput (here ▸ isOutput)
    case isFalse => exact isOutput
  selects other := by
    rw [node]
    split
    · exact accepts.selects
    · exact s.selects other
  shared {other} isShared := by
    have isPick := s.shared isShared
    rw [node]
    split
    case isTrue here =>
      exact accepts.isPick (here ▸ isPick)
    case isFalse => exact isPick
  cached {v c selection} found := by
    rw [selections] at found
    obtain ⟨inside, selectionInside, level, isPick⟩ := s.cached found
    refine ⟨size.symm ▸ inside, size.symm ▸ selectionInside, level, ?_⟩
    rw [node]
    split
    case isTrue here =>
      exact accepts.isPick (here ▸ isPick)
    case isFalse => exact isPick

/-- An operand may be exchanged for any node below its user. -/
theorem accepts_setChild {parent new : NodeId} (slot : Nat) (inside : new < s.graph.size)
    (lower : s.rank new < s.rank parent)
    : s.Accepts parent ((s.graph.node parent).setChild slot new) where
  operand other member := by
    rw [Node.children_setChild] at member
    rcases List.mem_or_eq_of_mem_set member with before | rfl
    · exact s.operand before
    · exact ⟨inside, lower⟩
  selects := (s.selects parent).of_outline (Node.outline_setChild _ _ _).symm
  isPick isPick := (Node.isPick_eq_of_outline (Node.outline_setChild _ _ _)).trans isPick
  isOutput isOutput := (Node.isOutput_eq_of_outline (Node.outline_setChild _ _ _)).trans isOutput

/-- Point a slot at a node that is below its user. -/
def setChild (s : RankedGraph) {parent new : NodeId} (slot : Nat) (inside : new < s.graph.size)
    (lower : s.rank new < s.rank parent)
    : RankedGraph :=
  s.overwrite (accepts_setChild slot inside lower) (s.graph.setChild parent slot new)
    (Graph.size_setChild ..)
    (fun other => by
      rw [Graph.node_setChild]
      split
      case isTrue here =>
        rw [here]
      case isFalse => rfl)
    rfl rfl

/-- Put a node in place of another. -/
def replace (s : RankedGraph) {id : NodeId} {n : Node} (inside : id < s.graph.size)
    (accepts : s.Accepts id n)
    : RankedGraph :=
  s.overwrite accepts (s.graph.replace id n) (Graph.size_replace ..)
    (fun other => Graph.node_replace s.graph n inside other) rfl rfl

/-- Put an output in place of a root. -/
def setOutput (s : RankedGraph) (index : Nat) {root : NodeId}
    (isOutput : s.graph.isOutput root = true)
    : RankedGraph where
  graph := s.graph.setOutput index root
  rank := s.rank
  operand := s.operand
  root {other} isRoot := by
    rcases List.mem_or_eq_of_mem_set isRoot with before | rfl
    · exact s.root before
    · exact isOutput
  selects := s.selects
  shared := s.shared
  cached := s.cached

/-! ## Edits that add nodes -/

/-- A later graph has nodes of a certain sort added, and all others as they were. -/
structure Extends (P : Node → Prop) (s t : RankedGraph) : Prop where
  appends : s.graph.Appends t.graph
  rank : ∀ {id}, id < s.graph.size → t.rank id = s.rank id
  added : ∀ {id}, s.graph.size ≤ id → id < t.graph.size → P (t.graph.node id)

/-- Graphs that nodes of a certain sort are added to. -/
def edits (P : Node → Prop) : Evolution Graph RankedGraph where
  view := graph
  Later := Extends P
  refl s := ⟨.refl _, fun _ => rfl, fun added inside => absurd inside (Nat.not_lt_of_le added)⟩
  trans {s t u} first second := by
    refine ⟨first.appends.trans second.appends, fun {id} inside => ?_, fun {id} added inside => ?_⟩
    · rw [second.rank (Nat.lt_of_lt_of_le inside first.appends.size), first.rank inside]
    · by_cases before : id < t.graph.size
      · rw [second.appends.node before]
        exact first.added added before
      · exact second.added (Nat.le_of_not_lt before) inside

variable {P : Node → Prop} {bound : ℚ}

theorem concludes_read {α β : Type} {f : Graph → α} {next : α → Edit β}
    {post : β → RankedGraph → Prop}
    : (edits P).Concludes s (Edit.read f >>= next) post ↔ (edits P).Concludes s
      (next (f s.graph)) post :=
  Evolution.runs_read (E := edits P)

theorem Extends.weaken {Q : Node → Prop} (extends_ : Extends P s t) (weaker : ∀ n, P n → Q n)
    : Extends Q s t :=
  ⟨extends_.appends, extends_.rank, fun added inside => weaker _ (extends_.added added inside)⟩

theorem Below.later {id : NodeId} (below : s.Below bound id) (later : Extends P s t)
    : t.Below bound id where
  inside := Nat.lt_of_lt_of_le below.inside later.appends.size
  level := later.rank below.inside ▸ below.level

/-- A node is added below a bound. -/
structure Added (s : RankedGraph) (n : Node) (bound : ℚ) (id : NodeId) (t : RankedGraph)
    : Prop where
  isNew : id = s.graph.size
  graph : t.graph = s.graph.push n
  below : t.Below bound id

theorem Added.node {n : Node} {id : NodeId} (added : s.Added n bound id t)
    : t.graph.node id = n := by
  rw [added.graph, added.isNew, Graph.node_push_self]

/-- A node is added below a bound if its operands are below it. Witness: there is a level between
them. -/
theorem exists_added {n : Node} (operands : ∀ child ∈ n.children, s.Below bound child)
    (selects : n.Selects) (allowed : P n)
    : ∃ t, Extends P s t ∧ s.Added n bound s.graph.size t := by
  obtain ⟨between, lower, above⟩ := Rank.exists_level fun child member =>
    (operands child member).level
  have admits : s.Admits n (toLex (between, false)) :=
    ⟨fun child member => ⟨(operands child member).inside,
      Rank.lt_of_level (above child member)⟩, selects,
      fun isShared => (by cases isShared)⟩
  have newRank : (s.push admits).rank s.graph.size = toLex (between, false) :=
    Function.update_self ..
  refine ⟨s.push admits,
    ⟨Graph.appends_push _ _, fun inside => Function.update_of_ne (Nat.ne_of_lt inside) _ _,
    fun {id} added inside => ?_⟩, rfl, rfl, ?_, ?_⟩
  · rw [show (s.push admits).graph = s.graph.push n from rfl, Graph.size_push] at inside
    obtain rfl : id = s.graph.size := by omega
    rw [show (s.push admits).graph = s.graph.push n from rfl, Graph.node_push_self]
    exact allowed
  · change s.graph.size < (s.graph.push n).size
    rw [Graph.size_push]
    exact Nat.lt_succ_self _
  · rw [newRank]
    exact lower

theorem concludes_add {push : Graph → Graph} {n : Node} (same : push s.graph = s.graph.push n)
    (operands : ∀ child ∈ n.children, s.Below bound child) (selects : n.Selects) (allowed : P n)
    : (edits P).Concludes s (Edit.add push) (s.Added n bound) := by
  obtain ⟨t, later, added⟩ := exists_added operands selects allowed
  exact .of_ok (congrArg (EStateM.Result.ok _) (same.trans added.graph.symm)) later added

/-- A node that takes its type from its operands. -/
theorem concludes_pushDeduced {kind : NodeKind} (proper : ∀ v chosen, kind ≠ .swizzle v chosen)
    (operands : ∀ child ∈ kind.children, s.Below bound child)
    (allowed : P (s.graph.deduced (.ofKind kind .unknown)))
    : (edits P).Concludes s (Edit.add (·.pushDeduced kind))
        (s.Added (s.graph.deduced (.ofKind kind .unknown)) bound) := by
  refine concludes_add rfl (fun child member =>
    operands child (Graph.mem_children_of_deduced member)) ?_ allowed
  refine Node.selects_of_ne fun v chosen found => ?_
  cases kind with
  | call candidates arguments =>
      rw [Graph.kind_deduced_call rfl] at found
      split at found <;> cases found
  | _ => exact proper v chosen found

theorem concludes_constant {value : Value}
    (allowed : P (.ofKind (.constant value) (.scalarOf value.register)))
    : (edits P).Concludes s (Edit.constant value)
        (s.Added (.ofKind (.constant value) (.scalarOf value.register)) bound) :=
  concludes_add rfl (fun _ member => by cases member)
    (Node.selects_of_ne fun _ _ impossible => by cases impossible) allowed

theorem concludes_conversion {target : RegisterClass} {x : NodeId} (below : s.Below bound x)
    (allowed : P ⟨.unary .typeConversion x, (s.graph.type x).withRegister target, some 0⟩)
    : (edits P).Concludes s (Edit.conversion target x)
        (s.Added ⟨.unary .typeConversion x, (s.graph.type x).withRegister target, some 0⟩ bound) :=
  concludes_add rfl (fun _ member => List.mem_singleton.mp member ▸ below)
    (Node.selects_of_ne fun _ _ impossible => by cases impossible) allowed

theorem concludes_construct {type : DataType} {arguments : List NodeId}
    (below : ∀ x ∈ arguments, s.Below bound x) (allowed : P (.ofKind (.construct arguments) type))
    : (edits P).Concludes s (Edit.construct type arguments)
      (s.Added (.ofKind (.construct arguments) type) bound) :=
  concludes_add rfl below (Node.selects_of_ne fun _ _ impossible => by cases impossible) allowed

/-! ## Components -/

/-- The node for a component is the node itself, a selection that is shared already, or a new
one. -/
inductive Yields (s : RankedGraph) (v : NodeId) (c : Nat) (id : NodeId) : RankedGraph → Prop
  | there : Yields s v c id s
  | added {t : RankedGraph} (isVector : (s.graph.type v).isVector = true)
    (unshared : s.graph.selections[(v, c)]? = none) (isNew : id = s.graph.size)
    (graph : t.graph = (s.graph.push (s.graph.selectionOf v c)).share v c id)
    (rank : t.rank id = toLex ((s.rank v).level, true))
    : Yields s v c id t

/-- A component is asked for, and the node for it is no higher than the vector. -/
structure Component (s : RankedGraph) (v : NodeId) (c : Nat) (id : NodeId) (t : RankedGraph)
    : Prop where
  inside : id < t.graph.size
  level : (t.rank id).level ≤ (s.rank v).level
  scalar : (t.graph.type id).isVector = false
  yields : s.Yields v c id t

theorem Component.below {v id : NodeId} {c : Nat} (component : s.Component v c id t)
    (below : s.Below bound v)
    : t.Below bound id :=
  ⟨component.inside, component.level.trans_lt below.level⟩

theorem selects_selectionOf (g : Graph) (v : NodeId) (c : Nat) : (g.selectionOf v c).Selects :=
  Node.selects_swizzle (g := g) (v := v) rfl rfl

theorem admits_selectionOf {v : NodeId} (c : Nat) (inside : v < s.graph.size)
    (isVector : (s.graph.type v).isVector = true)
    : s.Admits (s.graph.selectionOf v c) (toLex ((s.rank v).level, true)) := by
  refine ⟨fun child member => ?_, selects_selectionOf _ _ _, fun _ => rfl⟩
  rw [List.mem_singleton.mp member]
  refine ⟨inside, Prod.Lex.lt_iff.mpr (.inr ⟨rfl, ?_⟩)⟩
  change (s.rank v).isShared < true
  rw [isShared_of_isVector isVector]
  exact Bool.false_lt_true

/-- Add the shared selection of a component. -/
def pick (s : RankedGraph) {v : NodeId} (c : Nat) (inside : v < s.graph.size)
    (isVector : (s.graph.type v).isVector = true)
    : RankedGraph :=
  (s.push (admits_selectionOf c inside isVector)).share (v := v) c
    (Nat.lt_of_lt_of_eq (Nat.lt_succ_of_lt inside) (Graph.size_push ..).symm)
    (Nat.lt_of_lt_of_eq (Nat.lt_succ_self s.graph.size) (Graph.size_push ..).symm)
    (by
      simp only [push]
      rw [Function.update_self, Function.update_of_ne (Nat.ne_of_lt inside)]
      exact le_refl _)
    (by
      simp only [push, Graph.node_push_self]
      rfl)

section Pick

variable {v : NodeId} {c : Nat} (inside : v < s.graph.size)
    (isVector : (s.graph.type v).isVector = true)

theorem size_pick : (s.pick c inside isVector).graph.size = s.graph.size + 1 :=
  Graph.size_push ..

theorem node_pick : (s.pick c inside isVector).graph.node s.graph.size = s.graph.selectionOf v c :=
  Graph.node_push_self _ _

theorem rank_pick : (s.pick c inside isVector).rank s.graph.size = toLex ((s.rank v).level, true) :=
  Function.update_self ..

theorem extends_pick (allowed : P (s.graph.selectionOf v c))
    : Extends P s (s.pick c inside isVector) where
  appends :=
    ⟨fun old => Graph.node_push_of_lt _ old,
      Nat.le_of_lt (size_pick inside isVector ▸ Nat.lt_succ_self _), rfl⟩
  rank old := Function.update_of_ne (Nat.ne_of_lt old) _ _
  added {id} added isInside := by
    rw [size_pick] at isInside
    obtain rfl : id = s.graph.size := by omega
    rw [node_pick]
    exact allowed

end Pick

theorem concludes_component {v : NodeId} {c : Nat} (inside : v < s.graph.size)
    (allowed : (s.graph.type v).isVector = true → s.graph.selections[(v, c)]? = none →
      P (s.graph.selectionOf v c))
    : (edits P).Concludes s (Edit.component v c) (s.Component v c) := by
  have asks {id : NodeId} {t : RankedGraph} (found : s.graph.component v c = (id, t.graph)) :
      Edit.component v c s.graph = .ok id t.graph := by
    change EStateM.Result.ok (s.graph.component v c).1 (s.graph.component v c).2 = _
    rw [found]
  cases isVector : (s.graph.type v).isVector with
  | false =>
      exact .of_ok (asks (Graph.component_scalar isVector)) ((edits P).refl s)
        ⟨inside, le_refl _, isVector, .there⟩
  | true =>
      cases found : s.graph.selections[(v, c)]? with
      | some selection =>
          obtain ⟨_, selectionInside, level, isPick⟩ := s.cached found
          exact .of_ok (asks (Graph.component_cached isVector found)) ((edits P).refl s)
            ⟨selectionInside, level, (s.selects selection).scalar isPick, .there⟩
      | none =>
          refine .of_ok (t := s.pick c inside isVector) (asks (Graph.component_new isVector found))
            (extends_pick inside isVector (allowed isVector found)) ⟨?_, ?_, ?_, ?_⟩
          · rw [size_pick]
            exact Nat.lt_succ_self _
          · rw [rank_pick]
            exact le_refl _
          · rw [Graph.type, node_pick]
            rfl
          · exact .added isVector found rfl rfl (rank_pick inside isVector)

/-! ## Passes over ranked graphs -/

/-- In a later graph the nodes there were rank as before, and outputs are the same. -/
structure Precedes (s t : RankedGraph) : Prop where
  size : s.graph.size ≤ t.graph.size
  rank : ∀ {id}, id < s.graph.size → t.rank id = s.rank id
  isOutput : ∀ {id}, id < s.graph.size → t.graph.isOutput id = s.graph.isOutput id

theorem Precedes.refl (s : RankedGraph) : s.Precedes s :=
  ⟨Nat.le_refl _, fun _ => rfl, fun _ => rfl⟩

theorem Precedes.trans {u : RankedGraph} (first : s.Precedes t) (second : t.Precedes u)
    : s.Precedes u where
  size := Nat.le_trans first.size second.size
  rank inside := (second.rank (Nat.lt_of_lt_of_le inside first.size)).trans (first.rank inside)
  isOutput inside := (second.isOutput (Nat.lt_of_lt_of_le inside first.size)).trans
    (first.isOutput inside)

theorem Extends.precedes (extends_ : Extends P s t) : s.Precedes t where
  size := extends_.appends.size
  rank := extends_.rank
  isOutput inside := congrArg Node.isOutput (extends_.appends.node inside)

/-- A node that may take the place of another: it ranks no higher, and only an output itself takes
its place. -/
structure Stands (s : RankedGraph) (old new : NodeId) : Prop where
  oldInside : old < s.graph.size
  inside : new < s.graph.size
  rank : s.rank new ≤ s.rank old
  output : s.graph.isOutput old = true → new = old

theorem Stands.later {old new : NodeId} (stands : s.Stands old new) (later : s.Precedes t)
    : t.Stands old new where
  oldInside := Nat.lt_of_lt_of_le stands.oldInside later.size
  inside := Nat.lt_of_lt_of_le stands.inside later.size
  rank := by
    rw [later.rank stands.inside, later.rank stands.oldInside]
    exact stands.rank
  output isOutput := stands.output ((later.isOutput stands.oldInside).symm.trans isOutput)

theorem Stands.refl {id : NodeId} (inside : id < s.graph.size) : s.Stands id id :=
  ⟨inside, inside, le_refl _, fun _ => rfl⟩

/-- What takes the place of a root is that root. -/
theorem Stands.isOutput {root new : NodeId} (stands : s.Stands root new)
    (isRoot : root ∈ s.graph.outputs)
    : s.graph.isOutput new = true := by
  rw [stands.output (s.root isRoot)]
  exact s.root isRoot

theorem Stands.lower {parent old new : NodeId} (stands : s.Stands old new)
    (uses : s.graph.Uses parent old)
    : s.rank new < s.rank parent :=
  stands.rank.trans_lt (s.operand uses).2

theorem precedes_setChild {parent new : NodeId} (slot : Nat) (inside : new < s.graph.size)
    (lower : s.rank new < s.rank parent)
    : s.Precedes (s.setChild slot inside lower) where
  size := Nat.le_of_eq (Graph.size_setChild ..).symm
  rank _ := rfl
  isOutput _ := Graph.isOutput_setChild ..

theorem precedes_setOutput (index : Nat) {root : NodeId} (isOutput : s.graph.isOutput root = true)
    : s.Precedes (s.setOutput index isOutput) :=
  ⟨Nat.le_refl _, fun _ => rfl, fun _ => rfl⟩

open Classical in
/-- How many nodes of the arena rank below a node. -/
noncomputable def depth (s : RankedGraph) (id : NodeId) : Nat :=
  ((Finset.range s.graph.size).filter fun other => s.rank other < s.rank id).card

/-- A node is deeper than another if some node is below the first only and all that are below the
second were there. -/
theorem depth_lt {id new other : NodeId} (later : Extends P s t) (inside : other < s.graph.size)
    (between : s.rank other < s.rank id) (above : t.rank new ≤ s.rank other)
    (known : ∀ i, i < t.graph.size → t.rank i < t.rank new → i < s.graph.size)
    : t.depth new < s.depth id := by
  refine Finset.card_lt_card (Finset.ssubset_iff_of_subset ?_ |>.mpr ⟨other, ?_, ?_⟩)
  · intro i member
    obtain ⟨isInside, lower⟩ := Finset.mem_filter.mp member
    have old := known i (Finset.mem_range.mp isInside) lower
    rw [later.rank old] at lower
    exact Finset.mem_filter.mpr ⟨Finset.mem_range.mpr old,
      lower.trans_le (above.trans (le_of_lt between))⟩
  · exact Finset.mem_filter.mpr ⟨Finset.mem_range.mpr inside, between⟩
  · intro member
    have lower := (Finset.mem_filter.mp member).2
    rw [later.rank inside] at lower
    exact absurd above (not_le_of_gt lower)

/-- An operand is less deep than its user. -/
theorem depth_lt_of_rank {id new : NodeId} (inside : new < s.graph.size)
    (lower : s.rank new < s.rank id)
    : s.depth new < s.depth id :=
  depth_lt ((edits fun _ => True).refl s) inside lower (le_refl _) fun _ isInside _ => isInside

end RankedGraph

end StreamExpr
