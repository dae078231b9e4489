import Mathlib.Algebra.Order.Field.Basic
import Mathlib.Algebra.Order.Field.Rat
import StreamExpr.Proofs.Completion
import StreamExpr.Proofs.TidyGraph
import StreamExpr.Proofs.TypingStep

/-! Type deduction over a graph that was built.
The types of its nodes are deduced already, so the pass only converts operands. In the graph it
leaves, every reachable node has operands of the classes that it asks for, and every output has an
expression of its own type.
-/

namespace StreamExpr

/-- A component of an operand of the given type. A scalar has all components. -/
def DataType.HasComponent (t : DataType) (c : Nat) : Prop :=
  c < t.width ∨ t.isVector = false

/-- Pointing a slot elsewhere makes no selection of another node. -/
theorem Node.kind_of_setChild {n : Node} {slot child x : Nat} {chosen : Selection}
    (kind : (n.setChild slot child).kind = .swizzle x chosen)
    : ∃ y, n.kind = .swizzle y chosen := by
  obtain ⟨ownKind, type, overload⟩ := n
  cases ownKind with
  | swizzle y selection =>
      cases kind
      exact ⟨y, rfl⟩
  | _ => cases kind

/-- Pointing a slot elsewhere makes no input. -/
theorem Node.kind_of_setChild_input {n : Node} {slot child : Nat} {decl : StreamDecl}
    (kind : (n.setChild slot child).kind = .input decl)
    : n.kind = .input decl := by
  obtain ⟨ownKind, type, overload⟩ := n
  cases ownKind with
  | input own => exact kind
  | _ => cases kind

namespace Graph

/-- A selection chooses components that its operand has. -/
def SelectsWithin (g : Graph) (id : NodeId) : Prop :=
  ∀ x chosen, (g.node id).kind = .swizzle x chosen →
    ∀ place < chosen.count, (g.type x).HasComponent (chosen.lane place)

/-- A node that is built from parts is a vector. -/
def Broad (g : Graph) (id : NodeId) : Prop :=
  ∀ arguments, (g.node id).kind = .construct arguments → (g.type id).isVector = true

/-- A node of known type whose operands fit it: they have the classes that it asks for, and the
expression of an output has the output's width. -/
structure Fit (g : Graph) (id : NodeId) : Prop where
  known : (g.type id).isKnown = true
  classes : ∀ {slot child r}, (g.children id)[slot]? = some child → g.expected? id slot = some r →
    r.isKnown = true → g.register child = r
  width : ∀ {decl e}, (g.node id).kind = .output decl e → (g.type e).width = (g.type id).width

theorem Fit.lt_size {g : Graph} {id : NodeId} (fit : g.Fit id) : id < g.size := by
  by_contra outside
  have known := fit.known
  rw [Graph.type, node_of_size_le (Nat.le_of_not_lt outside)] at known
  cases known

section Plain

variable {g : Graph} {n : Node}

theorem SelectsWithin.push_of_ne (plain : ∀ x chosen, n.kind ≠ .swizzle x chosen)
    : (g.push n).SelectsWithin g.size := by
  intro x chosen kind
  rw [node_push_self] at kind
  exact (plain x chosen kind).elim

/-- A node that asks for no classes fits. -/
theorem Fit.push_of_unasked (known : n.type.isKnown = true)
    (unasked : ∀ slot, (g.push n).expected? g.size slot = none) (noOutput : n.isOutput = false)
    : (g.push n).Fit g.size := by
  refine ⟨by rw [type, node_push_self]; exact known, fun {slot child r} _ asked => ?_,
    fun {decl e} kind => ?_⟩
  · cases (unasked slot).symm.trans asked
  · rw [node_push_self] at kind
    rw [Node.isOutput, kind] at noOutput
    cases noOutput

end Plain

section Unchanged

variable {g h : Graph} {id : NodeId} (same : h.node id = g.node id)
  (types : ∀ child ∈ g.children id, h.type child = g.type child)

include same types

theorem Fit.of_node (fit : g.Fit id) : h.Fit id := by
  have ownType : h.type id = g.type id := congrArg Node.type same
  have ownChildren : h.children id = g.children id := congrArg Node.children same
  refine ⟨ownType ▸ fit.known, fun {slot child r} atSlot asked known => ?_, fun {decl e} kind => ?_⟩
  · rw [ownChildren] at atSlot
    have outline : (h.node id).outline = (g.node id).outline := congrArg Node.outline same
    rw [expected?_eq_of_outline outline] at asked
    have child_eq := congrArg DataType.register (types child (List.mem_of_getElem? atSlot))
    exact child_eq.trans (fit.classes atSlot asked known)
  · rw [same] at kind
    have member : e ∈ g.children id := by
      rw [children, Node.children, kind]
      exact List.mem_singleton_self e
    rw [types e member, ownType]
    exact fit.width kind

theorem SelectsWithin.of_node (within : g.SelectsWithin id) : h.SelectsWithin id := by
  intro x chosen kind place inside
  rw [same] at kind
  have member : x ∈ g.children id := by
    rw [children, Node.children, kind]
    exact List.mem_singleton_self x
  rw [types x member]
  exact within x chosen kind place inside

end Unchanged

/-- A node that is reachable from the roots of a graph or was added to it. -/
def Covers (base : Graph) (id : NodeId) : Prop :=
  base.Reachable id ∨ base.size ≤ id

end Graph

namespace Typing

open Graph

open Relation (ReflTransGen)

/-- A graph while operands are converted. Nodes that were there keep their outlines, nodes that were
added fit, and operands rank below their users and are no outputs. -/
structure State (base : Graph) where
  graph : Graph
  rank : NodeId → ℚ
  grown : base.size ≤ graph.size
  outputs : graph.outputs = base.outputs
  selections : graph.selections = base.selections
  inputs : graph.inputs = base.inputs
  declared : graph.declared = base.declared
  outline : ∀ {id}, id < base.size → (graph.node id).outline = (base.node id).outline
  carries : ∀ {id decl}, (graph.node id).kind = .input decl → (base.node id).kind = .input decl
  swizzle : ∀ {id x chosen}, id < base.size → (base.node id).kind = .swizzle x chosen →
    graph.node id = base.node id
  tidy : graph.Tidy
  operand : graph.Ranked rank
  covered : ∀ {id child}, base.Covers id → child ∈ graph.children id → base.Covers child
  formed : ∀ {id}, id < graph.size → graph.Formed (graph.node id)
  requires : ∀ id, (graph.node id).kind.requiresInputs = true
  within : (∀ id, base.SelectsWithin id) → ∀ id, graph.SelectsWithin id
  broad : (∀ id < base.size, base.Broad id) → ∀ id < graph.size, graph.Broad id
  added : ∀ {id}, base.size ≤ id → id < graph.size → graph.Fit id

variable {base : Graph}

namespace State

/-- A node that may be an operand of a node of the given rank. -/
structure Usable (s : State base) (bound : ℚ) (id : NodeId) : Prop where
  inside : id < s.graph.size
  below : s.rank id < bound
  covers : base.Covers id
  isValue : s.graph.isOutput id = false

theorem usable_operand (s : State base) {id child : NodeId} (covers : base.Covers id)
    (member : child ∈ s.graph.children id)
    : s.Usable (s.rank id) child :=
  ⟨(s.operand member).1, (s.operand member).2, s.covered covers member, s.tidy.unused member⟩

/-- A node that may be added. -/
structure Accepts (s : State base) (n : Node) (rank : ℚ) : Prop where
  operand : ∀ child ∈ n.children, s.Usable rank child
  formed : s.graph.Formed n
  requires : n.kind.requiresInputs = true
  noInput : ∀ decl, n.kind ≠ .input decl
  within : (s.graph.push n).SelectsWithin s.graph.size
  broad : ∀ arguments, n.kind = .construct arguments → n.type.isVector = true
  fit : (s.graph.push n).Fit s.graph.size

/-- Add a node that fits. -/
def push (s : State base) (n : Node) (rank : ℚ) (accepts : s.Accepts n rank) : State base where
  graph := s.graph.push n
  rank := Function.update s.rank s.graph.size rank
  grown := by
    rw [size_push]
    exact Nat.le_succ_of_le s.grown
  outputs := s.outputs
  selections := s.selections
  inputs := s.inputs
  declared := s.declared
  outline inside := by
    rw [node_push_of_lt n (Nat.lt_of_lt_of_le inside s.grown)]
    exact s.outline inside
  carries {id decl} kind := by
    rw [node_push] at kind
    split at kind
    · exact (accepts.noInput decl kind).elim
    · exact s.carries kind
  swizzle inside kind := by
    rw [node_push_of_lt n (Nat.lt_of_lt_of_le inside s.grown)]
    exact s.swizzle inside kind
  tidy := s.tidy.push fun child isOwn =>
    ⟨(accepts.operand child isOwn).inside, (accepts.operand child isOwn).isValue⟩
  operand := s.operand.push fun child isOwn =>
    ⟨(accepts.operand child isOwn).inside, (accepts.operand child isOwn).below⟩
  covered {id child} covers member := by
    rcases uses_push member with ⟨_, isOwn⟩ | ⟨_, before⟩
    · exact (accepts.operand child isOwn).covers
    · exact s.covered covers before
  formed {id} inside := by
    rw [node_push]
    split
    case isTrue =>
      exact accepts.formed.of_types (List.map_congr_left fun child member =>
        congrArg Node.type (node_push_of_lt n (accepts.operand child member).inside))
    case isFalse isOld =>
      have wasInside : id < s.graph.size := by
        rw [size_push] at inside
        exact Nat.lt_of_le_of_ne (Nat.le_of_lt_succ inside) isOld
      exact (s.formed wasInside).of_types (List.map_congr_left fun child member =>
        congrArg Node.type (node_push_of_lt n (s.operand member).1))
  requires id := by
    rw [node_push]
    split
    · exact accepts.requires
    · exact s.requires id
  within base id := by
    by_cases isNew : id = s.graph.size
    · exact isNew ▸ accepts.within
    · exact (s.within base id).of_node (by rw [node_push, if_neg isNew]) fun child member =>
        congrArg Node.type (node_push_of_lt n (s.operand member).1)
  broad base id inside arguments kind := by
    rw [Graph.type]
    rw [node_push] at kind ⊢
    split at kind
    case isTrue isNew =>
      rw [if_pos isNew]
      exact accepts.broad arguments kind
    case isFalse isOld =>
      rw [size_push] at inside
      rw [if_neg isOld]
      exact s.broad base id (Nat.lt_of_le_of_ne (Nat.le_of_lt_succ inside) isOld) arguments kind
  added {id} isAdded inside := by
    by_cases isNew : id = s.graph.size
    · exact isNew ▸ accepts.fit
    · rw [size_push] at inside
      have wasInside := Nat.lt_of_le_of_ne (Nat.le_of_lt_succ inside) isNew
      exact (s.added isAdded wasInside).of_node (node_push_of_lt n wasInside) fun child member =>
        congrArg Node.type (node_push_of_lt n (s.operand member).1)

/-- Point a slot of a node that was there at another operand, with the node deduced as before. -/
def point (s : State base) (id : NodeId) (slot : Nat) (new : NodeId) (inside : id < base.size)
    (noSelection : ∀ x chosen, (s.graph.node id).kind ≠ .swizzle x chosen)
    (usable : s.Usable (s.rank id) new)
    (inferred : s.graph.infer ((s.graph.node id).setChild slot new)
    = s.graph.infer (s.graph.node id))
    : State base where
  graph := s.graph.setChild id slot new
  rank := s.rank
  grown := by
    rw [size_setChild]
    exact s.grown
  outputs := s.outputs
  selections := s.selections
  inputs := s.inputs
  declared := s.declared
  outline otherInside := by
    rw [node_setChild]
    split
    · rw [Node.outline_setChild]
      exact s.outline otherInside
    · exact s.outline otherInside
  carries {other decl} kind := by
    rw [node_setChild] at kind
    split at kind
    · exact s.carries (Node.kind_of_setChild_input kind)
    · exact s.carries kind
  swizzle {other x chosen} otherInside kind := by
    have kept := s.swizzle otherInside kind
    rw [node_setChild, if_neg, kept]
    rintro rfl
    exact noSelection x chosen (kept ▸ kind)
  tidy := s.tidy.setChild usable.inside usable.isValue
  operand := s.operand.setChild usable.inside usable.below
  covered {other child} covers member := by
    rcases uses_setChild member with before | ⟨_, rfl⟩
    · exact s.covered covers before
    · exact usable.covers
  formed {other} otherInside := by
    rw [size_setChild] at otherInside
    have formed := s.formed otherInside
    have types (n : Node) :
        n.children.map (s.graph.setChild id slot new).type = n.children.map s.graph.type :=
      List.map_congr_left fun child _ => type_setChild _ _ _ _ _
    rw [node_setChild]
    split
    case isTrue same =>
      subst same
      refine ⟨fun _ => ?_, fun {f} function => ?_, fun {x chosen} kind => ?_⟩
      · rw [infer_eq_of_outline rfl (types _), inferred]
        exact formed.inferred (s.requires other)
      · rw [Node.function?_setChild] at function
        rw [Node.children_setChild, List.length_set]
        exact formed.trimmed function
      · obtain ⟨y, isSelection⟩ := Node.kind_of_setChild kind
        exact (noSelection y chosen isSelection).elim
    case isFalse => exact formed.of_types (types _)
  requires other := by
    rw [node_setChild]
    split
    · rw [Node.requiresInputs_eq_of_outline (Node.outline_setChild _ _ _)]
      exact s.requires other
    · exact s.requires other
  within base other := by
    by_cases same : other = id
    · subst same
      intro x chosen kind
      rw [node_setChild, if_pos rfl] at kind
      obtain ⟨y, isSelection⟩ := Node.kind_of_setChild kind
      exact (noSelection y chosen isSelection).elim
    · exact (s.within base other).of_node (by rw [node_setChild, if_neg same]) fun child _ =>
        type_setChild _ _ _ _ _
  broad base other otherInside arguments kind := by
    rw [size_setChild] at otherInside
    rw [node_setChild] at kind
    rw [type_setChild]
    split at kind
    case isTrue same =>
      subst same
      cases was : (s.graph.node other).kind with
      | construct before => exact s.broad base other otherInside before was
      | _ =>
          rw [Node.setChild, was] at kind
          cases kind
    case isFalse => exact s.broad base other otherInside arguments kind
  added {other} isAdded otherInside := by
    rw [size_setChild] at otherInside
    have differs : other ≠ id := by
      rintro rfl
      exact Nat.not_lt.mpr isAdded inside
    exact (s.added isAdded otherInside).of_node (by rw [node_setChild, if_neg differs])
      fun child _ => type_setChild _ _ _ _ _

end State

/-! ## New operands -/

/-- A later graph: nodes keep their types and ranks, and what fits stays fit. -/
structure Later (s t : State base) : Prop where
  size : s.graph.size ≤ t.graph.size
  type : ∀ {id}, id < s.graph.size → t.graph.type id = s.graph.type id
  rank : ∀ {id}, id < s.graph.size → t.rank id = s.rank id
  fit : ∀ {id}, s.graph.Fit id → t.graph.Fit id

def evolution (base : Graph) : Evolution Graph (State base) where
  view := State.graph
  Later := Later
  refl _ := ⟨Nat.le_refl _, fun _ => rfl, fun _ => rfl, id⟩
  trans first second :=
    ⟨Nat.le_trans first.size second.size,
      fun inside => (second.type (Nat.lt_of_lt_of_le inside first.size)).trans (first.type inside),
      fun inside => (second.rank (Nat.lt_of_lt_of_le inside first.size)).trans (first.rank inside),
      fun fit => second.fit (first.fit fit)⟩

theorem State.push_later (s : State base) {n : Node} {rank : ℚ} (accepts : s.Accepts n rank)
    : Later s (s.push n rank accepts) where
  size := by
    simp only [State.push, size_push]
    exact Nat.le_succ _
  type inside := congrArg Node.type (node_push_of_lt n inside)
  rank inside := Function.update_of_ne (Nat.ne_of_lt inside) _ _
  fit fits := fits.of_node (node_push_of_lt n fits.lt_size) fun child member =>
    congrArg Node.type (node_push_of_lt n (s.operand member).1)

theorem State.point_later (s : State base) {id : NodeId} {slot : Nat} {new : NodeId}
    (inside : id < base.size) noSelection usable inferred (unfit : ¬ s.graph.Fit id)
    : Later s (s.point id slot new inside noSelection usable inferred) where
  size := by
    simp only [State.point, size_setChild]
    exact Nat.le_refl _
  type _ := type_setChild _ _ _ _ _
  rank _ := rfl
  fit {other} fits := by
    have differs : other ≠ id := fun same => unfit (same ▸ fits)
    exact fits.of_node (by simp only [State.point, node_setChild, if_neg differs]) fun child _ =>
      type_setChild _ _ _ _ _

/-- A new node is put in the place of an operand that does not fit. -/
theorem State.exists_replaced (s : State base) {id child : NodeId} {slot : Nat} {n : Node}
    (inside : id < base.size) (reachable : base.Reachable id)
    (atSlot : (s.graph.children id)[slot]? = some child)
    (accepts : ∀ rank, s.Usable rank child → s.Accepts n rank) (isValue : n.isOutput = false)
    (noSelection : ∀ x chosen, (s.graph.node id).kind ≠ .swizzle x chosen)
      (unfit : ¬ s.graph.Fit id) (inferred : (s.graph.push n).Formed ((s.graph.push n).node id)
      → (s.graph.push n).infer (((s.graph.push n).node id).setChild slot s.graph.size)
      = (s.graph.push n).infer ((s.graph.push n).node id))
    : ∃ t : State base, t.graph = (s.graph.push n).setChild id slot s.graph.size ∧ Later s t := by
  have wasInside := Nat.lt_of_lt_of_le inside s.grown
  have usable := s.usable_operand (.inl reachable) (List.mem_of_getElem? atSlot)
  obtain ⟨rank, above, below⟩ := exists_between usable.below
  let t := s.push n rank (accepts rank { usable with below := above })
  have later : Later s t := s.push_later _
  have appends := s.graph.appends_push n
  have node : t.graph.node id = s.graph.node id := appends.node wasInside
  have isNode : t.graph.node s.graph.size = n := node_push_self ..
  have newRank : t.rank s.graph.size = rank := Function.update_self ..
  have ofNew : t.Usable (t.rank id) s.graph.size := by
    refine ⟨?_, ?_, .inr s.grown, (congrArg Node.isOutput isNode).trans isValue⟩
    · rw [show t.graph.size = _ from size_push ..]
      exact Nat.lt_succ_self _
    · rw [later.rank wasInside, newRank]
      exact below
  have stillUnfit : ¬ t.graph.Fit id := fun fit => unfit (fit.of_node node.symm fun child member =>
    (later.type (s.operand (show child ∈ (s.graph.node id).children from node ▸ member)).1).symm)
  exact ⟨t.point id slot s.graph.size inside (node ▸ noSelection) ofNew
      (inferred (t.formed (Nat.lt_of_lt_of_le wasInside appends.size))),
    rfl, (evolution base).trans later (t.point_later inside _ _ _ stillUnfit)⟩

/-- A converted operand has the class that was asked for and the width it had. -/
theorem State.exists_converted (s : State base) {id child : NodeId} {slot : Nat} {r : RegisterClass}
    {n : Node} (inside : id < base.size) (reachable : base.Reachable id)
    (atSlot : (s.graph.children id)[slot]? = some child)
    (asked : s.graph.expected? id slot = some r) (known : r.isKnown = true)
    (differs : s.graph.register child ≠ r) (converts : Converts s.graph child r n)
    : ∃ t : State base, t.graph = (s.graph.push n).setChild id slot s.graph.size ∧ Later s t := by
  have childInside := (s.operand (List.mem_of_getElem? atSlot)).1
  have appends := s.graph.appends_push n
  have node := appends.node (Nat.lt_of_lt_of_le inside s.grown)
  have width : n.type.width = (s.graph.type child).width := by
    cases converts with
    | constant found _ =>
        have inferred := congrArg Prod.fst ((s.formed childInside).inferred (s.requires child))
        simp only [infer, kind_of_value? found] at inferred
        rw [Graph.type, ← inferred]
        rfl
    | conversion =>
        exact DataType.width_of (s.graph.type child).width_pos (s.graph.type child).width_le_four
  refine s.exists_replaced inside reachable atSlot (fun rank usable => ?_)
    (by cases converts <;> rfl) (fun x chosen kind => ?_)
    (fun fit => differs (fit.classes atSlot asked known)) fun formed => ?_
  · cases converts with
    | constant _ converts =>
        exact ⟨fun _ member => (by cases member),
          formed_given rfl rfl fun _ _ kind => (by cases kind), rfl,
          fun _ kind => (by cases kind), .push_of_ne fun _ _ kind => (by cases kind),
            fun _ kind => (by cases kind),
          .push_of_unasked (Value.register_of_convert? converts ▸ known)
            (fun slot => by rw [expected?, node_push_self]; rfl) rfl⟩
    | conversion =>
        exact ⟨fun other member => List.mem_singleton.mp member ▸ usable,
          formed_given rfl rfl fun _ _ kind => (by cases kind), rfl, fun _ kind => (by cases kind),
          .push_of_ne fun _ _ kind => (by cases kind), fun _ kind => (by cases kind),
          .push_of_unasked known (fun slot => by rw [expected?, node_push_self]) rfl⟩
  · simp [expected?, kind] at asked
  · refine formed.infer_setChild (by rw [node]; exact s.requires id)
      (by rw [Graph.children, node]; exact atSlot)
      ((expected?_eq_of_outline (congrArg Node.outline node)).trans asked) known ?_ ?_
    · rw [Graph.register, node_push_self]
      exact converts.register
    · rw [Graph.type, node_push_self, Graph.type, appends.node childInside]
      exact width

/-- The expression of an output is cut, or built up, to the output's width. -/
theorem State.exists_adapted (s : State base) {id e : NodeId} {decl : StreamDecl} {n : Node}
    (inside : id < base.size) (reachable : base.Reachable id)
    (kind : (s.graph.node id).kind = .output decl e) (known : (s.graph.type id).isKnown = true)
    (register : s.graph.register e = s.graph.register id)
    (differs : (s.graph.type e).width ≠ (s.graph.type id).width)
    (adapts : Adapts s.graph e (s.graph.type id) n)
    : ∃ t : State base, t.graph = (s.graph.push n).setChild id 0 s.graph.size ∧ Later s t := by
  have node := (s.graph.appends_push n).node (Nat.lt_of_lt_of_le inside s.grown)
  have atSlot : (s.graph.children id)[0]? = some e := by
    rw [Graph.children, Node.children, kind]
    rfl
  have childInside := (s.operand (List.mem_of_getElem? atSlot)).1
  refine s.exists_replaced inside reachable atSlot (fun rank usable => ?_) (by cases adapts <;> rfl)
    (fun x chosen found => (by cases kind.symm.trans found))
    (fun fit => differs (fit.width kind)) fun _ => ?_
  · have operand (child) (member : child ∈ [e])
      : s.Usable rank child := List.mem_singleton.mp member ▸ usable
    cases adapts with
    | cut range narrower =>
        obtain ⟨count, deduced⟩ := deduced_firstComponents range register
        refine ⟨operand, ?_, rfl, fun _ kind => (by cases kind), fun x other kind place isPlace =>
          ?_,
          fun _ kind => (by cases kind), .push_of_unasked known
            (fun slot => by rw [expected?, node_push_self]; rfl) rfl⟩
        · rw [← deduced]
          exact formed_deduced _ fun kind => (by cases kind; exact ⟨_, range.symm⟩)
        · rw [node_push_self] at kind
          cases kind
          rw [count] at isPlace
          rw [← range, Selection.lane_range isPlace (s.graph.type id).width_le_four, Graph.type,
            node_push_of_lt _ childInside]
          exact .inl (Nat.lt_trans isPlace narrower)
    | padded wider =>
        refine ⟨operand, formed_given rfl rfl fun _ _ kind => (by cases kind), rfl,
          fun _ kind => (by cases kind),
          .push_of_ne fun _ _ kind => (by cases kind),
          fun _ _ => decide_eq_true (Nat.lt_of_le_of_lt (s.graph.type e).width_pos wider), ?_,
          fun {slot child r} atSlot asked _ => ?_, fun kind => ?_⟩
        · rw [Graph.type, node_push_self]
          exact known
        · rw [Graph.children, node_push_self] at atSlot
          rw [expected?, node_push_self] at asked
          obtain rfl := Option.some.inj asked
          obtain rfl := List.mem_singleton.mp (List.mem_of_getElem? atSlot)
          rw [Graph.register, node_push_of_lt _ childInside]
          exact register
        · rw [node_push_self] at kind
          cases kind
  · have kindNew : ((s.graph.node id).setChild 0 s.graph.size).kind
      = .output decl s.graph.size := by
      simp only [Node.setChild, kind, NodeKind.setChild, if_true]
    simp only [node, infer, kind, kindNew]

theorem State.exists_amended (s : State base) {id : NodeId} {h : Graph} (inside : id < base.size)
    (reachable : base.Reachable id) (amends : ReflTransGen (Amends id) s.graph h)
    : ∃ t : State base, t.graph = h ∧ Later s t := by
  induction amends with
  | refl => exact ⟨s, rfl, (evolution base).refl s⟩
  | @tail g h _ amends ih =>
      obtain ⟨t, rfl, later⟩ := ih
      have next : ∃ u : State base, u.graph = h ∧ Later t u := by
        cases amends with
        | converted atSlot asked known differs converts =>
            exact t.exists_converted inside reachable atSlot asked known differs converts
        | adapted kind known register differs adapts =>
            exact t.exists_adapted inside reachable kind known register differs adapts
      obtain ⟨u, same, further⟩ := next
      exact ⟨u, same, (evolution base).trans later further⟩

/-! ## The pass -/

/-- A step leaves alone a node that fits and has the type that is deduced for it. -/
theorem step_of_fit {g : Graph} {id : NodeId} (unchanged : g.deduce id = g) (fit : g.Fit id)
    (operands : ∀ child ∈ g.children id, child < g.size)
    : step id g = .ok id g := by
  rcases step_eq g id (by rw [unchanged]; exact ⟨fit.lt_size, operands⟩) with
    ⟨unknown, _⟩ | ⟨h, ran, stepped⟩
  · rw [unchanged, fit.known] at unknown
    cases unknown
  · have amends := stepped.amends
    rw [unchanged] at amends
    rcases amends.cases_head with rfl | ⟨_, first, _⟩
    · exact ran
    · cases first with
      | converted atSlot asked known differs _ =>
          exact (differs (fit.classes atSlot asked known)).elim
      | adapted kind _ _ differs _ => exact (differs (fit.width kind)).elim

/-- A step makes its node fit and leaves the others alone. -/
theorem State.runs_step (s : State base) {id : NodeId} (inside : id < base.size)
    (reachable : base.Reachable id)
    : (evolution base).Runs True s (step id) fun new t =>
        new = id ∧ t.graph.Fit id ∧ ∀ other < s.graph.size,
          other ≠ id → t.graph.node other = s.graph.node other := by
  have wasInside := Nat.lt_of_lt_of_le inside s.grown
  have unchanged : s.graph.deduce id = s.graph := by
    have formed := s.formed wasInside
    rw [deduce, deduced_eq_self (formed.inferred (s.requires id)) formed.trimmed, replace_self]
  have outcome := step_eq s.graph id
    (by rw [unchanged]; exact ⟨wasInside, fun _ member => (s.operand member).1⟩)
  rw [unchanged] at outcome
  rcases outcome with ⟨_, e, failed⟩ | ⟨h, ran, stepped⟩
  · exact .of_error failed trivial
  · obtain ⟨t, rfl, later⟩ := s.exists_amended inside reachable stepped.amends
    exact .of_ok ran later
      ⟨rfl, ⟨later.type wasInside ▸ stepped.known, fun {slot child r} => stepped.fits slot child r,
      fun kind => congrArg DataType.width (stepped.written kind)⟩, fun _ => stepped.amended.node⟩

/-- The states of a pass over a graph that was built. -/
def State.ofOrderly (orderly : base.Orderly)
    (requires : ∀ id, (base.node id).kind.requiresInputs = true)
    (unused : ∀ {id child}, base.Uses id child → base.isOutput child = false)
    : State base where
  graph := base
  rank id := id
  grown := Nat.le_refl _
  outputs := rfl
  selections := rfl
  inputs := rfl
  declared := rfl
  outline _ := rfl
  carries kind := kind
  swizzle _ _ := rfl
  tidy := orderly.tidy unused
  operand id child member := by
    have before := orderly.before member
    exact ⟨Nat.lt_trans before (Uses.lt_size member), Nat.cast_lt.mpr before⟩
  covered {id child} covers member := by
    rcases covers with reachable | outside
    · exact .inl (reachable.operand member)
    · exact absurd (Uses.lt_size member) (Nat.not_lt.mpr outside)
  formed := orderly.formed
  requires := requires
  within within := within
  broad broad := broad
  added isAdded inside := absurd inside (Nat.not_lt.mpr isAdded)

/-- What the pass keeps up: reachable nodes that fit stay fit. No node is spent. -/
def invariant (insideAll : ∀ id, base.Reachable id → id < base.size)
    : Pass.Invariant Unit (State base) :=
  .inPlace (evolution base) base.Reachable (fun s id => s.graph.Fit id) (fun _ _ => False)
    (fun later => later.fit)
    fun {s t id} _ reachable => Node.isOutput_eq_of_outline
      ((t.outline (insideAll id reachable)).trans (s.outline (insideAll id reachable)).symm)

/-- A step may be taken at any node, also at one that fits already. -/
theorem completes_step (insideAll : ∀ id, base.Reachable id → id < base.size)
    : (invariant insideAll).Completes True (Transform.ofEdit step) := by
  intro s id reachable _ _
  refine .imp (.ofEdit (s.runs_step (insideAll id reachable) reachable)) ?_
  rintro new t _ ⟨rfl, fit, leaves⟩
  refine ⟨⟨rfl, reachable⟩, fit, fun _ => .inr trivial, .inr fit,
    fun other otherReachable differs => ?_, t.outputs.trans s.outputs.symm, fun _ => False.elim⟩
  exact congrArg Node.children
    (leaves other (Nat.lt_of_lt_of_le (insideAll other otherReachable) s.grown) differs)

/-- In a graph that is accepted, every node that was reachable fits. -/
theorem exists_state {g : Graph} (orderly : base.Orderly)
    (requires : ∀ id, (base.node id).kind.requiresInputs = true)
    (unused : ∀ {id child}, base.Uses id child → base.isOutput child = false)
    (accepted : Compiler.typing base = .ok () g)
    : ∃ t : State base, t.graph = g ∧ ∀ id, base.Reachable id → t.graph.Fit id := by
  have inside (id) (reachable : base.Reachable id) : id < base.size := orderly.lt_size reachable
  have runs : (evolution base).Runs True (State.ofOrderly orderly requires unused) Compiler.typing
      fun _ t => ∀ id, base.Reachable id → t.graph.Fit id :=
    .imp ((completes_step inside).runs_inPlace
      (acyclic_of_rank id fun _ uses => orderly.before uses)
      (fun _ reachable => reachable) fun _ => id)
      fun _ _ _ done => done.1
  obtain ⟨t, same, _, done⟩ := runs.state_of_ok accepted
  exact ⟨t, same, done⟩

end Typing

end StreamExpr
