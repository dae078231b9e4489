import StreamExpr.Proofs.TypedOperator

/-! Type deduction over any graph without cycles.
Nodes may have any types before the pass. Operands come first, so that an overload is resolved
against operands that keep their types. Operands of other classes are then converted by nodes of
their own, since other users may ask for other classes. In the graph that is left, every reachable
node is well typed.
-/

namespace StreamExpr

/-! ## Well-typed nodes -/

namespace NodeKind

/-- The type that a node has whatever its operands are. -/
def given? : NodeKind → Option DataType
  | .constant value => some (.scalarOf value.register)
  | .input decl | .output decl _ => some decl.type
  | _ => none

/-- Operators and calls. -/
def isOperation : NodeKind → Bool
  | .unary _ _ | .binary _ _ _ | .ternary _ _ _ _ | .call _ _ => true
  | _ => false

def isCross : NodeKind → Bool
  | .binary op _ _ => op = .cross
  | _ => false

theorem given?_outline (kind : NodeKind) : kind.outline.given? = kind.given? := by
  cases kind <;> rfl

theorem isOperation_outline (kind : NodeKind) : kind.outline.isOperation = kind.isOperation := by
  cases kind <;> rfl

theorem broadcasts_outline (kind : NodeKind) : kind.outline.broadcasts = kind.broadcasts := by
  cases kind <;> rfl

theorem isCross_outline (kind : NodeKind) : kind.outline.isCross = kind.isCross := by
  cases kind <;> rfl

theorem inputs?_outline (kind : NodeKind) : kind.outline.inputs? = kind.inputs? := by
  cases kind <;> rfl

end NodeKind

/-- The classes that the selected overload of a node asks of its operands. -/
def Node.inputs? (n : Node) : Option (List RegisterClass) := do
  let overloads ← n.kind.inputs?
  let i ← n.overload
  overloads[i]?

/-- A node whose type and overload agree with the widths of its operands. -/
structure Node.Agrees (n : Node) (widths : List Nat) : Prop where
  known : n.type.isKnown = true
  given : ∀ {t}, n.kind.given? = some t → n.type = t ∧ n.overload = none
  selected : n.kind.isOperation = true → n.overload.isSome = true
  inputs : n.kind.inputs?.isSome = true → ∃ expected, n.inputs? = some expected
    ∧ widths.length ≤ expected.length
  spread : n.kind.broadcasts = true → ∀ width ∈ widths, width = 1 ∨ width = n.type.width
  widest : n.kind.broadcasts = true → n.type.width = widths.foldr max 1
  cross : n.kind.isCross = true → n.type.width = 3

namespace Graph

/-- The widths of the operands of a node. -/
def widths (g : Graph) (n : Node) : List Nat :=
  n.children.map fun child => (g.type child).width

/-- A node whose types are resolved. Its type is known and agrees with the widths of its operands.
The operands have the classes that the selected overload asks for, parts of a vector have its class,
and the expression of an output has the type of the output. -/
structure Resolved (g : Graph) (n : Node) : Prop where
  agrees : n.Agrees (g.widths n)
  classes : ∀ {expected : List RegisterClass} {slot : Nat} {child r}, n.inputs? = some expected →
    n.children[slot]? = some child → expected[slot]? = some r
    → r.isKnown = true → g.register child = r
  parts : ∀ {arguments}, n.kind = .construct arguments → ∀ child ∈ arguments,
    g.register child = n.register
  written : ∀ {decl e}, n.kind = .output decl e → g.type e = n.type

end Graph

/-! ## Agreement of a node that was deduced -/

namespace DataType

/-- The common width of some operands is that of the widest. -/
theorem broadcastWidth?_eq_foldr {types : List DataType} {width : Nat}
    (broad : broadcastWidth? types = some width)
    : width = (types.map DataType.width).foldr max 1 := by
  have go {start : Nat} {types : List DataType} (positive : 0 < start)
      (broad : broadcastWidth?.go start types = some width) :
      width = max start ((types.map DataType.width).foldr max 1) := by
    induction types generalizing start with
    | nil =>
        rw [← Option.some.inj broad]
        exact (max_eq_left positive).symm
    | cons t types ih =>
        have wide := t.width_pos
        rw [broadcastWidth?.go] at broad
        rw [List.map_cons, List.foldr_cons]
        split at broad
        · have rest := ih positive broad
          omega
        · split at broad
          · cases broad
          · have rest := ih wide broad
            omega
  have rest := go Nat.one_pos broad
  have atLeast (widths : List Nat) : 1 ≤ widths.foldr max 1 := by
    induction widths with
    | nil => exact Nat.le_refl 1
    | cons width widths ih => exact Nat.le_trans ih (Nat.le_max_right _ _)
  rwa [max_eq_right (atLeast _)] at rest

end DataType

namespace Node

variable {n m : Node} {widths : List Nat}

theorem Agrees.of_outline (agrees : n.Agrees widths) (same : m.outline = n.outline)
    : m.Agrees widths := by
  have kind {α : Type} (f : NodeKind → α) (forgets : ∀ kind : NodeKind, f kind.outline = f kind)
      : f m.kind = f n.kind := by
    rw [← forgets, ← forgets n.kind]
    exact congrArg (fun n : Node => f n.kind) same
  have type : m.type = n.type := type_eq_of_outline same
  have overload : m.overload = n.overload := overload_eq_of_outline same
  have overloads := kind _ NodeKind.inputs?_outline
  have inputs : m.inputs? = n.inputs? := by rw [inputs?, inputs?, overloads, overload]
  constructor
  · rw [type]
    exact agrees.known
  · rw [kind _ NodeKind.given?_outline, type, overload]
    exact agrees.given
  · rw [kind _ NodeKind.isOperation_outline, overload]
    exact agrees.selected
  · rw [overloads, inputs]
    exact agrees.inputs
  · rw [kind _ NodeKind.broadcasts_outline, type]
    exact agrees.spread
  · rw [kind _ NodeKind.broadcasts_outline, type]
    exact agrees.widest
  · rw [kind _ NodeKind.isCross_outline, type]
    exact agrees.cross

/-- A node that is no operation asks nothing of the widths of its operands. -/
theorem agrees_of_plain (known : n.type.isKnown = true)
    (given : ∀ {t}, n.kind.given? = some t → n.type = t ∧ n.overload = none)
    (plain : n.kind.isOperation = false)
    : n.Agrees widths := by
  obtain ⟨kind, type, overload⟩ := n
  cases kind with
  | unary | binary | ternary | call => cases plain
  | _ =>
      refine ⟨known, given, ?_, ?_, ?_, ?_, ?_⟩ <;>
        · intro impossible
          cases impossible

/-- A conversion keeps the width of its operand. -/
theorem agrees_conversion {x : NodeId} {t : DataType} {width : Nat} (known : t.isKnown = true)
    (keeps : t.width = width)
    : Node.Agrees ⟨.unary .typeConversion x, t, some 0⟩ [width] where
  known := known
  given impossible := by cases impossible
  selected _ := rfl
  inputs impossible := by cases impossible
  spread _ other member := .inr ((List.mem_singleton.mp member).trans keeps.symm)
  widest _ := by
    subst keeps
    exact (max_eq_left t.width_pos).symm
  cross impossible := by cases impossible

/-- An operation that has selected an overload for its operands, and has the width they broadcast
to. -/
theorem agrees_of_entry {overloads : List (List RegisterClass)} {expected : List RegisterClass}
    {i : Nat} (known : n.type.isKnown = true) (found : n.kind.inputs? = some overloads)
    (overload : n.overload = some i) (entry : overloads[i]? = some expected)
    (enough : widths.length ≤ expected.length) (broad : n.kind.broadcasts = true →
      (∀ width ∈ widths, width = 1 ∨ width = n.type.width) ∧ n.type.width = widths.foldr max 1)
    (cross : n.kind.isCross = true → n.type.width = 3)
    : n.Agrees widths where
  known := known
  given {t} given := by
    obtain ⟨kind, type, overload⟩ := n
    cases kind with
    | constant | input | output => cases found
    | _ => cases given
  selected _ := by rw [overload]; rfl
  inputs _ := by
    refine ⟨expected, ?_, enough⟩
    rw [inputs?, found, overload]
    exact entry
  spread broadcasts := (broad broadcasts).1
  widest broadcasts := (broad broadcasts).2
  cross := cross

end Node

namespace Graph

variable {g : Graph} {n : Node}

/-- A node of deduced type has no more operands than its overload takes. They give its width, as
those of the node from which it was deduced do. -/
theorem takes_deduced {inputs : List (List RegisterClass)} {i width : Nat}
    (found : n.kind.inputs? = some inputs)
    (resolved : n.kind.resolve? (n.children.map g.register) = some i)
    (broad : n.kind.width? i (n.children.map g.type) = some width)
    (overload : (g.infer n).2 = some i)
    : (g.deduced n).kind.inputs? = some inputs
      ∧ (g.deduced n).kind.width? i ((g.deduced n).children.map g.type) = some width
      ∧ ∃ expected, inputs[i]? = some expected ∧ (g.deduced n).children.length
        ≤ expected.length := by
  rw [Node.children]
  by_cases isCall : ∃ candidates arguments, n.kind = .call candidates arguments
  · obtain ⟨candidates, arguments, kind⟩ := isCall
    rw [Node.children, kind] at broad
    obtain ⟨f, entry, common⟩ := Option.bind_eq_some_iff.mp broad
    rw [kind_deduced_call kind, overload, Option.bind_some, entry]
    rw [kind] at found
    obtain rfl := Option.some.inj found
    refine ⟨rfl, ?_, f.inputs, by rw [List.getElem?_map, entry]; rfl, List.length_take_le _ _⟩
    rw [NodeKind.width?, entry, Option.bind_some, NodeKind.children, List.map_take,
      List.take_take, Nat.min_self]
    exact common
  · have noCall (candidates arguments) (kind : n.kind = .call candidates arguments) : False :=
      isCall ⟨candidates, arguments, kind⟩
    have requires : n.kind.requiresInputs = true := by
      rw [NodeKind.requiresInputs.eq_def]
      split
      next kind =>
        exact (noCall _ _ kind).elim
      · rfl
    rw [NodeKind.resolve?_eq_closest? found requires] at resolved
    obtain ⟨expected, entry, _⟩ := closest?_eq_some resolved
    rw [kind_deduced_of_ne noCall]
    exact ⟨found, broad, expected, entry, (NodeKind.length_inputs found noCall entry).ge⟩

theorem agrees_overloaded {inputs : List (List RegisterClass)}
    (found : n.kind.inputs? = some inputs) (known : (g.infer n).1.isKnown = true)
    : (g.deduced n).Agrees (g.widths (g.deduced n)) := by
  obtain ⟨i, width, resolved, broad, inferred⟩ := infer_known found known
  have type : (g.deduced n).type = .of (n.kind.resultAt i) width := congrArg Prod.fst inferred
  have overload : (g.deduced n).overload = some i := congrArg Prod.snd inferred
  obtain ⟨overloads, gives, expected, entry, enough⟩ := takes_deduced found resolved broad overload
  have common (broadcasts : (g.deduced n).kind.broadcasts = true)
      : DataType.broadcastWidth? ((g.deduced n).children.map g.type) = some
        (g.deduced n).type.width := by
    have common := broadcastWidth?_of_width? broadcasts overload length_deduced_le gives
    rw [type, DataType.of_broadcastWidth? _ common, common]
  refine Node.agrees_of_entry known overloads overload entry
    (by rwa [Graph.widths, List.length_map])
    (fun broadcasts => ⟨List.forall_mem_map.mpr fun child member => ?_, ?_⟩) fun isCross => ?_
  · exact DataType.width_of_broadcastWidth? (common broadcasts) _ (List.mem_map_of_mem member)
  · rw [DataType.broadcastWidth?_eq_foldr (common broadcasts), List.map_map]
    rfl
  · have three : width = 3 := by
      generalize (g.deduced n).kind = kind at isCross gives
      cases kind with
      | binary op x y =>
          obtain rfl : op = .cross := of_decide_eq_true isCross
          exact of_decide_eq_true (Option.filter_eq_some_iff.mp gives).2
      | _ => cases isCross
    rw [type, three]
    rfl

/-- A node of known type agrees with the operands that its type was deduced from. -/
theorem agrees_deduced (known : (g.deduced n).type.isKnown = true)
    : (g.deduced n).Agrees (g.widths (g.deduced n)) := by
  cases found : n.kind.inputs? with
  | some inputs => exact agrees_overloaded found known
  | none =>
      have plain : g.deduced n = ⟨n.kind, (g.infer n).1, (g.infer n).2⟩ := by
        rw [← kind_deduced_of_ne fun _ _ isCall => by simp [isCall, NodeKind.inputs?] at found]
        rfl
      rw [plain] at known ⊢
      obtain ⟨kind, type, overload⟩ := n
      cases kind with
      | unary op x =>
          obtain rfl : op = .typeConversion := by simpa [NodeKind.inputs?] using found
          exact Node.agrees_conversion known
            (DataType.width_of (g.type x).width_pos (g.type x).width_le_four)
      | constant | input | output =>
          exact Node.agrees_of_plain known (fun given => ⟨Option.some.inj given, rfl⟩) rfl
      | construct | swizzle =>
          exact Node.agrees_of_plain known (fun impossible => (by cases impossible)) rfl
      | binary | ternary | call => cases found

/-! ## Resolved nodes -/

variable {h : Graph} {id : NodeId}

theorem Resolved.of_slots (agrees : (g.node id).Agrees (g.widths (g.node id)))
    (fits : ∀ slot, Typing.SlotFits g id slot)
    (written : ∀ {decl e}, (g.node id).kind = .output decl e → g.type e = g.type id)
    : g.Resolved (g.node id) where
  agrees := agrees
  classes {expected slot child r} selected isOperand atSlot known := by
    obtain ⟨overloads, found, chosen⟩ := Option.bind_eq_some_iff.mp selected
    obtain ⟨i, overload, entry⟩ := Option.bind_eq_some_iff.mp chosen
    have asked := (expected?_eq_some found known).mpr ⟨i, expected, overload, entry, atSlot⟩
    exact fits slot child r isOperand asked known
  parts {arguments} kind child member := by
    obtain ⟨slot, atSlot⟩ := List.mem_iff_getElem?.mp member
    refine fits slot child _ ?_ ?_ agrees.known
    · rw [children, Node.children, kind]
      exact atSlot
    · simp only [expected?, kind]
  written := written

theorem Resolved.lt_size (resolved : g.Resolved (g.node id)) : id < g.size := by
  by_contra outside
  have known := resolved.agrees.known
  rw [node_of_size_le (Nat.le_of_not_lt outside)] at known
  cases known

theorem Resolved.of_types (resolved : g.Resolved n)
    (types : ∀ child ∈ n.children, h.type child = g.type child)
    : h.Resolved n := by
  have register {child} (member : child ∈ n.children) : h.register child = g.register child :=
    congrArg DataType.register (types child member)
  refine ⟨?_, fun {expected slot child r} selected isOperand atSlot known => ?_,
    fun {arguments} kind child member => ?_, fun {decl e} kind => ?_⟩
  · have widths : h.widths n = g.widths n :=
      List.map_congr_left fun child member => congrArg DataType.width (types child member)
    rw [widths]
    exact resolved.agrees
  · rw [register (List.mem_of_getElem? isOperand)]
    exact resolved.classes selected isOperand atSlot known
  · have isOperand : child ∈ n.children := by
      rw [Node.children, kind]
      exact member
    rw [register isOperand]
    exact resolved.parts kind child member
  · have isOperand : e ∈ n.children := by
      rw [Node.children, kind]
      exact List.mem_singleton_self e
    rw [types e isOperand]
    exact resolved.written kind

/-- A node that asks nothing of its operands. -/
theorem resolved_of_plain (known : n.type.isKnown = true)
    (given : ∀ {t}, n.kind.given? = some t → n.type = t ∧ n.overload = none)
    (plain : n.kind.isOperation = false) (noParts : ∀ arguments, n.kind ≠ .construct arguments)
    (written : ∀ {decl e}, n.kind = .output decl e → g.type e = n.type)
    : g.Resolved n where
  agrees := Node.agrees_of_plain known given plain
  classes {expected slot child r} selected := by
    obtain ⟨kind, type, overload⟩ := n
    cases kind with
    | unary | binary | ternary | call => cases plain
    | _ => cases selected
  parts {arguments} kind := (noParts arguments kind).elim
  written := written

theorem resolved_conversion {x : NodeId} {target : RegisterClass} (known : target.isKnown = true)
    : g.Resolved ⟨.unary .typeConversion x, (g.type x).withRegister target, some 0⟩ := by
  have width : ((g.type x).withRegister target).width = (g.type x).width :=
    DataType.width_of (g.type x).width_pos (g.type x).width_le_four
  refine ⟨Node.agrees_conversion known width, ?_, ?_, ?_⟩
  · intro expected slot child r impossible
    cases impossible
  · intro arguments impossible
    cases impossible
  · intro decl e impossible
    cases impossible

end Graph

/-! ## States -/

namespace Deduction

open Graph

/-- A graph while types are deduced. Nodes that are done are resolved and so are their operands. -/
structure State (base : Graph) where
  graph : Graph
  Done : NodeId → Prop
  grown : base.size ≤ graph.size
  outputs : graph.outputs = base.outputs
  resolved : ∀ {id}, Done id → graph.Resolved (graph.node id)
  operand : ∀ {id child}, Done id → child ∈ graph.children id → Done child

variable {base : Graph}

namespace State

theorem inside (s : State base) {id : NodeId} (done : s.Done id) : id < s.graph.size :=
  (s.resolved done).lt_size

/-- Add a node that is resolved over operands that are done. -/
def push (s : State base) (n : Node) (operands : ∀ child ∈ n.children, s.Done child)
    (resolved : s.graph.Resolved n)
    : State base where
  graph := s.graph.push n
  Done id := s.Done id ∨ id = s.graph.size
  grown := by
    rw [size_push]
    exact Nat.le_succ_of_le s.grown
  outputs := s.outputs
  resolved {id} done := by
    rcases done with done | rfl
    · rw [node_push_of_lt n (s.inside done)]
      exact (s.resolved done).of_types fun child member =>
        congrArg Node.type (node_push_of_lt n (s.inside (s.operand done member)))
    · rw [node_push_self]
      exact resolved.of_types fun child member =>
        congrArg Node.type (node_push_of_lt n (s.inside (operands child member)))
  operand {id child} done member := by
    rcases done with done | rfl
    · rw [children, node_push_of_lt n (s.inside done)] at member
      exact .inl (s.operand done member)
    · rw [children, node_push_self] at member
      exact .inl (operands child member)

/-- Change a node that is not done. -/
def amend (s : State base) (h : Graph) (id : NodeId) (undone : ¬ s.Done id)
    (size : h.size = s.graph.size) (outputs : h.outputs = s.graph.outputs)
    (others : ∀ other ≠ id, h.node other = s.graph.node other)
    : State base where
  graph := h
  Done := s.Done
  grown := size ▸ s.grown
  outputs := outputs.trans s.outputs
  resolved {other} done := by
    have kept {other} (done : s.Done other) : h.node other = s.graph.node other :=
      others other fun same => undone (same ▸ done)
    rw [kept done]
    exact (s.resolved done).of_types fun child member =>
      congrArg Node.type (kept (s.operand done member))
  operand {other child} done member := by
    rw [children, others other fun same => undone (same ▸ done)] at member
    exact s.operand done member

/-- Be done with a node. -/
def finish (s : State base) (id : NodeId) (resolved : s.graph.Resolved (s.graph.node id))
    (operands : ∀ child ∈ s.graph.children id, s.Done child)
    : State base where
  graph := s.graph
  Done other := s.Done other ∨ other = id
  grown := s.grown
  outputs := s.outputs
  resolved {other} done := by
    rcases done with done | rfl
    · exact s.resolved done
    · exact resolved
  operand {other child} done member := by
    rcases done with done | rfl
    · exact .inl (s.operand done member)
    · exact .inl (operands child member)

end State

/-- A later graph: what is done stays as it is, and nodes stay outputs. -/
structure Later (s t : State base) : Prop where
  size : s.graph.size ≤ t.graph.size
  isOutput : ∀ {id}, id < s.graph.size → t.graph.isOutput id = s.graph.isOutput id
  done : ∀ {id}, s.Done id → t.Done id
  node : ∀ {id}, s.Done id → t.graph.node id = s.graph.node id

def evolution (base : Graph) : Evolution Graph (State base) where
  view := State.graph
  Later := Later
  refl _ := ⟨Nat.le_refl _, fun _ => rfl, id, fun _ => rfl⟩
  trans first second :=
    ⟨Nat.le_trans first.size second.size,
      fun inside => (second.isOutput (Nat.lt_of_lt_of_le inside first.size)).trans
        (first.isOutput inside),
      fun done => second.done (first.done done),
      fun done => (second.node (first.done done)).trans (first.node done)⟩

/-! ## New operands -/

/-- A node whose turn has come: its operands are done and it is not. -/
structure Pending (s : State base) (id : NodeId) : Prop where
  inside : id < s.graph.size
  undone : ¬ s.Done id
  operands : ∀ child ∈ s.graph.children id, s.Done child

theorem Pending.differs {s : State base} {id child : NodeId}
    (pending : Pending s id) (done : s.Done child)
    : child ≠ id := fun same =>
  pending.undone (same ▸ done)

theorem Pending.placed {s : State base} {id : NodeId} (pending : Pending s id)
    : Typing.Placed s.graph id :=
  ⟨pending.inside, fun child member => s.inside (pending.operands child member)⟩

/-- Work on a pending node: it stays pending, and only new nodes are done with. -/
structure Advances (s t : State base) (id : NodeId) : Prop where
  later : Later s t
  pending : Pending t id
  done : ∀ {other}, other < s.graph.size → t.Done other → s.Done other

theorem Advances.trans {s t u : State base} {id : NodeId} (first : Advances s t id)
    (second : Advances t u id)
    : Advances s u id where
  later := (evolution base).trans first.later second.later
  pending := second.pending
  done inside isDone := first.done inside
    (second.done (Nat.lt_of_lt_of_le inside first.later.size) isDone)

/-- A new node that is resolved is put in the place of an operand. -/
theorem State.exists_replaced (s : State base) {id : NodeId} {n : Node} (pending : Pending s id)
    (slot : Nat) (resolved : s.graph.Resolved n) (operands : ∀ child ∈ n.children, s.Done child)
    : ∃ t : State base, t.graph = (s.graph.push n).setChild id slot s.graph.size
      ∧ Advances s t id := by
  have appends := appends_push s.graph n
  have undone : ¬ (s.push n operands resolved).Done id := fun done =>
    done.elim pending.undone (Nat.ne_of_lt pending.inside)
  have others (other) (differs : other ≠ id)
      : ((s.graph.push n).setChild id slot s.graph.size).node other
        = (s.graph.push n).node other := by
    rw [node_setChild, if_neg differs]
  have size : ((s.graph.push n).setChild id slot s.graph.size).size
    = (s.graph.push n).size := size_setChild ..
  refine ⟨(s.push n operands resolved).amend _ id undone size rfl others, rfl,
    ⟨size ▸ appends.size, fun {other} inside => ?_, .inl, fun done => ?_⟩,
    ⟨size ▸ Nat.lt_of_lt_of_le pending.inside appends.size, undone, fun child member => ?_⟩,
    fun inside done => done.resolve_right (Nat.ne_of_lt inside)⟩
  · exact (isOutput_setChild ..).trans (congrArg Node.isOutput (appends.node inside))
  · exact (others _ (pending.differs done)).trans (appends.node (s.inside done))
  · simp only [State.amend, Graph.children, node_setChild, if_true, Node.children_setChild,
      appends.node pending.inside] at member
    rcases List.mem_or_eq_of_mem_set member with before | rfl
    · exact .inl (pending.operands child before)
    · exact .inr rfl

/-- A converted operand has the width it had, so the node agrees with its operands still. -/
theorem State.exists_converted (s : State base) {id child : NodeId} {slot : Nat} {r : RegisterClass}
    {n : Node} (pending : Pending s id) (atSlot : (s.graph.children id)[slot]? = some child)
    (known : r.isKnown = true) (converts : Typing.Converts s.graph child r n)
    : ∃ t : State base,
        t.graph = (s.graph.push n).setChild id slot s.graph.size
        ∧ Advances s t id
        ∧ t.graph.widths (t.graph.node id) = s.graph.widths (s.graph.node id) := by
  have done := pending.operands child (List.mem_of_getElem? atSlot)
  obtain ⟨resolved, operands, width⟩ : s.graph.Resolved n
      ∧ (∀ child ∈ n.children, s.Done child)
      ∧ n.type.width = (s.graph.type child).width := by
    cases converts with
    | constant found converts =>
        obtain rfl := Value.register_of_convert? converts
        have scalar : s.graph.type child = _ :=
          ((s.resolved done).agrees.given (congrArg NodeKind.given? (kind_of_value? found))).1
        exact ⟨resolved_of_plain known (fun given => ⟨Option.some.inj given, rfl⟩) rfl
          (fun _ impossible => (by cases impossible)) fun impossible => (by cases impossible),
          fun _ member => (by cases member), by rw [scalar]; rfl⟩
    | conversion =>
        exact ⟨resolved_conversion known, fun other member => List.mem_singleton.mp member ▸ done,
        DataType.width_of (s.graph.type child).width_pos (s.graph.type child).width_le_four⟩
  obtain ⟨t, graph, advances⟩ := s.exists_replaced pending slot resolved operands
  have appends := appends_push s.graph n
  have widthOf (other) (inside : other < s.graph.size)
    : (t.graph.type other).width = (s.graph.type other).width := by
    rw [graph, type_setChild, Graph.type, appends.node inside, Graph.type]
  refine ⟨t, graph, advances, ?_⟩
  have node : t.graph.node id = (s.graph.node id).setChild slot s.graph.size := by
    rw [graph, node_setChild, if_pos rfl, appends.node pending.inside]
  rw [node, Graph.widths, Node.children_setChild]
  refine (map_set_of_eq atSlot ?_).trans (List.map_congr_left fun other member =>
    widthOf other (pending.placed.operands other member))
  rw [widthOf child (s.inside done), graph, type_setChild, Graph.type, node_push_self, width]

/-- A cut or padded expression is resolved. -/
theorem resolved_of_adapts {g : Graph} {e : NodeId} {target : DataType} {n : Node}
    (known : target.isKnown = true) (register : g.register e = target.register)
    (adapts : Typing.Adapts g e target n)
    : g.Resolved n ∧ n.children = [e] := by
  cases adapts with
  | cut => exact ⟨resolved_of_plain known (fun impossible => (by cases impossible)) rfl
      (fun _ impossible => (by cases impossible)) fun impossible => (by cases impossible), rfl⟩
  | padded =>
      refine ⟨⟨Node.agrees_of_plain known (fun impossible => (by cases impossible)) rfl,
        fun impossible => (by cases impossible), fun kind child member => ?_, fun impossible =>
          (by cases impossible)⟩, rfl⟩
      cases kind
      rw [List.mem_singleton.mp member]
      exact register

/-- While operands are put in the place of others, the node agrees with them. -/
theorem State.exists_amended (s : State base) {id : NodeId} {h : Graph} (pending : Pending s id)
    (agrees : (s.graph.node id).Agrees (s.graph.widths (s.graph.node id)))
    (amends : Relation.ReflTransGen (Typing.Amends id) s.graph h)
    : ∃ t : State base, t.graph = h ∧ Advances s t id ∧ (t.graph.node id).Agrees
      (t.graph.widths (t.graph.node id)) := by
  induction amends with
  | refl => exact ⟨s, rfl, ⟨(evolution base).refl s, pending, fun _ isDone => isDone⟩, agrees⟩
  | tail _ amends ih =>
      obtain ⟨t, rfl, advances, agrees⟩ := ih
      have outline := (amends.amended advances.pending.placed).outline
      cases amends with
      | converted atSlot _ known _ converts =>
          obtain ⟨u, graph, further, widths⟩ :=
            t.exists_converted advances.pending atSlot known converts
          rw [← graph] at outline
          exact ⟨u, graph, advances.trans further, widths ▸ agrees.of_outline outline⟩
      | adapted kind known register _ adapts =>
          obtain ⟨resolved, only⟩ := resolved_of_adapts known register adapts
          obtain ⟨u, graph, further⟩ := t.exists_replaced advances.pending 0 resolved
            fun child member =>
            advances.pending.operands child
            (by rw [Graph.children, Node.children, kind]; exact (only ▸ member :))
          rw [← graph] at outline
          exact ⟨u, graph, advances.trans further,
            (Node.agrees_of_plain agrees.known agrees.given (by rw [kind]; rfl)).of_outline outline⟩

/-! ## The pass -/

/-- A node that was handed to a step is done, and no other one is. -/
structure Stepped (s t : State base) (id new : NodeId) : Prop where
  same : new = id
  done : t.Done id
  spent : ∀ {other}, other < s.graph.size → t.Done other → s.Done other ∨ other = id
  node : ∀ {other}, other < s.graph.size → other ≠ id → t.graph.node other = s.graph.node other

theorem State.runs_step (s : State base) {id : NodeId} (pending : Pending s id)
    : (evolution base).Runs True s (Typing.step id) fun new t => Stepped s t id new := by
  have size : (s.graph.deduce id).size = s.graph.size := s.graph.size_replace id _
  have own : (s.graph.deduce id).node id = s.graph.deduced (s.graph.node id) := by
    rw [deduce, node_replace _ _ pending.inside, if_pos rfl]
  have others (other) (differs : other ≠ id)
    : (s.graph.deduce id).node other = s.graph.node other := by
    rw [deduce, node_replace _ _ pending.inside, if_neg differs]
  have operands (child) (member : child ∈ (s.graph.deduce id).children id) : s.Done child := by
    rw [Graph.children, own] at member
    exact pending.operands child (mem_children_of_deduced member)
  let deduced := s.amend (s.graph.deduce id) id pending.undone size rfl others
  have pendingDeduced : Pending deduced id := ⟨size ▸ pending.inside, pending.undone, operands⟩
  rcases Typing.step_eq s.graph id pendingDeduced.placed with ⟨_, e, failed⟩ | ⟨h, ran, stepped⟩
  · exact .of_error failed trivial
  · have agrees : (deduced.graph.node id).Agrees
      (deduced.graph.widths (deduced.graph.node id)) := by
      have widths : deduced.graph.widths (deduced.graph.node id) = s.graph.widths
        (deduced.graph.node id) := List.map_congr_left fun child member =>
          congrArg (DataType.width ∘ Node.type)
            (others child (pending.differs (operands child member)))
      rw [widths, show deduced.graph.node id = _ from own]
      exact agrees_deduced (by rw [← own]; exact stepped.known)
    obtain ⟨t, rfl, advances, agrees⟩ := deduced.exists_amended pendingDeduced agrees stepped.amends
    have inDeduced {other} (inside : other < s.graph.size)
      : other < deduced.graph.size := size ▸ inside
    refine .of_ok (a := id) (t := t.finish id (.of_slots agrees stepped.fits stepped.written)
      advances.pending.operands) ran ⟨size ▸ advances.later.size, fun {other} inside => ?_,
      fun done => .inl (advances.later.done done), fun done => ?_⟩
        ⟨rfl, .inr rfl, fun inside done => done.imp_left (advances.done (inDeduced inside)),
          fun inside differs => ?_⟩
    · rw [show (t.finish id _ _).graph.isOutput other
        = _ from advances.later.isOutput (inDeduced inside)]
      by_cases same : other = id
      · rw [same]
        exact (congrArg Node.isOutput own).trans (isOutput_deduced _ _)
      · exact congrArg Node.isOutput (others other same)
    · exact (advances.later.node done).trans (others _ (pending.differs done))
    · exact (stepped.amended.node (inDeduced inside) differs).trans (others _ differs)

/-- A step leaves an output that is done as it is. -/
theorem State.step_of_done (s : State base) {id : NodeId} (done : s.Done id)
    (isOutput : s.graph.isOutput id = true)
    : Typing.step id s.graph = .ok id s.graph := by
  have resolved := s.resolved done
  obtain ⟨decl, e, kind⟩ : ∃ decl e, (s.graph.node id).kind = .output decl e := by
    rw [Graph.isOutput, Node.isOutput] at isOutput
    split at isOutput
    next decl e kind =>
      exact ⟨decl, e, kind⟩
    · cases isOutput
  have given := resolved.agrees.given (congrArg NodeKind.given? kind)
  refine Typing.step_of_fit ?_ ⟨resolved.agrees.known, fun {slot child r} atSlot asked _ => ?_,
    fun {decl e} kind => ?_⟩
    fun child member => s.inside (s.operand done member)
  · rw [deduce, deduced_eq_self, replace_self]
    · simp only [infer, kind, given]
    · simp [Node.function?, kind]
  · simp only [expected?, kind, Option.some.injEq] at asked
    rw [Graph.children, Node.children, kind] at atSlot
    rw [← asked, List.mem_singleton.mp (List.mem_of_getElem? atSlot)]
    exact congrArg DataType.register (resolved.written kind)
  · exact congrArg DataType.width (resolved.written kind)

/-- What the pass keeps up: nodes that are done stay so, and are spent unless they are outputs. -/
def invariant (insideAll : ∀ id, base.Reachable id → id < base.size)
    : Pass.Invariant Unit (State base) :=
  .inPlace (evolution base) base.Reachable State.Done
    (fun s id => base.Reachable id ∧ s.Done id ∧ s.graph.isOutput id = false)
    (fun later => later.done)
    fun {s _ id} later reachable => later.isOutput
      (Nat.lt_of_lt_of_le (insideAll id reachable) s.grown)

/-- A node is taken up once, when its operands are done. An output that is done may be handed over
again. -/
theorem completes_step (insideAll : ∀ id, base.Reachable id → id < base.size)
    : (invariant insideAll).Completes True (Transform.ofEdit Typing.step) := by
  intro s id reachable unspent due
  by_cases done : s.Done id
  · have isOutput : s.graph.isOutput id = true := by
      by_contra noOutput
      exact noOutput (unspent ⟨reachable, done, Bool.eq_false_of_not_eq_true noOutput⟩)
    exact .ofEdit (.of_ok (t := s) (s.step_of_done done isOutput) ((evolution base).refl s)
      ⟨⟨rfl, reachable⟩, done, fun _ => .inr trivial, .inr done,
        fun _ _ _ => rfl, rfl, fun _ => .inl⟩)
  · have inside {other} (reachable : base.Reachable other) : other < s.graph.size :=
      Nat.lt_of_lt_of_le (insideAll other reachable) s.grown
    refine .imp (.ofEdit (s.runs_step ⟨inside reachable, done, due.resolve_right done⟩))
      fun new t later stepped => ?_
    obtain rfl := stepped.same
    refine ⟨⟨rfl, reachable⟩, stepped.done, fun _ => .inr trivial, .inr stepped.done,
      fun other isLive differs => congrArg Node.children (stepped.node (inside isLive) differs),
      t.outputs.trans s.outputs.symm, ?_⟩
    rintro other ⟨isLive, isDone, noOutput⟩
    rw [later.isOutput (inside isLive)] at noOutput
    exact (stepped.spent (inside isLive) isDone).imp (⟨isLive, ·, noOutput⟩) fun same =>
      ⟨same, same ▸ noOutput⟩

end Deduction

/-- Type deduction resolves the types of all nodes. In the graph that it leaves, every reachable
node has a known type and a selected overload, operands of the classes that it asks for and of
widths that agree with its own, and every output has an expression of its own type. -/
theorem typing_resolves_types {g h : Graph} (acyclic : g.Acyclic)
    (inside : ∀ id, g.Reachable id → id < g.size) (accepted : Compiler.typing g = .ok () h)
    : h.outputs = g.outputs ∧ ∀ id, h.Reachable id → h.Resolved (h.node id) := by
  -- Nothing is done when the pass starts.
  let start : Deduction.State g := ⟨g, fun _ => False, Nat.le_refl _, rfl, False.elim, False.elim⟩
  have runs : (Deduction.evolution g).Runs True start Compiler.typing fun _ t =>
      (∀ id, g.Reachable id → t.Done id) ∧ t.graph.outputs = g.outputs :=
    (Deduction.completes_step inside).runs_inPlace acyclic (fun _ reachable => reachable)
    fun _ spent => spent.2.1
  obtain ⟨t, rfl, _, done, outputs⟩ := runs.state_of_ok accepted
  refine ⟨outputs, fun id reachable => t.resolved ?_⟩
  obtain ⟨root, isRoot, path⟩ := reachable
  induction path with
  | refl => exact done root (.root (outputs ▸ isRoot))
  | tail _ uses ih => exact t.operand ih uses

/-- An untyped graph: an integer sum that a float product and an output of four components share, a
call with a spare argument, and an output that is cut. -/
def untypedSum : Graph :=
  let g := (Graph.empty.declareInput ⟨"n", .scalarOf .int⟩).declareInput ⟨"v", .of .float 3⟩
  let g := (g.pushConstant (.int 2)).push (.ofKind (.binary .add 0 2) .unknown)
  let g := g.push (.ofKind (.binary .multiply 3 1) .unknown)
  let g := g.push (.ofKind (.call [.ofInputs "f" [.float] .float] [4, 0]) .unknown)
  let g := g.push (.ofKind (.binary .cross 5 1) .unknown)
  (g.declareOutput ⟨"cut", .of .float 2⟩ 6).declareOutput ⟨"wide", .of .float 4⟩ 3

theorem typing_resolves_types_untypedSum
    : untypedSum.Acyclic
      ∧ (∀ id, untypedSum.Reachable id → id < untypedSum.size)
      ∧ ∃ h,
          Compiler.typing untypedSum = .ok () h
          ∧ h.size = 13
          ∧ h.outputs = untypedSum.outputs
          ∧ ∀ id, h.Reachable id → h.Resolved (h.node id) := by
  have acyclic : untypedSum.Acyclic := Graph.acyclic_of_lt (by decide +kernel)
  have enclosed : untypedSum.Enclosed := by decide +kernel
  have inside (id) (reachable : untypedSum.Reachable id) := enclosed.lt_size reachable
  exact ⟨acyclic, inside, _, rfl, by decide +kernel, typing_resolves_types acyclic inside rfl⟩

end StreamExpr
